import Hypersnap.Storage.Db

/-!
# `Trie.Node` — the nodes of the merkle trie and their recursive operations

The model of `trie_node.rs`. A node counts the keys below it, maps nibbles to children (in memory, or
`serialized` and still to be read from the database) and caches the hashes of its children. The first
`uncompactedLength` levels always branch nibble by nibble; below them a subtree with one key is a single
leaf.

`insert` and `delete` thread the node itself, the **parent's** `child_hashes` (where a node's own hash is
cached) and the write batch through the recursion. They return all three also when they fail, since the
source mutates in place and a `?` leaves what was done so far. A recursive call descends one nibble of the
key, so `fuel` is only a bound on the depth.
-/

namespace Hypersnap

open Overlay

/-- Errors of the trie; `panic` stands for a panic of the source, `outOfFuel` for the model's own bound. -/
inductive TrieError where
  | childNotFound (char : UInt8) (pfx : Bytes)
  | deserializationError
  | trieNotInitialized
  | noKeysToInsert
  | keyLengthExceeded
  | unableToReloadRoot
  | keyLengthTooShort
  | invalidPageToken (token : String)
  | invalidState (reason : String)
  | nodeNotFound (path : Bytes)
  | tokenDecodeError (reason : String)
  | panic (reason : String)
  | outOfFuel
deriving DecidableEq, Repr

/-- A child of a node: in memory, or still in the database. -/
inductive TrieNodeType (Node : Type) where
  | node (n : Node)
  | serialized

structure TrieNode where
  items : Nat
  children : UInt8 → Option (TrieNodeType TrieNode)
  childHashes : ByteMap Bytes
  key : Option Bytes

/-- Depth (in nibbles) from which subtrees with one key are compacted into a leaf. -/
def uncompactedLength : Nat := 12

namespace TrieNode

def new : TrieNode := ⟨0, ByteMap.empty, ByteMap.empty, none⟩

/-- Database key of the node at path `pfx`, or of its child `childChar`. -/
def makePrimaryKey (pfx : Bytes) (childChar : Option UInt8) : Bytes :=
  RootPrefix.merkleTrieNode.toByte :: pfx ++ childChar.toList

def serialize (n : TrieNode) : DbTrieNode :=
  ⟨n.key.getD [], ByteMap.chars n.children, n.items.toUInt32, n.childHashes⟩

/-- The node of a stored record: every child is still in the database. -/
def ofRecord (r : DbTrieNode) : TrieNode :=
  { items := r.items.toNat
    children := fun c => if c ∈ r.childChars then some .serialized else none
    childHashes := r.childHashes
    key := if r.key.isEmpty then none else some r.key }

def deserialize : DbValue → Except TrieError TrieNode
  | .trieNode r => .ok (ofRecord r)
  | _ => .error .deserializationError

def isLeaf (n : TrieNode) : Bool := ByteMap.isEmpty n.children

/-- The cached child hashes, concatenated in the order of their nibbles. -/
def concatHashes (hs : ByteMap Bytes) : Bytes := hs.chars.flatMap fun c => (hs c).getD []

/-- Merkle hash: of the key in a leaf, of the children's hashes above. (A leaf with an empty key is a panic
    in the source; no operation builds one.) -/
def hash [Blake3] (n : TrieNode) : Bytes :=
  if n.isLeaf then
    match n.key with
    | none => []
    | some key => blake3_20 key
  else if n.childHashes.isEmpty then []
  else blake3_20 (concatHashes n.childHashes)

/-- The child at `char`, read from the database if it is not in memory. A child the database does not
    have is an empty node. -/
def getOrLoadChild (db : RocksDB) (n : TrieNode) (pfx : Bytes) (char : UInt8) :
    Except TrieError TrieNode :=
  match n.children char with
  | some (.node child) => .ok child
  | some .serialized =>
    match db (makePrimaryKey pfx (some char)) with
    | none => .ok new
    | some v =>
      match deserialize v with
      | .ok child => .ok child
      | .error _ => .error (.panic "called Result::unwrap() on an Err value")
  | none => .error (.childNotFound char pfx)

/-- Store the node's hash in its parent's map (the root has no parent and no prefix). -/
def updateHash [Blake3] (n : TrieNode) (childHashes : ByteMap Bytes) (pfx : Bytes) : ByteMap Bytes :=
  match pfx.getLast? with
  | none => childHashes
  | some char =>
    if n.hash.isEmpty then childHashes.remove char else childHashes.insert char n.hash

def putToTxn (n : TrieNode) (txn : RocksDbTransactionBatch) (pfx : Bytes) : RocksDbTransactionBatch :=
  txn.put (makePrimaryKey pfx none) (.trieNode n.serialize)

def deleteToTxn (txn : RocksDbTransactionBatch) (pfx : Bytes) : RocksDbTransactionBatch :=
  txn.delete (makePrimaryKey pfx none)

/-- What an operation on a node leaves behind: the node, its parent's `child_hashes`, the batch, and the
    result. -/
structure Outcome (α : Type) where
  node : TrieNode
  childHashes : ByteMap Bytes
  txn : RocksDbTransactionBatch
  result : Except TrieError α

/-- A bulk operation on a node: parent hashes, batch, keys, current index. -/
abbrev NodeOp := TrieNode → ByteMap Bytes → RocksDbTransactionBatch → List Bytes → Nat → Outcome (List Bool)

/-! ## Insertion -/

/-- Turn a leaf into an inner node: its key moves into a fresh child one level down. `insert` is the
    recursive call. -/
def splitLeafNode [Blake3] (insert : NodeOp) (self : TrieNode) (txn : RocksDbTransactionBatch)
    (currentIndex : Nat) : TrieNode × RocksDbTransactionBatch × Except TrieError Unit :=
  match self.key with
  | none => (self, txn, .error (.panic "called Option::unwrap() on a None value"))
  | some key =>
    match key[currentIndex]? with
    | none => ({ self with key := none }, txn, .error (.panic "index out of bounds"))
    | some newChildChar =>
      let out := insert new self.childHashes txn [key] (currentIndex + 1)
      let children := ByteMap.insert self.children newChildChar (.node out.node)
      match out.result with
      | .error e => (⟨self.items, children, .empty, none⟩, out.txn, .error e)
      | .ok _ =>
        let self := ⟨self.items, children, out.childHashes.insert newChildChar out.node.hash, none⟩
        (self, self.putToTxn out.txn (key.take currentIndex), .ok ())

/-- `grouped_keys`: the keys (with their positions in the call) by the nibble they branch to at `index`. -/
def groupedKeys (keys : List (Nat × Bytes)) (index : Nat) : ByteMap (List (Nat × Bytes)) := fun char =>
  match keys.filter fun ik => ik.2[index]? = some char with
  | [] => none
  | group => some group

/-- Write the results of one group back to the positions of its keys. -/
def scatter (results : List Bool) (group : List (Nat × Bytes)) (childResults : List Bool) : List Bool :=
  (group.zip childResults).foldl (fun rs x => rs.set x.1.1 x.2) results

/-- The state of the loop over the groups: the node, the batch, the results so far and the number of
    keys that changed the trie. -/
structure GroupLoop where
  node : TrieNode
  txn : RocksDbTransactionBatch
  results : List Bool
  successes : Nat

/-- Create the child at `char` if it is missing. -/
def ensureChild (n : TrieNode) (char : UInt8) : TrieNode :=
  match n.children char with
  | some _ => n
  | none => { n with children := ByteMap.insert n.children char (.node new) }

/-- One group of `insert`: create the child if it is missing and recurse into it. The node's own
    `child_hashes` are taken out for the call and put back only if it succeeds. -/
def insertGroup (insert : NodeOp) (db : RocksDB) (pfx : Bytes) (currentIndex : Nat) (s : GroupLoop)
    (char : UInt8) (group : List (Nat × Bytes)) : GroupLoop × Option TrieError :=
  let self := s.node.ensureChild char
  match getOrLoadChild db self pfx char with
  | .error e => ({ s with node := { self with childHashes := .empty } }, some e)
  | .ok child =>
    let out := insert child self.childHashes s.txn (group.map (·.2)) (currentIndex + 1)
    let children := ByteMap.insert self.children char (.node out.node)
    match out.result with
    | .error e =>
      ({ s with node := { self with children := children, childHashes := .empty }, txn := out.txn },
        some e)
    | .ok childResults =>
      ({ node := { self with children := children, childHashes := out.childHashes }
         txn := out.txn
         results := scatter s.results group childResults
         successes := s.successes + (group.zip childResults).countP (·.2) }, none)

/-- Run `step` over the groups, stopping at the first error. (The source iterates a hash map; the model
    fixes the increasing order of the nibbles.) -/
def forGroups (step : GroupLoop → UInt8 → List (Nat × Bytes) → GroupLoop × Option TrieError) :
    List (UInt8 × List (Nat × Bytes)) → GroupLoop → GroupLoop × Option TrieError
  | [], s => (s, none)
  | (char, group) :: gs, s =>
    match step s char group with
    | (s, some e) => (s, some e)
    | (s, none) => forGroups step gs s

/-- What follows the loop over the groups: the error it stopped at, or the rest of the operation. -/
def afterGroups (childHashes : ByteMap Bytes) (finish : GroupLoop → Outcome (List Bool)) :
    GroupLoop × Option TrieError → Outcome (List Bool)
  | (s, some e) => ⟨s.node, childHashes, s.txn, .error e⟩
  | (s, none) => finish s

/-- The end of `insert`: count the new keys and write the node, if there are any. -/
def insertFinish [Blake3] (pfx : Bytes) (childHashes : ByteMap Bytes) (s : GroupLoop) : Outcome (List Bool) :=
  if 0 < s.successes then
    let self := { s.node with items := s.node.items + s.successes }
    ⟨self, self.updateHash childHashes pfx, self.putToTxn s.txn pfx, .ok s.results⟩
  else ⟨s.node, childHashes, s.txn, .ok s.results⟩

/-- The part of `insert` below the leaf case: distribute the remaining keys over the children. -/
def insertBelow [Blake3] (insert : NodeOp) (db : RocksDB) (pfx : Bytes) (self : TrieNode)
    (childHashes : ByteMap Bytes) (txn : RocksDbTransactionBatch) (results : List Bool)
    (remainingKeys : List (Nat × Bytes)) (currentIndex : Nat) : Outcome (List Bool) :=
  if remainingKeys.any fun ik => ik.2.length ≤ currentIndex then
    ⟨self, childHashes, txn, .error .keyLengthExceeded⟩
  else
    afterGroups childHashes (insertFinish pfx childHashes)
      (forGroups (insertGroup insert db pfx currentIndex) (groupedKeys remainingKeys currentIndex).entries
        ⟨self, txn, results, 0⟩)

/-- The leaf case of `insert`, once the leaf holds a key: split it for the keys that differ from its own.
    `offset` is 1 when a key was popped before, so that positions count from the next one. -/
def insertLeaf [Blake3] (insert : NodeOp) (db : RocksDB) (pfx : Bytes) (self : TrieNode)
    (childHashes : ByteMap Bytes) (txn : RocksDbTransactionBatch) (results : List Bool) (keys : List Bytes)
    (offset currentIndex : Nat) : Outcome (List Bool) :=
  if keys.isEmpty then ⟨self, childHashes, txn, .ok results⟩
  else
    let remainingKeys := (keys.zipIdx offset).filterMap fun ki =>
      if bytesCompare (self.key.getD []) ki.1 = .eq then none else some (ki.2, ki.1)
    if remainingKeys.isEmpty then ⟨self, childHashes, txn, .ok results⟩
    else
      match splitLeafNode insert self txn currentIndex with
      | (self, txn, .error e) => ⟨self, childHashes, txn, .error e⟩
      | (self, txn, .ok _) =>
        insertBelow insert db pfx self childHashes txn results remainingKeys currentIndex

/-- One level of `insert`; `insert` is the recursive call. -/
def insertStep [Blake3] (db : RocksDB) (insert : NodeOp) : NodeOp :=
  fun self childHashes txn keys currentIndex =>
    match keys with
    | [] => ⟨self, childHashes, txn, .error .noKeysToInsert⟩
    | key₀ :: _ =>
      let pfx := key₀.take currentIndex
      let results := keys.map fun _ => false
      if uncompactedLength ≤ currentIndex && self.isLeaf then
        match self.key with
        | some _ => insertLeaf insert db pfx self childHashes txn results keys 0 currentIndex
        | none =>
          -- the leaf is empty: it takes the last key, and the first result is reported as inserted
          let key := keys.getLastD []
          if key.isEmpty then ⟨self, childHashes, txn, .error (.panic "empty key found on leaf node")⟩
          else
            let self := { self with key := some key, items := self.items + 1 }
            insertLeaf insert db pfx self (self.updateHash childHashes pfx) (self.putToTxn txn pfx)
              (results.set 0 true) keys.dropLast 1 currentIndex
      else
        insertBelow insert db pfx self childHashes txn results (keys.zipIdx.map fun ki => (ki.2, ki.1))
          currentIndex

def insert [Blake3] (db : RocksDB) : Nat → NodeOp
  | 0 => fun self childHashes txn _ _ => ⟨self, childHashes, txn, .error .outOfFuel⟩
  | fuel + 1 => insertStep db (insert db fuel)

/-! ## Deletion -/

/-- One group of `delete`: recurse into the child if there is one, and drop it if it became empty. -/
def deleteGroup (delete : NodeOp) (db : RocksDB) (pfx : Bytes) (currentIndex : Nat) (s : GroupLoop)
    (char : UInt8) (group : List (Nat × Bytes)) : GroupLoop × Option TrieError :=
  if (s.node.children char).isNone then
    ({ s with results := scatter s.results group (group.map fun _ => false) }, none)
  else
    match getOrLoadChild db s.node pfx char with
    | .error e => ({ s with node := { s.node with childHashes := .empty } }, some e)
    | .ok child =>
      let out := delete child s.node.childHashes s.txn (group.map (·.2)) (currentIndex + 1)
      let children := ByteMap.insert s.node.children char (.node out.node)
      match out.result with
      | .error e =>
        ({ s with node := { s.node with children := children, childHashes := .empty }, txn := out.txn },
          some e)
      | .ok childResults =>
        let node := { s.node with children := children, childHashes := out.childHashes }
        let node :=
          if out.node.items = 0 then
            { node with children := ByteMap.remove node.children char
                        childHashes := node.childHashes.remove char }
          else node
        ({ node := node
           txn := out.txn
           results := scatter s.results group childResults
           successes := s.successes + (group.zip childResults).countP (·.2) }, none)

/-- Compaction: an inner node whose only child is a leaf takes over the leaf's key. The child is deleted
    from the batch under `make_primary_key` of the **database key** of the child, as the source has it. The
    cached hash of the child stays in `child_hashes`. -/
def compact (db : RocksDB) (self : TrieNode) (pfx : Bytes) (txn : RocksDbTransactionBatch) :
    TrieNode × RocksDbTransactionBatch × Option TrieError :=
  match ByteMap.chars self.children with
  | [] => (self, txn, some (.panic "called Option::unwrap() on a None value"))
  | char :: _ =>
    match getOrLoadChild db self pfx char with
    | .error e => (self, txn, some e)
    | .ok child =>
      match child.key with
      | none => ({ self with children := ByteMap.insert self.children char (.node child) }, txn, none)
      | some newKey =>
        ({ self with key := some newKey, children := ByteMap.remove self.children char },
          deleteToTxn txn (makePrimaryKey pfx (some char)), none)

/-- The inner case of `delete`, after the loop over the groups. -/
def deleteFinish [Blake3] (db : RocksDB) (pfx : Bytes) (childHashes : ByteMap Bytes) (currentIndex : Nat)
    (s : GroupLoop) : Outcome (List Bool) :=
  if 0 < s.successes then
    let self := { s.node with items := s.node.items - s.successes }
    if self.items = 0 then
      ⟨self, self.updateHash childHashes pfx, deleteToTxn s.txn pfx, .ok s.results⟩
    else if self.items = 1 ∧ ByteMap.len self.children = 1 ∧ uncompactedLength ≤ currentIndex then
      match compact db self pfx s.txn with
      | (self, txn, some e) => ⟨self, childHashes, txn, .error e⟩
      | (self, txn, none) =>
        ⟨self, self.updateHash childHashes pfx, self.putToTxn txn pfx, .ok s.results⟩
    else ⟨self, self.updateHash childHashes pfx, self.putToTxn s.txn pfx, .ok s.results⟩
  else ⟨s.node, childHashes, s.txn, .ok s.results⟩

/-- One level of `delete`; `delete` is the recursive call. -/
def deleteStep [Blake3] (db : RocksDB) (delete : NodeOp) : NodeOp :=
  fun self childHashes txn keys currentIndex =>
    match keys with
    | [] => ⟨self, childHashes, txn, .error (.panic "index out of bounds")⟩
    | key₀ :: _ =>
      let pfx := key₀.take currentIndex
      let results := keys.map fun _ => false
      if self.isLeaf then
        match keys.findIdx? fun key => bytesCompare (self.key.getD []) key = .eq with
        | none => ⟨self, childHashes, txn, .ok results⟩
        | some i =>
          let self := { self with key := none, items := self.items - 1 }
          ⟨self, self.updateHash childHashes pfx, deleteToTxn txn pfx, .ok (results.set i true)⟩
      else if keys.any fun key => key.length ≤ currentIndex then
        ⟨self, childHashes, txn, .error .keyLengthExceeded⟩
      else
        afterGroups childHashes (deleteFinish db pfx childHashes currentIndex)
          (forGroups (deleteGroup delete db pfx currentIndex)
            (groupedKeys (keys.zipIdx.map fun ki => (ki.2, ki.1)) currentIndex).entries
              ⟨self, txn, results, 0⟩)

def delete [Blake3] (db : RocksDB) : Nat → NodeOp
  | 0 => fun self childHashes txn _ _ => ⟨self, childHashes, txn, .error .outOfFuel⟩
  | fuel + 1 => deleteStep db (delete db fuel)

/-! ## Reading and eviction -/

/-- `TrieNode::exists`. Children it passes through are left in memory. -/
def existsAt (db : RocksDB) : Nat → TrieNode → Bytes → Nat → TrieNode × Except TrieError Bool
  | 0, self, _, _ => (self, .error .outOfFuel)
  | fuel + 1, self, key, currentIndex =>
    if self.isLeaf then (self, .ok (bytesCompare (self.key.getD []) key = .eq))
    else
      match key[currentIndex]? with
      | none => (self, .ok false)
      | some char =>
        if (self.children char).isNone then (self, .ok false)
        else
          match getOrLoadChild db self (key.take currentIndex) char with
          | .error e => (self, .error e)
          | .ok child =>
            let (child, found) := existsAt db fuel child key (currentIndex + 1)
            ({ self with children := ByteMap.insert self.children char (.node child) }, found)

/-- `TrieNode::get_node_from_trie`: the node at path `pfx ++ rest`, where `self` is the node at `pfx`. -/
def getNodeFromTrie (db : RocksDB) (self : TrieNode) (pfx : Bytes) : Bytes → Option TrieNode
  | [] => some self
  | char :: rest =>
    match getOrLoadChild db self pfx char with
    | .error _ => none
    | .ok child => getNodeFromTrie db child (pfx ++ [char]) rest

mutual

/-- `TrieNode::evict_stale_children`: drop from memory every child that `stale` selects by its path (in the
    source: whose last access is too long ago), and recurse into the others. -/
def evictStaleChildren (stale : Bytes → Bool) (pfx : Bytes) : TrieNode → TrieNode
  | ⟨items, children, childHashes, key⟩ =>
    ⟨items, fun char => evictChild stale (pfx ++ [char]) (children char), childHashes, key⟩
termination_by structural n => n

def evictChild (stale : Bytes → Bool) (path : Bytes) :
    Option (TrieNodeType TrieNode) → Option (TrieNodeType TrieNode)
  | none => none
  | some child => some (evictNode stale path child)
termination_by structural c => c

def evictNode (stale : Bytes → Bool) (path : Bytes) : TrieNodeType TrieNode → TrieNodeType TrieNode
  | .serialized => .serialized
  | .node n => if stale path then .serialized else .node (evictStaleChildren stale path n)
termination_by structural c => c

end

end TrieNode
end Hypersnap
