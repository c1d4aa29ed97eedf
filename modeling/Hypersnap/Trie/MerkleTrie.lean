import Hypersnap.Trie.Node

/-!
# `Trie.MerkleTrie` — the merkle trie over byte-string keys

The model of `merkle_trie.rs`: the trie is an optional root node (absent before `initializeTrie`), keys are
expanded into nibbles before they reach the nodes, and the writes of one call go through a batch of their
own that is merged into the caller's batch only if the call succeeds. `getHash` and `getCount` do not walk
the tree: they look a node up by its path in the caller's batch and then in the database.
-/

namespace Hypersnap

open Overlay

/-- Each byte as its two nibbles, high one first. -/
def expandNibbles (input : Bytes) : Bytes := input.flatMap fun byte : UInt8 => [byte >>> 4, byte &&& 0x0F]

structure MerkleTrie where
  root : Option TrieNode

namespace MerkleTrie

def new : MerkleTrie := ⟨none⟩

def loadRoot (db : RocksDB) : Except TrieError (Option TrieNode) :=
  match db (TrieNode.makePrimaryKey [] none) with
  | none => .ok none
  | some v => (TrieNode.deserialize v).map some

/-- Write an empty root to the batch and take it as the root. -/
def createEmptyRoot (txn : RocksDbTransactionBatch) : MerkleTrie × RocksDbTransactionBatch :=
  (⟨some TrieNode.new⟩,
    txn.put (TrieNode.makePrimaryKey [] none) (.trieNode TrieNode.new.serialize))

/-- `MerkleTrie::initialize`: load the root, or create and commit an empty one. Returns the trie and the
    database. -/
def initializeTrie (self : MerkleTrie) (db : RocksDB) : MerkleTrie × RocksDB × Except TrieError Unit :=
  match loadRoot db with
  | .error e => (self, db, .error e)
  | .ok (some root) => (⟨some root⟩, db, .ok ())
  | .ok none =>
    let (trie, txn) := createEmptyRoot Batch.empty
    (trie, commit db txn, .ok ())

/-- Drop every node in memory and read the root back from the database. -/
def reload (self : MerkleTrie) (db : RocksDB) : MerkleTrie × Except TrieError Unit :=
  match loadRoot db with
  | .error e => (self, .error e)
  | .ok (some root) => (⟨some root⟩, .ok ())
  | .ok none => (self, .error .unableToReloadRoot)

/-- A bound on the depth of the recursion over `keys`. -/
def depthBound (keys : List Bytes) : Nat := (keys.map List.length).foldr max 0 + 2

/-- What `insert` and `delete` have in common: expand and check the keys, run the node operation on the
    root with a batch of its own, and merge that batch on success. -/
def update (op : Nat → TrieNode.NodeOp) (self : MerkleTrie) (txnBatch : RocksDbTransactionBatch)
    (keys : List Bytes) : MerkleTrie × RocksDbTransactionBatch × Except TrieError (List Bool) :=
  let keys := keys.map expandNibbles
  if keys.isEmpty then (self, txnBatch, .ok [])
  else if keys.any fun key => key.length < uncompactedLength then (self, txnBatch, .error .keyLengthTooShort)
  else
    match self.root with
    | none => (self, txnBatch, .error .trieNotInitialized)
    | some root =>
      -- the root has no parent: its hash goes into a stub map that is thrown away
      let out := op (depthBound keys) root ByteMap.empty Batch.empty keys 0
      match out.result with
      | .error e => (⟨some out.node⟩, txnBatch, .error e)
      | .ok results => (⟨some out.node⟩, txnBatch.merge out.txn, .ok results)

variable [Blake3]

def insert (self : MerkleTrie) (db : RocksDB) (txnBatch : RocksDbTransactionBatch) (keys : List Bytes) :
    MerkleTrie × RocksDbTransactionBatch × Except TrieError (List Bool) :=
  update (TrieNode.insert db) self txnBatch keys

def delete (self : MerkleTrie) (db : RocksDB) (txnBatch : RocksDbTransactionBatch) (keys : List Bytes) :
    MerkleTrie × RocksDbTransactionBatch × Except TrieError (List Bool) :=
  update (TrieNode.delete db) self txnBatch keys

def existsKey (self : MerkleTrie) (db : RocksDB) (key : Bytes) : MerkleTrie × Except TrieError Bool :=
  match self.root with
  | none => (self, .error .trieNotInitialized)
  | some root =>
    let key := expandNibbles key
    let (root, found) := root.existsAt db (depthBound [key]) key 0
    (⟨some root⟩, found)

def items (self : MerkleTrie) : Except TrieError Nat :=
  match self.root with
  | none => .error .trieNotInitialized
  | some root => .ok root.items

def rootHash (self : MerkleTrie) : Except TrieError Bytes :=
  match self.root with
  | none => .error .trieNotInitialized
  | some root => .ok root.hash

/-- Drop nodes from memory; the root itself stays. -/
def evictStale (self : MerkleTrie) (stale : Bytes → Bool) : MerkleTrie :=
  ⟨self.root.map (TrieNode.evictStaleChildren stale [])⟩

/-! ## Lookups through a batch -/

/-- The node stored under `nodeKey`: from the batch if it stages a **put** there, otherwise from the
    database. -/
def getNodeFromTxnOrDb (db : RocksDB) (txnBatch : RocksDbTransactionBatch) (nodeKey : Bytes) :
    Option TrieNode :=
  let fromDb := (db nodeKey).bind fun v => (TrieNode.deserialize v).toOption
  match txnBatch nodeKey with
  | some (some v) =>
    match TrieNode.deserialize v with
    | .ok node => some node
    | .error _ => fromDb
  | _ => fromDb

def getNode (db : RocksDB) (txnBatch : RocksDbTransactionBatch) (pfx : Bytes) : Option TrieNode :=
  getNodeFromTxnOrDb db txnBatch (TrieNode.makePrimaryKey (expandNibbles pfx) none)

def getHash (db : RocksDB) (txnBatch : RocksDbTransactionBatch) (pfx : Bytes) : Bytes :=
  ((getNode db txnBatch pfx).map TrieNode.hash).getD []

def getCount (db : RocksDB) (txnBatch : RocksDbTransactionBatch) (pfx : Bytes) : Nat :=
  ((getNode db txnBatch pfx).map TrieNode.items).getD 0

end MerkleTrie
end Hypersnap
