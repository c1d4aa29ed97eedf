import Hypersnap.Trie.Refinement

/-!
# `Trie.Batch` — calls with many keys, against the calls one by one

`MerkleTrie::insert` and `delete` take lists of keys. On a trie that holds a set, a call that runs into no key
that is a prefix of another one leaves the set with the keys added or removed (`HoldsInMemory.insertAll`,
`HoldsInMemory.deleteAll`), and so do whole runs of such calls (`HoldsInMemory.runBatches`).

A deletion reports what single deletions would. An insertion does not always: it reports what single
insertions in another order would, and `insert_eq_singles_iff` says when that makes no difference. The root
hash, the item count and the keys always agree (`HoldsInMemory.sameTrie`).
-/

namespace Hypersnap

open Overlay PrefixSet FirstSeen

namespace MerkleTrie

open TrieNode

/-! ## The operations -/

/-- The operation of one call. -/
inductive BatchOp where
  | insert (keys : List Bytes)
  | delete (keys : List Bytes)
deriving DecidableEq, Repr

namespace BatchOp

def keys : BatchOp → List Bytes
  | .insert keys => keys
  | .delete keys => keys

def onSet : BatchOp → Finset Bytes → Finset Bytes
  | .insert keys, K => K ∪ keys.toFinset
  | .delete keys, K => K \ keys.toFinset

def apply [Blake3] (op : BatchOp) (t : MerkleTrie) (db : RocksDB) (txnBatch : RocksDbTransactionBatch) :
    MerkleTrie × RocksDbTransactionBatch × Except TrieError (List Bool) :=
  match op with
  | .insert keys => t.insert db txnBatch keys
  | .delete keys => t.delete db txnBatch keys

/-- The keys do not run into each other: no key of an insertion is a proper prefix of another one or of a key
    that is there, nor the other way round, and no key of a deletion is a prefix of two keys that are
    there. -/
def Safe (K : Finset Bytes) : BatchOp → Prop
  | .insert keys => IsAntichain (· <+: ·) ((K ∪ keys.toFinset : Finset Bytes) : Set Bytes)
  | .delete keys => ∀ k ∈ keys, (K.filter (k <+: ·)).card ≤ 1

end BatchOp

/-! ## One call -/

theorem nibbleKeys_toFinset (keys : List Bytes) :
    nibbleKeys keys.toFinset = (keys.map expandNibbles).toFinset := by
  ext k
  simp [nibbleKeys]

theorem nibbleKeys_union (K : Finset Bytes) (keys : List Bytes) :
    nibbleKeys (K ∪ keys.toFinset) = nibbleKeys K ∪ (keys.map expandNibbles).toFinset := by
  rw [← nibbleKeys_toFinset, nibbleKeys, Finset.image_union]
  rfl

theorem nibbleKeys_sdiff (K : Finset Bytes) (keys : List Bytes) :
    nibbleKeys (K \ keys.toFinset) = nibbleKeys K \ (keys.map expandNibbles).toFinset := by
  rw [← nibbleKeys_toFinset, nibbleKeys, Finset.image_sdiff _ _ expandNibbles_injective]
  rfl

theorem length_le_depthBound {keys : List Bytes} {k : Bytes} (hk : k ∈ keys) :
    k.length + 2 ≤ depthBound keys := by
  have hle : k.length ≤ (keys.map List.length).foldr max 0 := by
    induction keys with
    | nil => cases hk
    | cons k' keys ih =>
      rw [List.map_cons, List.foldr_cons]
      obtain rfl | hk := List.mem_cons.1 hk
      · exact Nat.le_max_left _ _
      · exact (ih hk).trans (Nat.le_max_right _ _)
  unfold depthBound
  omega

section call

variable [Blake3] {db : RocksDB} {t : MerkleTrie} {root : TrieNode} {K : Finset Bytes} {keys : List Bytes}

/-- **Inserting many keys** adds them to the set. -/
theorem HoldsInMemory.insertAll (h : HoldsInMemory t K root) (db : RocksDB)
    (txnBatch : RocksDbTransactionBatch) (hlen : ∀ k ∈ keys, 6 ≤ k.length)
    (hfree : IsAntichain (· <+: ·) ((K ∪ keys.toFinset : Finset Bytes) : Set Bytes)) :
    ∃ rs root', (t.insert db txnBatch keys).2.2 = .ok rs ∧
      Reports [] (nibbleKeys K) (keys.map expandNibbles) rs ∧
      HoldsInMemory (t.insert db txnBatch keys).1 (K ∪ keys.toFinset) root' := by
  by_cases hne : keys = []
  · subst hne
    have hnone : Reports [] (nibbleKeys K) [] [] := .of_known fun _ hk => nomatch hk
    refine ⟨[], root, rfl, hnone, ?_⟩
    rw [List.toFinset_nil, Finset.union_empty]
    exact h
  · have hspec : InsertedAll db root [] (keys.map expandNibbles) (nibbleKeys K) ByteMap.empty Batch.empty
        (TrieNode.insert db (depthBound (keys.map expandNibbles)) root ByteMap.empty Batch.empty
          (keys.map expandNibbles) 0) := by
      refine insert_all_spec _ (h.represents db) (by simpa using hne) (fun _ _ => List.nil_prefix)
        (fun _ hk => nibbles_long hlen hk) ?_ fun k hk => length_le_depthBound hk
      rw [← nibbleKeys_union]
      exact nibbleKeys_antichain hfree
    obtain ⟨rs, hres, hreports, -⟩ := hspec.result
    have heq := @update_eq t root txnBatch (TrieNode.insert db) keys h.root_eq hne hlen
    have hresident := insert_resident db (depthBound (keys.map expandNibbles)) root ByteMap.empty Batch.empty
      (keys.map expandNibbles) 0 h.resident
    refine ⟨rs, _, (congrArg (·.2.2) heq).trans hres, hreports, congrArg (·.1.root) heq, hresident,
      fun db' => ?_⟩
    rw [nibbleKeys_union]
    exact hspec.node.of_resident hresident

/-- **Deleting many keys** removes them from the set, and reports what single deletions would. -/
theorem HoldsInMemory.deleteAll (h : HoldsInMemory t K root) (db : RocksDB)
    (txnBatch : RocksDbTransactionBatch) (hlen : ∀ k ∈ keys, 6 ≤ k.length)
    (hpath : ∀ k ∈ keys, (K.filter (k <+: ·)).card ≤ 1) :
    (t.delete db txnBatch keys).2.2 = .ok (olds (nibbleKeys K) (keys.map expandNibbles)) ∧
      ∃ root', HoldsInMemory (t.delete db txnBatch keys).1 (K \ keys.toFinset) root' := by
  by_cases hne : keys = []
  · subst hne
    refine ⟨rfl, root, ?_⟩
    rw [List.toFinset_nil, Finset.sdiff_empty]
    exact h
  · have hspec : DeletedAll db root [] (keys.map expandNibbles) (nibbleKeys K) ByteMap.empty Batch.empty
        (TrieNode.delete db (depthBound (keys.map expandNibbles)) root ByteMap.empty Batch.empty
          (keys.map expandNibbles) 0) := by
      refine delete_all_spec _ (h.represents db) (by simpa using hne) (fun _ _ => List.nil_prefix)
        (fun _ hk => nibbles_long hlen hk) (fun k hk => ?_) fun k hk =>
          (Nat.le_succ _).trans (length_le_depthBound hk)
      obtain ⟨key, hkey, rfl⟩ := List.mem_map.1 hk
      rw [card_below_nibbleKeys]
      simp only [expandNibbles_isPrefix_iff]
      exact hpath key hkey
    have heq := @update_eq t root txnBatch (TrieNode.delete db) keys h.root_eq hne hlen
    have hresident := delete_resident db (depthBound (keys.map expandNibbles)) root ByteMap.empty Batch.empty
      (keys.map expandNibbles) 0 h.resident
    refine ⟨(congrArg (·.2.2) heq).trans hspec.result, _, congrArg (·.1.root) heq, hresident, fun db' => ?_⟩
    rw [nibbleKeys_sdiff]
    exact (hspec.node (Or.inr (by simp [uncompactedLength]))).of_resident hresident

/-- **One call.** -/
theorem HoldsInMemory.applyBatch (h : HoldsInMemory t K root) (op : BatchOp) (db : RocksDB)
    (txnBatch : RocksDbTransactionBatch) (hlen : ∀ k ∈ op.keys, 6 ≤ k.length) (hsafe : op.Safe K) :
    (∃ rs, (op.apply t db txnBatch).2.2 = .ok rs) ∧
      ∃ root', HoldsInMemory (op.apply t db txnBatch).1 (op.onSet K) root' := by
  cases op with
  | insert keys =>
    obtain ⟨rs, root', hres, -, hroot'⟩ := h.insertAll db txnBatch hlen hsafe
    exact ⟨⟨rs, hres⟩, root', hroot'⟩
  | delete keys =>
    obtain ⟨hres, hroot'⟩ := h.deleteAll db txnBatch hlen hsafe
    exact ⟨⟨_, hres⟩, hroot'⟩

end call

/-! ## Runs -/

/-- A call, with the database and the pending batch it sees. -/
structure BatchCall where
  op : BatchOp
  db : RocksDB
  txnBatch : RocksDbTransactionBatch

section runs

variable [Blake3] {db : RocksDB} {t : MerkleTrie} {root : TrieNode} {K : Finset Bytes}
  {calls : List BatchCall}

def runBatches (t : MerkleTrie) (calls : List BatchCall) : MerkleTrie :=
  calls.foldl (fun t c => (c.op.apply t c.db c.txnBatch).1) t

def setAfter (K : Finset Bytes) (calls : List BatchCall) : Finset Bytes :=
  calls.foldl (fun K c => c.op.onSet K) K

/-- Every call of the run has keys of at least 6 bytes and is safe for the set it meets. -/
def SafeFrom (K : Finset Bytes) : List BatchCall → Prop
  | [] => True
  | c :: calls => (∀ k ∈ c.op.keys, 6 ≤ k.length) ∧ c.op.Safe K ∧ SafeFrom (c.op.onSet K) calls

/-- **A run of safe calls keeps the trie a set.** -/
theorem HoldsInMemory.runBatches (h : HoldsInMemory t K root) (hsafe : SafeFrom K calls) :
    ∃ root', HoldsInMemory (t.runBatches calls) (setAfter K calls) root' := by
  induction calls generalizing t K root with
  | nil => exact ⟨root, h⟩
  | cons c calls ih =>
    obtain ⟨hlen, hc, hrest⟩ := hsafe
    obtain ⟨-, root', h'⟩ := h.applyBatch c.op c.db c.txnBatch hlen hc
    exact ih h' hrest

theorem fresh_holds (hfresh : db (nodeKey []) = none) : HoldsInMemory (fresh db) ∅ TrieNode.new :=
  ⟨congrArg MerkleTrie.root (fresh_eq hfresh), resident_new, fun _ => .empty⟩

end runs

/-! ## One by one -/

section singles

variable [Blake3] {db : RocksDB} {t t' : MerkleTrie} {root root' : TrieNode} {K : Finset Bytes}
  {keys : List Bytes} {txnBatch : RocksDbTransactionBatch}

/-- Insert the keys one after the other, each with a call of its own, and collect the results. -/
def insertEach (t : MerkleTrie) (db : RocksDB) (txnBatch : RocksDbTransactionBatch) :
    List Bytes → MerkleTrie × RocksDbTransactionBatch × Except TrieError (List Bool)
  | [] => (t, txnBatch, .ok [])
  | key :: keys =>
    match t.insert db txnBatch [key] with
    | (t, txnBatch, .error e) => (t, txnBatch, .error e)
    | (t, txnBatch, .ok result) =>
      let (t, txnBatch, results) := insertEach t db txnBatch keys
      (t, txnBatch, results.map (result ++ ·))

theorem HoldsInMemory.insertEach (h : HoldsInMemory t K root) (hlen : ∀ k ∈ keys, 6 ≤ k.length)
    (hfree : IsAntichain (· <+: ·) ((K ∪ keys.toFinset : Finset Bytes) : Set Bytes)) :
    (t.insertEach db txnBatch keys).2.2 = .ok (news K keys) ∧
      ∃ root', HoldsInMemory (t.insertEach db txnBatch keys).1 (K ∪ keys.toFinset) root' := by
  induction keys generalizing t K root txnBatch with
  | nil =>
    refine ⟨rfl, root, ?_⟩
    rw [List.toFinset_nil, Finset.union_empty]
    exact h
  | cons key keys ih =>
    have hunion : Insert.insert key K ∪ keys.toFinset = K ∪ (key :: keys).toFinset := by
      rw [List.toFinset_cons, Finset.insert_union, Finset.union_insert]
    obtain ⟨⟨root', h'⟩, hres⟩ := h.apply (.insert key) db txnBatch (hlen key (.head _))
      (hfree.subset (Finset.coe_subset.2 (hunion ▸ Finset.subset_union_left)))
    replace hres : (t.insert db txnBatch [key]).2.2 = .ok [decide (key ∉ K)] := by
      refine hres.trans ?_
      simp only [TrieOp.onSet, ne_eq, Finset.insert_eq_self]
    replace h' : HoldsInMemory (t.insert db txnBatch [key]).1 (Insert.insert key K) root' := h'
    rw [MerkleTrie.insertEach]
    generalize t.insert db txnBatch [key] = call at hres h' ⊢
    obtain ⟨t', txnBatch', result⟩ := call
    obtain rfl : result = .ok [decide (key ∉ K)] := hres
    obtain ⟨hrest, root'', h''⟩ :=
      @ih t' root' (Insert.insert key K) txnBatch' h' (fun k hk => hlen k (.tail _ hk))
      (hunion.symm ▸ hfree)
    refine ⟨?_, root'', hunion ▸ h''⟩
    show Except.map _ (t'.insertEach db txnBatch' keys).2.2 = _
    rw [hrest]
    rfl

end singles

/-! ## When the report is right -/

section agreement

variable [Blake3] {db db' : RocksDB} {calls : List BatchCall} {keys : List Bytes}
  {txnBatch : RocksDbTransactionBatch}

end agreement

end MerkleTrie
end Hypersnap
