import Hypersnap.Trie.MerkleTrie

/-!
# `Trie.View` — the tree a node and the database describe together

A node in memory may have children that are still in the database, so what the tree *is* at a path is only
determined by the two together. `view db n p r` is the node found by walking the path `r` down from `n`
(which itself sits at path `p`), loading what is not in memory; its own children are forgotten, since
they are views of longer paths. Two nodes with the same view cannot be told apart by any operation.

`Tracks` says that a write batch records a change of the tree: at every path below the changed node the
batch either stages the new view or stages what it staged before, and then the view did not change.
-/

namespace Hypersnap
namespace TrieNode

open Overlay

variable {n : TrieNode} {key p : Bytes} {txn t₁ t₂ t₃ : RocksDbTransactionBatch} {c : UInt8}

/-! ## Database keys of nodes -/

/-- Database key of the node at path `q`. -/
abbrev nodeKey (q : Bytes) : Bytes := makePrimaryKey q none

theorem makePrimaryKey_none (q : Bytes) : makePrimaryKey q none = 8 :: q := by
  simp [makePrimaryKey, RootPrefix.toByte]

theorem makePrimaryKey_some (p : Bytes) (c : UInt8) : makePrimaryKey p (some c) = nodeKey (p ++ [c]) := by
  simp [makePrimaryKey]

theorem nodeKey_inj {q q' : Bytes} : nodeKey q = nodeKey q' ↔ q = q' := by
  simp [nodeKey, makePrimaryKey_none]

/-- The value a node is stored as. -/
def record (n : TrieNode) : DbValue := .trieNode n.serialize

/-! ## Forgetting the children -/

/-- The node as a stored record remembers it: which children there are, but not the children. -/
def forget (n : TrieNode) : TrieNode :=
  { n with children := fun c => (n.children c).map fun _ => .serialized }

@[simp] theorem forget_items (n : TrieNode) : n.forget.items = n.items := rfl
@[simp] theorem forget_key (n : TrieNode) : n.forget.key = n.key := rfl
@[simp] theorem forget_childHashes (n : TrieNode) : n.forget.childHashes = n.childHashes := rfl

@[simp] theorem forget_children_eq_none : n.forget.children c = none ↔ n.children c = none := by simp [forget]

@[simp] theorem forget_forget (n : TrieNode) : n.forget.forget = n.forget := by
  simp only [forget, Option.map_map]
  rfl

@[simp] theorem isLeaf_forget (n : TrieNode) : n.forget.isLeaf = n.isLeaf := by
  simp [isLeaf, ByteMap.isEmpty, forget]

@[simp] theorem hash_forget [Blake3] (n : TrieNode) : n.forget.hash = n.hash := by
  unfold hash
  rw [isLeaf_forget]
  rfl

@[simp] theorem serialize_forget (n : TrieNode) : n.forget.serialize = n.serialize := by
  have hchars : ByteMap.chars n.forget.children = ByteMap.chars n.children :=
    ByteMap.chars_congr fun c => forget_children_eq_none
  simp [serialize, hchars]

@[simp] theorem record_forget (n : TrieNode) : n.forget.record = n.record := by simp [record]

theorem forget_eq_forget_iff {m : TrieNode} : n.forget = m.forget ↔
    n.items = m.items ∧ (∀ c, n.children c = none ↔ m.children c = none) ∧
      n.childHashes = m.childHashes ∧ n.key = m.key := by
  constructor
  · intro h
    have hi := congrArg items h
    have hh := congrArg childHashes h
    have hk := congrArg key h
    refine ⟨hi, fun c => ?_, hh, hk⟩
    rw [← forget_children_eq_none, h, forget_children_eq_none]
  · rintro ⟨hi, hc, hh, hk⟩
    have hch : n.forget.children = m.forget.children := by
      funext c
      have := hc c
      cases hn : n.children c <;> cases hm : m.children c <;> simp_all [forget]
    cases n; cases m
    simp_all [forget]

@[simp] theorem new_items : new.items = 0 := rfl
@[simp] theorem new_key : new.key = none := rfl
@[simp] theorem new_children (c : UInt8) : new.children c = none := rfl
@[simp] theorem isLeaf_new : new.isLeaf = true := ByteMap.isEmpty_empty

/-- A leaf with one key and the cached hashes `hs`, which no leaf needs. -/
def leafNode (hs : ByteMap Bytes) (k : Bytes) : TrieNode := ⟨1, ByteMap.empty, hs, some k⟩

section
variable (hs : ByteMap Bytes) (k : Bytes)

@[simp] theorem leafNode_items : (leafNode hs k).items = 1 := rfl
@[simp] theorem leafNode_key : (leafNode hs k).key = some k := rfl
@[simp] theorem leafNode_childHashes : (leafNode hs k).childHashes = hs := rfl
@[simp] theorem leafNode_children (c : UInt8) : (leafNode hs k).children c = none := rfl
@[simp] theorem isLeaf_leafNode : (leafNode hs k).isLeaf = true :=
  ByteMap.isEmpty_empty

end

/-- Storing a node and reading it back forgets its children and nothing else, if its item count fits into
    32 bits and its key is not empty. -/
theorem ofRecord_serialize (hitems : n.items < 2 ^ 32) (hkey : n.key ≠ some []) :
    ofRecord n.serialize = n.forget := by
  have hi : n.items.toUInt32.toNat = n.items := by
    rw [Nat.toUInt32, UInt32.toNat_ofNat']
    exact Nat.mod_eq_of_lt hitems
  have hk : (if (n.key.getD []).isEmpty then none else some (n.key.getD [])) = n.key := by
    cases h : n.key with
    | none => simp
    | some k =>
      have hk : k ≠ [] := fun h' => hkey (h' ▸ h)
      simp [hk]
  have hc : ∀ c, (if c ∈ ByteMap.chars n.children then some TrieNodeType.serialized else none)
      = (n.children c).map fun _ => (TrieNodeType.serialized : TrieNodeType TrieNode) := by
    intro c
    cases h : n.children c <;> simp [h]
  unfold ofRecord serialize forget
  rw [hi, hk]
  congr 1
  exact funext hc

@[simp] theorem forget_ofRecord (r : DbTrieNode) : (ofRecord r).forget = ofRecord r := by
  simp only [forget, ofRecord]
  congr 1
  funext c
  split <;> rfl

/-! ## Loading children and walking paths -/

variable {db db' : RocksDB} {n n' m : TrieNode} {p r : Bytes} {c : UInt8}

theorem getOrLoadChild_congr (h : n.children c = n'.children c) :
    getOrLoadChild db n p c = getOrLoadChild db n' p c := by simp only [getOrLoadChild, h]

theorem getOrLoadChild_node (h : n.children c = some (.node m)) : getOrLoadChild db n p c = .ok m := by
  simp only [getOrLoadChild, h]

theorem getOrLoadChild_none (h : n.children c = none) :
    getOrLoadChild db n p c = .error (.childNotFound c p) := by simp only [getOrLoadChild, h]

theorem children_ne_none_of_load (h : getOrLoadChild db n p c = .ok m) : n.children c ≠ none := by
  intro hc
  rw [getOrLoadChild_none hc] at h
  cases h

/-- The node at path `p ++ r`, with its children forgotten. -/
def view (db : RocksDB) (n : TrieNode) (p r : Bytes) : Option TrieNode :=
  (getNodeFromTrie db n p r).map forget

@[simp] theorem view_nil : view db n p [] = some n.forget := rfl

theorem view_cons_of_load (h : getOrLoadChild db n p c = .ok m) :
    view db n p (c :: r) = view db m (p ++ [c]) r := by
  simp only [view, getNodeFromTrie, h]

theorem view_cons_of_none (h : n.children c = none) : view db n p (c :: r) = none := by
  simp only [view, getNodeFromTrie, getOrLoadChild_none h, Option.map_none]

theorem view_cons_congr (h : n.children c = n'.children c) :
    view db n p (c :: r) = view db n' p (c :: r) := by
  simp only [view, getNodeFromTrie, getOrLoadChild_congr h]

/-- What a missing node looks like: nothing, at every path. -/
def viewOf (db : RocksDB) (o : Option TrieNode) (p r : Bytes) : Option TrieNode :=
  o.bind fun n => view db n p r

@[simp] theorem viewOf_none : viewOf db none p r = none := rfl
@[simp] theorem viewOf_some : viewOf db (some n) p r = view db n p r := rfl

/-- A node without items is not part of the tree: its parent does not keep it. -/
def live (n : TrieNode) : Option TrieNode := if n.items = 0 then none else some n

theorem live_of_ne (h : n.items ≠ 0) : live n = some n := if_neg h
theorem live_of_eq (h : n.items = 0) : live n = none := if_pos h

/-! ## Batches that record a change -/

/-- Going from `txn` to `txn'`, what the batch says about one node that changes from `v` to `v'`: its new
    record is staged, or nothing is staged and the node did not change. Two kinds of keys are exempt: those
    in `O`, whose node may be left behind as an *orphan*, and those in `W`, which may be deleted by a
    *stray* write. -/
inductive Records (O W : Set Bytes) (txn txn' : RocksDbTransactionBatch) (key : Bytes)
    (v v' : Option TrieNode) : Prop
  | orphan (h : key ∈ O)
  | stray (h : key ∈ W) (hdel : txn' key = some none)
  | written (h : txn' key = some (v'.map record))
  | unchanged (htxn : txn' key = txn key) (hview : v' = v)

/-- Going from `txn` to `txn'`, the batch records that the tree at `p` changes from `o` to `o'`. -/
structure Tracks (O W : Set Bytes) (db : RocksDB) (p : Bytes) (o o' : Option TrieNode)
    (txn txn' : RocksDbTransactionBatch) : Prop where
  inside : ∀ r, Records O W txn txn' (nodeKey (p ++ r)) (viewOf db o p r) (viewOf db o' p r)
  frame : ∀ key, (∀ r, key ≠ nodeKey (p ++ r)) → key ∈ W ∧ txn' key = some none ∨ txn' key = txn key

section tracks

variable {O W : Set Bytes} {o o' : Option TrieNode} {txn txn' : RocksDbTransactionBatch}

theorem Tracks.of_view_eq (h : ∀ r, viewOf db o' p r = viewOf db o p r) : Tracks O W db p o o' txn txn :=
  ⟨fun r => .unchanged rfl (h r), fun _ _ => Or.inr rfl⟩

theorem Records.mono {O' W' : Set Bytes} {v v' : Option TrieNode} (h : Records O W txn txn' key v v')
    (hO : O ⊆ O') (hW : W ⊆ W') : Records O' W' txn txn' key v v' := by
  cases h with
  | orphan h => exact .orphan (hO h)
  | stray h hdel => exact .stray (hW h) hdel
  | written h => exact .written h
  | unchanged htxn hview => exact .unchanged htxn hview

theorem Records.trans {v₁ v₂ v₃ : Option TrieNode} (h : Records O W t₁ t₂ key v₁ v₂)
    (h' : Records O W t₂ t₃ key v₂ v₃) : Records O W t₁ t₃ key v₁ v₃ := by
  cases h' with
  | orphan hO => exact .orphan hO
  | stray hW hdel => exact .stray hW hdel
  | written hw => exact .written hw
  | unchanged ht' hv' =>
    cases h with
    | orphan hO => exact .orphan hO
    | stray hW hdel => exact .stray hW (ht'.trans hdel)
    | written hw => exact .written (by rw [ht', hw, hv'])
    | unchanged ht hv => exact .unchanged (ht'.trans ht) (hv'.trans hv)

theorem Tracks.mono {O' W' : Set Bytes} (h : Tracks O W db p o o' txn txn') (hO : O ⊆ O') (hW : W ⊆ W') :
    Tracks O' W' db p o o' txn txn' :=
  ⟨fun r => (h.inside r).mono hO hW,
    fun key hkey => (h.frame key hkey).imp_left fun ⟨hmem, hdel⟩ => ⟨hW hmem, hdel⟩⟩

theorem Tracks.trans {o₁ o₂ o₃ : Option TrieNode} (h : Tracks O W db p o₁ o₂ t₁ t₂)
    (h' : Tracks O W db p o₂ o₃ t₂ t₃) : Tracks O W db p o₁ o₃ t₁ t₃ := by
  refine ⟨fun r => (h.inside r).trans (h'.inside r), fun key hkey => ?_⟩
  rcases h'.frame key hkey with hW | ht'
  · exact Or.inl hW
  · exact (h.frame key hkey).imp (fun ⟨hW, hdel⟩ => ⟨hW, ht'.trans hdel⟩) ht'.trans

theorem nodeKey_append_cons_ne (p r : Bytes) (c : UInt8) : nodeKey (p ++ c :: r) ≠ nodeKey p := by
  intro h
  have := congrArg List.length (nodeKey_inj.mp h)
  simp at this

theorem Tracks.write (h : ∀ c r, viewOf db o' p (c :: r) = viewOf db o p (c :: r)) :
    Tracks O W db p o o' txn (Function.update txn (nodeKey p) (some ((viewOf db o' p []).map record))) := by
  refine ⟨fun r => ?_, fun key hkey => Or.inr (Function.update_of_ne ?_ _ _)⟩
  · cases r with
    | nil => exact .written (by rw [List.append_nil, Function.update_self])
    | cons c r => exact .unchanged (Function.update_of_ne (nodeKey_append_cons_ne p r c) _ _) (h c r)
  · have := hkey []
    rwa [List.append_nil] at this

/-! ## A node whose children change one after the other -/

/-- The batch records what changes below `p` when the node there goes from `n` to `n'`, and says of the node
    itself what it said before. -/
structure TracksBelow (O W : Set Bytes) (db : RocksDB) (p : Bytes) (n n' : TrieNode)
    (txn txn' : RocksDbTransactionBatch) : Prop where
  inside : ∀ c r, Records O W txn txn' (nodeKey (p ++ c :: r)) (view db n p (c :: r)) (view db n' p (c :: r))
  frame : ∀ key, (∀ c r, key ≠ nodeKey (p ++ c :: r)) → key ∈ W ∧ txn' key = some none ∨ txn' key = txn key

theorem TracksBelow.refl : TracksBelow O W db p n n txn txn :=
  ⟨fun _ _ => .unchanged rfl rfl, fun _ _ => Or.inr rfl⟩

theorem TracksBelow.trans {n₁ n₂ n₃ : TrieNode} (h : TracksBelow O W db p n₁ n₂ t₁ t₂)
    (h' : TracksBelow O W db p n₂ n₃ t₂ t₃) : TracksBelow O W db p n₁ n₃ t₁ t₃ := by
  refine ⟨fun c r => (h.inside c r).trans (h'.inside c r), fun key hkey => ?_⟩
  rcases h'.frame key hkey with hW | ht'
  · exact Or.inl hW
  · exact (h.frame key hkey).imp (fun ⟨hW, hdel⟩ => ⟨hW, ht'.trans hdel⟩) ht'.trans

/-- The change of one child, seen from its parent. -/
theorem Tracks.below (h : Tracks O W db (p ++ [c]) o o' txn txn')
    (hview : ∀ r, view db n p (c :: r) = viewOf db o (p ++ [c]) r)
    (hview' : ∀ r, view db n' p (c :: r) = viewOf db o' (p ++ [c]) r)
    (hother : ∀ c', c' ≠ c → n'.children c' = n.children c') : TracksBelow O W db p n n' txn txn' := by
  have hsub : ∀ c' r, p ++ c' :: r = (p ++ [c']) ++ r := by simp
  refine ⟨fun c' r => ?_, fun key hkey => h.frame key fun r => hsub c r ▸ hkey c r⟩
  by_cases hc : c' = c
  · subst hc
    rw [hview, hview', hsub]
    exact h.inside r
  · -- another child: at most a stray delete touches it
    rw [view_cons_congr (hother c' hc)]
    refine (h.frame (nodeKey (p ++ c' :: r)) fun r' hr' => hc ?_).elim (fun ⟨hW, hdel⟩ => .stray hW hdel)
      fun htxn => .unchanged htxn rfl
    have := nodeKey_inj.mp hr'
    rw [hsub, List.append_assoc, List.append_assoc] at this
    exact (List.cons.inj (List.append_cancel_left this)).1

theorem TracksBelow.delete (h : TracksBelow O W db p n n' txn txn') (hkey : key ∈ W) :
    TracksBelow O W db p n n' txn (txn'.delete key) := by
  refine h.trans ⟨fun c r => ?_, fun key' _ => ?_⟩
  · by_cases heq : nodeKey (p ++ c :: r) = key
    · exact .stray (heq ▸ hkey) (heq ▸ delete_self _ _)
    · exact .unchanged (delete_of_ne _ _ _ heq) rfl
  · by_cases heq : key' = key
    · exact Or.inl ⟨heq ▸ hkey, heq ▸ delete_self _ _⟩
    · exact Or.inr (delete_of_ne _ _ _ heq)

/-- When all children are done, the node itself is staged as it is now, unless it looks as before. -/
theorem TracksBelow.finish {txn₁ : RocksDbTransactionBatch} (h : TracksBelow O W db p n n' txn txn₁)
    (hview : ∀ c r, viewOf db o p (c :: r) = view db n p (c :: r))
    (hview' : ∀ c r, nodeKey (p ++ c :: r) ∈ O ∨ viewOf db o' p (c :: r) = view db n' p (c :: r))
    (hself : txn' = Function.update txn₁ (nodeKey p) (some ((viewOf db o' p []).map record)) ∨
      (txn' = txn₁ ∧ viewOf db o' p [] = viewOf db o p [])) :
    Tracks O W db p o o' txn txn' := by
  -- the last write does not touch other paths than `p` itself
  have hsame : ∀ key, key ≠ nodeKey p → txn' key = txn₁ key := by
    intro key hkey
    rcases hself with rfl | ⟨rfl, -⟩
    · exact Function.update_of_ne hkey _ _
    · rfl
  refine ⟨fun r => ?_, fun key hkey => ?_⟩
  · cases r with
    | nil =>
      rw [List.append_nil]
      rcases hself with rfl | ⟨rfl, hv⟩
      · exact .written (Function.update_self _ _ _)
      · exact (h.frame (nodeKey p) fun c r => (nodeKey_append_cons_ne p r c).symm).elim
          (fun ⟨hW, hdel⟩ => .stray hW hdel) fun htxn => .unchanged htxn hv
    | cons c r =>
      rcases hview' c r with hO | hview'
      · exact .orphan hO
      · rw [hview, hview']
        exact (h.inside c r).trans (.unchanged (hsame _ (nodeKey_append_cons_ne p r c)) rfl)
  · have hroot : key ≠ nodeKey p := by
      have := hkey []
      rwa [List.append_nil] at this
    rw [hsame key hroot]
    exact h.frame key fun c r => hkey (c :: r)

end tracks

theorem putToTxn_eq (db : RocksDB) :
    n.putToTxn txn p = Function.update txn (nodeKey p) (some ((viewOf db (some n) p []).map record)) := by
  simp [putToTxn, Batch.put, record]

theorem putToTxn_ne_delete (h : n.putToTxn txn p key = some none) : txn key = some none := by
  by_cases hkey : key = nodeKey p
  · rw [hkey, putToTxn, put_self] at h
    cases h
  · rwa [putToTxn, put_of_ne _ _ _ _ hkey] at h

theorem deleteToTxn_eq (db : RocksDB) :
    deleteToTxn txn p = Function.update txn (nodeKey p) (some ((viewOf db none p []).map record)) := by
  simp [deleteToTxn, Batch.delete]

theorem deleteToTxn_delete (h : deleteToTxn txn p key = some none) :
    key = nodeKey p ∨ txn key = some none := by
  by_cases hkey : key = nodeKey p
  · exact Or.inl hkey
  · exact Or.inr (by rwa [deleteToTxn, delete_of_ne _ _ _ hkey] at h)

theorem viewOf_live_cons
    (h : n.items = 0 → n.children c = none) : viewOf db (live n) p (c :: r) = view db n p (c :: r) := by
  by_cases hn : n.items = 0
  · rw [live_of_eq hn, viewOf_none, view_cons_of_none (h hn)]
  · rw [live_of_ne hn, viewOf_some]

end TrieNode
end Hypersnap
