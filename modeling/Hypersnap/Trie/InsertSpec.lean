import Hypersnap.Trie.Represents

/-!
# `Trie.InsertSpec` — the steps of an insertion

What the parts of `TrieNode.insert` do to a node that holds a set of keys: an empty node below the uncompacted
levels takes its key (`insert_new_deep`), an inner node has a child for every nibble, in memory, in the
database or fresh (`InnerAt.childFor`), and a leaf is split into an inner node for the same key
(`splitLeafNode_spec`).
-/

namespace Hypersnap
namespace TrieNode

open Overlay PrefixSet

variable {child : Option TrieNode} {hashes : ByteMap Bytes} {items : Nat}

variable [Blake3] {db : RocksDB} {n m : TrieNode} {p k : Bytes} {S : Finset Bytes} {c : UInt8}
  {childHashes : ByteMap Bytes} {txn : RocksDbTransactionBatch}

theorem updateHash_snoc (hne : n.hash ≠ []) :
    n.updateHash childHashes (p ++ [c]) = childHashes.insert c n.hash := by
  simp [updateHash, hne]

/-! ## An empty node below the uncompacted levels -/

/-- An empty leaf takes the last key, and then the others split it. -/
theorem insert_eq_insertLeaf_of_new {fuel : Nat} {keys : List Bytes} {x : Bytes}
    (hp : ∀ k ∈ keys ++ [x], p <+: k) (hdepth : uncompactedLength ≤ p.length) :
    let leaf := leafNode ByteMap.empty x
    insert db (fuel + 1) new childHashes txn (keys ++ [x]) p.length
      = insertLeaf (insert db fuel) db p leaf (leaf.updateHash childHashes p) (leaf.putToTxn txn p)
          ([true] ++ List.replicate keys.length false) keys 1 p.length := by
  have hx : x ≠ [] := by
    rintro rfl
    have := hdepth.trans (hp [] (by simp)).length_le
    simp [uncompactedLength] at this
  obtain ⟨key₀, rest, hcons⟩ := List.exists_cons_of_ne_nil (l := keys ++ [x]) (by simp)
  have htake : key₀.take p.length = p :=
    (List.prefix_iff_eq_take.mp (hp key₀ (hcons ▸ List.mem_cons_self))).symm
  have hresults :
      ((key₀ :: rest).map fun _ => false).set 0 true = [true] ++ List.replicate keys.length false := by
    have hlength := congrArg List.length hcons
    rw [List.length_append, List.length_singleton, List.length_cons] at hlength
    have : rest.length = keys.length := by omega
    simp [this]
  have hlast : (key₀ :: rest).getLastD [] = x := by rw [← hcons]; simp
  have hinit : (key₀ :: rest).dropLast = keys := by rw [← hcons, List.dropLast_concat]
  intro leaf
  rw [hcons]
  simp only [insert, insertStep, hdepth, isLeaf_new, htake, hlast, hinit, hresults, decide_true,
    Bool.and_self]
  simp [new, hx, leaf, leafNode]

theorem insert_new_deep (fuel : Nat) (hdepth : uncompactedLength ≤ p.length) (hpk : p <+: k) :
    insert db (fuel + 1) new childHashes txn [k] p.length =
      ⟨leafNode ByteMap.empty k, (leafNode ByteMap.empty k).updateHash childHashes p,
        (leafNode ByteMap.empty k).putToTxn txn p, .ok [true]⟩ :=
  @insert_eq_insertLeaf_of_new _ db p childHashes txn fuel [] k (by simpa using hpk) hdepth

omit [Blake3] in
theorem tracks_leafNode : Tracks ∅ ∅ db p (live new) (live (leafNode ByteMap.empty k)) txn
    ((leafNode ByteMap.empty k).putToTxn txn p) := by
  rw [live_of_eq (n := new) rfl, live_of_ne (n := leafNode _ k) (by simp), putToTxn_eq db]
  exact Tracks.write fun c r => by rw [viewOf_some, viewOf_none, view_cons_of_none rfl]

/-! ## Passing the key to one child -/

/-- `m` is the child the key goes to: a fresh one if there is none at `c`. -/
def ChildFor (db : RocksDB) (n : TrieNode) (p : Bytes) (c : UInt8) (m : TrieNode) : Prop :=
  (n.children c = none ∧ m = new) ∨ getOrLoadChild db n p c = .ok m

/-- The node with another child at `c` (or none), other cached hashes and another item count. -/
def withChild (n : TrieNode) (c : UInt8) (child : Option TrieNode) (hashes : ByteMap Bytes) (items : Nat) :
    TrieNode :=
  { n with items := items, children := Function.update n.children c (child.map .node), childHashes := hashes }

omit [Blake3] in
@[simp] theorem withChild_self :
    (n.withChild c child hashes items).children c = child.map .node := Function.update_self _ _ _

omit [Blake3] in
theorem withChild_of_ne {c' : UInt8} (h : c' ≠ c) :
    (n.withChild c child hashes items).children c' = n.children c' :=
  Function.update_of_ne h _ _

omit [Blake3] in
theorem view_withChild (r : Bytes) :
    view db (n.withChild c child hashes items) p (c :: r) = viewOf db child (p ++ [c]) r := by
  cases child with
  | none => exact view_cons_of_none withChild_self
  | some m => exact view_cons_of_load (getOrLoadChild_node withChild_self)

section
variable (h : InnerAt db n p S)
include h

theorem InnerAt.childFor (c : UInt8) :
    ∃ m, ChildFor db n p c m ∧ Represents db m (p ++ [c]) (below (p ++ [c]) S) := by
  obtain ⟨child, hframe, hchild⟩ := h
  by_cases hc : (below (p ++ [c]) S).Nonempty
  · exact ⟨child c, Or.inr (hframe.load c hc), hchild c hc⟩
  · rw [Finset.not_nonempty_iff_eq_empty] at hc
    exact ⟨new, Or.inl ⟨(hframe.absent c hc).1, rfl⟩, hc ▸ .empty⟩

theorem InnerAt.view_child (hm : ChildFor db n p c m) (hrep : Represents db m (p ++ [c]) (below (p ++ [c]) S))
    (r : Bytes) : view db n p (c :: r) = viewOf db (live m) (p ++ [c]) r := by
  rcases hm with ⟨hnone, rfl⟩ | hload
  · rw [view_cons_of_none hnone, live_of_eq rfl, viewOf_none]
  · have hne : below (p ++ [c]) S ≠ ∅ := fun he =>
      children_ne_none_of_load hload ((h.children_eq_none_iff c).mpr he)
    rw [view_cons_of_load hload, hrep.live_eq, if_neg hne, viewOf_some]

theorem InnerAt.viewOf_live (c : UInt8) (r : Bytes) :
    viewOf db (live n) p (c :: r) = view db n p (c :: r) := by
  refine viewOf_live_cons fun hzero => ?_
  have hS : S = ∅ := Finset.card_eq_zero.mp (h.items ▸ hzero)
  exact (h.children_eq_none_iff c).mpr (by rw [hS, below_empty])

theorem InnerAt.live_eq (hne : S.Nonempty) : live n = some n :=
  live_of_ne (by rw [h.items]; exact (Finset.card_pos.mpr hne).ne')

theorem InnerAt.withChild_same (hc : (below (p ++ [c]) S).Nonempty)
    (hm : Represents db m (p ++ [c]) (below (p ++ [c]) S)) :
    InnerAt db (n.withChild c (some m) n.childHashes n.items) p S :=
  h.update (c := c) (m := m) h.items h.key h.cover (fun _ hc' => ⟨withChild_of_ne hc', rfl, rfl⟩)
    (Or.inr ⟨hc, withChild_self, h.cached hc hm, hm⟩)

end

/-! ## Splitting a leaf -/

/-- Splitting a leaf moves its key into a fresh leaf one level down; the node then is the inner node for the
    same one key. -/
theorem splitLeafNode_spec {hs : ByteMap Bytes} (db : RocksDB) (txn : RocksDbTransactionBatch) (fuel : Nat)
    (hdepth : uncompactedLength ≤ p.length) (hkc : p ++ [c] <+: k)
    (hstale : ∀ c', hs c' ≠ none → p ++ [c'] <+: k) :
    ∃ self txn', splitLeafNode (insert db (fuel + 1)) (leafNode hs k) txn p.length = (self, txn', .ok ()) ∧
      InnerAt db self p {k} ∧ Tracks ∅ ∅ db p (live (leafNode hs k)) (live self) txn txn' := by
  set leaf := leafNode ByteMap.empty k with hleaf
  have hdepth' : uncompactedLength ≤ (p ++ [c]).length := by simp only [List.length_append]; omega
  have hrep : Represents db leaf (p ++ [c]) {k} := .leaf hdepth' hkc fun _ hne => absurd rfl hne
  have hhash := hrep.hash_ne_nil (Finset.singleton_nonempty k)
  obtain ⟨hpk, hc⟩ := snoc_isPrefix_iff.mp hkc
  have htake : k.take p.length = p := (List.prefix_iff_eq_take.mp hpk).symm
  have hins : insert db (fuel + 1) new hs txn [k] (p.length + 1)
      = ⟨leaf, hs.insert c leaf.hash, leaf.putToTxn txn (p ++ [c]), .ok [true]⟩ := by
    rw [← updateHash_snoc hhash, hleaf, ← insert_new_deep fuel hdepth' hkc, List.length_append,
      List.length_singleton]
  set self : TrieNode :=
    ⟨1, ByteMap.insert ByteMap.empty c (.node leaf), (hs.insert c leaf.hash).insert c leaf.hash, none⟩
  have heq : splitLeafNode (insert db (fuel + 1)) (leafNode hs k) txn p.length
      = (self, self.putToTxn (leaf.putToTxn txn (p ++ [c])) p, .ok ()) := by
    simp only [splitLeafNode, leafNode_key, hc, leafNode_childHashes, hins, htake]
    rfl
  have hchildc : self.children c = some (.node leaf) := ByteMap.insert_self _ _ _
  have hchild : ∀ c', c' ≠ c → self.children c' = none := fun c' hc' => ByteMap.insert_of_ne _ _ _ _ hc'
  have hbelow : below (p ++ [c]) ({k} : Finset Bytes) = {k} := below_singleton hkc
  refine ⟨self, _, heq, ?_, ?_⟩
  · refine (innerAt_new db p).update (c := c) (m := leaf) rfl rfl ?_ ?_
      (Or.inr ⟨?_, hchildc, ByteMap.insert_self _ _ _, ?_⟩)
    · intro x hx
      rw [Finset.mem_singleton.mp hx]
      exact ⟨c, hkc⟩
    · intro c' hc'
      refine ⟨hchild c' hc', ?_, ?_⟩
      · -- a stale hash can only sit at the next nibble of the key, and that one is overwritten
        show ByteMap.insert (ByteMap.insert hs c leaf.hash) c leaf.hash c' = none
        rw [ByteMap.insert_of_ne _ _ _ _ hc', ByteMap.insert_of_ne _ _ _ _ hc']
        by_contra hne
        exact hc' (snoc_inj (hstale c' hne) hkc)
      · rw [below_empty, below_singleton_eq_empty_iff]
        exact fun hkc' => hc' (snoc_inj hkc' hkc)
    · rw [hbelow]; exact Finset.singleton_nonempty k
    · rw [hbelow]; exact hrep
  · have hbelow : TracksBelow ∅ ∅ db p (leafNode hs k) self txn (leaf.putToTxn txn (p ++ [c])) := by
      refine tracks_leafNode.below (fun r => ?_) (fun r => ?_) hchild
      · rw [view_cons_of_none rfl, live_of_eq rfl, viewOf_none]
      · rw [live_of_ne (by simp), viewOf_some, view_cons_of_load (getOrLoadChild_node hchildc)]
    rw [live_of_ne (by simp), live_of_ne (n := self) (by simp [self])]
    exact hbelow.finish (fun _ _ => rfl) (fun _ _ => Or.inr rfl) (Or.inl (putToTxn_eq db))

end TrieNode
end Hypersnap
