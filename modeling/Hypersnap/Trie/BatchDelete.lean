import Hypersnap.Trie.DeleteSpec
import Hypersnap.Trie.Groups

/-!
# `Trie.BatchDelete` — deleting many keys in one call

`TrieNode.delete` with a list of keys, on a node that holds `S` (`DeletedAll`): the node loses the keys of the
list, and the report is the one of deleting them one after the other. The call succeeds unless one of its keys
is a path to an inner node, that is, a prefix of two stored keys.

As for the insertion, the proof goes by an invariant of the loop over the groups (`Removed`) that every group
keeps (`Removed.step`).
-/

namespace Hypersnap
namespace TrieNode

open Overlay PrefixSet FirstSeen

variable [Blake3] {db : RocksDB} {n m : TrieNode} {p : Bytes} {S : Finset Bytes} {c : UInt8}
  {childHashes : ByteMap Bytes} {txn : RocksDbTransactionBatch}

/-- The outcome of deleting `keys` from the node `n` at `p`, which holds `S`. -/
structure DeletedAll (db : RocksDB) (n : TrieNode) (p : Bytes) (keys : List Bytes) (S : Finset Bytes)
    (childHashes : ByteMap Bytes) (txn : RocksDbTransactionBatch) (out : Outcome (List Bool)) : Prop extends
    Shrunk db n p S (S \ keys.toFinset) childHashes txn out where
  result : out.result = .ok (olds S keys)

/-! ## The loop over the groups -/

omit [Blake3] in
theorem deleteGroup_ok {del : NodeOp} {s : GroupLoop} {group : List (Nat × Bytes)} {rs : List Bool} {i : Nat}
    (hload : getOrLoadChild db s.node p c = .ok m)
    (hres : (del m s.node.childHashes s.txn (keysOf group) (i + 1)).result = .ok rs) :
    let out := del m s.node.childHashes s.txn (keysOf group) (i + 1)
    deleteGroup del db p i s c group =
      (⟨s.node.withChild c (live out.node)
          (if out.node.items = 0 then out.childHashes.remove c else out.childHashes) s.node.items,
        out.txn, scatter s.results group rs, s.successes + (group.zip rs).countP (·.2)⟩, none) := by
  have hsome : (s.node.children c).isNone = false := by
    rw [Option.isNone_eq_false_iff, Option.isSome_iff_ne_none]
    exact children_ne_none_of_load hload
  simp only [deleteGroup, hsome, hload, hres]
  by_cases hzero : (del m s.node.childHashes s.txn (keysOf group) (i + 1)).node.items = 0
  · simp [withChild, live_of_eq, hzero, ByteMap.insert, ByteMap.remove]
  · simp [withChild, live_of_ne, hzero, ByteMap.insert]

/-- The loop after the groups `done`, on a node `n` that goes from `S` to `T`; `rs₀` are the results it
    started with. -/
structure Removed (db : RocksDB) (n : TrieNode) (p : Bytes) (S T : Finset Bytes)
    (txn : RocksDbTransactionBatch) (rs₀ : List Bool) (done : List (UInt8 × List (Nat × Bytes)))
    (s : GroupLoop) : Prop where
  node : InnerAt db { s.node with items := s.node.items - s.successes } p (S \ keysIn done)
  items : s.node.items = S.card
  successes : s.successes = (S ∩ keysIn done).card
  length : s.results.length = rs₀.length
  other : ∀ i, (∀ cg ∈ done, i ∉ cg.2.map Prod.fst) → s.results[i]? = rs₀[i]?
  reports : ∀ cg ∈ done, readAt s.results cg.2 = olds S (keysOf cg.2)
  tracks : TracksBelow (orphanKeys p S T) (strayKeys p S T) db p n s.node txn s.txn
  untouched : S ∩ keysIn done = ∅ → s.txn = txn
  removed : ∀ key, s.txn key = some none → txn key = some none ∨ Dropped p S T key

variable {T : Finset Bytes} {keys : List (Nat × Bytes)} {rs₀ : List Bool}
  {done : List (UInt8 × List (Nat × Bytes))} {s : GroupLoop} {del : NodeOp} {group : List (Nat × Bytes)}
  {fuel : Nat} {hs : ByteMap Bytes} {k₀ : Bytes}

omit [Blake3] in
theorem below_sdiff_keysIn (hpending : Pending p keys rs₀)
    (hdone : ∀ cg ∈ done, cg ∈ (groupedKeys keys p.length).entries) (hc : c ∉ done.map Prod.fst) :
    below (p ++ [c]) (S \ keysIn done) = below (p ++ [c]) S := by
  ext k
  simp only [mem_below, Finset.mem_sdiff, and_assoc, and_congr_right_iff, and_iff_right_iff_imp]
  exact fun _ hkc => not_mem_keysIn hpending hdone hc hkc

omit [Blake3] in
theorem sdiff_keysIn_snoc :
    S \ keysIn (done ++ [(c, group)]) = (S \ keysIn done) \ (keysOf group).toFinset := by
  rw [keysIn_snoc, sdiff_sdiff_left]
  rfl

theorem Shrunk.innerAt {U : Finset Bytes} {ks : List Bytes} {out : Outcome (List Bool)} (h : InnerAt db n p U)
    (hload : getOrLoadChild db n p c = .ok m) (hextend : ∀ k ∈ ks, p ++ [c] <+: k)
    (hout : Shrunk db m (p ++ [c]) (below (p ++ [c]) U)
      (below (p ++ [c]) U \ ks.toFinset) n.childHashes txn out) :
    InnerAt db (n.withChild c (live out.node)
      (if out.node.items = 0 then out.childHashes.remove c else out.childHashes)
      (n.items - (U ∩ ks.toFinset).card)) p (U \ ks.toFinset) := by
  have hb : (below (p ++ [c]) U).Nonempty := by
    rw [Finset.nonempty_iff_ne_empty]
    exact fun he => children_ne_none_of_load hload ((h.children_eq_none_iff c).2 he)
  have hhashes := hout.childHashes_eq h hb
  have hbelow : below (p ++ [c]) (U \ ks.toFinset) = below (p ++ [c]) U \ ks.toFinset := by
    ext k
    simp only [mem_below, Finset.mem_sdiff]
    tauto
  refine h.update (c := c) (m := out.node) ?_ h.key ?_ (fun c' hc' => ⟨withChild_of_ne hc', ?_, ?_⟩) ?_
  · show n.items - (U ∩ ks.toFinset).card = _
    rw [h.items, Finset.card_sdiff, Finset.inter_comm]
  · exact fun k hk => h.cover k (Finset.mem_sdiff.1 hk).1
  · show (if out.node.items = 0 then out.childHashes.remove c else out.childHashes) c' = n.childHashes c'
    rw [hhashes, Function.update_of_ne hc']
  · ext k
    simp only [mem_below, Finset.mem_sdiff, and_congr_left_iff, and_iff_left_iff_imp]
    intro hkc' _ hk
    exact hc' (snoc_inj hkc' (hextend k (List.mem_toFinset.1 hk)))
  · rw [withChild_self, hout.live_eq, hbelow]
    by_cases he : below (p ++ [c]) U \ ks.toFinset = ∅
    · refine Or.inl ⟨he, by simp [he], ?_⟩
      show (if out.node.items = 0 then out.childHashes.remove c else out.childHashes) c = none
      rw [hhashes, Function.update_self, if_pos he]
    · have hne := Finset.nonempty_iff_ne_empty.mpr he
      refine Or.inr ⟨hne, by simp [he], ?_, hout.node (Or.inl hne)⟩
      show (if out.node.items = 0 then out.childHashes.remove c else out.childHashes) c = some out.node.hash
      rw [hhashes, Function.update_self, if_neg he]

section step

variable (h : Removed db n p S T txn rs₀ done s) (hpending : Pending p keys rs₀)
  (hdone : ∀ cg ∈ done, cg ∈ (groupedKeys keys p.length).entries)
  (hg : (c, group) ∈ (groupedKeys keys p.length).entries) (hc : c ∉ done.map Prod.fst)

include h hpending hdone hg hc

theorem Removed.card_inter_snoc :
    (S ∩ keysIn (done ++ [(c, group)])).card = s.successes + (S ∩ (keysOf group).toFinset).card := by
  rw [keysIn_snoc, Finset.inter_union_distrib_left, Finset.card_union_of_disjoint, h.successes]
  refine Finset.disjoint_left.2 fun k hk hk' => ?_
  have hkc := (hpending.mem_group hg (List.mem_toFinset.1 (Finset.mem_inter.1 hk').2)).2
  exact not_mem_keysIn hpending hdone hc hkc (Finset.mem_inter.1 hk).2

theorem Removed.scatter_group : (scatter s.results group (olds S (keysOf group))).length = rs₀.length ∧
    (∀ i, (∀ cg ∈ done ++ [(c, group)], i ∉ cg.2.map Prod.fst) →
      (scatter s.results group (olds S (keysOf group)))[i]? = rs₀[i]?) ∧
    ∀ cg ∈ done ++ [(c, group)],
      readAt (scatter s.results group (olds S (keysOf group))) cg.2 = olds S (keysOf cg.2) := by
  have hlength : (olds S (keysOf group)).length = group.length := by rw [length_olds, List.length_map]
  obtain ⟨hlen, hother, hsame, hread, -⟩ := hpending.scatter hdone hg hc h.length h.other hlength
  refine ⟨hlen, hother, fun cg hcg => ?_⟩
  obtain hcg | hcg := List.mem_append.1 hcg
  · rw [hsame cg hcg, h.reports cg hcg]
  · obtain rfl := List.mem_singleton.1 hcg
    exact hread

/-- A group for which there is no child: none of its keys is there. -/
theorem Removed.step_absent (hnone : s.node.children c = none) :
    ∃ s', deleteGroup del db p p.length s c group = (s', none) ∧
      Removed db n p S T txn rs₀ (done ++ [(c, group)]) s' := by
  have hb : below (p ++ [c]) S = ∅ :=
    below_sdiff_keysIn hpending hdone hc ▸ (h.node.children_eq_none_iff c).1 hnone
  have hnot : ∀ k ∈ keysOf group, k ∉ S := fun k hk hkS =>
    (below_nonempty_of_mem hkS (hpending.mem_group hg hk).2).ne_empty hb
  have hfalse : olds S (keysOf group) = group.map fun _ => false := by
    rw [olds_eq_false hnot, List.map_const', List.length_map]
  have hdisjoint : Disjoint S (keysOf group).toFinset :=
    Finset.disjoint_right.2 fun k hk => hnot k (List.mem_toFinset.1 hk)
  obtain ⟨hlen, hother, hreports⟩ := h.scatter_group hpending hdone hg hc
  refine ⟨{ s with results := scatter s.results group (group.map fun _ => false) },
    by simp [deleteGroup, hnone], ?_⟩
  rw [← hfalse]
  refine ⟨?_, h.items, ?_, hlen, hother, hreports, h.tracks, fun hempty => h.untouched ?_, h.removed⟩
  · rw [sdiff_keysIn_snoc, Finset.sdiff_eq_self_of_disjoint (hdisjoint.mono_left Finset.sdiff_subset)]
    exact h.node
  · rw [h.card_inter_snoc hpending hdone hg hc, Finset.disjoint_iff_inter_eq_empty.1 hdisjoint]
    rfl
  · rw [keysIn_snoc, Finset.inter_union_distrib_left, Finset.union_eq_empty] at hempty
    exact hempty.1

/-- A group that is passed on to a child. -/
theorem Removed.step_child (hT : below (p ++ [c]) S \ (keysOf group).toFinset = below (p ++ [c]) T)
    (hload : getOrLoadChild db s.node p c = .ok m)
    (hview : ∀ r, view db s.node p (c :: r) = viewOf db (live m) (p ++ [c]) r)
    (hout : DeletedAll db m (p ++ [c]) (keysOf group) (below (p ++ [c]) S) s.node.childHashes s.txn
      (del m s.node.childHashes s.txn (keysOf group) (p.length + 1))) :
    ∃ s', deleteGroup del db p p.length s c group = (s', none) ∧
      Removed db n p S T txn rs₀ (done ++ [(c, group)]) s' := by
  have hextend : ∀ k ∈ keysOf group, p ++ [c] <+: k := fun k hk => (hpending.mem_group hg hk).2
  have hbelow := below_sdiff_keysIn (S := S) hpending hdone hc
  have hlength : (olds S (keysOf group)).length = group.length := by rw [length_olds, List.length_map]
  have hres := hout.result
  rw [olds_congr fun k hk => mem_below.trans (and_iff_left (hextend k hk))] at hres
  have hshrunk := hout.toShrunk
  obtain ⟨hlen, hother, hreports⟩ := h.scatter_group hpending hdone hg hc
  have hcount := h.card_inter_snoc hpending hdone hg hc
  refine ⟨_, deleteGroup_ok hload hres, ?_⟩
  generalize del m s.node.childHashes s.txn (keysOf group) (p.length + 1) = out at hshrunk hres ⊢
  have hzip : (group.zip (olds S (keysOf group))).countP (·.2) = (S ∩ (keysOf group).toFinset).card := by
    rw [countP_zip_snd hlength, countP_olds]
  refine ⟨?_, h.items, by rw [hzip, hcount], hlen, hother, hreports, ?_, fun hnone => ?_, fun key hkey => ?_⟩
  · have hinner :=
      Shrunk.innerAt (n := { s.node with items := s.node.items - s.successes }) h.node hload hextend
      (hbelow.symm ▸ hshrunk)
    have hsame : (S \ keysIn done) ∩ (keysOf group).toFinset = S ∩ (keysOf group).toFinset := by
      ext k
      simp only [Finset.mem_inter, Finset.mem_sdiff, and_assoc, and_congr_right_iff, and_iff_right_iff_imp]
      exact fun _ hk => not_mem_keysIn hpending hdone hc (hextend k (List.mem_toFinset.1 hk))
    rw [sdiff_keysIn_snoc]
    rw [hsame, ← hzip, Nat.sub_sub] at hinner
    exact hinner
  · rw [hT] at hshrunk
    exact h.tracks.trans ((hshrunk.tracks.mono orphanKeys_below strayKeys_below).below hview
      (fun r => view_withChild r) fun c' hc' => withChild_of_ne hc')
  · rw [keysIn_snoc, Finset.inter_union_distrib_left, Finset.union_eq_empty] at hnone
    rw [hshrunk.untouched, h.untouched hnone.1]
    refine Finset.sdiff_eq_self_of_disjoint (Finset.disjoint_left.2 fun k hk hkg => ?_)
    exact Finset.notMem_empty k (hnone.2 ▸ Finset.mem_inter.2 ⟨below_subset hk, hkg⟩)
  · rw [hT] at hshrunk
    exact (hshrunk.removed key hkey).elim (h.removed key) fun hdropped => Or.inr hdropped.of_below

/-- **One group.** -/
theorem Removed.step (hT : below (p ++ [c]) S \ (keysOf group).toFinset = below (p ++ [c]) T)
    (hdel : ∀ m hs txn, Represents db m (p ++ [c]) (below (p ++ [c]) S) →
      DeletedAll db m (p ++ [c]) (keysOf group) (below (p ++ [c]) S) hs txn
        (del m hs txn (keysOf group) (p.length + 1))) :
    ∃ s', deleteGroup del db p p.length s c group = (s', none) ∧
      Removed db n p S T txn rs₀ (done ++ [(c, group)]) s' := by
  obtain ⟨m, hm, hrep⟩ := h.node.childFor c
  have hview := h.node.view_child hm hrep
  rw [below_sdiff_keysIn hpending hdone hc] at hrep
  obtain ⟨hnone, -⟩ | hload := hm
  · exact h.step_absent hpending hdone hg hc hnone
  · refine h.step_child hpending hdone hg hc hT hload (fun r => ?_) (hdel m s.node.childHashes s.txn hrep)
    rw [← hview]
    exact view_cons_congr rfl

end step

/-! ## One level of deletion -/

omit [Blake3] in
/-- A group has all keys that go to its child. -/
theorem sdiff_keysOf_group {keys : List Bytes}
    (hg : (c, group) ∈ (groupedKeys (withPositions keys 0) p.length).entries) :
    below (p ++ [c]) S \ (keysOf group).toFinset = below (p ++ [c]) (S \ keys.toFinset) := by
  have hgroup := keysOf_group hg
  rw [keysOf_withPositions] at hgroup
  ext k
  simp only [mem_below, Finset.mem_sdiff, hgroup, List.mem_toFinset, List.mem_filter, decide_eq_true_iff]
  refine ⟨fun ⟨⟨hk, hkc⟩, hnot⟩ => ⟨⟨hk, fun hmem => hnot ⟨hmem, (snoc_isPrefix_iff.1 hkc).2⟩⟩, hkc⟩, ?_⟩
  exact fun ⟨⟨hk, hnot⟩, hkc⟩ => ⟨⟨hk, hkc⟩, fun hmem => hnot hmem.1⟩

/-- **One level of deletion.** If the keys are deleted correctly from the children, so they are from the
    node. -/
theorem delete_inner_all {keys : List Bytes} (h : InnerAt db n p S) (hne : S.Nonempty)
    (hshape : p.length < uncompactedLength ∨ 2 ≤ S.card) (hkeys : keys ≠ []) (hp : ∀ k ∈ keys, p <+: k)
    (hlonger : ∀ k ∈ keys, p.length < k.length)
    (hdel : ∀ c ks m hs txn, ks ≠ [] → (∀ k ∈ ks, k ∈ keys ∧ p ++ [c] <+: k) →
      Represents db m (p ++ [c]) (below (p ++ [c]) S) →
      DeletedAll db m (p ++ [c]) ks (below (p ++ [c]) S) hs txn (delete db fuel m hs txn ks (p.length + 1))) :
    DeletedAll db n p keys S childHashes txn (delete db (fuel + 1) n childHashes txn keys p.length) := by
  have hpending := pending_call hp hlonger
  have hstart : Removed db n p S (S \ keys.toFinset) txn (List.replicate keys.length false) []
      ⟨n, txn, List.replicate keys.length false, 0⟩ := by
    refine ⟨?_, h.items, by simp, rfl, fun _ _ => rfl, (fun _ hcg => nomatch hcg), .refl, fun _ => rfl,
      fun _ => Or.inl⟩
    rw [keysIn_nil, Finset.sdiff_empty]
    cases n
    exact h
  obtain ⟨s, hloop, hs⟩ := forGroups_induction (fun done c group s hdone hg hc hs =>
    hs.step hpending hdone hg hc (sdiff_keysOf_group hg) fun m hs txn => hdel c (keysOf group) m hs txn
      (keysOf_ne_nil hg) fun k hk => by
        have hmem := hpending.mem_group hg hk
        rwa [keysOf_withPositions] at hmem) hstart
  obtain ⟨hnode, -, hsuccesses, hlength, -, hreports, htracks, huntouched, hremoved⟩ := hs
  rw [hpending.keysIn_entries, keysOf_withPositions] at hnode hsuccesses huntouched
  rw [List.length_replicate] at hlength
  have hresults : s.results = olds S keys := by
    refine eq_of_select (fun k : Bytes => k[p.length]?) hlength length_olds fun k hk => ?_
    obtain ⟨c, hkc⟩ := exists_snoc_isPrefix (hp k hk) (hlonger k hk)
    have hc := (snoc_isPrefix_iff.1 hkc).2
    have hread : readAt s.results (withPositions keys 0) = s.results :=
      @readAt_withPositions keys [] _ hlength
    rw [← keysOf_withPositions keys 0] at hk
    obtain ⟨ik, hik, rfl⟩ := List.mem_map.1 hk
    obtain ⟨group, hg, -⟩ := exists_group hik hc
    have hselect := select_group hg s.results
    have hgroup := keysOf_group hg
    rw [keysOf_withPositions] at hselect hgroup
    rw [hread] at hselect
    simp only [hc]
    rw [hselect, hreports _ hg, select_olds (T := S) fun _ _ => Iff.rfl, hgroup]
  obtain ⟨hres, hshrunk⟩ := deleteFinish_spec childHashes ⟨h, hne, hshape, Finset.sdiff_subset,
    by rw [hsuccesses, Nat.add_comm, Finset.card_sdiff_add_card_inter], hnode, htracks, fun heq =>
      huntouched (Finset.disjoint_iff_inter_eq_empty.1 (Finset.sdiff_eq_self_iff_disjoint.1 heq)), hremoved⟩
  have heq : delete db (fuel + 1) n childHashes txn keys p.length =
      deleteFinish db p childHashes p.length s := by
    obtain _ | ⟨key₀, keys⟩ := keys
    · exact absurd rfl hkeys
    have htake : key₀.take p.length = p := (List.prefix_iff_eq_take.mp (hp key₀ (.head _))).symm
    have hany : ((key₀ :: keys).any fun key => decide (key.length ≤ p.length)) = false := by
      rw [List.any_eq_false]
      exact fun k hk => by simpa using hlonger k hk
    simp only [delete, deleteStep, h.not_isLeaf hne, hany, htake, List.map_const',
      Bool.false_eq_true, if_false]
    rw [hloop]
    rfl
  rw [heq]
  exact ⟨hshrunk, hresults ▸ hres⟩

/-! ## The recursion -/

theorem delete_leaf_none {keys : List Bytes} (hkeys : keys ≠ []) (hleaf : n.isLeaf = true)
    (hmiss : ∀ k ∈ keys, n.key.getD [] ≠ k) : delete db (fuel + 1) n childHashes txn keys p.length
      = ⟨n, childHashes, txn, .ok (List.replicate keys.length false)⟩ := by
  obtain _ | ⟨key₀, rest⟩ := keys
  · exact absurd rfl hkeys
  have hfind :
      ((key₀ :: rest).findIdx? fun key => decide (bytesCompare (n.key.getD []) key = .eq)) = none := by
    rw [List.findIdx?_eq_none_iff]
    exact fun k hk => decide_eq_false fun heq => hmiss k hk (bytesCompare_eq_iff.1 heq)
  simp only [delete, deleteStep, hleaf, hfind, List.map_const', if_true]

theorem delete_leaf_some {a b : List Bytes} (hp : ∀ k ∈ a ++ k₀ :: b, p <+: k) (hk₀ : k₀ ∉ a) :
    let dead : TrieNode := { leafNode hs k₀ with key := none, items := 0 }
    delete db (fuel + 1) (leafNode hs k₀) childHashes txn (a ++ k₀ :: b) p.length
      = ⟨dead, dead.updateHash childHashes p, deleteToTxn txn p,
          .ok (List.replicate a.length false ++ true :: List.replicate b.length false)⟩ := by
  obtain ⟨key₀, rest, hcons⟩ := List.exists_cons_of_ne_nil (l := a ++ k₀ :: b) (by simp)
  have htake : key₀.take p.length = p :=
    (List.prefix_iff_eq_take.mp (hp key₀ (hcons ▸ List.mem_cons_self))).symm
  have hfind :
      ((key₀ :: rest).findIdx? fun key => decide (bytesCompare ((leafNode hs k₀).key.getD []) key = .eq))
      = some a.length := by
    have hnone :
        (a.findIdx? fun key => decide (bytesCompare ((leafNode hs k₀).key.getD []) key = .eq)) = none := by
      rw [List.findIdx?_eq_none_iff]
      intro k hk
      refine decide_eq_false fun heq => hk₀ ?_
      obtain rfl : k₀ = k := bytesCompare_eq_iff.1 heq
      exact hk
    rw [← hcons, List.findIdx?_append, hnone, List.findIdx?_cons]
    simp [bytesCompare_eq_iff]
  have hresults : ((key₀ :: rest).map fun _ => false).set a.length true
      = List.replicate a.length false ++ true :: List.replicate b.length false := by
    rw [← hcons, List.map_const', List.length_append, List.length_cons, List.replicate_add,
      List.replicate_succ, List.set_append_right _ _ (by simp)]
    simp
  intro dead
  rw [hcons]
  simp only [delete, deleteStep, isLeaf_leafNode, hfind, hresults, htake, if_true]
  rfl

theorem shrunk_leaf {r : Except TrieError (List Bool)} (hdepth : uncompactedLength ≤ p.length)
    (hk₀ : p <+: k₀) :
    let dead : TrieNode := { leafNode hs k₀ with key := none, items := 0 }
    Shrunk db (leafNode hs k₀) p {k₀} ∅ childHashes txn
      ⟨dead, dead.updateHash childHashes p, deleteToTxn txn p, r⟩ := by
  intro dead
  have hhash : dead.hash = [] := by
    show hash ⟨0, ByteMap.empty, hs, none⟩ = []
    simp [hash, isLeaf]
  have hne : ∅ ≠ ({k₀} : Finset Bytes) := (Finset.singleton_ne_empty k₀).symm
  refine ⟨fun h => ?_, fun _ => ⟨rfl, hhash⟩, by rw [if_neg hne], ?_, fun h =>
    absurd h hne, fun key hkey => ?_⟩
  · obtain h | h := h
    · exact absurd h Finset.not_nonempty_empty
    · omega
  · rw [live_of_ne (n := leafNode hs k₀) (by simp), live_of_eq (n := dead) rfl, deleteToTxn_eq db]
    exact Tracks.write fun c r => by rw [viewOf_some, viewOf_none, view_cons_of_none rfl]
  · exact (deleteToTxn_delete hkey).symm.imp_right fun h =>
      Or.inr ⟨p, h,
        List.prefix_rfl, by rw [below_singleton hk₀]; exact Finset.singleton_nonempty k₀, below_empty⟩

/-- **Deletion of many keys.** On a node that holds `S`, provided no key of the list is a prefix of two keys
    of `S`. -/
theorem delete_all_spec (fuel : Nat) {keys : List Bytes} (h : Represents db n p S) (hne : keys ≠ [])
    (hp : ∀ k ∈ keys, p <+: k) (hlen : ∀ k ∈ keys, uncompactedLength ≤ k.length)
    (hpath : ∀ k ∈ keys, (below k S).card ≤ 1) (hfuel : ∀ k ∈ keys, k.length + 1 ≤ fuel + p.length) :
    DeletedAll db n p keys S childHashes txn (delete db fuel n childHashes txn keys p.length) := by
  induction fuel generalizing n p S childHashes txn keys with
  | zero => exact absurd (le_fuel hne hp hfuel) (by decide)
  | succ fuel ih =>
    rcases h.inv with ⟨rfl, rfl⟩ | ⟨k₀, hs, rfl, rfl, hdepth, hpk₀, hstale⟩ | ⟨hSne, hshape, hinner⟩
    · have hmiss : ∀ k ∈ keys, new.key.getD [] ≠ k := by
        rintro k hk rfl
        have := hlen _ hk
        simp [uncompactedLength] at this
      rw [delete_leaf_none hne isLeaf_new hmiss]
      refine ⟨?_, by rw [olds_eq_false (by simp)]⟩
      rw [Finset.empty_sdiff]
      exact .refl h _
    · by_cases hk₀ : k₀ ∈ keys
      · obtain ⟨a, b, rfl, ha⟩ := List.eq_append_cons_of_mem hk₀
        have hsub : ({k₀} : Finset Bytes) \ (a ++ k₀ :: b).toFinset = ∅ := by
          rw [Finset.sdiff_eq_empty_iff_subset, Finset.singleton_subset_iff, List.mem_toFinset]
          exact hk₀
        rw [delete_leaf_some hp ha]
        refine ⟨?_, by rw [olds_singleton_split ha]⟩
        rw [hsub]
        exact shrunk_leaf hdepth hpk₀
      · have hmiss : ∀ k ∈ keys, k ∉ ({k₀} : Finset Bytes) := fun k hk heq =>
          hk₀ (Finset.mem_singleton.1 heq ▸ hk)
        have hdisj : Disjoint ({k₀} : Finset Bytes) keys.toFinset :=
          Finset.disjoint_right.2 fun k hk => hmiss k (List.mem_toFinset.1 hk)
        rw [delete_leaf_none hne (isLeaf_leafNode hs k₀) fun k hk heq => hmiss k hk (by simpa using heq.symm)]
        refine ⟨?_, by rw [olds_eq_false hmiss]⟩
        rw [Finset.sdiff_eq_self_of_disjoint hdisj]
        exact .refl h _
    · have hlonger : ∀ k ∈ keys, p.length < k.length := by
        intro k hk
        obtain hlt | h2 := hshape
        · exact Nat.lt_of_lt_of_le hlt (hlen k hk)
        · refine Nat.lt_of_le_of_ne (hp k hk).length_le fun heq => ?_
          -- the key is the path of the node itself
          obtain rfl := (hp k hk).eq_of_length heq
          have hall : below p S = S := below_eq_self fun x hx => h.isPrefix hx
          have := hpath p hk
          rw [hall] at this
          omega
      refine delete_inner_all hinner hSne hshape hne hp hlonger fun c ks m hs txn hks hmem hrep => ?_
      have hlength : p.length + 1 = (p ++ [c]).length := by simp
      rw [hlength]
      exact ih hrep hks (fun k hk => (hmem k hk).2) (fun k hk => hlen k (hmem k hk).1) (fun k hk =>
        (Finset.card_le_card (Finset.filter_subset_filter _ below_subset)).trans (hpath k (hmem k hk).1))
        (fuel_child hfuel hmem)

/-! ## One key -/

section single

variable {k : Bytes}

/-- Deleting `k` compacts the node at `q`, at or below `p`: it is deep enough, on the way to `k`, and holds
    exactly two keys. -/
def Compacts (p k : Bytes) (S : Finset Bytes) (q : Bytes) : Prop :=
  k ∈ S ∧ p <+: q ∧ q <+: k ∧ uncompactedLength ≤ q.length ∧ (below q S).card = 2

/-- Keys of nodes that a compaction may leave behind. -/
def orphans (p k : Bytes) (S : Finset Bytes) : Set Bytes :=
  {key | ∃ q c, Compacts p k S q ∧ key = nodeKey (q ++ [c])}

/-- Keys that a compaction may delete by mistake: the key of a child, taken as a path, has a key of its
    own. -/
def strays (p k : Bytes) (S : Finset Bytes) : Set Bytes :=
  {key | ∃ q c, Compacts p k S q ∧ key = nodeKey (nodeKey (q ++ [c]))}

omit [Blake3] in
theorem Compacted.compacts {q : Bytes} (h : Compacted p S (S.erase k) q) : Compacts p k S q := by
  obtain ⟨hpq, hlen, hS, hT⟩ := h
  -- the set below `q` changes, so the key is there
  have hk : k ∈ PrefixSet.below q S := by
    by_contra hk
    rw [below_erase, Finset.erase_eq_of_notMem hk] at hT
    omega
  rw [below_erase, Finset.card_erase_of_mem hk] at hT
  exact ⟨(mem_below.1 hk).1, hpq, (mem_below.1 hk).2, hlen, by omega⟩

/-- The outcome of deleting `k` from the node `n` at `p`, which holds `S`. -/
structure Deleted (db : RocksDB) (n : TrieNode) (p k : Bytes) (S : Finset Bytes) (childHashes : ByteMap Bytes)
    (txn : RocksDbTransactionBatch) (out : Outcome (List Bool)) : Prop where
  result : out.result = .ok [decide (k ∈ S)]
  node : (S.erase k).Nonempty ∨ p.length < uncompactedLength → Represents db out.node p (S.erase k)
  dead : S.erase k = ∅ → out.node.items = 0 ∧ out.node.hash = []
  hashes : out.childHashes = if k ∈ S then out.node.updateHash childHashes p else childHashes
  tracks : Tracks (orphans p k S) (strays p k S) db p (live n) (live out.node) txn out.txn
  untouched : k ∉ S → out.txn = txn
  removed : ∀ key, out.txn key = some none →
    txn key = some none ∨ key ∈ strays p k S ∨ ∃ q, key = nodeKey q ∧ p <+: q ∧ below q S = {k}

/-- **Deletion is correct.** On a node that holds `S`, deleting `k` yields a node that holds `S.erase k`, with
    the parent's hash kept up to date, provided no key of `insert k S` is a prefix of another one; and the
    batch records the change but for compacted nodes. -/
theorem delete_spec (fuel : Nat) (h : Represents db n p S) (hpk : p <+: k)
    (hlen : uncompactedLength ≤ k.length)
    (hanti : IsAntichain (· <+: ·) ((Insert.insert k S : Finset Bytes) : Set Bytes))
    (hfuel : k.length + 1 ≤ fuel + p.length) :
    Deleted db n p k S childHashes txn (delete db fuel n childHashes txn [k] p.length) := by
  have hpath : (below k S).card ≤ 1 := by
    refine Finset.card_le_one_iff_subset_singleton.2 ⟨k, fun x hx => Finset.mem_singleton.2 ?_⟩
    obtain ⟨hx, hkx⟩ := mem_below.1 hx
    exact (hanti.eq (Finset.mem_insert_self k S) (Finset.mem_insert_of_mem hx) hkx).symm
  have hall : DeletedAll db n p [k] S childHashes txn (delete db fuel n childHashes txn [k] p.length) :=
    delete_all_spec fuel h (by simp) (by simpa using hpk) (by simpa using hlen) (by simpa using hpath)
      (by simpa using hfuel)
  have hset : S \ [k].toFinset = S.erase k := Finset.sdiff_singleton_eq_erase k S
  obtain ⟨hshrunk, hres⟩ := hall
  rw [hset] at hshrunk
  obtain ⟨hnode, hdead, hhashes, htracks, huntouched, hremoved⟩ := hshrunk
  have horphans : orphanKeys p S (S.erase k) ⊆ orphans p k S :=
    fun _ ⟨q, c, hq, hkey⟩ => ⟨q, c, hq.compacts, hkey⟩
  have hstrays : strayKeys p S (S.erase k) ⊆ strays p k S :=
    fun _ ⟨q, c, hq, hkey⟩ => ⟨q, c, hq.compacts, hkey⟩
  refine ⟨?_, hnode, hdead, ?_, htracks.mono horphans hstrays, fun hk =>
    huntouched (Finset.erase_eq_of_notMem hk), fun key hkey =>
    (hremoved key hkey).imp_right (Or.imp (fun h => hstrays h) ?_)⟩
  · rw [hres]
    simp [olds]
  · simpa [ite_not, Finset.erase_eq_self] using hhashes
  · rintro ⟨q, rfl, hpq, hS, hT⟩
    refine ⟨q, rfl, hpq, Finset.eq_singleton_iff_nonempty_unique_mem.2 ⟨hS, fun x hx => ?_⟩⟩
    by_contra hne
    exact Finset.notMem_empty x (hT ▸ below_erase (S := S) ▸ Finset.mem_erase.2 ⟨hne, hx⟩)

end single

end TrieNode
end Hypersnap
