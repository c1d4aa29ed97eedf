import Hypersnap.Trie.InsertSpec
import Hypersnap.Trie.Invariants

/-!
# `Trie.BatchInsert` — inserting many keys in one call

`TrieNode.insert` with a list of keys, on a node that holds `S` (`InsertedAll`). The node then holds the keys
of the list as well, and as many results are `true` as there are new keys. Which results these are is another
matter. The keys are passed on in groups, and a group that meets an **empty leaf** leaves its *last* key
there, reports the *first* position as inserted and moves the positions of all other keys by one. So the
report is the one of single insertions in another order, `insertOrder` (`Reports`).

The proof goes by an invariant of the loop over the groups (`Distributed`) that every group keeps
(`Distributed.step`).
-/

namespace Hypersnap
namespace TrieNode

open Overlay PrefixSet FirstSeen

variable {rs : List Bool} {k₀ : Bytes} {fuel : Nat}

/-! ## The order in which a call takes its keys -/

/-- Keys that are not in `S`, in the order in which a call at `p` takes them, on a node that holds `S`. -/
def insertOrder : Nat → Bytes → Finset Bytes → List Bytes → List Bytes
  | 0, _, _, keys => keys
  | fuel + 1, p, S, keys =>
    -- the keys of a group keep to the positions of the group
    let passOn := fun (S : Finset Bytes) (keys : List Bytes) => weave (·[p.length]?)
      (fun
        | some c => insertOrder fuel (p ++ [c]) (below (p ++ [c]) S) (keys.filter (·[p.length]? = some c))
        | none => keys.filter (·[p.length]? = none)) keys
    if S = ∅ ∧ uncompactedLength ≤ p.length then
      match keys.getLast? with
      -- an empty leaf takes the last key first; its repetitions stay where they are
      | some x => x :: weave (decide <| · = x)
          (fun own => if own then keys.dropLast.filter (· = x) else passOn {x} (keys.dropLast.filter (· ≠ x)))
          keys.dropLast
      | none => []
    else passOn S keys

variable {p : Bytes} {S : Finset Bytes} {c : UInt8} {keys : List Bytes} {group : List (Nat × Bytes)}
  {x : Bytes}

theorem insertOrder_inner (hshape : p.length < uncompactedLength ∨ S.Nonempty) :
    insertOrder (fuel + 1) p S keys = weave (·[p.length]?)
      (fun
        | some c => insertOrder fuel (p ++ [c]) (below (p ++ [c]) S) (keys.filter (·[p.length]? = some c))
        | none => keys.filter (·[p.length]? = none)) keys := by
  have hcond : ¬ (S = ∅ ∧ uncompactedLength ≤ p.length) := by
    rintro ⟨hS, hdepth⟩
    exact hshape.elim (fun hlt => absurd hdepth (Nat.not_le.2 hlt)) fun hne => hne.ne_empty hS
  rw [insertOrder, if_neg hcond]

theorem insertOrder_empty (hdepth : uncompactedLength ≤ p.length) :
    insertOrder (fuel + 1) p ∅ (keys ++ [x]) = x :: weave (decide <| · = x)
      (fun own => if own then keys.filter (· = x) else insertOrder (fuel + 1) p {x} (keys.filter (· ≠ x)))
        keys := by
  rw [insertOrder_inner (.inr (Finset.singleton_nonempty x)), insertOrder, if_pos ⟨rfl, hdepth⟩,
    List.getLast?_concat, List.dropLast_concat]

theorem insertOrder_spec : (insertOrder fuel p S keys).length = keys.length ∧
    ∀ k ∈ insertOrder fuel p S keys, k ∈ keys := by
  induction fuel generalizing p S keys with
  | zero => exact ⟨rfl, fun _ => id⟩
  | succ fuel ih =>
    have hinner : ∀ {S : Finset Bytes} {keys : List Bytes}, (p.length < uncompactedLength ∨ S.Nonempty) →
        (insertOrder (fuel + 1) p S keys).length = keys.length ∧
          ∀ k ∈ insertOrder (fuel + 1) p S keys, k ∈ keys := by
      intro S keys hshape
      rw [insertOrder_inner hshape]
      refine ⟨length_weave, fun k hk => ?_⟩
      obtain hk | ⟨_ | c, hk⟩ := mem_weave hk
      · exact hk
      · exact List.mem_of_mem_filter hk
      · exact List.mem_of_mem_filter (ih.2 k hk)
    by_cases hshape : p.length < uncompactedLength ∨ S.Nonempty
    · exact hinner hshape
    · rw [not_or, Nat.not_lt, Finset.not_nonempty_iff_eq_empty] at hshape
      obtain ⟨hdepth, rfl⟩ := hshape
      obtain rfl | ⟨keys, x, rfl⟩ := List.eq_nil_or_concat' keys
      · rw [insertOrder, if_pos ⟨rfl, hdepth⟩]
        exact ⟨rfl, fun _ => id⟩
      · rw [insertOrder_empty hdepth]
        refine ⟨by simp, fun k hk => ?_⟩
        obtain rfl | hk := List.mem_cons.1 hk
        · simp
        · refine List.mem_append_left _ ?_
          obtain hk | ⟨_ | _, hk⟩ := mem_weave hk
          · exact hk
          · exact List.mem_of_mem_filter ((hinner (.inr (Finset.singleton_nonempty x))).2 k hk)
          · exact List.mem_of_mem_filter hk

/-! ## Reports -/

/-- The report `rs` of a call with `keys` below `p`, where the keys `S` were: nothing for the known keys, and
    for the new ones the report of single insertions in the order of the call. -/
structure Reports (p : Bytes) (S : Finset Bytes) (keys : List Bytes) (rs : List Bool) : Prop where
  length : rs.length = keys.length
  known : select (· ∈ S) keys rs = (keys.filter (· ∈ S)).map fun _ => false
  new : ∀ fuel, (∀ k ∈ keys, k.length < fuel + p.length) →
    select (· ∉ S) keys rs = news ∅ (insertOrder fuel p S (keys.filter (· ∉ S)))

theorem Reports.of_known (h : ∀ k ∈ keys, k ∈ S) : Reports p S keys (List.replicate keys.length false) := by
  refine ⟨List.length_replicate, ?_, fun fuel _ => ?_⟩
  · rw [select_of_forall h List.length_replicate, List.filter_eq_self.2 fun k hk => decide_eq_true (h k hk),
      List.map_const']
  · have hnot : ∀ k ∈ keys, ¬ k ∉ S := fun k hk => not_not.2 (h k hk)
    have hnil : insertOrder fuel p S (keys.filter (· ∉ S)) = [] := by
      rw [List.filter_eq_nil_iff.2 fun k hk => by simpa using h k hk]
      exact List.length_eq_zero_iff.1 insertOrder_spec.1
    rw [select_eq_nil hnot, hnil, news_nil]

theorem select_of_groups {keys : List (Nat × Bytes)} {rs₀ : List Bool} (hpending : Pending p keys rs₀)
    {Q : Bytes → Prop} [DecidablePred Q] {target : List Bool}
    (hlength : target.length = ((keysOf keys).filter (Q ·)).length)
    (hgroups : ∀ cg ∈ (groupedKeys keys p.length).entries, select Q (keysOf cg.2) (readAt rs cg.2) =
      select (·[p.length]? = some cg.1) ((keysOf keys).filter (Q ·)) target) :
    select Q (keysOf keys) (readAt rs keys) = target := by
  refine eq_of_select
    (fun k : Bytes => k[p.length]?) (length_select (length_readAt _ _)) hlength fun k hk => ?_
  obtain ⟨ik, hik, rfl⟩ := List.mem_map.1 (List.mem_of_mem_filter hk)
  obtain ⟨c, hkc⟩ := hpending.extend ik hik
  have hc := (snoc_isPrefix_iff.1 hkc).2
  obtain ⟨group, hg, -⟩ := exists_group hik hc
  simp only [hc]
  rw [select_comm, select_group hg, ← keysOf_group hg]
  exact hgroups _ hg

theorem filter_group {keys : List (Nat × Bytes)} (hg : (c, group) ∈ (groupedKeys keys p.length).entries)
    {Q Q' : Bytes → Prop} [DecidablePred Q] [DecidablePred Q'] (h : ∀ k ∈ keysOf group, Q k ↔ Q' k) :
    (keysOf group).filter (Q' ·) = ((keysOf keys).filter (Q ·)).filter (·[p.length]? = some c) := by
  rw [← List.filter_congr fun k hk => decide_eq_decide.2 (h k hk), keysOf_group hg, List.filter_comm]

/-- **The report of an inner node** is made of the reports of its groups. -/
theorem Reports.of_groups {keys : List (Nat × Bytes)} {rs₀ : List Bool} (hpending : Pending p keys rs₀)
    (hshape : p.length < uncompactedLength ∨ S.Nonempty)
    (hgroups : ∀ cg ∈ (groupedKeys keys p.length).entries,
      Reports (p ++ [cg.1]) (below (p ++ [cg.1]) S) (keysOf cg.2) (readAt rs cg.2)) :
    Reports p S (keysOf keys) (readAt rs keys) := by
  -- in a group, to be in the set is to be in the part of the child
  have hmem : ∀ cg ∈ (groupedKeys keys p.length).entries, ∀ k ∈ keysOf cg.2,
      k ∈ S ↔ k ∈ below (p ++ [cg.1]) S := by
    intro cg hcg k hk
    rw [mem_below, and_iff_left (hpending.mem_group hcg hk).2]
  refine ⟨length_readAt _ _, ?_, fun fuel hfuel => ?_⟩
  · refine select_of_groups hpending (List.length_map _) fun cg hcg => ?_
    rw [select_congr (hmem cg hcg), (hgroups cg hcg).known, select_const, filter_group hcg (hmem cg hcg)]
  · cases fuel with
    | zero =>
      -- every key is longer than `p`
      obtain rfl : keys = [] := by
        refine List.eq_nil_iff_forall_not_mem.2 fun ik hik => ?_
        obtain ⟨c, hc⟩ := hpending.extend ik hik
        have := hfuel ik.2 (List.mem_map_of_mem hik)
        have := length_lt_of_snoc hc
        omega
      rfl
    | succ fuel =>
      rw [insertOrder_inner hshape]
      refine select_of_groups hpending (by rw [length_news, length_weave]) fun cg hcg => ?_
      have hnot : ∀ k ∈ keysOf cg.2, k ∉ S ↔ k ∉ below (p ++ [cg.1]) S :=
        fun k hk => not_congr (hmem cg hcg k hk)
      rw [select_congr hnot, (hgroups cg hcg).new fuel fun k hk => ?_, filter_group hcg hnot,
        select_news_weave]
      · rintro (_ | c)
        · rfl
        · exact insertOrder_spec.1
      · rintro (_ | c) k hk
        · exact of_decide_eq_true (List.mem_filter.1 hk).2
        · exact of_decide_eq_true (List.mem_filter.1 (insertOrder_spec.2 k hk)).2
      · have := hfuel k (hpending.mem_group hcg hk).1
        rw [List.length_append, List.length_singleton]
        omega

/-! ## The outcome of a call -/

variable [Blake3] {db : RocksDB} {n m : TrieNode} {childHashes : ByteMap Bytes}
  {txn : RocksDbTransactionBatch} {out : Outcome (List Bool)}

/-- The outcome of inserting `keys` into the node `n` at `p`, which holds `S`. -/
structure InsertedAll (db : RocksDB) (n : TrieNode) (p : Bytes) (keys : List Bytes) (S : Finset Bytes)
    (childHashes : ByteMap Bytes) (txn : RocksDbTransactionBatch) (out : Outcome (List Bool)) : Prop where
  result : ∃ rs, out.result = .ok rs ∧ Reports p S keys rs ∧ rs.countP id = (keys.toFinset \ S).card
  node : Represents db out.node p (S ∪ keys.toFinset)
  hashes : out.childHashes = if keys.toFinset ⊆ S then childHashes else out.node.updateHash childHashes p
  tracks : Tracks ∅ ∅ db p (live n) (live out.node) txn out.txn

theorem InsertedAll.childHashes_eq (h : InnerAt db n p S) (hne : keys ≠ [])
    (hout : InsertedAll db m (p ++ [c]) keys (below (p ++ [c]) S) n.childHashes txn out) :
    out.childHashes = n.childHashes.insert c out.node.hash := by
  obtain ⟨k, hk⟩ := List.exists_mem_of_ne_nil keys hne
  rw [hout.hashes]
  split
  next hsub =>
    have hnode : Represents db out.node (p ++ [c]) (PrefixSet.below (p ++ [c]) S) := by
      rw [← Finset.union_eq_left.2 hsub]
      exact hout.node
    have hb : (PrefixSet.below (p ++ [c]) S).Nonempty := ⟨k, hsub (List.mem_toFinset.2 hk)⟩
    rw [ByteMap.insert, ← h.cached hb hnode, Function.update_eq_self]
  next =>
    exact updateHash_snoc (hout.node.hash_ne_nil ⟨k, Finset.mem_union_right _ (List.mem_toFinset.2 hk)⟩)

/-! ## The loop over the groups -/

omit [Blake3] in
theorem insertGroup_cases {ins : NodeOp} {s : GroupLoop} {i : Nat} (hm : ChildFor db s.node p c m) :
    let out := ins m s.node.childHashes s.txn (keysOf group) (i + 1)
    (∀ rs, out.result = .ok rs → insertGroup ins db p i s c group =
      (⟨s.node.withChild c (some out.node) out.childHashes s.node.items, out.txn, scatter s.results group rs,
        s.successes + (group.zip rs).countP (·.2)⟩, none)) ∧
    ∀ e, out.result = .error e → (insertGroup ins db p i s c group).2 ≠ none := by
  rcases hm with ⟨hnone, rfl⟩ | hload
  · have hself :
        ({ s.node with children := ByteMap.insert s.node.children c (.node new) } : TrieNode).children c
        = some (.node new) := ByteMap.insert_self _ _ _
    constructor <;> intro _ hres <;>
      simp only [insertGroup, ensureChild, hnone, getOrLoadChild_node hself, hres] <;>
      simp [withChild, ByteMap.insert]
  · obtain ⟨x, hx⟩ := Option.ne_none_iff_exists'.mp (children_ne_none_of_load hload)
    constructor <;> intro _ hres <;> simp only [insertGroup, ensureChild, hx, hload, hres] <;>
      simp [withChild, ByteMap.insert]

/-- The loop after the groups `done`, on a node `n` that held `S`; `rs₀` are the results it started with. -/
structure Distributed (db : RocksDB) (n : TrieNode) (p : Bytes) (S : Finset Bytes)
    (txn : RocksDbTransactionBatch) (rs₀ : List Bool) (done : List (UInt8 × List (Nat × Bytes)))
    (s : GroupLoop) : Prop where
  node : InnerAt db { s.node with items := s.node.items + s.successes } p (S ∪ keysIn done)
  items : s.node.items = S.card
  length : s.results.length = rs₀.length
  other : ∀ i, (∀ cg ∈ done, i ∉ cg.2.map Prod.fst) → s.results[i]? = rs₀[i]?
  count : s.results.countP id = rs₀.countP id + s.successes
  reports : ∀ cg ∈ done, Reports (p ++ [cg.1]) (below (p ++ [cg.1]) S) (keysOf cg.2) (readAt s.results cg.2)
  tracks : TracksBelow ∅ ∅ db p n s.node txn s.txn

variable {keys : List (Nat × Bytes)} {rs₀ : List Bool} {done : List (UInt8 × List (Nat × Bytes))}
  {s : GroupLoop} {ins : NodeOp} {x : Bytes}

omit [Blake3] in
theorem below_keysIn (hpending : Pending p keys rs₀)
    (hdone : ∀ cg ∈ done, cg ∈ (groupedKeys keys p.length).entries) (hc : c ∉ done.map Prod.fst) :
    below (p ++ [c]) (S ∪ keysIn done) = below (p ++ [c]) S := by
  ext k
  simp only [mem_below, Finset.mem_union, and_congr_left_iff, or_iff_left_iff_imp]
  intro hkc hk
  exact absurd hk (not_mem_keysIn hpending hdone hc hkc)

theorem InsertedAll.innerAt {U : Finset Bytes} {ks : List Bytes} (h : InnerAt db n p U) (hne : ks ≠ [])
    (hextend : ∀ k ∈ ks, p ++ [c] <+: k)
    (hout : InsertedAll db m (p ++ [c]) ks (below (p ++ [c]) U) n.childHashes txn out) :
    InnerAt db (n.withChild c (some out.node) out.childHashes
      (n.items + (ks.toFinset \ below (p ++ [c]) U).card)) p
      (U ∪ ks.toFinset) := by
  have hhashes := hout.childHashes_eq h hne
  have hnew : ks.toFinset \ below (p ++ [c]) U = ks.toFinset \ U := by
    ext k
    rw [Finset.mem_sdiff, Finset.mem_sdiff, mem_below]
    refine and_congr_right fun hk => not_congr (and_iff_left ?_)
    exact hextend k (List.mem_toFinset.1 hk)
  refine h.update (c := c) (m := out.node) ?_ h.key ?_ (fun c' hc' => ⟨withChild_of_ne hc', ?_, ?_⟩)
    (Or.inr ⟨?_, withChild_self, ?_, ?_⟩)
  · show n.items + (ks.toFinset \ below (p ++ [c]) U).card = _
    rw [hnew, h.items, Nat.add_comm, Finset.card_sdiff_add_card, Finset.union_comm]
  · intro k hk
    obtain hk | hk := Finset.mem_union.1 hk
    · exact h.cover k hk
    · exact ⟨c, hextend k (List.mem_toFinset.1 hk)⟩
  · show out.childHashes c' = n.childHashes c'
    rw [hhashes, ByteMap.insert_of_ne _ _ _ _ hc']
  · ext k
    simp only [mem_below, Finset.mem_union, and_congr_left_iff, or_iff_left_iff_imp]
    exact fun hkc' hk => absurd (snoc_inj hkc' (hextend k (List.mem_toFinset.1 hk))) hc'
  · obtain ⟨k, hk⟩ := List.exists_mem_of_ne_nil _ hne
    exact below_nonempty_of_mem (Finset.mem_union_right _ (List.mem_toFinset.2 hk)) (hextend k hk)
  · show out.childHashes c = some out.node.hash
    rw [hhashes, ByteMap.insert_self]
  · have hunion : below (p ++ [c]) (U ∪ ks.toFinset) = below (p ++ [c]) U ∪ ks.toFinset := by
      ext k
      simp only [mem_below, Finset.mem_union, List.mem_toFinset]
      constructor
      · rintro ⟨hk | hk, hkc⟩
        · exact Or.inl ⟨hk, hkc⟩
        · exact Or.inr hk
      · rintro (⟨hk, hkc⟩ | hk)
        · exact ⟨Or.inl hk, hkc⟩
        · exact ⟨Or.inr hk, hextend k hk⟩
    rw [hunion]
    exact hout.node

theorem InsertedAll.live_eq {ks : List Bytes} (hne : ks ≠ [])
    (hout : InsertedAll db m p ks S childHashes txn out) :
    live out.node = some out.node := by
  obtain ⟨k, hk⟩ := List.exists_mem_of_ne_nil _ hne
  rw [hout.node.live_eq, if_neg]
  exact Finset.ne_empty_of_mem (Finset.mem_union_right _ (List.mem_toFinset.2 hk))

/-- **One group.** -/
theorem Distributed.step (h : Distributed db n p S txn rs₀ done s) (hpending : Pending p keys rs₀)
    (hdone : ∀ cg ∈ done, cg ∈ (groupedKeys keys p.length).entries) {group : List (Nat × Bytes)}
    (hg : (c, group) ∈ (groupedKeys keys p.length).entries) (hc : c ∉ done.map Prod.fst)
    (hins : ∀ m hs txn, Represents db m (p ++ [c]) (below (p ++ [c]) S) →
      InsertedAll db m (p ++ [c]) (keysOf group) (below (p ++ [c]) S) hs txn
        (ins m hs txn (keysOf group) (p.length + 1))) :
    ∃ s', insertGroup ins db p p.length s c group = (s', none) ∧
      Distributed db n p S txn rs₀ (done ++ [(c, group)]) s' := by
  have hbelow : below (p ++ [c]) (S ∪ keysIn done) = below (p ++ [c]) S := below_keysIn hpending hdone hc
  obtain ⟨m, hm, hrep⟩ := h.node.childFor c
  have hview := h.node.view_child hm hrep
  have hm : ChildFor db s.node p c m := hm
  rw [hbelow] at hrep
  have hne := keysOf_ne_nil hg
  have hout := hins m s.node.childHashes s.txn hrep
  obtain ⟨rs, hres, hreports, hcount⟩ := hout.result
  have hlength : rs.length = group.length := by rw [hreports.length, List.length_map]
  refine ⟨_, (insertGroup_cases hm).1 rs hres, ?_⟩
  generalize ins m s.node.childHashes s.txn (keysOf group) (p.length + 1) = out at hout hres ⊢
  obtain ⟨hlen, hother, hsame, hread, hadd⟩ := hpending.scatter hdone hg hc h.length h.other hlength
  refine ⟨?_, h.items, hlen, hother, ?_, fun cg hcg => ?_, ?_⟩
  · have hinner := InsertedAll.innerAt (n := { s.node with items := s.node.items + s.successes }) h.node hne
      (fun k hk => (hpending.mem_group hg hk).2) (hbelow.symm ▸ hout)
    rw [hbelow, ← hcount, ← countP_zip_snd hlength, Nat.add_assoc] at hinner
    rw [keysIn_snoc, ← Finset.union_assoc]
    exact hinner
  · rw [hadd, h.count, countP_zip_snd hlength, Nat.add_assoc]
  · obtain hcg | hcg := List.mem_append.1 hcg
    · rw [hsame cg hcg]
      exact h.reports cg hcg
    · obtain rfl := List.mem_singleton.1 hcg
      rw [hread]
      exact hreports
  · refine h.tracks.trans (hout.tracks.below (fun r => ?_) (fun r => ?_) fun c' hc' => withChild_of_ne hc')
    · rw [← hview]
      exact view_cons_congr rfl
    · rw [view_withChild, hout.live_eq hne]

/-! ## One level of insertion -/

/-- The outcome of passing `keys` on to the children of the node `n` at `p`, which holds `S`; `rs₀` are the
    results before. -/
structure PassedOn (db : RocksDB) (n : TrieNode) (p : Bytes) (keys : List (Nat × Bytes)) (S : Finset Bytes)
    (rs₀ : List Bool) (childHashes : ByteMap Bytes) (txn : RocksDbTransactionBatch)
    (out : Outcome (List Bool)) : Prop where
  result : ∃ rs, out.result = .ok rs ∧ rs.length = rs₀.length ∧
    (∀ i, i ∉ keys.map Prod.fst → rs[i]? = rs₀[i]?) ∧ Reports p S (keysOf keys) (readAt rs keys) ∧
    rs.countP id = rs₀.countP id + ((keysOf keys).toFinset \ S).card
  node : Represents db out.node p (S ∪ (keysOf keys).toFinset)
  hashes : out.childHashes = if (keysOf keys).toFinset ⊆ S then childHashes
    else out.node.updateHash childHashes p
  tracks : Tracks ∅ ∅ db p (live n) (live out.node) txn out.txn

/-- **One level of insertion.** If the children are updated correctly, so is the node. -/
theorem insertBelow_all (h : InnerAt db n p S) (hpending : Pending p keys rs₀) (hne : keys ≠ [])
    (hS : p.length < uncompactedLength ∨ S.Nonempty)
    (hshape : p.length < uncompactedLength ∨ 2 ≤ (S ∪ (keysOf keys).toFinset).card)
    (hins : ∀ c group m hs txn, (c, group) ∈ (groupedKeys keys p.length).entries →
      Represents db m (p ++ [c]) (below (p ++ [c]) S) →
      InsertedAll db m (p ++ [c]) (keysOf group) (below (p ++ [c]) S) hs txn
        (ins m hs txn (keysOf group) (p.length + 1))) :
    PassedOn db n p keys S rs₀ childHashes txn
      (insertBelow ins db p n childHashes txn rs₀ keys p.length) := by
  have hlong : (keys.any fun ik => decide (ik.2.length ≤ p.length)) = false := by
    rw [List.any_eq_false]
    intro ik hik
    obtain ⟨c, hc⟩ := hpending.extend ik hik
    simpa using length_lt_of_snoc hc
  have hstart : Distributed db n p S txn rs₀ [] ⟨n, txn, rs₀, 0⟩ := by
    refine ⟨?_, h.items, rfl, fun _ _ => rfl, rfl, (fun _ hcg => nomatch hcg), .refl⟩
    rw [keysIn_nil, Finset.union_empty]
    cases n
    exact h
  obtain ⟨s, hloop, hs⟩ := forGroups_induction
    (fun done c group s hdone hg hc hs => hs.step hpending hdone hg hc fun m hs txn =>
      hins c group m hs txn hg) hstart
  have hreports := Reports.of_groups hpending hS hs.reports
  obtain ⟨hnode, hsitems, hlength, hother, hcount, -, htracks⟩ := hs
  rw [hpending.keysIn_entries] at hnode
  have hsuccesses : s.successes = ((keysOf keys).toFinset \ S).card := by
    have hcard : s.node.items + s.successes = (S ∪ (keysOf keys).toFinset).card := hnode.items
    have hunion := Finset.card_sdiff_add_card (keysOf keys).toFinset S
    rw [Finset.union_comm] at hunion
    omega
  rw [hsuccesses] at hcount
  have hrest : ∀ i, i ∉ keys.map Prod.fst → s.results[i]? = rs₀[i]? := by
    refine fun i hi => hother i fun cg hcg hmem => hi ?_
    obtain ⟨ik, hik, rfl⟩ := List.mem_map.1 hmem
    exact List.mem_map_of_mem ((mem_group hcg).1 hik).1
  have hnonempty : (S ∪ (keysOf keys).toFinset).Nonempty := by
    obtain ⟨ik, hik⟩ := List.exists_mem_of_ne_nil keys hne
    exact ⟨ik.2, Finset.mem_union_right _ (List.mem_toFinset.2 (List.mem_map_of_mem hik))⟩
  have hrep := hnode.represents hnonempty hshape
  rw [insertBelow, hlong, if_neg (by decide), hloop, afterGroups, insertFinish]
  split
  next hpos =>
    have hnew : ¬ (keysOf keys).toFinset ⊆ S := by
      rw [← Finset.sdiff_eq_empty_iff_subset, ← Finset.card_eq_zero, ← hsuccesses]
      exact Nat.ne_of_gt hpos
    refine ⟨⟨_, rfl, hlength, hrest, hreports, hcount⟩, hrep, by rw [if_neg hnew], ?_⟩
    rw [hnode.live_eq hnonempty]
    exact htracks.finish h.viewOf_live (fun _ _ => Or.inr (view_cons_congr rfl)) (Or.inl (putToTxn_eq db))
  -- no key is new: nothing is staged for the node, and it looks as before
  next hzero =>
    have hknown : (keysOf keys).toFinset ⊆ S := by
      rw [← Finset.sdiff_eq_empty_iff_subset, ← Finset.card_eq_zero, ← hsuccesses]
      omega
    have hsame : ({ s.node with items := s.node.items + s.successes } : TrieNode) = s.node := by
      rw [Nat.eq_zero_of_not_pos hzero]
      cases s.node
      rfl
    rw [hsame] at hrep hnode
    refine ⟨⟨_, rfl, hlength, hrest, hreports, hcount⟩, hrep, by rw [if_pos hknown], ?_⟩
    rw [Finset.union_eq_left.2 hknown] at hnode hnonempty
    refine htracks.finish h.viewOf_live (fun c r => Or.inr (hnode.viewOf_live c r)) (Or.inr ⟨rfl, ?_⟩)
    rw [hnode.live_eq hnonempty, h.live_eq hnonempty, viewOf_some, viewOf_some, view_nil, view_nil,
      hnode.forget_eq h]

/-! ## Leaves -/

/-- The outcome of `insertLeaf` on a leaf `n` with the key `k₀`, behind the results `before`. -/
structure LeafInserted (db : RocksDB) (n : TrieNode) (p k₀ : Bytes) (keys : List Bytes) (before : List Bool)
    (childHashes : ByteMap Bytes) (txn : RocksDbTransactionBatch) (out : Outcome (List Bool)) : Prop where
  result : ∃ rs, out.result = .ok (before ++ rs) ∧ Reports p {k₀} keys rs ∧
    rs.countP id = (keys.toFinset \ {k₀}).card
  node : Represents db out.node p ({k₀} ∪ keys.toFinset)
  hashes : out.childHashes = if keys.toFinset ⊆ {k₀} then childHashes else out.node.updateHash childHashes p
  tracks : Tracks ∅ ∅ db p (live n) (live out.node) txn out.txn

/-- The keys of a call that differ from the key of a leaf, with their positions. -/
abbrev otherKeys (k₀ : Bytes) (keys : List Bytes) (offset : Nat) : List (Nat × Bytes) :=
  (withPositions keys offset).filter (fun ik => decide (ik.2 ≠ k₀))

section leaf

variable {k₀ : Bytes} {keys : List Bytes} {before : List Bool}

omit [Blake3] in
theorem remainingKeys_eq (hkey : n.key = some k₀) (keys : List Bytes) (offset : Nat) :
    ((keys.zipIdx offset).filterMap fun ki =>
        if bytesCompare (n.key.getD []) ki.1 = .eq then none else some (ki.2, ki.1)) =
          otherKeys k₀ keys offset := by
  induction keys generalizing offset with
  | nil => rfl
  | cons k keys ih =>
    rw [otherKeys, withPositions, List.zipIdx_cons, List.map_cons, List.filterMap_cons, List.filter_cons, ih]
    by_cases hk : k = k₀
    · subst hk
      simp [otherKeys, hkey, bytesCompare_eq_iff]
    · have : ¬ k₀ = k := fun heq => hk heq.symm
      simp [otherKeys, hkey, bytesCompare_eq_iff, hk, this]

omit [Blake3] in
theorem keysOf_otherKeys (k₀ : Bytes) (keys : List Bytes) (offset : Nat) :
    keysOf (otherKeys k₀ keys offset) = keys.filter (· ≠ k₀) := by
  rw [otherKeys, keysOf_filter (P := fun k => k ≠ k₀), keysOf_withPositions]

omit [Blake3] in
theorem mem_otherKeys {offset : Nat} {ik : Nat × Bytes} (h : ik ∈ otherKeys k₀ keys offset) :
    ik.2 ∈ keys ∧ ik.2 ≠ k₀ := by
  obtain ⟨hik, hne⟩ := List.mem_filter.1 h
  exact ⟨(mem_withPositions hik).2.2, of_decide_eq_true hne⟩

omit [Blake3] in
/-- **The report of a leaf**: nothing for its own key, and the report of the others. -/
theorem Reports.of_leaf (hlength : rs.length = keys.length)
    (hown : select (· = k₀) keys rs = (keys.filter (· = k₀)).map fun _ => false)
    (hothers : Reports p {k₀} (keys.filter (· ≠ k₀)) (select (· ≠ k₀) keys rs)) : Reports p {k₀} keys rs := by
  have hnot : ∀ k : Bytes, k ∉ ({k₀} : Finset Bytes) ↔ k ≠ k₀ := fun k => not_congr Finset.mem_singleton
  have hfilter : (keys.filter (· ≠ k₀)).filter (· ∉ ({k₀} : Finset Bytes)) =
      keys.filter (· ∉ ({k₀} : Finset Bytes)) := by
    rw [List.filter_filter]
    refine List.filter_congr fun k _ => ?_
    rw [← Bool.decide_and, decide_eq_decide, hnot, and_self]
  refine ⟨hlength, ?_, fun fuel hfuel => ?_⟩
  · simp only [Finset.mem_singleton]
    exact hown
  · rw [← hfilter, ← hothers.new fuel fun k hk => hfuel k (List.mem_of_mem_filter hk)]
    rw [select_of_forall (fun k hk => (hnot k).2 (of_decide_eq_true (List.mem_filter.1 hk).2))
      (length_select hlength)]
    exact select_congr fun k _ => hnot k

omit [Blake3] in
/-- The results of a call for the other keys, which leaves all others as they were. -/
theorem exists_reports_of_otherKeys {full : List Bool} (hlength : full.length = before.length + keys.length)
    (hother : ∀ i, i ∉ (otherKeys k₀ keys before.length).map Prod.fst →
      full[i]? = (before ++ List.replicate keys.length false)[i]?)
    (hreports : Reports p {k₀} (keys.filter (· ≠ k₀)) (readAt full (otherKeys k₀ keys before.length))) :
    ∃ rs, full = before ++ rs ∧ Reports p {k₀} keys rs := by
  have htake : full.take before.length = before := by
    refine List.ext_getElem? fun i => ?_
    rw [List.getElem?_take]
    split
    next hi =>
      rw [hother i, List.getElem?_append_left hi]
      intro hmem
      obtain ⟨ik, hik, rfl⟩ := List.mem_map.1 hmem
      have := (mem_withPositions (List.mem_filter.1 hik).1).1
      omega
    next hi => exact (List.getElem?_eq_none (Nat.le_of_not_lt hi)).symm
  obtain ⟨rs, rfl⟩ : ∃ rs, full = before ++ rs :=
    ⟨full.drop before.length, by rw [← htake, List.length_take_of_le (by omega), List.take_append_drop]⟩
  rw [List.length_append, Nat.add_left_cancel_iff] at hlength
  have hselect : ∀ (P : Bytes → Prop) [DecidablePred P],
      select P keys rs = readAt (before ++ rs) ((withPositions keys before.length).filter (P ·.2)) := by
    intro P _
    rw [← select_readAt, keysOf_withPositions, readAt_withPositions hlength]
  refine ⟨rs, rfl, .of_leaf hlength ?_ (by rw [hselect]; exact hreports)⟩
  rw [hselect, List.map_const', List.eq_replicate_iff]
  refine ⟨?_, fun b hb => ?_⟩
  · rw [length_readAt, keysOf_filter (P := fun k => k = k₀), keysOf_withPositions]
  · obtain ⟨ik, hik, rfl⟩ := List.mem_map.1 hb
    obtain ⟨hpos, hk⟩ := List.mem_filter.1 hik
    obtain ⟨hle, hlt, -⟩ := mem_withPositions hpos
    rw [hother ik.1 fun hmem => ?_, List.getElem?_append_right hle, List.getElem?_replicate,
      if_pos (by omega)]
    · rfl
    · -- the position belongs to one key only
      obtain ⟨ik', hik', heq⟩ := List.mem_map.1 hmem
      obtain ⟨hpos', hk'⟩ := List.mem_filter.1 hik'
      obtain rfl := List.inj_on_of_nodup_map (nodup_withPositions _ _) hpos' hpos heq
      exact of_decide_eq_true hk' (of_decide_eq_true hk)

/-- From the outcome for the keys that differ from the one of the leaf to the outcome for all keys. -/
theorem PassedOn.leafInserted {txn' : RocksDbTransactionBatch} (hne : otherKeys k₀ keys before.length ≠ [])
    (hsplit : Tracks ∅ ∅ db p (live n) (live m) txn txn')
    (h : PassedOn db m p (otherKeys k₀ keys before.length) {k₀} (before ++ List.replicate keys.length false)
      childHashes txn' out) :
    LeafInserted db n p k₀ keys before childHashes txn out := by
  have hsub : ¬ keys.toFinset ⊆ {k₀} := by
    obtain ⟨ik, hik⟩ := List.exists_mem_of_ne_nil _ hne
    obtain ⟨hmem, hne⟩ := mem_otherKeys hik
    exact fun hsub => hne (Finset.mem_singleton.1 (hsub (List.mem_toFinset.2 hmem)))
  have hsdiff : (keys.filter (· ≠ k₀)).toFinset \ {k₀} = keys.toFinset \ {k₀} := by
    ext k
    simp only [Finset.mem_sdiff, List.mem_toFinset, List.mem_filter, decide_eq_true_iff, Finset.mem_singleton]
    tauto
  obtain ⟨⟨full, hres, hlength, hother, hreports, hcount⟩, hnode, hhashes, htracks⟩ := h
  rw [keysOf_otherKeys] at hreports hcount hnode hhashes
  rw [List.length_append, List.length_replicate] at hlength
  obtain ⟨rs, rfl, hall⟩ := exists_reports_of_otherKeys hlength hother hreports
  refine ⟨⟨rs, hres, hall, ?_⟩, ?_, ?_, hsplit.trans htracks⟩
  · have hbefore : (before ++ List.replicate keys.length false).countP id = before.countP id := by
      rw [List.countP_append, List.countP_replicate]
      rfl
    rw [hbefore, List.countP_append, hsdiff] at hcount
    omega
  · have hunion : {k₀} ∪ (keys.filter (· ≠ k₀)).toFinset = {k₀} ∪ keys.toFinset := by
      rw [← Finset.union_sdiff_self_eq_union, hsdiff, Finset.union_sdiff_self_eq_union]
    rw [← hunion]
    exact hnode
  · rw [hhashes, if_neg hsub, if_neg]
    rwa [← Finset.sdiff_eq_empty_iff_subset, hsdiff, Finset.sdiff_eq_empty_iff_subset]

/-- **Keys that reach a leaf.** -/
theorem insertLeaf_all {fuel : Nat} {hs : ByteMap Bytes} (hdepth : uncompactedLength ≤ p.length)
    (hk₀ : p <+: k₀) (hstale : ∀ c, hs c ≠ none → p ++ [c] <+: k₀) (hp : ∀ k ∈ keys, p <+: k)
    (hanti : IsAntichain (· <+: ·) (({k₀} ∪ keys.toFinset : Finset Bytes) : Set Bytes))
    (hins : ∀ c ks m hs txn, ks ≠ [] → (∀ k ∈ ks, k ∈ keys ∧ p ++ [c] <+: k) →
      Represents db m (p ++ [c]) (below (p ++ [c]) {k₀}) →
      InsertedAll db m (p ++ [c]) ks (below (p ++ [c]) {k₀}) hs txn
        (insert db (fuel + 1) m hs txn ks (p.length + 1))) :
    LeafInserted db (leafNode hs k₀) p k₀ keys before childHashes txn
      (insertLeaf (insert db (fuel + 1)) db p (leafNode hs k₀) childHashes txn
        (before ++ List.replicate keys.length false) keys before.length p.length) := by
  by_cases hnil : otherKeys k₀ keys before.length = []
  -- all keys are the one that is there
  · have hall : ∀ k ∈ keys, k = k₀ := by
      intro k hk
      by_contra hne
      have hmem : k ∈ keysOf (otherKeys k₀ keys before.length) := by
        rw [keysOf_otherKeys]
        exact List.mem_filter.2 ⟨hk, decide_eq_true hne⟩
      rw [hnil] at hmem
      cases hmem
    have hsub : keys.toFinset ⊆ {k₀} := fun k hk => Finset.mem_singleton.2 (hall k (List.mem_toFinset.1 hk))
    have heq : insertLeaf (insert db (fuel + 1)) db p (leafNode hs k₀) childHashes txn
        (before ++ List.replicate keys.length false) keys before.length p.length
        = ⟨leafNode hs k₀, childHashes, txn, .ok (before ++ List.replicate keys.length false)⟩ := by
      unfold insertLeaf
      split
      · rfl
      · simp only [remainingKeys_eq (leafNode_key hs k₀), hnil, List.isEmpty_nil, if_true]
    rw [heq]
    refine ⟨⟨_, rfl, .of_known fun k hk => Finset.mem_singleton.2 (hall k hk), ?_⟩, ?_, ?_,
      .of_view_eq fun _ => rfl⟩
    · rw [Finset.sdiff_eq_empty_iff_subset.2 hsub]
      simp [List.countP_replicate]
    · rw [Finset.union_eq_left.2 hsub]
      exact .leaf hdepth hk₀ hstale
    · rw [if_pos hsub]
  -- the leaf is split for the others
  · obtain ⟨ik₁, hik₁⟩ := List.exists_mem_of_ne_nil _ hnil
    obtain ⟨hmem₁, hne₁⟩ := mem_otherKeys hik₁
    have hin : ∀ k ∈ keys, k ∈ {k₀} ∪ keys.toFinset := fun k hk =>
      Finset.mem_union_right _ (List.mem_toFinset.2 hk)
    have hin₀ : k₀ ∈ {k₀} ∪ keys.toFinset := Finset.mem_union_left _ (Finset.mem_singleton_self k₀)
    obtain ⟨c₀, hc₀⟩ := exists_snoc_isPrefix hk₀
      (length_lt_of_antichain hanti hin₀ (hin _ hmem₁) hne₁ hk₀ (hp _ hmem₁))
    have hpending :
        Pending p (otherKeys k₀ keys before.length) (before ++ List.replicate keys.length false) := by
      refine pending_of_sublist List.filter_sublist fun ik hik => ?_
      obtain ⟨hkeys, hne⟩ := mem_otherKeys hik
      exact exists_snoc_isPrefix (hp _ hkeys)
        (length_lt_of_antichain hanti (hin _ hkeys) hin₀ hne.symm (hp _ hkeys) hk₀)
    obtain ⟨self, txn', hsplit, hinner, htracks⟩ := splitLeafNode_spec db txn fuel hdepth hc₀ hstale
    have heq : insertLeaf (insert db (fuel + 1)) db p (leafNode hs k₀) childHashes txn
        (before ++ List.replicate keys.length false) keys before.length p.length
        = insertBelow (insert db (fuel + 1)) db p self childHashes txn'
            (before ++ List.replicate keys.length false) (otherKeys k₀ keys before.length) p.length := by
      have hkeys : keys.isEmpty = false := List.isEmpty_eq_false_iff.2 (List.ne_nil_of_mem hmem₁)
      have hrem : (otherKeys k₀ keys before.length).isEmpty = false := List.isEmpty_eq_false_iff.2 hnil
      simp only [insertLeaf, hkeys, remainingKeys_eq (leafNode_key hs k₀), hrem, hsplit]
      rfl
    have hcard : 2 ≤ ({k₀} ∪ (keysOf (otherKeys k₀ keys before.length)).toFinset).card := by
      refine Finset.one_lt_card.2 ⟨k₀, by simp, ik₁.2, ?_, hne₁.symm⟩
      exact Finset.mem_union_right _ (List.mem_toFinset.2 (List.mem_map_of_mem hik₁))
    rw [heq]
    refine PassedOn.leafInserted hnil htracks ?_
    refine insertBelow_all hinner hpending hnil (Or.inr (Finset.singleton_nonempty k₀)) (Or.inr hcard)
      fun c group m hs txn hg hrep => ?_
    refine hins c _ m hs txn (keysOf_ne_nil hg) (fun k hk => ?_) hrep
    obtain ⟨hk, hkc⟩ := hpending.mem_group hg hk
    rw [keysOf_otherKeys] at hk
    exact ⟨List.mem_of_mem_filter hk, hkc⟩

end leaf

/-! ## The recursion -/

theorem updateHash_updateHash (hp : p ≠ []) (hn : n.hash ≠ []) (hm : m.hash ≠ []) :
    n.updateHash (m.updateHash childHashes p) p = n.updateHash childHashes p := by
  obtain ⟨p, c, rfl⟩ := List.eq_nil_or_concat p |>.resolve_left hp
  rw [List.concat_eq_append, updateHash_snoc hn, updateHash_snoc hn, updateHash_snoc hm, ByteMap.insert,
    ByteMap.insert, Function.update_idem]
  rfl

theorem updateHash_congr (h : n.hash = m.hash) : n.updateHash childHashes p = m.updateHash childHashes p := by
  unfold updateHash
  rw [h]

omit [Blake3] in
/-- **The report of an empty leaf**, which takes the last key and then passes on the others. -/
theorem Reports.of_empty {keys : List Bytes} (hdepth : uncompactedLength ≤ p.length)
    (hkeys : ∀ k ∈ keys ++ [x], p <+: k) (h : Reports p {x} keys rs) :
    Reports p ∅ (keys ++ [x]) (true :: rs) := by
  have hlength : (true :: rs).length = (keys ++ [x]).length := by
    rw [List.length_cons, List.length_append, h.length]
    rfl
  refine ⟨hlength, ?_, fun fuel hfuel => ?_⟩
  · rw [select_eq_nil (by simp), List.filter_eq_nil_iff.2 (by simp)]
    rfl
  · obtain ⟨fuel, rfl⟩ : ∃ f, fuel = f + 1 := by
      refine Nat.exists_eq_succ_of_ne_zero fun hzero => ?_
      have := hfuel x (by simp)
      have := (hkeys x (by simp)).length_le
      omega
    have hall : (keys ++ [x]).filter (· ∉ (∅ : Finset Bytes)) = keys ++ [x] := List.filter_eq_self.2 (by simp)
    rw [select_of_forall (by simp) hlength, hall, insertOrder_empty hdepth, news_cons]
    congr 1
    have hparts : ∀ own k, k ∈ (if own then keys.filter (· = x)
        else insertOrder (fuel + 1) p {x} (keys.filter (· ≠ x))) → decide (k = x) = own := by
      rintro (_ | _) k hk
      · exact decide_eq_false (of_decide_eq_true (List.mem_filter.1 (insertOrder_spec.2 k hk)).2)
      · exact (List.mem_filter.1 hk).2
    -- the repetitions of the last key are known, the others as new as in a call on a leaf that has it
    refine eq_of_select (fun k => decide (k = x)) h.length (by rw [length_news, length_weave]) fun k _ => ?_
    rw [select_news_weave (fun own => ?_) hparts]
    · cases hk : decide (k = x) with
      | true =>
        have hmem : ∀ k ∈ keys, decide (k = x) = true ↔ k ∈ ({x} : Finset Bytes) := by simp
        rw [select_congr hmem, h.known, if_pos rfl, List.map_const']
        simp only [Finset.mem_singleton]
        exact (news_eq_false_iff.2 fun y hy => by simpa using (List.mem_filter.1 hy).2).symm
      | false =>
        have hmem : ∀ k ∈ keys, decide (k = x) = false ↔ k ∉ ({x} : Finset Bytes) := by simp
        rw [select_congr hmem, h.new (fuel + 1) fun k hk =>
          hfuel k (List.mem_append_left _ hk), if_neg (by decide)]
        simp only [Finset.mem_singleton]
        refine news_congr fun y hy => ?_
        simp [show y ≠ x from by simpa using (List.mem_filter.1 (insertOrder_spec.2 y hy)).2]
    · cases own with
      | true => simp
      | false => simp [insertOrder_spec.1]

/-- **Keys that reach an empty leaf.** -/
theorem LeafInserted.of_empty {keys : List Bytes} (hdepth : uncompactedLength ≤ p.length)
    (hkeys : ∀ k ∈ keys ++ [x], p <+: k) (h : LeafInserted db (leafNode ByteMap.empty x) p x keys [true]
      ((leafNode ByteMap.empty x).updateHash childHashes p) ((leafNode ByteMap.empty x).putToTxn txn p) out) :
    InsertedAll db new p (keys ++ [x]) ∅ childHashes txn out := by
  obtain ⟨⟨rs, hres, hreports, hcount⟩, hnode, hhashes, htracks⟩ := h
  have hunion : ∅ ∪ (keys ++ [x]).toFinset = {x} ∪ keys.toFinset := by
    rw [Finset.empty_union, List.toFinset_append, Finset.union_comm]
    rfl
  have hsub : ¬ (keys ++ [x]).toFinset ⊆ ∅ := by
    rw [Finset.subset_empty, List.toFinset_eq_empty_iff]
    simp
  refine ⟨⟨true :: rs, hres, hreports.of_empty hdepth hkeys, ?_⟩, ?_, ?_, tracks_leafNode.trans htracks⟩
  · have hcard := Finset.card_sdiff_add_card keys.toFinset {x}
    rw [Finset.sdiff_empty, ← Finset.empty_union (keys ++ [x]).toFinset, hunion, Finset.union_comm, ← hcard,
      Finset.card_singleton, List.countP_cons, hcount]
    rfl
  · rw [hunion]
    exact hnode
  · rw [if_neg hsub, hhashes]
    split
    next hknown =>
      rw [Finset.union_eq_left.2 hknown] at hnode
      obtain heq | ⟨k, hs', heq, hleaf, -⟩ | ⟨-, hshape, -⟩ := hnode.inv
      · exact absurd heq.1 (Finset.singleton_ne_empty x)
      · refine updateHash_congr ?_
        rw [hleaf, hash_leafNode, hash_leafNode, Finset.singleton_inj.1 heq]
      · rw [Finset.card_singleton] at hshape
        omega
    next =>
      have hp : p ≠ [] := by
        rintro rfl
        simp [uncompactedLength] at hdepth
      refine updateHash_updateHash hp (hnode.hash_ne_nil ⟨x, by simp⟩) ?_
      rw [hash_leafNode]
      exact blake3_20_ne_nil x

theorem LeafInserted.insertedAll {keys : List Bytes}
    (h : LeafInserted db n p k₀ keys [] childHashes txn out) :
    InsertedAll db n p keys {k₀} childHashes txn out :=
  ⟨h.result, h.node, h.hashes, h.tracks⟩

theorem PassedOn.insertedAll {keys : List Bytes}
    (h : PassedOn db n p (withPositions keys 0) S (List.replicate keys.length false) childHashes txn out) :
    InsertedAll db n p keys S childHashes txn out := by
  obtain ⟨⟨rs, hres, hlength, -, hreports, hcount⟩, hnode, hhashes, htracks⟩ := h
  rw [List.length_replicate] at hlength
  have hread : readAt rs (withPositions keys 0) = rs := @readAt_withPositions keys [] rs hlength
  rw [keysOf_withPositions] at hreports hcount hnode hhashes
  rw [hread] at hreports
  refine ⟨⟨rs, hres, hreports, ?_⟩, hnode, hhashes, htracks⟩
  rw [hcount, List.countP_replicate]
  simp

theorem insert_eq_insertBelow_all {keys : List Bytes} (hne : keys ≠ []) (hp : ∀ k ∈ keys, p <+: k)
    (h : p.length < uncompactedLength ∨ n.isLeaf = false) :
    insert db (fuel + 1) n childHashes txn keys p.length
      = insertBelow (insert db fuel) db p n childHashes txn (List.replicate keys.length false)
      (withPositions keys 0)
          p.length := by
  obtain _ | ⟨key₀, keys⟩ := keys
  · exact absurd rfl hne
  have htake : key₀.take p.length = p := (List.prefix_iff_eq_take.mp (hp key₀ (.head _))).symm
  have hcond : (decide (uncompactedLength ≤ p.length) && n.isLeaf) = false := by
    rcases h with h | h
    · rw [decide_eq_false (by omega), Bool.false_and]
    · rw [h, Bool.and_false]
  simp only [insert, insertStep, hcond, htake, List.map_const']
  rfl

theorem insert_eq_insertLeaf {keys : List Bytes} {hs : ByteMap Bytes} (hne : keys ≠ [])
    (hp : ∀ k ∈ keys, p <+: k) (hdepth : uncompactedLength ≤ p.length) :
    insert db (fuel + 1) (leafNode hs k₀) childHashes txn keys p.length
      = insertLeaf (insert db fuel) db p (leafNode hs k₀) childHashes txn
        (List.replicate keys.length false) keys 0
          p.length := by
  obtain _ | ⟨key₀, keys⟩ := keys
  · exact absurd rfl hne
  have htake : key₀.take p.length = p := (List.prefix_iff_eq_take.mp (hp key₀ (.head _))).symm
  simp [insert, insertStep, hdepth, htake, List.replicate_succ]

/-- **What a call does**, by the node it meets: an inner node, or any node above the compacted levels, passes
    the keys on; a leaf and an empty leaf are split. -/
theorem insert_cases {keys : List Bytes} (h : Represents db n p S) (hne : keys ≠ [])
    (hp : ∀ k ∈ keys, p <+: k) (hfuel : ∀ k ∈ keys, k.length + 2 ≤ fuel + 1 + p.length) :
    (InnerAt db n p S ∧ (p.length < uncompactedLength ∨ 2 ≤ S.card) ∧
      insert db (fuel + 1) n childHashes txn keys p.length =
        insertBelow (insert db fuel) db p n childHashes txn
        (List.replicate keys.length false) (withPositions keys 0) p.length) ∨
    (uncompactedLength ≤ p.length ∧ ∃ f, fuel = f + 1 ∧
      ((∃ k₀ hs, S = {k₀} ∧ n = leafNode hs k₀ ∧ p <+: k₀ ∧ (∀ c, hs c ≠ none → p ++ [c] <+: k₀) ∧
        insert db (fuel + 1) n childHashes txn keys p.length =
          insertLeaf (insert db (f + 1)) db p (leafNode hs k₀)
          childHashes txn (List.replicate keys.length false) keys 0 p.length) ∨
      ∃ ks x, S = ∅ ∧ n = new ∧ keys = ks ++ [x] ∧
        insert db (fuel + 1) n childHashes txn keys p.length = insertLeaf (insert db (f + 1)) db p
          (leafNode ByteMap.empty x) ((leafNode ByteMap.empty x).updateHash childHashes p)
          ((leafNode ByteMap.empty x).putToTxn txn p)
          ([true] ++ List.replicate ks.length false) ks 1 p.length)) := by
  obtain ⟨fuel, rfl⟩ : ∃ f, fuel = f + 1 :=
    Nat.exists_eq_succ_of_ne_zero (by have := le_fuel hne hp hfuel; omega)
  rcases h.inv with ⟨rfl, rfl⟩ | ⟨k₀, hs, rfl, rfl, hdepth, hpk₀, hstale⟩ | ⟨hSne, hshape, hinner⟩
  · rcases Nat.lt_or_ge p.length uncompactedLength with hlt | hdepth
    · exact Or.inl ⟨innerAt_new db p, Or.inl hlt, insert_eq_insertBelow_all hne hp (Or.inl hlt)⟩
    · obtain ⟨ks, x, rfl⟩ := (List.eq_nil_or_concat' keys).resolve_left hne
      exact Or.inr ⟨hdepth, fuel, rfl, Or.inr ⟨ks, x, rfl, rfl, rfl, insert_eq_insertLeaf_of_new hp hdepth⟩⟩
  · exact Or.inr
      ⟨hdepth, fuel, rfl, Or.inl ⟨k₀, hs, rfl, rfl, hpk₀, hstale, insert_eq_insertLeaf hne hp hdepth⟩⟩
  · exact Or.inl ⟨hinner, hshape, insert_eq_insertBelow_all hne hp (Or.inr (hinner.not_isLeaf hSne))⟩

/-- **Insertion of many keys.** On a node that holds `S`, provided no key of `S` and of the list is a proper
    prefix of another one. -/
theorem insert_all_spec (fuel : Nat) {keys : List Bytes} (h : Represents db n p S) (hne : keys ≠ [])
    (hp : ∀ k ∈ keys, p <+: k) (hlen : ∀ k ∈ keys, uncompactedLength ≤ k.length)
    (hanti : IsAntichain (· <+: ·) ((S ∪ keys.toFinset : Finset Bytes) : Set Bytes))
    (hfuel : ∀ k ∈ keys, k.length + 2 ≤ fuel + p.length) :
    InsertedAll db n p keys S childHashes txn (insert db fuel n childHashes txn keys p.length) := by
  induction fuel generalizing n p S childHashes txn keys with
  | zero => exact absurd (le_fuel hne hp hfuel) (by decide)
  | succ fuel ih =>
    have hin : ∀ k ∈ keys, k ∈ S ∪ keys.toFinset :=
      fun k hk => Finset.mem_union_right _ (List.mem_toFinset.2 hk)
    -- the recursive call, on a part of the keys
    have hchild : ∀ (T : Finset Bytes) c ks m hs txn, T ⊆ S ∪ keys.toFinset → ks ≠ [] →
        (∀ k ∈ ks, k ∈ keys ∧ p ++ [c] <+: k) → Represents db m (p ++ [c]) (below (p ++ [c]) T) →
        InsertedAll db m (p ++ [c]) ks (below (p ++ [c]) T) hs txn
        (insert db fuel m hs txn ks (p.length + 1)) := by
      intro T c ks m hs txn hT hks hmem hrep
      have hlength : p.length + 1 = (p ++ [c]).length := by simp
      rw [hlength]
      refine ih hrep hks (fun k hk => (hmem k hk).2) (fun k hk => hlen k (hmem k hk).1)
        (hanti.subset fun k hk => ?_)
        (fuel_child hfuel hmem)
      obtain hk | hk := Finset.mem_union.1 (Finset.mem_coe.1 hk)
      · exact hT (below_subset hk)
      · exact hin k (hmem k (List.mem_toFinset.1 hk)).1
    rcases insert_cases h hne hp hfuel with ⟨hinner, hshape, heq⟩ | ⟨hdepth, fuel, rfl,
      ⟨k₀, hs, rfl, rfl, hpk₀, hstale, heq⟩ | ⟨ks, x, rfl, rfl, rfl, heq⟩⟩ <;> rw [heq]
    · have hlonger : ∀ k ∈ keys, p.length < k.length := by
        intro k hk
        rcases hshape with hlt | h2
        · exact Nat.lt_of_lt_of_le hlt (hlen k hk)
        · obtain ⟨x, hx, hxk⟩ := Finset.exists_mem_ne h2 k
          exact length_lt_of_antichain hanti (hin k hk) (Finset.mem_union_left _ hx) hxk (hp k hk)
            (h.isPrefix hx)
      have hpending := pending_call hp hlonger
      refine PassedOn.insertedAll (insertBelow_all hinner hpending (by simpa using hne)
        (hshape.imp_right fun h2 => Finset.card_pos.1 (by omega)) ?_ fun c group m hs txn hg => ?_)
      · rw [keysOf_withPositions]
        exact hshape.imp_right fun h2 => h2.trans (Finset.card_le_card Finset.subset_union_left)
      · refine hchild S c (keysOf group) m hs txn Finset.subset_union_left (keysOf_ne_nil hg) fun k hk => ?_
        have hmem := hpending.mem_group hg hk
        rwa [keysOf_withPositions] at hmem
    · exact (@insertLeaf_all p _ db childHashes txn k₀ keys [] fuel hs hdepth hpk₀ hstale hp hanti
        fun c ks m hs txn hks hmem => hchild {k₀} c ks m hs txn Finset.subset_union_left hks hmem).insertedAll
    · have hunion : {x} ∪ ks.toFinset ⊆ ∅ ∪ (ks ++ [x]).toFinset := by
        rw [Finset.empty_union, List.toFinset_append, Finset.union_comm]
        exact Finset.Subset.refl _
      refine LeafInserted.of_empty hdepth hp (insertLeaf_all hdepth (hp x (by simp)) (by simp)
        (fun k hk => hp k (List.mem_append_left _ hk)) (hanti.subset (Finset.coe_subset.2 hunion)) ?_)
      intro c cs m hs txn hcs hmem
      exact hchild {x} c cs m hs txn (Finset.subset_union_left.trans hunion) hcs fun k hk =>
        ⟨List.mem_append_left _ (hmem k hk).1, (hmem k hk).2⟩

/-! ## One key -/

/-- The outcome of inserting `k` into the node `n` at `p`, which holds `S`. -/
structure Inserted (db : RocksDB) (n : TrieNode) (p k : Bytes) (S : Finset Bytes)
    (childHashes : ByteMap Bytes) (txn : RocksDbTransactionBatch) (out : Outcome (List Bool)) : Prop where
  result : out.result = .ok [decide (k ∉ S)]
  node : Represents db out.node p (Insert.insert k S)
  hashes : out.childHashes = if k ∈ S then childHashes else out.node.updateHash childHashes p
  tracks : Tracks ∅ ∅ db p (live n) (live out.node) txn out.txn
  noDelete : ∀ key, out.txn key = some none → txn key = some none

/-- **Insertion is correct.** On a node that holds `S`, inserting `k` yields a node that holds `insert k S`,
    with the parent's hash and the batch kept up to date, provided no key of `insert k S` is a prefix of
    another one. -/
theorem insert_spec (fuel : Nat) {k : Bytes} (h : Represents db n p S) (hpk : p <+: k)
    (hlen : uncompactedLength ≤ k.length)
    (hanti : IsAntichain (· <+: ·) ((Insert.insert k S : Finset Bytes) : Set Bytes))
    (hfuel : k.length + 2 ≤ fuel + p.length) :
    Inserted db n p k S childHashes txn (insert db fuel n childHashes txn [k] p.length) := by
  have hset : S ∪ [k].toFinset = Insert.insert k S := by
    rw [Finset.union_comm]
    rfl
  have hall : InsertedAll db n p [k] S childHashes txn (insert db fuel n childHashes txn [k] p.length) :=
    insert_all_spec fuel h (by simp) (by simpa using hpk) (by simpa using hlen) (by rwa [hset])
      (by simpa using hfuel)
  obtain ⟨⟨rs, hres, hreports, hcount⟩, hnode, hhashes, htracks⟩ := hall
  refine ⟨?_, hset ▸ hnode, by simpa using hhashes, htracks, fun key => ?_⟩
  -- one result, and it counts the new keys
  · obtain ⟨b, rfl⟩ := List.length_eq_one_iff.1 hreports.length
    have hcard : ([k].toFinset \ S).card = if k ∈ S then 0 else 1 := by
      split
      next hk => simpa using hk
      next hk =>
        rw [Finset.sdiff_eq_self_of_disjoint (by simpa using hk)]
        rfl
    rw [hcard] at hcount
    rw [hres]
    split at hcount <;> cases b <;> simp_all
  · exact insert_keeps_batch (T := fun txn' => txn' key = some none → txn key = some none)
      (fun _ _ _ hkept hkey => hkept (putToTxn_ne_delete hkey)) id fuel

end TrieNode
end Hypersnap
