import Hypersnap.Trie.Batch

/-!
# `Trie.Atomicity` — what a failed call leaves behind

A call whose keys run into each other, or into the keys of the trie, fails: it reaches the end of a key at an
inner node (`keyLengthExceeded`), or it splits a leaf at the end of its own key, which is a panic. By then the
nodes on the way have given their cached hashes away, and they get them back only from a call that succeeds.
So the root is left without hashes.

`insert_fails` and `delete_fails` show that every such call fails, `Broken` is what is left of the root, and
`atomic_iff` is the result: exactly the safe calls are atomic.
-/

namespace Hypersnap
namespace TrieNode

open Overlay PrefixSet

variable {n : TrieNode} {keys : List Bytes}

/-- The call returns an error, or panics. -/
def Fails (out : Outcome (List Bool)) : Prop := ∃ e, out.result = .error e

/-- An inner node that gave its cached hashes away. -/
structure Broken (n : TrieNode) : Prop where
  inner : n.isLeaf = false
  hashes : n.childHashes = ByteMap.empty

theorem Broken.hash_eq [Blake3] (h : Broken n) : n.hash = [] := by
  simp [hash, h.inner, h.hashes]

/-! ## Loops that fail -/

/-- **A loop fails if one of its groups does**, on the child the node had before the loop, and it leaves the
    node as the group that failed. -/
theorem afterGroups_fails {step : GroupLoop → UInt8 → List (Nat × Bytes) → GroupLoop × Option TrieError}
    {groups : List (UInt8 × List (Nat × Bytes))} {s : GroupLoop} {cg : UInt8 × List (Nat × Bytes)}
    {finish : GroupLoop → Outcome (List Bool)} {hashes : ByteMap Bytes}
    (hframe : ∀ s c group c', c' ≠ c → (step s c group).1.node.children c' = s.node.children c')
    (hbroken : ∀ s c group, (step s c group).2 ≠ none → Broken (step s c group).1.node)
    (hnodup : (groups.map Prod.fst).Nodup) (hcg : cg ∈ groups)
    (hfail : ∀ s', s'.node.children cg.1 = s.node.children cg.1 → (step s' cg.1 cg.2).2 ≠ none) :
    Fails (afterGroups hashes finish (forGroups step groups s)) ∧
      Broken (afterGroups hashes finish (forGroups step groups s)).node := by
  induction groups generalizing s with
  | nil => cases hcg
  | cons cg' groups ih =>
    obtain ⟨hnot, hnodup⟩ := List.nodup_cons.1 hnodup
    have hbroken₀ := hbroken s cg'.1 cg'.2
    have hframe₀ := hframe s cg'.1 cg'.2
    rcases hstep : step s cg'.1 cg'.2 with ⟨s', _ | e⟩
    · rw [hstep] at hframe₀
      obtain rfl | hcg := List.mem_cons.1 hcg
      · exact absurd (congrArg Prod.snd hstep) (hfail s rfl)
      · rw [forGroups, hstep]
        have hsame := hframe₀ cg.1 fun heq => hnot (heq ▸ List.mem_map_of_mem hcg)
        exact ih hnodup hcg fun s'' hs'' => hfail s'' (hs''.trans hsame)
    · rw [hstep] at hbroken₀
      rw [forGroups, hstep]
      exact ⟨⟨e, rfl⟩, hbroken₀ (by simp)⟩

section groups

variable {db : RocksDB} {p : Bytes} {i : Nat} {op : NodeOp} {s : GroupLoop} {c c' : UInt8} {m : TrieNode}
  {group : List (Nat × Bytes)}

theorem isLeaf_insert {children : ByteMap (TrieNodeType TrieNode)} {x : TrieNodeType TrieNode}
    (h : n.children = ByteMap.insert children c x) : n.isLeaf = false :=
  ByteMap.isEmpty_eq_false (c := c) (by rw [h, ByteMap.insert_self]; simp)

theorem ensureChild_of_ne (h : c' ≠ c) : (n.ensureChild c).children c' = n.children c' := by
  unfold ensureChild
  split
  · rfl
  · exact ByteMap.insert_of_ne _ _ _ _ h

theorem insertGroup_frame (h : c' ≠ c) :
    (insertGroup op db p i s c group).1.node.children c' = s.node.children c' := by
  unfold insertGroup
  simp only
  split
  · exact ensureChild_of_ne h
  · split
    · exact (ByteMap.insert_of_ne _ _ _ _ h).trans (ensureChild_of_ne h)
    · exact (ByteMap.insert_of_ne _ _ _ _ h).trans (ensureChild_of_ne h)

theorem deleteGroup_frame (h : c' ≠ c) :
    (deleteGroup op db p i s c group).1.node.children c' = s.node.children c' := by
  unfold deleteGroup
  split
  · rfl
  · split
    · rfl
    · simp only
      split
      · exact ByteMap.insert_of_ne _ _ _ _ h
      · split
        · exact (ByteMap.remove_of_ne _ _ _ h).trans (ByteMap.insert_of_ne _ _ _ _ h)
        · exact ByteMap.insert_of_ne _ _ _ _ h

theorem insertGroup_broken (h : (insertGroup op db p i s c group).2 ≠ none) :
    Broken (insertGroup op db p i s c group).1.node := by
  have hchild : (s.node.ensureChild c).children c ≠ none := by
    unfold ensureChild
    split
    next hx => rw [hx]; simp
    next => exact fun h => nomatch (ByteMap.insert_self _ _ _).symm.trans h
  revert h
  unfold insertGroup
  simp only
  split
  · exact fun _ => ⟨ByteMap.isEmpty_eq_false hchild, rfl⟩
  · split
    · exact fun _ => ⟨isLeaf_insert rfl, rfl⟩
    · exact fun h => absurd rfl h

theorem deleteGroup_broken (h : (deleteGroup op db p i s c group).2 ≠ none) :
    Broken (deleteGroup op db p i s c group).1.node := by
  revert h
  unfold deleteGroup
  split
  · exact fun h => absurd rfl h
  next hsome =>
    split
    · refine fun _ => ⟨ByteMap.isEmpty_eq_false (c := c) fun hnone => hsome ?_, rfl⟩
      rw [Option.isNone_iff_eq_none]
      exact hnone
    · simp only
      split
      · exact fun _ => ⟨isLeaf_insert rfl, rfl⟩
      · exact fun h => absurd rfl h

theorem insertGroup_fails (hm : ChildFor db s.node p c m)
    (h : ∀ hs txn, Fails (op m hs txn (keysOf group) (i + 1))) : (insertGroup op db p i s c group).2 ≠ none :=
  (h s.node.childHashes s.txn).elim (insertGroup_cases hm).2

theorem deleteGroup_fails (hload : getOrLoadChild db s.node p c = .ok m)
    (h : ∀ hs txn, Fails (op m hs txn (keysOf group) (i + 1))) :
    (deleteGroup op db p i s c group).2 ≠ none := by
  obtain ⟨e, he⟩ := h s.node.childHashes s.txn
  have hsome : (s.node.children c).isNone = false := by
    rw [Option.isNone_eq_false_iff, Option.isSome_iff_ne_none]
    exact children_ne_none_of_load hload
  simp [deleteGroup, hsome, hload, he]

end groups

/-! ## Insertions that fail -/

section insert

variable [Blake3] {db : RocksDB} {n m : TrieNode} {p : Bytes} {S : Finset Bytes} {c : UInt8}
  {childHashes : ByteMap Bytes} {txn : RocksDbTransactionBatch} {ins : NodeOp} {rs₀ : List Bool}

omit [Blake3] in
theorem ChildFor.congr {n' : TrieNode} (h : n'.children c = n.children c) (hm : ChildFor db n p c m) :
    ChildFor db n' p c m := by
  rcases hm with ⟨hnone, rfl⟩ | hload
  · exact Or.inl ⟨h.trans hnone, rfl⟩
  · exact Or.inr ((getOrLoadChild_congr h).trans hload)

omit [Blake3] in
theorem exists_conflict {T : Finset Bytes} (h : ¬ IsAntichain (· <+: ·) (T : Set Bytes)) :
    ∃ a ∈ T, ∃ b ∈ T, a ≠ b ∧ a <+: b := by
  by_contra hcon
  refine h fun a ha b hb hne hab => hcon ⟨a, ha, b, hb, hne, hab⟩

/-- **One level of a failing insertion.** Two keys that run into each other go to the same child, if they go
    to one. -/
theorem insertBelow_fails {keys : List (Nat × Bytes)} (h : InnerAt db n p S)
    (hS : IsAntichain (· <+: ·) (S : Set Bytes)) (hp : ∀ k ∈ keysOf keys, p <+: k)
    (hconf : ¬ IsAntichain (· <+: ·) ((S ∪ (keysOf keys).toFinset : Finset Bytes) : Set Bytes))
    (hins : ∀ c ks m hs txn, ks ≠ [] → (∀ k ∈ ks, k ∈ keysOf keys ∧ p ++ [c] <+: k) →
      ¬ IsAntichain (· <+: ·) ((below (p ++ [c]) S ∪ ks.toFinset : Finset Bytes) : Set Bytes) →
      Represents db m (p ++ [c]) (below (p ++ [c]) S) → Fails (ins m hs txn ks (p.length + 1))) :
    Fails (insertBelow ins db p n childHashes txn rs₀ keys p.length) ∧
    ((∀ ik ∈ keys, p.length < ik.2.length) →
      Broken (insertBelow ins db p n childHashes txn rs₀ keys p.length).node) := by
  unfold insertBelow
  split
  next hany =>
    refine ⟨⟨_, rfl⟩, fun hlonger => ?_⟩
    obtain ⟨ik, hik, hle⟩ := List.any_eq_true.1 hany
    exact absurd (hlonger ik hik) (Nat.not_lt.2 (of_decide_eq_true hle))
  next hany =>
    have hlonger : ∀ ik ∈ keys, p.length < ik.2.length := by
      intro ik hik
      by_contra hle
      exact hany (List.any_eq_true.2 ⟨ik, hik, decide_eq_true (Nat.not_lt.1 hle)⟩)
    obtain ⟨a, ha, b, hb, hne, hab⟩ := exists_conflict hconf
    obtain ⟨c, hac⟩ : ∃ c, p ++ [c] <+: a := by
      obtain ha | ha := Finset.mem_union.1 ha
      · exact h.cover a ha
      · obtain ⟨ik, hik, rfl⟩ := List.mem_map.1 (List.mem_toFinset.1 ha)
        exact exists_snoc_isPrefix (hp _ (List.mem_map_of_mem hik)) (hlonger ik hik)
    have hbc : p ++ [c] <+: b := hac.trans hab
    -- one of the two is a key of the call
    obtain ⟨ik, hik, hc⟩ : ∃ ik ∈ keys, ik.2[p.length]? = some c := by
      by_cases haS : a ∈ S
      · obtain hbS | hb := Finset.mem_union.1 hb
        · exact absurd hab (hS haS hbS hne)
        · obtain ⟨ik, hik, rfl⟩ := List.mem_map.1 (List.mem_toFinset.1 hb)
          exact ⟨ik, hik, (snoc_isPrefix_iff.1 hbc).2⟩
      · obtain ⟨ik, hik, rfl⟩ :=
          List.mem_map.1 (List.mem_toFinset.1 ((Finset.mem_union.1 ha).resolve_left haS))
        exact ⟨ik, hik, (snoc_isPrefix_iff.1 hac).2⟩
    obtain ⟨group, hg, -⟩ := exists_group hik hc
    have hmem : ∀ k ∈ S ∪ (keysOf keys).toFinset, p ++ [c] <+: k →
        k ∈ below (p ++ [c]) S ∪ (keysOf group).toFinset := by
      intro k hk hkc
      obtain hk | hk := Finset.mem_union.1 hk
      · exact Finset.mem_union_left _ (mem_below.2 ⟨hk, hkc⟩)
      · obtain ⟨ik, hik, rfl⟩ := List.mem_map.1 (List.mem_toFinset.1 hk)
        refine Finset.mem_union_right _ (List.mem_toFinset.2 (List.mem_map_of_mem ?_))
        exact (mem_group hg).2 ⟨hik, (snoc_isPrefix_iff.1 hkc).2⟩

    obtain ⟨m, hm, hrep⟩ := h.childFor c
    refine (afterGroups_fails (s := ⟨n, txn, rs₀, 0⟩) (fun s c group c' hne => insertGroup_frame hne)
      (fun s c group h => insertGroup_broken h) (entries_nodup _) hg fun s hs =>
        insertGroup_fails (hm.congr hs) fun hs txn => ?_).imp_right fun hbroken _ => hbroken
    exact hins c (keysOf group) m hs txn (keysOf_ne_nil hg) (fun k => mem_keysOf_group hp hg)
      (fun hanti => hanti (hmem a ha hac) (hmem b hb hbc) hne hab) hrep

/-- A leaf that fails: it is split at the end of its own key, or the keys that split it fail. -/
theorem insertLeaf_fails {fuel : Nat} {hs : ByteMap Bytes} {k₀ : Bytes} {offset : Nat}
    (hdepth : uncompactedLength ≤ p.length) (hk₀ : p <+: k₀) (hstale : ∀ c, hs c ≠ none → p ++ [c] <+: k₀)
    (hp : ∀ k ∈ keys, p <+: k)
    (hconf : ¬ IsAntichain (· <+: ·) (({k₀} ∪ keys.toFinset : Finset Bytes) : Set Bytes))
    (hins : ∀ c ks m hs txn, ks ≠ [] → (∀ k ∈ ks, k ∈ keys ∧ p ++ [c] <+: k) →
      ¬ IsAntichain (· <+: ·) ((below (p ++ [c]) {k₀} ∪ ks.toFinset : Finset Bytes) : Set Bytes) →
      Represents db m (p ++ [c]) (below (p ++ [c]) {k₀}) →
      Fails (insert db (fuel + 1) m hs txn ks (p.length + 1))) :
    Fails (insertLeaf (insert db (fuel + 1)) db p
      (leafNode hs k₀) childHashes txn rs₀ keys offset p.length) := by
  have hunion : {k₀} ∪ (keysOf (otherKeys k₀ keys offset)).toFinset = {k₀} ∪ keys.toFinset := by
    rw [keysOf_otherKeys]
    ext k
    simp only [Finset.mem_union, Finset.mem_singleton, List.mem_toFinset, List.mem_filter, decide_eq_true_iff]
    tauto
  have hsingle : IsAntichain (· <+: ·) (({k₀} : Finset Bytes) : Set Bytes) := by
    rw [Finset.coe_singleton]
    exact Set.pairwise_singleton _ _
  have hnil : otherKeys k₀ keys offset ≠ [] := by
    intro hnil
    rw [hnil, show keysOf [] = [] from rfl, List.toFinset_nil, Finset.union_empty] at hunion
    exact hconf (hunion ▸ hsingle)
  have hkeys : keys.isEmpty = false := by
    obtain ⟨ik, hik⟩ := List.exists_mem_of_ne_nil _ hnil
    exact List.isEmpty_eq_false_iff.2 (List.ne_nil_of_mem (mem_otherKeys hik).1)
  have hrem : (otherKeys k₀ keys offset).isEmpty = false := List.isEmpty_eq_false_iff.2 hnil
  simp only [insertLeaf, hkeys, remainingKeys_eq (leafNode_key hs k₀), hrem, Bool.false_eq_true, if_false]
  rcases Nat.lt_or_ge p.length k₀.length with hlt | hge
  · obtain ⟨c₀, hc₀⟩ := exists_snoc_isPrefix hk₀ hlt
    obtain ⟨self, txn', hsplit, hinner, -⟩ := splitLeafNode_spec db txn fuel hdepth hc₀ hstale
    simp only [hsplit]
    have hothers : ∀ k ∈ keysOf (otherKeys k₀ keys offset), k ∈ keys := by
      rw [keysOf_otherKeys]
      exact fun k => List.mem_of_mem_filter
    exact (insertBelow_fails hinner hsingle (fun k hk => hp k (hothers k hk)) (hunion ▸ hconf)
      fun c ks m hs txn hne hks =>
      hins c ks m hs txn hne fun k hk => ⟨hothers k (hks k hk).1, (hks k hk).2⟩).1
  · have hend : k₀[p.length]? = none := List.getElem?_eq_none hge
    simp only [splitLeafNode, leafNode_key, hend]
    exact ⟨_, rfl⟩

/-- **Insertions fail** if a key is a proper prefix of another one, and leave a node above the compacted
    levels without hashes. -/
theorem insert_fails (fuel : Nat) (h : Represents db n p S) (hS : IsAntichain (· <+: ·) (S : Set Bytes))
    (hne : keys ≠ []) (hp : ∀ k ∈ keys, p <+: k) (hlen : ∀ k ∈ keys, uncompactedLength ≤ k.length)
    (hfuel : ∀ k ∈ keys, k.length + 2 ≤ fuel + p.length)
    (hconf : ¬ IsAntichain (· <+: ·) ((S ∪ keys.toFinset : Finset Bytes) : Set Bytes)) :
    Fails (insert db fuel n childHashes txn keys p.length) ∧ (p.length < uncompactedLength →
      Broken (insert db fuel n childHashes txn keys p.length).node) := by
  induction fuel generalizing n p S childHashes txn keys with
  | zero => exact absurd (le_fuel hne hp hfuel) (by decide)
  | succ fuel ih =>
    -- the recursive call, on a part of the keys
    have hchild : ∀ (T : Finset Bytes) c ks m hs txn, IsAntichain (· <+: ·) (T : Set Bytes) → ks ≠ [] →
        (∀ k ∈ ks, k ∈ keys ∧ p ++ [c] <+: k) →
        ¬ IsAntichain (· <+: ·) ((below (p ++ [c]) T ∪ ks.toFinset : Finset Bytes) : Set Bytes) →
        Represents db m (p ++ [c]) (below (p ++ [c]) T) →
        Fails (insert db fuel m hs txn ks (p.length + 1)) := by
      intro T c ks m hs txn hT hks hmem hconf hrep
      have hlength : p.length + 1 = (p ++ [c]).length := by simp
      rw [hlength]
      exact (ih hrep (hT.subset (Finset.coe_subset.2 below_subset)) hks (fun k hk => (hmem k hk).2)
        (fun k hk => hlen k (hmem k hk).1) (fuel_child hfuel hmem) hconf).1
    rcases insert_cases h hne hp hfuel with ⟨hinner, -, heq⟩ | ⟨hdepth, fuel, rfl, hleaf⟩
    · rw [heq]
      refine (insertBelow_fails hinner hS (by rwa [keysOf_withPositions]) (by rwa [keysOf_withPositions])
        fun c ks m hs txn hks hmem => hchild S c ks m hs txn hS hks ?_).imp_right
        fun hbroken hlt => hbroken fun ik hik => Nat.lt_of_lt_of_le hlt (hlen _ (mem_withPositions hik).2.2)
      rwa [keysOf_withPositions] at hmem
    · refine ⟨?_, fun hlt => absurd hlt (Nat.not_lt.2 hdepth)⟩
      rcases hleaf with ⟨k₀, hs, rfl, rfl, hpk₀, hstale, heq⟩ | ⟨ks, x, rfl, rfl, rfl, heq⟩ <;> rw [heq]
      · exact insertLeaf_fails hdepth hpk₀ hstale hp hconf fun c ks m hs txn => hchild {k₀} c ks m hs txn hS
      · refine insertLeaf_fails hdepth (hp x (by simp)) (by simp)
          (fun k hk => hp k (List.mem_append_left _ hk)) ?_ ?_
        · rwa [Finset.empty_union, List.toFinset_append, Finset.union_comm] at hconf
        · intro c cs m hs txn hcs hmem
          refine hchild {x} c cs m hs txn ?_ hcs fun k hk =>
            ⟨List.mem_append_left _ (hmem k hk).1, (hmem k hk).2⟩
          rw [Finset.coe_singleton]
          exact Set.pairwise_singleton _ _

end insert

/-! ## Deletions that fail -/

section delete

variable [Blake3] {db : RocksDB} {n : TrieNode} {p : Bytes} {S : Finset Bytes} {childHashes : ByteMap Bytes}
  {txn : RocksDbTransactionBatch}

/-- **Deletions fail** if a key is the path of an inner node, and leave a node above the compacted levels
    without hashes. -/
theorem delete_fails (fuel : Nat) (h : Represents db n p S) (hp : ∀ k ∈ keys, p <+: k)
    (hlen : ∀ k ∈ keys, uncompactedLength ≤ k.length) (hfuel : ∀ k ∈ keys, k.length + 1 ≤ fuel + p.length)
    (hconf : ∃ k ∈ keys, 2 ≤ (below k S).card) : Fails (delete db fuel n childHashes txn keys p.length) ∧
      (p.length < uncompactedLength → Broken (delete db fuel n childHashes txn keys p.length).node) := by
  induction fuel generalizing n p S childHashes txn keys with
  | zero =>
    obtain ⟨k, hk, -⟩ := hconf
    exact absurd (le_fuel (List.ne_nil_of_mem hk) hp hfuel) (by decide)
  | succ fuel ih =>
    obtain ⟨k, hk, hcard⟩ := hconf
    have hS : 2 ≤ S.card := hcard.trans (Finset.card_le_card below_subset)
    have hSne : S.Nonempty := Finset.card_pos.1 (by omega)
    have hinner : InnerAt db n p S := by
      rcases h.inv with ⟨rfl, -⟩ | ⟨k₀, hs, rfl, -⟩ | ⟨-, -, hinner⟩
      · simp at hS
      · simp at hS
      · exact hinner
    obtain ⟨key₀, rest, rfl⟩ := List.exists_cons_of_ne_nil (List.ne_nil_of_mem hk)
    have htake : key₀.take p.length = p := (List.prefix_iff_eq_take.mp (hp key₀ (.head _))).symm
    simp only [delete, deleteStep, hinner.not_isLeaf hSne, htake, Bool.false_eq_true, if_false]
    split
    next hany =>
      refine ⟨⟨_, rfl⟩, fun hlt => ?_⟩
      obtain ⟨key, hkey, hle⟩ := List.any_eq_true.1 hany
      exact absurd (Nat.lt_of_lt_of_le hlt (hlen key hkey)) (Nat.not_lt.2 (of_decide_eq_true hle))
    next hany =>
      have hlt : p.length < k.length := by
        by_contra hle
        exact hany (List.any_eq_true.2 ⟨k, hk, decide_eq_true (Nat.not_lt.1 hle)⟩)
      obtain ⟨c, hkc⟩ := exists_snoc_isPrefix (hp k hk) hlt
      have hk' : k ∈ keysOf (withPositions (key₀ :: rest) 0) := by rwa [keysOf_withPositions]
      obtain ⟨ik, hik, rfl⟩ := List.mem_map.1 hk'
      obtain ⟨group, hg, hmem⟩ := exists_group hik (snoc_isPrefix_iff.1 hkc).2
      have hgroup : ∀ key ∈ keysOf group, key ∈ key₀ :: rest ∧ p ++ [c] <+: key := by
        intro key hkey
        have hmem := mem_keysOf_group (by rwa [keysOf_withPositions]) hg hkey
        rwa [keysOf_withPositions] at hmem
      -- the key goes to a child that holds the same two keys below it
      rw [← below_below hkc] at hcard
      have hb : (below (p ++ [c]) S).Nonempty :=
        Finset.card_pos.1 (by have := hcard.trans (Finset.card_le_card below_subset); omega)
      obtain ⟨child, hframe, hchild⟩ := hinner
      refine (afterGroups_fails (s := ⟨n, txn, _, 0⟩) (fun s c group c' hne => deleteGroup_frame hne)
        (fun s c group h => deleteGroup_broken h) (entries_nodup _) hg fun s hs => deleteGroup_fails
          ((getOrLoadChild_congr hs).trans (hframe.load c hb)) fun hs txn => ?_).imp_right
            fun hbroken _ => hbroken
      rw [show p.length + 1 = (p ++ [c]).length by simp]
      exact (ih (hchild c hb) (fun key hkey => (hgroup key hkey).2)
        (fun key hkey => hlen key (hgroup key hkey).1)
        (fuel_child hfuel hgroup) ⟨ik.2, List.mem_map_of_mem hmem, hcard⟩).1

end delete

end TrieNode

namespace MerkleTrie

open TrieNode PrefixSet Overlay

/-! ## Failed calls of the trie -/

section trie

variable [Blake3] {db db' : RocksDB} {t : MerkleTrie} {root : TrieNode} {K : Finset Bytes} {op : BatchOp}
  {txnBatch : RocksDbTransactionBatch} {calls : List BatchCall}

/-- The call does not panic, and if it returns an error, the trie shows what it showed before. -/
def Atomic (t : MerkleTrie) (db : RocksDB) (txnBatch : RocksDbTransactionBatch) (op : BatchOp) : Prop :=
  let out := op.apply t db txnBatch
  (∀ reason, out.2.2 ≠ .error (.panic reason)) ∧
    ∀ e, out.2.2 = .error e → out.1.rootHash = t.rootHash ∧ out.1.items = t.items ∧
      ∀ db key, (out.1.existsKey db key).2 = (t.existsKey db key).2

/-- **An unsafe call fails**, and leaves the root without hashes. -/
theorem HoldsInMemory.fails_of_not_safe (h : HoldsInMemory t K root) (db : RocksDB)
    (txnBatch : RocksDbTransactionBatch) (hK : IsAntichain (· <+: ·) (K : Set Bytes))
    (hlen : ∀ k ∈ op.keys, 6 ≤ k.length) (hnot : ¬ op.Safe K) :
    ∃ e root', (op.apply t db txnBatch).2.2 = .error e ∧ (op.apply t db txnBatch).1 = ⟨some root'⟩ ∧
    Broken root' := by
  cases op with
  | insert keys =>
    have hne : keys ≠ [] := by
      rintro rfl
      refine hnot ?_
      rw [BatchOp.Safe, List.toFinset_nil, Finset.union_empty]
      exact hK
    have heq := @update_eq t root txnBatch (TrieNode.insert db) keys h.root_eq hne hlen
    have hconf : ¬ IsAntichain (· <+: ·)
        ((nibbleKeys K ∪ (keys.map expandNibbles).toFinset : Finset Bytes) : Set Bytes) := by
      rw [← nibbleKeys_union]
      intro hanti
      refine hnot fun a ha b hb hne hab => ?_
      exact hanti (mem_nibbleKeys.2 ha) (mem_nibbleKeys.2 hb) (fun heq => hne (expandNibbles_injective heq))
        (expandNibbles_isPrefix_iff.2 hab)
    obtain ⟨⟨e, herror⟩, hbroken⟩ :
        Fails (TrieNode.insert db (depthBound (keys.map expandNibbles)) root ByteMap.empty
        Batch.empty (keys.map expandNibbles) 0) ∧ _ :=
      insert_fails _ (h.represents db) (nibbleKeys_antichain hK) (by simpa using hne)
        (fun _ _ => List.nil_prefix)
        (fun _ hk => nibbles_long hlen hk) (fun k hk => length_le_depthBound hk) hconf
    exact ⟨e, _, (congrArg (·.2.2) heq).trans herror, congrArg (·.1) heq, hbroken (by decide)⟩
  | delete keys =>
    obtain ⟨k, hk, hcard⟩ : ∃ k ∈ keys, 2 ≤ (K.filter (k <+: ·)).card := by
      by_contra hcon
      refine hnot fun k hk => ?_
      by_contra hlt
      exact hcon ⟨k, hk, by omega⟩
    have heq := @update_eq t root txnBatch (TrieNode.delete db) keys h.root_eq (List.ne_nil_of_mem hk) hlen
    obtain ⟨⟨e, herror⟩, hbroken⟩ :
        Fails (TrieNode.delete db (depthBound (keys.map expandNibbles)) root ByteMap.empty
        Batch.empty (keys.map expandNibbles) 0) ∧ _ :=
      delete_fails _ (h.represents db) (fun _ _ => List.nil_prefix) (fun _ hk => nibbles_long hlen hk)
        (fun k hk => (Nat.le_succ _).trans (length_le_depthBound hk))
        ⟨expandNibbles k, List.mem_map_of_mem hk, by
          rw [card_below_nibbleKeys]
          simpa only [expandNibbles_isPrefix_iff] using hcard⟩
    exact ⟨_, _, (congrArg (·.2.2) heq).trans herror, congrArg (·.1) heq, hbroken (by decide)⟩

/-- A trie whose root lost its hashes shows something else than a trie that holds a set: another root hash,
    or, if the set is empty, that there are keys. -/
theorem HoldsInMemory.ne_broken (h : HoldsInMemory t K root) {root' : TrieNode} (hbroken : Broken root') :
    ¬ ((⟨some root'⟩ : MerkleTrie).rootHash = t.rootHash ∧
      ∀ db key, ((⟨some root'⟩ : MerkleTrie).existsKey db key).2 = (t.existsKey db key).2) := by
  rintro ⟨hhash, hexists⟩
  by_cases hK : K = ∅
  · have hbefore := (existsKey_spec h.root_eq (h.represents fun _ => none) []).1
    have hafter : ((⟨some root'⟩ : MerkleTrie).existsKey (fun _ => none) []).2 = .ok false := by
      simp [existsKey, depthBound, existsAt, hbroken.inner]
    rw [← hexists, hafter] at hbefore
    simp [hK] at hbefore
  · have hne := (h.represents fun _ => none).hash_ne_nil
      (Finset.nonempty_iff_ne_empty.2 (mt nibbleKeys_eq_empty.1 hK))
    simp only [rootHash, h.root_eq, hbroken.hash_eq, Except.ok.injEq] at hhash
    exact hne hhash.symm

omit [Blake3] in
theorem SafeFrom.antichain (hK : IsAntichain (· <+: ·) (K : Set Bytes)) (h : SafeFrom K calls) :
    IsAntichain (· <+: ·) (setAfter K calls : Set Bytes) := by
  induction calls generalizing K with
  | nil => exact hK
  | cons c calls ih =>
    obtain ⟨op, db, txnBatch⟩ := c
    obtain ⟨-, hsafe, hrest⟩ := h
    refine ih ?_ hrest
    cases op with
    | insert keys => exact hsafe
    | delete keys => exact hK.subset (Finset.coe_subset.2 Finset.sdiff_subset)

/-- **Exactly the safe calls are atomic**, on every trie that safe calls lead to. -/
theorem atomic_iff (hfresh : db (nodeKey []) = none) (hsafe : SafeFrom ∅ calls)
    (hlen : ∀ k ∈ op.keys, 6 ≤ k.length) :
    ((fresh db).runBatches calls).Atomic db' txnBatch op ↔ op.Safe (setAfter ∅ calls) := by
  obtain ⟨root, hroot⟩ := (fresh_holds hfresh).runBatches hsafe
  constructor
  · rintro ⟨-, hsame⟩
    by_contra hnot
    have hK := hsafe.antichain (by simp)
    obtain ⟨e, root', herror, hnode, hbroken⟩ := hroot.fails_of_not_safe db' txnBatch hK hlen hnot
    obtain ⟨hhash, -, hexists⟩ := hsame e herror
    rw [hnode] at hhash hexists
    exact hroot.ne_broken hbroken ⟨hhash, hexists⟩
  · intro hop
    obtain ⟨⟨rs, hres⟩, -⟩ := hroot.applyBatch op db' txnBatch hlen hop
    refine ⟨fun reason hpanic => ?_, fun e herror => ?_⟩
    · rw [hres] at hpanic
      cases hpanic
    · rw [hres] at herror
      cases herror

end trie

theorem atomic_insert : @Atomic constHash (fresh fun _ => none) (fun _ => none) Batch.empty
    (.insert [[1, 2, 3, 4, 5, 6, 7], [1, 2, 3, 4, 5, 6, 8]]) := by
  refine (@atomic_iff constHash (fun _ => none) (fun _ => none)
    (.insert [[1, 2, 3, 4, 5, 6, 7], [1, 2, 3, 4, 5, 6, 8]])
    Batch.empty [] rfl trivial (by decide)).2 fun a ha b hb hne hab => hne (hab.eq_of_length ?_)
  have hlength :
      ∀ k ∈ (setAfter ∅ [] ∪ [[1, 2, 3, 4, 5, 6, 7], [1, 2, 3, 4, 5, 6, 8]].toFinset : Finset Bytes),
      k.length = 7 := by decide
  rw [hlength a ha, hlength b hb]

/-- A trie with two keys of 7 bytes that share the first 6 of them. -/
def forked : MerkleTrie :=
  (@insert constHash (fresh fun _ => none) (fun _ => none) Batch.empty
    [[1, 2, 3, 4, 5, 6, 7], [1, 2, 3, 4, 5, 6, 8]]).1

/-- Inserting the 6 bytes they share is refused, but the root hash is lost. -/
theorem insert_error_changes_root :
    (@insert constHash forked (fun _ => none) Batch.empty [[1, 2, 3, 4, 5, 6]]).2.2 =
      .error .keyLengthExceeded ∧
    @rootHash constHash forked = .ok (List.replicate 20 0) ∧
    @rootHash constHash (@insert constHash forked (fun _ => none) Batch.empty [[1, 2, 3, 4, 5, 6]]).1 =
      .ok [] := by
  decide +kernel

end MerkleTrie
end Hypersnap
