import Hypersnap.Lib.FirstSeen
import Hypersnap.Lib.PrefixSet
import Hypersnap.Trie.Node

/-!
# `Trie.Groups` — a call with many keys

A call with many keys sorts them into groups by the next nibble, remembers the position of every key in the
call, and writes the results of a group back to these positions. Here is what the two steps do: a group is the
part of the keys with one nibble (`mem_entries_groupedKeys`), and the write-back changes the positions of the
group and no others (`scatter_spec`).
-/

namespace Hypersnap
namespace TrieNode

variable {group keys : List (Nat × Bytes)} {index : Nat} {c : UInt8} {results childResults : List Bool}
  {ik : Nat × Bytes} {P : Bytes → Prop} {done : List (UInt8 × List (Nat × Bytes))}

/-! ## Groups -/

/-- The keys of a group. -/
abbrev keysOf (group : List (Nat × Bytes)) : List Bytes := group.map (·.2)

theorem mem_entries_groupedKeys : (c, group) ∈ (groupedKeys keys index).entries ↔
      group = keys.filter (fun ik => ik.2[index]? = some c) ∧ group ≠ [] := by
  have hvalue : groupedKeys keys index c = some group ↔
      group = keys.filter (fun ik => ik.2[index]? = some c) ∧ group ≠ [] := by
    unfold groupedKeys
    split
    next hnil =>
      refine ⟨(fun h => nomatch h), fun ⟨heq, hne⟩ => absurd ?_ hne⟩
      rw [heq, hnil]
    next hne =>
      rw [Option.some.injEq]
      exact ⟨fun heq => ⟨heq.symm, heq ▸ hne⟩, fun h => h.1.symm⟩
  unfold ByteMap.entries
  rw [List.mem_filterMap, ← hvalue]
  constructor
  · rintro ⟨c', -, hc'⟩
    obtain ⟨group', hgroup', heq⟩ := Option.map_eq_some_iff.1 hc'
    cases heq
    exact hgroup'
  · intro h
    exact ⟨c, ByteMap.mem_chars.2 (by rw [h]; simp), by rw [h]; rfl⟩

theorem entries_nodup (m : ByteMap (List (Nat × Bytes))) : (m.entries.map Prod.fst).Nodup := by
  rw [ByteMap.entries, List.map_filterMap]
  refine m.chars_nodup.filterMap fun c c' b hc hc' => ?_
  simp only [Option.mem_def, Option.map_map, Option.map_eq_some_iff] at hc hc'
  obtain ⟨⟨_, -, rfl⟩, ⟨_, -, heq⟩⟩ := hc, hc'
  exact heq.symm

theorem mem_group
    (h : (c, group) ∈ (groupedKeys keys index).entries) : ik ∈ group ↔ ik ∈ keys ∧ ik.2[index]? = some c := by
  rw [(mem_entries_groupedKeys.1 h).1, List.mem_filter, decide_eq_true_iff]

theorem exists_group (hik : ik ∈ keys) (hc : ik.2[index]? = some c) :
    ∃ group, (c, group) ∈ (groupedKeys keys index).entries ∧ ik ∈ group := by
  have hmem : ik ∈ keys.filter fun ik => ik.2[index]? = some c := List.mem_filter.2 ⟨hik, decide_eq_true hc⟩
  exact ⟨_, mem_entries_groupedKeys.2 ⟨rfl, List.ne_nil_of_mem hmem⟩, hmem⟩

/-- **The loop over the groups of a call.** A property of the groups done so far and the state of the loop
    that every group keeps, without an error, holds at the end for all groups. -/
theorem forGroups_induction {step : GroupLoop → UInt8 → List (Nat × Bytes) → GroupLoop × Option TrieError}
    {I : List (UInt8 × List (Nat × Bytes)) → GroupLoop → Prop}
    (hstep : ∀ done c group s, (∀ cg ∈ done, cg ∈ (groupedKeys keys index).entries) →
      (c, group) ∈ (groupedKeys keys index).entries → c ∉ done.map Prod.fst → I done s →
      ∃ s', step s c group = (s', none) ∧ I (done ++ [(c, group)]) s') {s : GroupLoop} (h : I [] s) :
    ∃ s', forGroups step (groupedKeys keys index).entries s = (s', none) ∧
    I (groupedKeys keys index).entries s' := by
  have run : ∀ groups done s, done ++ groups = (groupedKeys keys index).entries → I done s →
      ∃ s', forGroups step groups s = (s', none) ∧ I (groupedKeys keys index).entries s' := by
    intro groups
    induction groups with
    | nil =>
      intro done s hall h
      rw [List.append_nil] at hall
      exact ⟨s, rfl, hall ▸ h⟩
    | cons cg groups ih =>
      obtain ⟨c, group⟩ := cg
      intro done s hall h
      have hc : c ∉ done.map Prod.fst := by
        have hnodup := entries_nodup (groupedKeys keys index)
        rw [← hall, List.map_append, List.map_cons] at hnodup
        exact fun hmem => (List.nodup_append.1 hnodup).2.2 c hmem c (.head _) rfl
      obtain ⟨s', hs, h'⟩ := hstep done c group s (fun cg hcg => hall ▸ List.mem_append_left _ hcg)
        (hall ▸ List.mem_append_right _ (.head _)) hc h
      rw [forGroups, hs]
      exact ih (done ++ [(c, group)]) s' (by rw [List.append_assoc]; exact hall) h'
  exact run _ [] s (List.nil_append _) h

def keysIn (groups : List (UInt8 × List (Nat × Bytes))) : Finset Bytes :=
  (groups.flatMap fun cg => keysOf cg.2).toFinset

theorem mem_keysIn {groups : List (UInt8 × List (Nat × Bytes))} {k : Bytes} :
    k ∈ keysIn groups ↔ ∃ cg ∈ groups, k ∈ keysOf cg.2 := by
  rw [keysIn, List.mem_toFinset, List.mem_flatMap]

@[simp] theorem keysIn_nil : keysIn [] = ∅ := rfl

theorem keysIn_snoc (groups : List (UInt8 × List (Nat × Bytes))) (c : UInt8) (group : List (Nat × Bytes)) :
    keysIn (groups ++ [(c, group)]) = keysIn groups ∪ (keysOf group).toFinset := by
  rw [keysIn, List.flatMap_append, List.toFinset_append]
  simp [keysIn]

/-! ## Positions and results -/

/-- The keys of a call with their positions. -/
abbrev withPositions (keys : List Bytes) (offset : Nat) : List (Nat × Bytes) :=
  (keys.zipIdx offset).map fun ki => (ki.2, ki.1)

/-- The results at the positions of a group. -/
def readAt (results : List Bool) (group : List (Nat × Bytes)) : List Bool :=
  group.map fun ik => (results[ik.1]?).getD false

theorem length_readAt (results : List Bool) (group : List (Nat × Bytes)) :
    (readAt results group).length = (keysOf group).length := by
  rw [readAt, List.length_map, List.length_map]

theorem readAt_congr {r s : List Bool} (h : ∀ ik ∈ group, r[ik.1]? = s[ik.1]?) :
    readAt r group = readAt s group :=
  List.map_congr_left fun ik hik => by rw [h ik hik]

theorem readAt_withPositions {keys : List Bytes} {before results : List Bool}
    (hlength : results.length = keys.length) :
    readAt (before ++ results) (withPositions keys before.length) = results := by
  induction keys generalizing before results with
  | nil =>
    obtain rfl := List.length_eq_zero_iff.1 hlength
    rfl
  | cons k keys ih =>
    obtain _ | ⟨b, results⟩ := results
    · cases hlength
    have htail := @ih (before ++ [b]) results (Nat.succ.inj hlength)
    rw [List.append_assoc, List.length_append] at htail
    rw [withPositions, List.zipIdx_cons, List.map_cons, readAt, List.map_cons]
    refine congrArg₂ List.cons ?_ htail
    rw [List.getElem?_append_right (Nat.le_refl _), Nat.sub_self]
    rfl

theorem select_readAt [DecidablePred P] (results : List Bool) (keys : List (Nat × Bytes)) :
    FirstSeen.select P (keysOf keys) (readAt results keys) = readAt results (keys.filter (P ·.2)) := by
  induction keys with
  | nil => rfl
  | cons ik keys ih =>
    rw [keysOf, readAt, List.map_cons, List.map_cons, FirstSeen.select_cons, List.filter_cons]
    by_cases hP : P ik.2
    · rw [if_pos hP, if_pos (decide_eq_true hP)]
      exact congrArg (List.cons _) ih
    · rw [if_neg hP, if_neg (by simpa using hP)]
      exact ih

theorem keysOf_filter [DecidablePred P] (keys : List (Nat × Bytes)) :
    keysOf (keys.filter (P ·.2)) = (keysOf keys).filter (P ·) := by
  rw [keysOf, keysOf, List.filter_map]
  rfl

theorem keysOf_withPositions (keys : List Bytes) (offset : Nat) :
    keysOf (withPositions keys offset) = keys := by
  rw [keysOf, List.map_map]
  exact List.zipIdx_map_fst _ _

section

variable (hg : (c, group) ∈ (groupedKeys keys index).entries)
include hg

theorem keysOf_group : keysOf group = (keysOf keys).filter (fun k => k[index]? = some c) := by
  rw [(mem_entries_groupedKeys.1 hg).1, keysOf_filter (P := fun k => k[index]? = some c)]

theorem keysOf_ne_nil : keysOf group ≠ [] := by
  simpa using (mem_entries_groupedKeys.1 hg).2

omit hg in
theorem mem_keysOf_group {p k : Bytes} (hp : ∀ k ∈ keysOf keys, p <+: k)
    (hg : (c, group) ∈ (groupedKeys keys p.length).entries) (hk : k ∈ keysOf group) :
    k ∈ keysOf keys ∧ p ++ [c] <+: k := by
  rw [keysOf_group hg, List.mem_filter, decide_eq_true_iff] at hk
  exact ⟨hk.1, PrefixSet.snoc_isPrefix_iff.2 ⟨hp k hk.1, hk.2⟩⟩

theorem select_group (results : List Bool) :
    FirstSeen.select (fun k => k[index]? = some c) (keysOf keys) (readAt results keys) =
      readAt results group := by
  rw [select_readAt, (mem_entries_groupedKeys.1 hg).1]

end

/-- The keys that a node at `p` passes on to its children, with their positions in the results of the call. -/
structure Pending (p : Bytes) (keys : List (Nat × Bytes)) (results : List Bool) : Prop where
  extend : ∀ ik ∈ keys, ∃ c, p ++ [c] <+: ik.2
  positions : (keys.map Prod.fst).Nodup
  silent : ∀ ik ∈ keys, results[ik.1]? = some false

section pending

variable {p : Bytes} {keys : List (Nat × Bytes)} {results : List Bool} {c c' : UInt8}
  {group group' : List (Nat × Bytes)} {ik ik' : Nat × Bytes}

theorem Pending.mem_group (h : Pending p keys results) (hg : (c, group) ∈ (groupedKeys keys p.length).entries)
    {k : Bytes} (hk : k ∈ keysOf group) : k ∈ keysOf keys ∧ p ++ [c] <+: k := by
  refine mem_keysOf_group (fun k hk => ?_) hg hk
  obtain ⟨ik, hik, rfl⟩ := List.mem_map.1 hk
  exact (h.extend ik hik).elim fun _ => PrefixSet.isPrefix_of_snoc

theorem Pending.group_positions (h : Pending p keys results)
    (hg : (c, group) ∈ (groupedKeys keys p.length).entries) : (group.map Prod.fst).Nodup := by
  rw [(mem_entries_groupedKeys.1 hg).1]
  exact h.positions.sublist (List.filter_sublist.map _)

theorem Pending.position_notMem (h : Pending p keys results)
    (hg : (c, group) ∈ (groupedKeys keys p.length).entries)
    (hg' : (c', group') ∈ (groupedKeys keys p.length).entries) (hne : c ≠ c') (hik : ik ∈ group) :
    ik.1 ∉ group'.map Prod.fst := by
  intro hmem
  obtain ⟨ik', hik', heq⟩ := List.mem_map.1 hmem
  obtain ⟨hkeys, hc⟩ := (TrieNode.mem_group hg).1 hik
  obtain ⟨hkeys', hc'⟩ := (TrieNode.mem_group hg').1 hik'
  obtain rfl := List.inj_on_of_nodup_map h.positions hkeys' hkeys heq
  exact hne (Option.some.inj (hc.symm.trans hc'))

theorem mem_withPositions {keys : List Bytes} {offset : Nat} (h : ik ∈ withPositions keys offset) :
    offset ≤ ik.1 ∧ ik.1 < offset + keys.length ∧ ik.2 ∈ keys := by
  obtain ⟨⟨k, i⟩, hki, rfl⟩ := List.mem_map.1 h
  obtain ⟨hle, hlt, hget⟩ := List.mem_zipIdx hki
  exact ⟨hle, by omega, hget ▸ List.getElem_mem _⟩

theorem nodup_withPositions (keys : List Bytes) (offset : Nat) :
    ((withPositions keys offset).map Prod.fst).Nodup := by
  rw [withPositions, List.map_map]
  exact (List.zipIdx_map_snd _ _).symm ▸ List.nodup_range'

theorem pending_of_sublist {call : List Bytes} {before : List Bool}
    (hsub : keys.Sublist (withPositions call before.length)) (hextend : ∀ ik ∈ keys, ∃ c, p ++ [c] <+: ik.2) :
    Pending p keys (before ++ List.replicate call.length false) := by
  refine ⟨hextend, (nodup_withPositions _ _).sublist (hsub.map _), fun ik hik => ?_⟩
  obtain ⟨hle, hlt, -⟩ := mem_withPositions (hsub.subset hik)
  rw [List.getElem?_append_right hle, List.getElem?_replicate, if_pos (by omega)]

theorem pending_call {call : List Bytes} (hp : ∀ k ∈ call, p <+: k)
    (hlonger : ∀ k ∈ call, p.length < k.length) :
    Pending p (withPositions call 0) (List.replicate call.length false) :=
  @pending_of_sublist _ _ call [] (List.Sublist.refl _) fun _ hik =>
    PrefixSet.exists_snoc_isPrefix (hp _ (mem_withPositions hik).2.2) (hlonger _ (mem_withPositions hik).2.2)

theorem Pending.keysIn_entries (h : Pending p keys results) :
    keysIn (groupedKeys keys p.length).entries = (keysOf keys).toFinset := by
  ext k
  rw [mem_keysIn, List.mem_toFinset]
  constructor
  · rintro ⟨⟨c, group⟩, hg, hk⟩
    exact (h.mem_group hg hk).1
  · intro hk
    obtain ⟨ik, hik, rfl⟩ := List.mem_map.1 hk
    obtain ⟨c, hc⟩ := h.extend ik hik
    obtain ⟨group, hg, hmem⟩ := exists_group hik (PrefixSet.snoc_isPrefix_iff.1 hc).2
    exact ⟨(c, group), hg, List.mem_map_of_mem hmem⟩

end pending

theorem not_mem_keysIn {p k : Bytes} (hpending : Pending p keys results)
    (hdone : ∀ cg ∈ done, cg ∈ (groupedKeys keys p.length).entries) (hc : c ∉ done.map Prod.fst)
    (hkc : p ++ [c] <+: k) : k ∉ keysIn done := by
  intro hk
  obtain ⟨⟨c', group⟩, hg, hk⟩ := mem_keysIn.1 hk
  obtain rfl := PrefixSet.snoc_inj hkc (hpending.mem_group (hdone _ hg) hk).2
  exact hc (List.mem_map_of_mem hg)

/-- What the results of a group change: the positions of its keys, in their order. If nothing was reported
    there, the reports of the group are added. -/
theorem scatter_spec (hlength : childResults.length = group.length) (hpositions : (group.map Prod.fst).Nodup)
    (hsilent : ∀ ik ∈ group, results[ik.1]? = some false) :
    (scatter results group childResults).length = results.length ∧
      (∀ i, i ∉ group.map Prod.fst → (scatter results group childResults)[i]? = results[i]?) ∧
      readAt (scatter results group childResults) group = childResults ∧
      (scatter results group childResults).countP id = results.countP id + childResults.countP id := by
  induction group generalizing results childResults with
  | nil =>
    obtain rfl := List.length_eq_zero_iff.1 hlength
    exact ⟨rfl, fun _ _ => rfl, rfl, rfl⟩
  | cons ik group ih =>
    obtain _ | ⟨b, childResults⟩ := childResults
    · cases hlength
    obtain ⟨hfirst, hpositions⟩ := List.nodup_cons.1 hpositions
    obtain ⟨hlt, hget⟩ := List.getElem?_eq_some_iff.1 (hsilent ik (.head _))
    have hscatter : scatter results (ik :: group) (b :: childResults) =
        scatter (results.set ik.1 b) group childResults := rfl
    obtain ⟨hlen, hother, hread, hcount⟩ :=
      @ih (results.set ik.1 b) childResults (Nat.succ.inj hlength) hpositions
      fun x hx => by
        have hne : ik.1 ≠ x.1 := fun heq => hfirst (heq ▸ List.mem_map_of_mem hx)
        rw [List.getElem?_set_ne hne]
        exact hsilent x (.tail _ hx)
    rw [hscatter]
    refine ⟨by rw [hlen, List.length_set], fun i hi => ?_, ?_, ?_⟩
    · obtain ⟨hne, hi⟩ := not_or.1 (mt List.mem_cons.2 hi)
      rw [hother i hi, List.getElem?_set_ne (Ne.symm hne)]
    · rw [readAt, List.map_cons]
      refine congrArg₂ List.cons ?_ hread
      rw [hother _ hfirst, List.getElem?_set_self hlt]
      rfl
    · rw [hcount, List.countP_set hlt, hget, List.countP_cons]
      simp only [id, Bool.false_eq_true, if_false, Nat.sub_zero]
      omega

/-- **The results after one more group**: `results` came from `rs₀` by the groups `done`. -/
theorem Pending.scatter {p : Bytes} {rs₀ : List Bool} (h : Pending p keys rs₀)
    (hdone : ∀ cg ∈ done, cg ∈ (groupedKeys keys p.length).entries)
    (hg : (c, group) ∈ (groupedKeys keys p.length).entries) (hc : c ∉ done.map Prod.fst)
    (hlength : results.length = rs₀.length)
    (hother : ∀ i, (∀ cg ∈ done, i ∉ cg.2.map Prod.fst) → results[i]? = rs₀[i]?)
    (hchild : childResults.length = group.length) : (scatter results group childResults).length = rs₀.length ∧
      (∀ i, (∀ cg ∈ done ++ [(c, group)], i ∉ cg.2.map Prod.fst) →
        (TrieNode.scatter results group childResults)[i]? = rs₀[i]?) ∧
      (∀ cg ∈ done, readAt (TrieNode.scatter results group childResults) cg.2 = readAt results cg.2) ∧
      readAt (TrieNode.scatter results group childResults) group = childResults ∧
      (TrieNode.scatter results group childResults).countP id =
        results.countP id + childResults.countP id := by
  have hne : ∀ cg ∈ done, c ≠ cg.1 := fun cg hcg heq => hc (heq ▸ List.mem_map_of_mem hcg)
  -- nothing was reported at the positions of the group
  have hsilent : ∀ ik ∈ group, results[ik.1]? = some false := by
    intro ik hik
    rw [hother ik.1 fun cg hcg => h.position_notMem hg (hdone cg hcg) (hne cg hcg) hik]
    exact h.silent ik ((TrieNode.mem_group hg).1 hik).1
  obtain ⟨hlen, hunchanged, hread, hcount⟩ := scatter_spec hchild (h.group_positions hg) hsilent
  refine ⟨hlen.trans hlength, fun i hi => ?_, fun cg hcg => ?_, hread, hcount⟩
  · rw [hunchanged i (hi (c, group) (by simp)), hother i fun cg hcg => hi cg (List.mem_append_left _ hcg)]
  · exact readAt_congr fun ik hik => hunchanged _ (h.position_notMem (hdone cg hcg) hg (hne cg hcg).symm hik)

theorem countP_zip_snd (hlength : childResults.length = group.length) :
    (group.zip childResults).countP (·.2) = childResults.countP id := by
  have hsnd := List.countP_map (p := id) (f := Prod.snd) (l := group.zip childResults)
  rw [List.map_snd_zip hlength.le] at hsnd
  exact hsnd.symm

/-! ## Fuel -/

section fuel
variable {keys ks : List Bytes} {p : Bytes} {slack fuel : Nat}

theorem le_fuel (hne : keys ≠ []) (hp : ∀ k ∈ keys, p <+: k)
    (hfuel : ∀ k ∈ keys, k.length + slack ≤ fuel + p.length) :
    slack ≤ fuel := by
  obtain ⟨k, hk⟩ := List.exists_mem_of_ne_nil keys hne
  have := (hp k hk).length_le
  have := hfuel k hk
  omega

theorem fuel_child (hfuel : ∀ k ∈ keys, k.length + slack ≤ fuel + 1 + p.length)
    (hmem : ∀ k ∈ ks, k ∈ keys ∧ p ++ [c] <+: k) : ∀ k ∈ ks, k.length + slack ≤ fuel + (p ++ [c]).length := by
  intro k hk
  have := hfuel k (hmem k hk).1
  simp only [List.length_append, List.length_singleton]
  omega

end fuel

end TrieNode
end Hypersnap
