import Hypersnap.Trie.Durability

/-!
# `Trie.Lookup` — reading the hash and the count of a sub-tree

`MerkleTrie.getHash` and `getCount` do not walk the trie: they look the node at a key prefix up among the
pending writes and then in the database (`putOrStored`). A staged put is honoured, but a staged delete is not:
the lookup then finds the node that the database still holds.

* `lookups_agree` — in a run in which no deletion removes a node at a key prefix that the database holds, and
  none leaves an orphan there, every lookup returns what the trie has at that prefix;
* `lookup_ignores_staged_delete` — after a deletion that is not committed yet, the count of the deleted key's
  prefix is still one.
-/

namespace Hypersnap

open Overlay PrefixSet TrieNode

/-- What `getNodeFromTxnOrDb` reads: a staged put, or else what the database holds. -/
def putOrStored (db : RocksDB) (txnBatch : RocksDbTransactionBatch) (key : Bytes) : Option DbValue :=
  match txnBatch key with
  | some (some v) => some v
  | _ => db key

section putOrStored

variable {db : RocksDB} {txnBatch : RocksDbTransactionBatch} {key : Bytes}

theorem putOrStored_of_put {v : DbValue} (h : txnBatch key = some (some v)) :
    putOrStored db txnBatch key = some v := by simp [putOrStored, h]

theorem putOrStored_of_delete (h : txnBatch key = some none) : putOrStored db txnBatch key = db key := by
  simp [putOrStored, h]

theorem stored_eq_none_of_putOrStored (h : putOrStored db txnBatch key = none) : db key = none := by
  unfold putOrStored at h
  split at h
  · cases h
  · exact h

theorem putOrStored_eq_commit (h : txnBatch key ≠ some none) :
    putOrStored db txnBatch key = Overlay.commit db txnBatch key := by
  unfold putOrStored
  split
  · rename_i v hv
    rw [commit_of_some _ _ _ hv]
  · rename_i hv
    cases ht : txnBatch key with
    | none => rw [commit_of_none _ _ _ ht]
    | some w =>
      cases w with
      | none => exact absurd ht h
      | some v => exact absurd ht (hv v)

theorem putOrStored_merge_of_none {writes : RocksDbTransactionBatch} (h : writes key = none) :
    putOrStored db (txnBatch.merge writes) key = putOrStored db txnBatch key := by
  simp only [putOrStored, merge_of_none _ _ _ h]

theorem getNodeFromTxnOrDb_of_record [Blake3] {n : TrieNode} {p : Bytes} {S : Finset Bytes}
    (hrep : Represents db n p S) (hcard : S.card < 2 ^ 32) (h : putOrStored db txnBatch key = some n.record) :
    MerkleTrie.getNodeFromTxnOrDb db txnBatch key = some n.forget := by
  have hde : deserialize n.record = .ok n.forget := by
    rw [record, deserialize, hrep.ofRecord_serialize hcard]
  have hstored (h : db key = some n.record) :
      ((db key).bind fun v => (deserialize v).toOption) = some n.forget := by
    rw [h, Option.bind_some, hde]
    rfl
  unfold putOrStored at h
  unfold MerkleTrie.getNodeFromTxnOrDb
  rcases hv : txnBatch key with _ | _ | v <;> rw [hv] at h
  · exact hstored h
  · exact hstored h
  · cases h
    simp only [hde]

theorem getNodeFromTxnOrDb_of_none (h : putOrStored db txnBatch key = none) :
    MerkleTrie.getNodeFromTxnOrDb db txnBatch key = none := by
  unfold putOrStored at h
  unfold MerkleTrie.getNodeFromTxnOrDb
  split at h
  · cases h
  · simp only [h, Option.bind_none]

end putOrStored

/-- A deletion that lookups see: no node that it removes at a key prefix is in the database, and it compacts
    no node at an odd depth, where the orphan would sit at a key prefix. -/
def TrieStep.LookupSafe (s : TrieState) (K : Finset Bytes) : TrieStep → Prop
  | .call (.delete key) => key ∈ K →
      (∀ pfx, pfx <+: key → (∀ k ∈ K, pfx <+: k → k = key) → s.db (nodeKey (expandNibbles pfx)) = none) ∧
      ∀ q, Compacts [] (expandNibbles key) (nibbleKeys K) q → q.length % 2 = 0
  | _ => True

namespace TrieState

variable [Blake3] {db : RocksDB} {s : TrieState} {K : Finset Bytes} {root root' : TrieNode}
  {steps : List TrieStep} {op : TrieOp} {pfx : Bytes}

/-- Lookups at key prefixes read the nodes of the trie. -/
def LooksUp (s : TrieState) (root : TrieNode) : Prop :=
  ∀ pfx, putOrStored s.db s.txnBatch (nodeKey (expandNibbles pfx))
    = (view s.db root [] (expandNibbles pfx)).map record

omit [Blake3] in
/-- The only nodes a call removes at key prefixes are those that hold nothing but the deleted key; the
    database must not hold them. -/
theorem stored_eq_none_of_removed {k : Bytes} (hlook : TrieStep.LookupSafe s K (.call (.delete k)))
    (hb : below (expandNibbles pfx) (nibbleKeys K) = {expandNibbles k}) :
    s.db (nodeKey (expandNibbles pfx)) = none := by
  obtain ⟨hk, hpfx⟩ := mem_below.mp (hb ▸ Finset.mem_singleton_self (expandNibbles k))
  refine (hlook (mem_nibbleKeys.mp hk)).1 pfx (expandNibbles_isPrefix_iff.mp hpfx) fun k' hk' hpfx' => ?_
  have hmem : expandNibbles k' ∈ below (expandNibbles pfx) (nibbleKeys K) :=
    mem_below.mpr ⟨mem_nibbleKeys.mpr hk', expandNibbles_isPrefix_iff.mpr hpfx'⟩
  rw [hb, Finset.mem_singleton] at hmem
  exact expandNibbles_injective hmem

omit [Blake3] in
theorem not_orphan_of_lookupSafe (hlook : TrieStep.LookupSafe s K (.call op)) :
    nodeKey (expandNibbles pfx) ∉ op.orphans K := by
  cases op with
  | insert key => exact id
  | delete key =>
    rintro ⟨q, c, hq, heq⟩
    have heven := (hlook (mem_nibbleKeys.mp hq.1)).2 q hq
    have hlen := congrArg List.length (nodeKey_inj.mp heq)
    rw [expandNibbles_length, List.length_append, List.length_singleton] at hlen
    omega

theorem LooksUp.step {step : TrieStep} (h : LooksUp s root) (hholds : Holds s K root)
    (hholds' : Holds (s.apply step) (step.onSet K) root') (heff : StepEffect s K root root' step)
    (hsafe : step.Safe K) (hlook : step.LookupSafe s K) : LooksUp (s.apply step) root' := by
  intro pfx
  cases heff with
  | call op writes heq hrec hremoved =>
    rw [heq]
    show putOrStored s.db (s.txnBatch.merge writes) (nodeKey (expandNibbles pfx)) = _
    -- if a delete is staged at the prefix, the database has nothing there
    have hdelete : writes (nodeKey (expandNibbles pfx)) = some none →
        putOrStored s.db (s.txnBatch.merge writes) (nodeKey (expandNibbles pfx)) = none := by
      intro hw
      rw [putOrStored_of_delete (merge_of_some _ _ _ hw)]
      rcases hremoved _ hw with hstray | ⟨k, q, rfl, hq, hb⟩
      · have hread := h pfx
        rw [view_eq_none_of_stray hsafe hholds.represents (Finset.Subset.refl _) hstray] at hread
        exact stored_eq_none_of_putOrStored hread
      · exact stored_eq_none_of_removed hlook (nodeKey_inj.mp hq ▸ hb)
    cases hrec (expandNibbles pfx) with
    | orphan hO => exact absurd hO (not_orphan_of_lookupSafe hlook)
    | stray hW hdel =>
      have hrep := hholds'.represents
      rw [heq] at hrep
      rw [hdelete hdel, view_eq_none_of_stray hsafe hrep (TrieOp.onSet_subset_of_stray hW) hW,
        Option.map_none]
    | written hw =>
      cases hv : view s.db root' [] (expandNibbles pfx) with
      | none =>
        rw [hv] at hw
        exact hdelete hw
      | some n =>
        rw [hv] at hw
        exact putOrStored_of_put (merge_of_some _ _ _ hw)
    | unchanged htxn hview => rw [putOrStored_merge_of_none htxn, h pfx, hview]
  | commit heq hview =>
    rw [heq]
    show Overlay.commit s.db s.txnBatch (nodeKey (expandNibbles pfx))
      = (view (Overlay.commit s.db s.txnBatch) root' [] (expandNibbles pfx)).map record
    rw [hview]
    by_cases hdel : s.txnBatch (nodeKey (expandNibbles pfx)) = some none
    -- what is staged as deleted is no node of the trie
    · rw [commit_of_some _ _ _ hdel]
      by_contra hne
      have hv : view s.db root [] (expandNibbles pfx) ≠ none := fun hv => hne (by rw [hv]; rfl)
      have hcov := hholds.covers _ hv
      rw [List.nil_append, commit_of_some _ _ _ hdel] at hcov
      exact hne hcov
    · rw [← putOrStored_eq_commit hdel, h pfx]
  | memory heq hview =>
    rw [heq]
    show putOrStored s.db s.txnBatch _ = _
    rw [h pfx, hview]

/-- The lookup at a key prefix finds the node that the trie has there. -/
theorem LooksUp.getNode_eq (h : LooksUp s root) (hholds : Holds s K root) (pfx : Bytes) :
    MerkleTrie.getNode s.db s.txnBatch pfx = view s.db root [] (expandNibbles pfx) := by
  have hpfx := h pfx
  unfold MerkleTrie.getNode
  cases hq : root.getNodeFromTrie s.db [] (expandNibbles pfx) with
  | none =>
    rw [view, hq, Option.map_none] at hpfx ⊢
    exact getNodeFromTxnOrDb_of_none hpfx
  | some n =>
    obtain ⟨hrep, -⟩ := hholds.represents.getNodeFromTrie hq
    rw [view, hq, Option.map_some] at hpfx ⊢
    rw [Option.map_some, record_forget] at hpfx
    exact getNodeFromTxnOrDb_of_record hrep
      ((Finset.card_le_card below_subset).trans_lt hholds.small_nibbles) hpfx

/-- **Lookups agree with the trie.** After every run of safe steps whose deletions lookups can see, `getHash`
    and `getCount` through the pending writes return, for every key prefix, the hash and the item count of the
    node that the trie has at the prefix, and nothing when it has none; and nothing when no key has the
    prefix. -/
theorem lookups_agree (h : WellFormed db steps)
    (hsafe : EveryStep db steps fun s K step => step.Safe K ∧ step.LookupSafe s K) :
    let s := (initial db).run steps
    ∃ root, s.trie.root = some root ∧ ∀ pfx,
      MerkleTrie.getHash s.db s.txnBatch pfx
        = ((root.getNodeFromTrie s.db [] (expandNibbles pfx)).map hash).getD [] ∧
      MerkleTrie.getCount s.db s.txnBatch pfx
        = ((root.getNodeFromTrie s.db [] (expandNibbles pfx)).map items).getD 0 ∧
      ((∀ key ∈ MerkleTrie.keysAfter ∅ (TrieStep.calls steps), ¬ pfx <+: key) →
        MerkleTrie.getHash s.db s.txnBatch pfx = [] ∧ MerkleTrie.getCount s.db s.txnBatch pfx = 0) := by
  have hinit : LooksUp (initial db) TrieNode.new := fun pfx => by
    rw [← initial_db h.fresh, initial_eq (h.fresh [])]
    rfl
  obtain ⟨root, hroot, hlooks⟩ := run_holds_with h (fun pre step hs => (hsafe pre step hs).1) hsafe hinit
    fun hholds hholds' heff hC hE => hE.step hholds hholds' heff hC.1 hC.2
  generalize (initial db).run steps = s at hroot hlooks
  have hhash : ∀ pfx, MerkleTrie.getHash s.db s.txnBatch pfx
      = ((root.getNodeFromTrie s.db [] (expandNibbles pfx)).map hash).getD [] := fun pfx => by
    simp only [MerkleTrie.getHash, hlooks.getNode_eq hroot, view, Option.map_map,
      Function.comp_def, hash_forget]
  have hcount : ∀ pfx, MerkleTrie.getCount s.db s.txnBatch pfx
      = ((root.getNodeFromTrie s.db [] (expandNibbles pfx)).map items).getD 0 := fun pfx => by
    simp only [MerkleTrie.getCount, hlooks.getNode_eq hroot, view, Option.map_map,
      Function.comp_def, forget_items]
  refine ⟨root, hroot.root_eq, fun pfx => ⟨hhash pfx, hcount pfx, fun hnone => ?_⟩⟩
  rw [hhash, hcount]
  cases hq : root.getNodeFromTrie s.db [] (expandNibbles pfx) with
  | none => exact ⟨rfl, rfl⟩
  | some n =>
    have hempty :
        below ([] ++ expandNibbles pfx) (nibbleKeys (MerkleTrie.keysAfter ∅ (TrieStep.calls steps))) = ∅ := by
      rw [Finset.eq_empty_iff_forall_notMem]
      intro k hk
      obtain ⟨hk, hpk⟩ := mem_below.mp hk
      obtain ⟨key, hkey, rfl⟩ := Finset.mem_image.mp hk
      exact hnone key hkey (expandNibbles_isPrefix_iff.mp hpk)
    obtain ⟨hrep, -⟩ := hroot.represents.getNodeFromTrie hq
    rw [hempty] at hrep
    rw [hrep.eq_new]
    exact ⟨by simp [hash_new], by simp⟩

/-- Two keys below the same uncompacted path. -/
def committedSteps : List TrieStep :=
  [.call (.insert [1, 2, 3, 4, 5, 6, 7]), .call (.insert [1, 2, 3, 4, 5, 6, 8]), .commit]

/-- A third key that is inserted and deleted again before it is committed. -/
def lookupSteps : List TrieStep :=
  committedSteps ++ [.call (.insert [9, 2, 3, 4, 5, 6, 7]), .call (.delete [9, 2, 3, 4, 5, 6, 7])]

theorem wellFormed_lookupSteps : WellFormed (fun _ => none) lookupSteps := by
  refine ⟨fun _ => rfl, MerkleTrie.WellFormed.of_length (n := 7) (by decide) (by decide),
    forall_step_of_getElem fun i step hi => ?_⟩
  rcases i with _ | _ | _ | _ | _ | i <;> cases hi <;> trivial

/-- The database does not know the third key. -/
theorem committedSteps_stored (hne : pfx ≠ []) (hpfx : pfx <+: [9, 2, 3, 4, 5, 6, 7]) :
    ((initial fun _ => none).run committedSteps).db (nodeKey (expandNibbles pfx)) = none := by
  have hclean : EveryStep (fun _ => none) committedSteps fun _ K step => step.Clean K := by
    refine forall_step_of_getElem fun i step hi => ?_
    rcases i with _ | _ | _ | i <;> cases hi <;> first | trivial | (simp only [TrieStep.Clean]; decide)
  have hwf := WellFormed.of_prefix wellFormed_lookupSteps (List.prefix_append committedSteps _)
  obtain ⟨root, hroot, hno⟩ := run_clean hwf hclean
  rw [hroot.stored_eq hno rfl, Option.map_eq_none_iff, view, Option.map_eq_none_iff]
  by_contra hq
  obtain ⟨n, hn⟩ := Option.ne_none_iff_exists'.mp hq
  obtain ⟨-, hbelow⟩ := hroot.represents.getNodeFromTrie hn
  obtain ⟨k, hk⟩ := hbelow fun h => hne (expandNibbles_injective h)
  obtain ⟨hk, hpk⟩ := mem_below.mp hk
  obtain ⟨key, hkey, rfl⟩ := Finset.mem_image.mp hk
  -- the first byte of the prefix is 9, and no committed key starts with it
  have hhead : ∀ key ∈ MerkleTrie.keysAfter ∅ (TrieStep.calls committedSteps), key.head? = some 1 := by decide
  obtain ⟨c, pfx, rfl⟩ := List.exists_cons_of_ne_nil hne
  obtain ⟨t, rfl⟩ := expandNibbles_isPrefix_iff.mp hpk
  obtain ⟨t', ht'⟩ := hpfx
  have h1 := hhead _ hkey
  simp only [List.cons_append, List.head?_cons, Option.some.injEq] at h1
  simp only [List.cons_append, List.cons.injEq] at ht'
  rw [h1] at ht'
  exact absurd ht'.1 (by decide)

theorem lookupSafe_lookupSteps :
    EveryStep (fun _ => none) lookupSteps fun s K step => step.Safe K ∧ step.LookupSafe s K := by
  have halone : ∀ q, ¬ Compacts [] (expandNibbles [9, 2, 3, 4, 5, 6, 7])
      (nibbleKeys (MerkleTrie.keysAfter ∅ (TrieStep.calls (lookupSteps.take 4)))) q :=
    not_compacts_of_alone (by decide)
  refine forall_step_of_getElem fun i step hi => ?_
  rcases i with _ | _ | _ | _ | _ | i <;> cases hi
  case succ.succ.succ.succ.zero =>
    refine ⟨fun _ => ⟨by decide, fun q hq => absurd hq (halone q)⟩, fun _ => ⟨fun pfx hpfx hall => ?_,
      fun q hq => absurd hq (halone q)⟩⟩
    have hne : pfx ≠ [] := by
      rintro rfl
      exact absurd (hall [1, 2, 3, 4, 5, 6, 7] (by decide) List.nil_prefix) (by decide)
    have hdb := committedSteps_stored hne hpfx
    rw [← apply_call_db _ (.insert [9, 2, 3, 4, 5, 6, 7]), ← run_append] at hdb
    exact hdb
  all_goals exact ⟨by first | trivial | (simp only [TrieStep.Safe]; decide), trivial⟩

omit [Blake3] in
theorem lookups_agree_sample :
    let s := @run MerkleTrie.constHash (initial fun _ => none) lookupSteps
    MerkleTrie.getCount s.db s.txnBatch [9, 2] = 0 := by
  let _ := MerkleTrie.constHash
  obtain ⟨root, -, hlook⟩ := lookups_agree wellFormed_lookupSteps lookupSafe_lookupSteps
  exact ((hlook [9, 2]).2.2 (by decide)).2

/-! ## A staged delete is ignored -/

/-- The third key is committed before it is deleted. -/
def staleSteps : List TrieStep :=
  [.call (.insert [1, 2, 3, 4, 5, 6, 7]), .call (.insert [9, 2, 3, 4, 5, 6, 7]), .commit,
    .call (.delete [9, 2, 3, 4, 5, 6, 7])]

omit [Blake3] in
set_option maxRecDepth 100000 in
/-- Once the deletion of the only key with the prefix `9 2 3 4 5 6` is pending, the trie has no node there,
    but the lookup still counts one key. -/
theorem lookup_ignores_staged_delete :
    let s := @run MerkleTrie.constHash (initial fun _ => none) staleSteps
    (∀ key ∈ MerkleTrie.keysAfter ∅ (TrieStep.calls staleSteps), ¬ [9, 2, 3, 4, 5, 6] <+: key) ∧
    (s.trie.root.bind fun root => root.getNodeFromTrie s.db [] (expandNibbles [9, 2, 3, 4, 5, 6])).isNone ∧
    MerkleTrie.getCount s.db s.txnBatch [9, 2, 3, 4, 5, 6] = 1 := by
  refine ⟨by decide, ?_⟩
  decide +kernel

end TrieState
end Hypersnap
