import Hypersnap.Trie.Persistence

/-!
# `Trie.Durability` — runs of a trie over its database

`TrieState` is a trie with its database and the writes that are not committed yet, and `TrieStep` what can
happen to it: calls, queries, commits, and between commits reloads and evictions. `StepEffect` says once
what each step can do; every invariant of runs is derived from it with `run_holds_with`.

* `persistence_transparent` — in a run without compaction and without emptying the trie, reloads and
  evictions cannot be noticed, and the database holds exactly the reachable nodes after every commit;
* `compaction_leaves_orphan` — a deletion that compacts a node leaves the child it absorbed behind.
-/

namespace Hypersnap

open Overlay PrefixSet TrieNode

/-! ## States and steps -/

/-- A trie, its database, and the writes that are not committed yet. -/
structure TrieState where
  trie : MerkleTrie
  db : RocksDB
  txnBatch : RocksDbTransactionBatch

inductive TrieStep where
  | call (op : TrieOp)
  | query (key : Bytes)
  | commit
  | reload
  | evictStale (stale : Bytes → Bool)

namespace TrieState

def initial (db : RocksDB) : TrieState :=
  ⟨(MerkleTrie.new.initializeTrie db).1, (MerkleTrie.new.initializeTrie db).2.1, Batch.empty⟩

def apply [Blake3] (s : TrieState) : TrieStep → TrieState
  | .call op => ⟨(op.apply s.trie s.db s.txnBatch).1, s.db, (op.apply s.trie s.db s.txnBatch).2.1⟩
  | .query key => { s with trie := (s.trie.existsKey s.db key).1 }
  | .commit => ⟨s.trie, Overlay.commit s.db s.txnBatch, Batch.empty⟩
  | .reload => { s with trie := (s.trie.reload s.db).1 }
  | .evictStale stale => { s with trie := s.trie.evictStale stale }

def run [Blake3] (s : TrieState) (steps : List TrieStep) : TrieState := steps.foldl apply s

theorem run_append [Blake3] (s : TrieState) (steps : List TrieStep) (step : TrieStep) :
    s.run (steps ++ [step]) = (s.run steps).apply step := by simp [run]

theorem apply_call_db [Blake3] (s : TrieState) (op : TrieOp) : (s.apply (.call op)).db = s.db := rfl

end TrieState

namespace TrieOp

/-- Keys of nodes that the call may leave behind in the database. -/
def orphans (K : Finset Bytes) : TrieOp → Set Bytes
  | .insert _ => ∅
  | .delete key => TrieNode.orphans [] (expandNibbles key) (nibbleKeys K)

/-- Keys that the call may delete by mistake. -/
def strays (K : Finset Bytes) : TrieOp → Set Bytes
  | .insert _ => ∅
  | .delete key => TrieNode.strays [] (expandNibbles key) (nibbleKeys K)

theorem onSet_subset_of_stray {K : Finset Bytes} {key : Bytes} {op : TrieOp} (h : key ∈ op.strays K) :
    nibbleKeys (op.onSet K) ⊆ nibbleKeys K := by
  cases op with
  | insert k => exact absurd h id
  | delete k => exact Finset.image_subset_image (Finset.erase_subset k K)

end TrieOp

namespace TrieStep

/-- The step on a plain set: only calls change it. -/
def onSet : TrieStep → Finset Bytes → Finset Bytes
  | .call op, K => op.onSet K
  | _, K => K

/-- Nodes are dropped from memory only between commits, when no write is pending. -/
def Enabled (s : TrieState) : TrieStep → Prop
  | .reload | .evictStale _ => s.txnBatch = Batch.empty
  | _ => True

def calls (steps : List TrieStep) : List MerkleTrie.Call :=
  steps.filterMap fun
    | .call op => some (MerkleTrie.callOn op)
    | _ => none

/-- A call that loses no node: a deletion does not empty the trie, and where it compacts the node at `q`
    there are no two keys below the path that the database key of `q` spells; and the number of keys fits
    into the 32 bits it is stored in. -/
def Safe (K : Finset Bytes) : TrieStep → Prop
  | .call (.insert key) => (Insert.insert key K).card < 2 ^ 32
  | .call (.delete key) => key ∈ K → (K.erase key).Nonempty ∧
      ∀ q, Compacts [] (expandNibbles key) (nibbleKeys K) q → (below (nodeKey q) (nibbleKeys K)).card ≤ 1
  | _ => True

/-- A call that also leaves no node behind: a deletion compacts nothing. -/
def Clean (K : Finset Bytes) : TrieStep → Prop
  | .call (.insert key) => (Insert.insert key K).card < 2 ^ 32
  | .call (.delete key) => key ∈ K → (K.erase key).Nonempty ∧
      ∀ q, ¬ Compacts [] (expandNibbles key) (nibbleKeys K) q
  | _ => True

theorem Clean.safe {K : Finset Bytes} {step : TrieStep} (h : step.Clean K) : step.Safe K := by
  match step, h with
  | .call (.insert _), h => exact h
  | .call (.delete _), h => exact fun hk => ⟨(h hk).1, fun q hq => absurd hq ((h hk).2 q)⟩
  | .query _, _ | .commit, _ | .reload, _ | .evictStale _, _ => exact trivial

end TrieStep

namespace TrieState

variable [Blake3] {db : RocksDB} {s : TrieState} {K : Finset Bytes} {root root' : TrieNode}
  {steps : List TrieStep} {op : TrieOp} {key q : Bytes}

/-! ## What every state of a safe run satisfies -/

/-- The trie holds `K`, and database and pending writes together hold its nodes. -/
structure Holds (s : TrieState) (K : Finset Bytes) (root : TrieNode) : Prop where
  root_eq : s.trie.root = some root
  represents : Represents s.db root [] (nibbleKeys K)
  covers : Covers s.db root [] (Overlay.commit s.db s.txnBatch)
  small : K.card < 2 ^ 32

theorem Holds.small_nibbles (h : Holds s K root) : (nibbleKeys K).card < 2 ^ 32 :=
  (card_nibbleKeys K).symm ▸ h.small

theorem Holds.covers_db (h : Holds s K root) (hempty : s.txnBatch = Batch.empty) :
    Covers s.db root [] s.db := by
  have := h.covers
  rwa [hempty, commit_empty] at this

/-! ## What a step can do -/

/-- What a step does to the state and the tree. A call merges writes that record the change of the tree; a
    commit keeps the tree; any other step changes only what is in memory. -/
inductive StepEffect (s : TrieState) (K : Finset Bytes) (root root' : TrieNode) : TrieStep → Prop
  | call (op : TrieOp) (writes : RocksDbTransactionBatch)
      (heq : s.apply (.call op) = ⟨⟨some root'⟩, s.db, s.txnBatch.merge writes⟩)
      (hrec : ∀ q, Records (op.orphans K) (op.strays K) Batch.empty writes (nodeKey q)
        (view s.db root [] q) (view s.db root' [] q))
      (hremoved : ∀ key, writes key = some none → key ∈ op.strays K ∨
        ∃ k q, op = .delete k ∧ key = nodeKey q ∧ below q (nibbleKeys K) = {expandNibbles k})
      (hframe : ∀ key, (∀ q, key ≠ nodeKey q) → writes key = none) : StepEffect s K root root' (.call op)
  | commit (heq : s.apply .commit = ⟨s.trie, Overlay.commit s.db s.txnBatch, Batch.empty⟩)
      (hview : ∀ q, view (Overlay.commit s.db s.txnBatch) root' [] q = view s.db root [] q) :
      StepEffect s K root root' .commit
  | memory {step : TrieStep} (heq : s.apply step = ⟨⟨some root'⟩, s.db, s.txnBatch⟩)
      (hview : ∀ q, view s.db root' [] q = view s.db root [] q) : StepEffect s K root root' step

theorem Holds.insert_effect (h : Holds s K root) (hlen : 6 ≤ key.length)
    (hfree : IsAntichain (· <+: ·) ((Insert.insert key K : Finset Bytes) : Set Bytes)) :
    ∃ root', Represents s.db root' [] (nibbleKeys (Insert.insert key K)) ∧
      StepEffect s K root root' (.call (.insert key)) := by
  obtain ⟨hspec, heq⟩ := MerkleTrie.insert_single s.txnBatch h.root_eq h.represents hlen hfree
  have htracks := hspec.tracks
  rw [hspec.node.live_eq, if_neg (Finset.insert_ne_empty _ _)] at htracks
  refine ⟨_, nibbleKeys_insert K key ▸ hspec.node, .call _ _ (by simp only [apply, TrieOp.apply, heq])
    (fun q => (htracks.inside q).of_live h.represents.children_eq_none) (fun key hkey => ?_)
      fun key hkey => ?_⟩
  · cases hspec.noDelete key hkey
  · exact (htracks.frame key hkey).resolve_left fun h => h.1

theorem Holds.delete_effect (h : Holds s K root) (hlen : 6 ≤ key.length)
    (hfree : IsAntichain (· <+: ·) ((Insert.insert key K : Finset Bytes) : Set Bytes))
    (hne : key ∈ K → (K.erase key).Nonempty) : ∃ root', Represents s.db root' [] (nibbleKeys (K.erase key)) ∧
      StepEffect s K root root' (.call (.delete key)) := by
  obtain ⟨hspec, heq⟩ := MerkleTrie.delete_single s.txnBatch h.root_eq h.represents hlen hfree
  generalize TrieNode.delete s.db _ root ByteMap.empty Batch.empty _ 0 = out at hspec heq
  have hstate : s.apply (.call (.delete key)) = ⟨⟨some out.node⟩, s.db, s.txnBatch.merge out.txn⟩ := by
    simp only [apply, TrieOp.apply, heq]
  have hnode := hspec.node (Or.inr (by simp [uncompactedLength]))
  have htracks := hspec.tracks
  rw [← nibbleKeys_erase] at hnode
  refine ⟨_, hnode, .call _ _ hstate (fun q => ?_) (fun key' hkey => ?_) fun key' hkey => ?_⟩
  · by_cases hK : K.erase key = ∅
    -- the trie was empty before, and nothing happened
    · have hk : key ∉ K := fun hk => (hne hk).ne_empty hK
      rw [Finset.erase_eq_of_notMem hk] at hK
      subst hK
      have huntouched := hspec.untouched fun h => hk (mem_nibbleKeys.mp h)
      rw [Finset.erase_empty] at hnode
      rw [h.represents.eq_new, hnode.eq_new]
      exact .unchanged (by rw [huntouched]) rfl
    · rw [hnode.live_eq, if_neg (nibbleKeys_eq_empty.not.mpr hK)] at htracks
      exact (htracks.inside q).of_live h.represents.children_eq_none
  · rcases hspec.removed key' hkey with h | h | ⟨q, hq, -, hb⟩
    · cases h
    · exact Or.inl h
    · exact Or.inr ⟨key, q, rfl, hq, hb⟩
  · refine (htracks.frame key' hkey).resolve_left ?_
    rintro ⟨⟨q, c, -, rfl⟩, -⟩
    exact hkey _ rfl

/-- A path at which a safe call may delete a node by mistake has no node, before and after: there is at most
    one key below the path above it. -/
theorem view_eq_none_of_stray {n : TrieNode} {T : Finset Bytes} (hsafe : TrieStep.Safe K (.call op))
    (hrep : Represents s.db n [] T) (hT : T ⊆ nibbleKeys K) (hq : nodeKey q ∈ op.strays K) :
    view s.db n [] q = none := by
  cases op with
  | insert key => exact absurd hq id
  | delete key =>
    by_contra hv
    obtain ⟨q', c, hcompacts, hq'⟩ := hq
    rw [nodeKey_inj] at hq'
    subst hq'
    have hone := (hsafe (mem_nibbleKeys.mp hcompacts.1)).2 q' hcompacts
    obtain ⟨-, -, -, hlen, -⟩ := hcompacts
    have hsnoc : nodeKey (q' ++ [c]) = nodeKey q' ++ [c] := by simp [nodeKey, makePrimaryKey_none]
    rw [hsnoc] at hv
    have htwo := hrep.two_le_of_view hv (by
      simp only [List.nil_append, nodeKey, makePrimaryKey_none, List.length_cons]
      omega)
    have hsub : below (nodeKey q') T ⊆ below (nodeKey q') (nibbleKeys K) := Finset.filter_subset_filter _ hT
    have := Finset.card_le_card hsub
    rw [List.nil_append] at htwo
    omega

/-- A path at which a call may leave a node behind has no node afterwards: its parent holds one key only. -/
theorem view_eq_none_of_orphan (hrep : Represents s.db root' [] (nibbleKeys (op.onSet K)))
    (hq : nodeKey q ∈ op.orphans K) : view s.db root' [] q = none := by
  cases op with
  | insert key => exact absurd hq id
  | delete key =>
    have hrep' : Represents s.db root' [] ((nibbleKeys K).erase (expandNibbles key)) :=
      nibbleKeys_erase K key ▸ hrep
    by_contra hv
    obtain ⟨q', c, ⟨hk, -, hqk, hlen, hcard⟩, hq'⟩ := hq
    obtain rfl := nodeKey_inj.mp hq'
    have htwo := hrep'.two_le_of_view hv (by simpa using hlen)
    rw [List.nil_append, below_erase, Finset.card_erase_of_mem (mem_below.mpr ⟨hk, hqk⟩), hcard] at htwo
    omega

section
variable (h : Holds s K root)
include h

/-- **A safe call loses no node.** -/
theorem Holds.of_call (heff : StepEffect s K root root' (.call op))
    (hrep : Represents s.db root' [] (nibbleKeys (op.onSet K))) (hsafe : TrieStep.Safe K (.call op))
    (hsmall : (op.onSet K).card < 2 ^ 32) :
    Holds (s.apply (.call op)) (op.onSet K) root' := by
  cases heff with
  | memory heq hview =>
    rw [heq]
    exact ⟨rfl, hrep, fun q hq => by rw [h.covers q (hview q ▸ hq), hview], hsmall⟩
  | call _ writes heq hrec =>
    rw [heq]
    refine ⟨rfl, hrep, fun q hq => ?_, hsmall⟩
    show Overlay.commit s.db (s.txnBatch.merge writes) (nodeKey q) = _
    rw [commit_merge]
    cases hrec q with
    | orphan hO => exact absurd (view_eq_none_of_orphan hrep hO) hq
    | stray hW => exact absurd (view_eq_none_of_stray hsafe hrep (TrieOp.onSet_subset_of_stray hW) hW) hq
    | written hw => exact commit_of_some _ _ _ hw
    | unchanged htxn hview =>
      rw [commit_of_none _ _ _ htxn, hview]
      exact h.covers q (hview ▸ hq)

/-- A tree that looks the same over the same database may take the place of the one in memory. -/
theorem Holds.replace (hv : ∀ r, view s.db root' [] r = view s.db root [] r) :
    Holds ⟨⟨some root'⟩, s.db, s.txnBatch⟩ K root' :=
  ⟨rfl, h.represents.of_view hv, fun r hr => by rw [h.covers r (hv r ▸ hr), hv r], h.small⟩

theorem Holds.view_commit (q : Bytes) :
    view (Overlay.commit s.db s.txnBatch) root [] q = view s.db root [] q := by
  rw [view, view, h.represents.getNode_of_covers h.small_nibbles h.covers]

theorem Holds.commit : Holds (s.apply .commit) K root := by
  refine ⟨h.root_eq, h.represents.of_view h.view_commit, fun q hq => ?_, h.small⟩
  show Overlay.commit s.db s.txnBatch _ = (view (Overlay.commit s.db s.txnBatch) root [] q).map record
  rw [h.view_commit, h.covers q (h.view_commit q ▸ hq)]

theorem Holds.reload_eq (hempty : s.txnBatch = Batch.empty) :
    s.trie.reload s.db = (⟨some root.forget⟩, .ok ()) := by
  have hroot : s.db (makePrimaryKey [] none) = some root.record := (h.covers_db hempty).self
  simp only [MerkleTrie.reload, MerkleTrie.loadRoot, hroot, record, deserialize,
    h.represents.ofRecord_serialize h.small_nibbles]
  rfl

end

/-- **Every step keeps the invariant**, if it is enabled and safe, and has one of the known effects. -/
theorem Holds.step (h : Holds s K root) (step : TrieStep) (henabled : step.Enabled s) (hsafe : step.Safe K)
    (hcall : ∀ op, step = .call op → 6 ≤ op.key.length ∧
      IsAntichain (· <+: ·) ((Insert.insert op.key K : Finset Bytes) : Set Bytes)) :
    ∃ root', Holds (s.apply step) (step.onSet K) root' ∧ StepEffect s K root root' step := by
  -- a step that only puts another tree into memory
  have memory : ∀ {step : TrieStep} {root'}, s.apply step = ⟨⟨some root'⟩, s.db, s.txnBatch⟩ →
      (∀ r, view s.db root' [] r = view s.db root [] r) →
      ∃ root', Holds (s.apply step) K root' ∧ StepEffect s K root root' step :=
    fun heq hv => ⟨_, heq ▸ h.replace hv, .memory heq hv⟩
  have evicted : ∀ {step : TrieStep} {root'}, s.apply step = ⟨⟨some root'⟩, s.db, s.txnBatch⟩ →
      s.txnBatch = Batch.empty → Evicted root root' →
      ∃ root', Holds (s.apply step) K root' ∧ StepEffect s K root root' step :=
    fun heq hempty he => memory heq fun r => he.view_eq h.represents h.small_nibbles (h.covers_db hempty)
  cases step with
  | call op =>
    obtain ⟨hlen, hfree⟩ := hcall op rfl
    cases op with
    | insert key =>
      obtain ⟨root', hrep, heff⟩ := h.insert_effect hlen hfree
      exact ⟨root', h.of_call heff hrep hsafe hsafe, heff⟩
    | delete key =>
      obtain ⟨root', hrep, heff⟩ := h.delete_effect hlen hfree fun hk => (hsafe hk).1
      have hsmall := (Finset.card_le_card (Finset.erase_subset key K)).trans_lt h.small
      exact ⟨root', h.of_call heff hrep hsafe hsmall, heff⟩
  | query key =>
    obtain ⟨-, root', heq, hview⟩ := MerkleTrie.existsKey_spec h.root_eq h.represents key
    exact memory (by simp only [TrieState.apply, heq]) hview
  | commit => exact ⟨root, h.commit, .commit rfl h.view_commit⟩
  | reload =>
    exact evicted (by simp only [TrieState.apply, h.reload_eq henabled]) henabled (evicted_forget root)
  | evictStale stale =>
    exact evicted (by simp only [TrieState.apply, MerkleTrie.evictStale, h.root_eq, Option.map_some]) henabled
      (evicted_evictStaleChildren stale root [])

/-! ## Runs -/

omit [Blake3] in
theorem initial_eq (hfresh : db (nodeKey []) = none) : initial db
    = ⟨⟨some TrieNode.new⟩, Function.update db (nodeKey []) (some TrieNode.new.record), Batch.empty⟩ := by
  simp [initial, MerkleTrie.initializeTrie, MerkleTrie.loadRoot, hfresh, MerkleTrie.createEmptyRoot, record]

omit [Blake3] in
theorem initial_db (hfresh : ∀ q, db (nodeKey q) = none) (q : Bytes) :
    (initial db).db (nodeKey q) = (view (initial db).db TrieNode.new [] q).map record := by
  rw [initial_eq (hfresh [])]
  cases q with
  | nil => simp
  | cons c r =>
    rw [view_cons_of_none rfl]
    simpa [nodeKey_inj] using hfresh (c :: r)

theorem initial_holds (hfresh : ∀ q, db (nodeKey q) = none) : Holds (initial db) ∅ TrieNode.new := by
  refine ⟨by rw [initial_eq (hfresh [])], .empty, fun q _ => ?_, by decide⟩
  exact initial_db hfresh q

omit [Blake3] in
theorem keysAfter_calls_append (steps : List TrieStep) (step : TrieStep) :
    MerkleTrie.keysAfter ∅ (TrieStep.calls (steps ++ [step]))
      = step.onSet (MerkleTrie.keysAfter ∅ (TrieStep.calls steps)) := by
  cases step <;> simp [TrieStep.calls, MerkleTrie.keysAfter, TrieStep.onSet, MerkleTrie.callOn]

omit [Blake3] in
theorem calls_isPrefix {pre steps : List TrieStep} (h : pre <+: steps) :
    TrieStep.calls pre <+: TrieStep.calls steps := by
  obtain ⟨rest, rfl⟩ := h
  simp [TrieStep.calls]

/-- A run of the trie and its database as it is meant to happen: the database has no trie yet, the keys are
    well-formed, and nodes are dropped from memory only between commits. -/
structure WellFormed (db : RocksDB) (steps : List TrieStep) : Prop where
  fresh : ∀ q, db (nodeKey q) = none
  calls : MerkleTrie.WellFormed (TrieStep.calls steps)
  enabled : ∀ pre step, pre ++ [step] <+: steps → step.Enabled ((initial db).run pre)

/-- Every step of the run meets the condition `C`, given the state before it and the keys the trie then
    holds. -/
def EveryStep (db : RocksDB) (steps : List TrieStep) (C : TrieState → Finset Bytes → TrieStep → Prop) :
    Prop :=
  ∀ pre step, pre ++ [step] <+: steps →
    C ((initial db).run pre) (MerkleTrie.keysAfter ∅ (TrieStep.calls pre)) step

theorem WellFormed.of_prefix {pre : List TrieStep} (h : WellFormed db steps) (hpre : pre <+: steps) :
    WellFormed db pre :=
  ⟨h.fresh, h.calls.of_prefix (calls_isPrefix hpre), fun _ _ hs => h.enabled _ _ (hs.trans hpre)⟩

/-- **The invariant rule for runs.** In a run of safe steps the invariant holds throughout, and with it every
    property `E` that holds initially and is kept by steps that meet `C`. -/
theorem run_holds_with {C : TrieState → Finset Bytes → TrieStep → Prop} {E : TrieState → TrieNode → Prop}
    (h : WellFormed db steps) (hsafe : EveryStep db steps fun _ K step => step.Safe K)
    (hC : EveryStep db steps C) (hinit : E (initial db) TrieNode.new)
    (hstep : ∀ {s K root root' step}, Holds s K root → Holds (s.apply step) (step.onSet K) root' →
      StepEffect s K root root' step → C s K step → E s root → E (s.apply step) root') :
    ∃ root, Holds ((initial db).run steps) (MerkleTrie.keysAfter ∅ (TrieStep.calls steps)) root ∧
      E ((initial db).run steps) root := by
  induction steps using List.reverseRecOn with
  | nil => exact ⟨_, initial_holds h.fresh, hinit⟩
  | append_singleton steps step ih =>
    have hpre : steps <+: steps ++ [step] := List.prefix_append _ _
    obtain ⟨root, hroot, hE⟩ := ih (h.of_prefix hpre) (fun pre st hst => hsafe pre st (hst.trans hpre))
      fun pre st hst => hC pre st (hst.trans hpre)
    rw [run_append, keysAfter_calls_append]
    have henabled := h.enabled steps step List.prefix_rfl
    obtain ⟨root', hroot', heff⟩ := hroot.step step henabled (hsafe steps step List.prefix_rfl) (by
      rintro op rfl
      have hcalls := h.calls
      rw [show TrieStep.calls (steps ++ [.call op]) = TrieStep.calls steps ++ [MerkleTrie.callOn op] by
        simp [TrieStep.calls]] at hcalls
      exact ⟨hcalls.length_le (MerkleTrie.callOn op) (by simp), hcalls.insert_free⟩)
    exact ⟨root', hroot', hstep hroot hroot' heff (hC steps step List.prefix_rfl) hE⟩

/-! ## Runs without compaction -/

/-- Where the tree has no node, the database has none either, once the pending writes are committed. -/
def NoOrphan (s : TrieState) (root : TrieNode) : Prop :=
  ∀ q, view s.db root [] q = none → Overlay.commit s.db s.txnBatch (nodeKey q) = none

omit [Blake3] in
theorem not_exempt_of_clean (h : TrieStep.Clean K (.call op)) : key ∉ op.orphans K ∧ key ∉ op.strays K := by
  cases op with
  | insert k => exact ⟨id, id⟩
  | delete k =>
    have hno : ∀ q, ¬ Compacts [] (expandNibbles k) (nibbleKeys K) q :=
      fun q hq => (h (mem_nibbleKeys.mp hq.1)).2 q hq
    exact ⟨fun ⟨q, _, hq, _⟩ => hno q hq, fun ⟨q, _, hq, _⟩ => hno q hq⟩

theorem NoOrphan.step {step : TrieStep} (h : NoOrphan s root) (heff : StepEffect s K root root' step)
    (hclean : step.Clean K) : NoOrphan (s.apply step) root' := by
  intro q hq
  cases heff with
  | call op writes heq hrec =>
    rw [heq] at hq ⊢
    show Overlay.commit s.db (s.txnBatch.merge writes) (nodeKey q) = none
    rw [commit_merge]
    cases hrec q with
    | orphan hO => exact absurd hO (not_exempt_of_clean hclean).1
    | stray hW => exact absurd hW (not_exempt_of_clean hclean).2
    | written hw =>
      rw [hq] at hw
      exact commit_of_some _ _ _ hw
    | unchanged htxn hview =>
      rw [commit_of_none _ _ _ htxn]
      exact h q (hview ▸ hq)
  | commit heq hview =>
    rw [heq] at hq ⊢
    exact h q ((hview q).symm.trans hq)
  | memory heq hview =>
    rw [heq] at hq ⊢
    exact h q ((hview q).symm.trans hq)

/-- **A clean run leaves no orphan.** -/
theorem run_clean (h : WellFormed db steps) (hclean : EveryStep db steps fun _ K step => step.Clean K) :
    ∃ root, Holds ((initial db).run steps) (MerkleTrie.keysAfter ∅ (TrieStep.calls steps)) root ∧
      NoOrphan ((initial db).run steps) root := by
  refine run_holds_with h (fun pre step hs => (hclean pre step hs).safe) hclean (fun q hq => ?_)
    fun _ _ heff hC hE => hE.step heff hC
  have := initial_db h.fresh q
  rwa [hq] at this

theorem Holds.stored_eq (h : Holds s K root) (hno : NoOrphan s root) (hempty : s.txnBatch = Batch.empty)
    (q : Bytes) : s.db (nodeKey q) = (view s.db root [] q).map record := by
  by_cases hv : view s.db root [] q = none
  · have hnone := hno q hv
    rwa [hempty, commit_empty, ← Option.map_none, ← hv] at hnone
  · exact h.covers_db hempty q hv

/-- **Persistence is transparent.** After every clean run of calls, queries, commits, reloads and evictions,
    `exists`, `items` and `rootHash` answer as in a trie that took the same calls and never dropped a node;
    and if no write is pending, the database holds exactly the nodes reachable from the root. -/
theorem persistence_transparent (h : WellFormed db steps)
    (hclean : EveryStep db steps fun _ K step => step.Clean K) :
    let s := (initial db).run steps
    let inMemory := (MerkleTrie.fresh db).run (TrieStep.calls steps)
    (∀ key, (s.trie.existsKey s.db key).2 = (inMemory.existsKey db key).2) ∧
    s.trie.items = inMemory.items ∧ s.trie.rootHash = inMemory.rootHash ∧
    (s.txnBatch = Batch.empty → ∃ root, s.trie.root = some root ∧
      ∀ q, s.db (nodeKey q) = (root.getNodeFromTrie s.db [] q).map record) := by
  obtain ⟨root, hroot, hno⟩ := run_clean h hclean
  obtain ⟨root', hroot'⟩ := MerkleTrie.run_holds (h.fresh []) h.calls
  refine ⟨fun key => ?_, ?_, ?_, fun hempty => ⟨root, hroot.root_eq, fun q => ?_⟩⟩
  · rw [(MerkleTrie.existsKey_spec hroot.root_eq hroot.represents key).1,
      (MerkleTrie.existsKey_spec hroot'.root_eq (hroot'.represents db) key).1]
  · simp only [MerkleTrie.items, hroot.root_eq, hroot'.root_eq, hroot.represents.items_eq,
      (hroot'.represents db).items_eq]
  · simp only [MerkleTrie.rootHash, hroot.root_eq, hroot'.root_eq]
    rw [hroot.represents.hash_eq (hroot'.represents db)]
  · rw [hroot.stored_eq hno hempty, view, Option.map_map]
    exact congrArg (Option.map · _) (funext record_forget)

omit [Blake3] in
theorem not_compacts_of_alone {k : Bytes} {S : Finset Bytes}
    (h : ∀ x ∈ S, x.take uncompactedLength = k.take uncompactedLength → x = k) (q : Bytes) :
    ¬ Compacts [] k S q := by
  rintro ⟨-, -, hqk, hlen, hcard⟩
  have htake : ∀ y, q <+: y → y.take uncompactedLength = q.take uncompactedLength := by
    rintro _ ⟨t, rfl⟩
    exact List.take_append_of_le_length hlen
  have hsub : below q S ⊆ {k} := by
    intro x hx
    obtain ⟨hxS, hqx⟩ := mem_below.mp hx
    exact Finset.mem_singleton.mpr (h x hxS (by rw [htake x hqx, htake k hqk]))
  have := Finset.card_le_card hsub
  rw [hcard, Finset.card_singleton] at this
  omega

omit [Blake3] in
theorem forall_step_of_getElem {P : List TrieStep → TrieStep → Prop}
    (h : ∀ i step, steps[i]? = some step → P (steps.take i) step) :
    ∀ pre step, pre ++ [step] <+: steps → P pre step := by
  intro pre step hpre
  have hstep := h pre.length step
  obtain ⟨rest, rfl⟩ := hpre
  simpa using hstep

/-- Two keys below the same uncompacted path and one elsewhere that is deleted again, with a reload and an
    eviction on the way. -/
def sampleSteps : List TrieStep :=
  [.call (.insert [1, 2, 3, 4, 5, 6, 7]), .call (.insert [9, 2, 3, 4, 5, 6, 7]), .commit, .reload,
    .call (.insert [1, 2, 3, 4, 5, 6, 8]), .call (.delete [9, 2, 3, 4, 5, 6, 7]), .commit,
    .evictStale fun _ => true]

theorem wellFormed_sampleSteps : WellFormed (fun _ => none) sampleSteps := by
  refine ⟨fun _ => rfl, MerkleTrie.WellFormed.of_length (n := 7) (by decide) (by decide),
    forall_step_of_getElem fun i step hi => ?_⟩
  rcases i with _ | _ | _ | _ | _ | _ | _ | _ | i <;> cases hi
  case succ.succ.succ.zero => rfl
  case succ.succ.succ.succ.succ.succ.succ.zero => rfl
  all_goals trivial

theorem clean_sampleSteps : EveryStep (fun _ => none) sampleSteps fun _ K step => step.Clean K := by
  refine forall_step_of_getElem fun i step hi => ?_
  rcases i with _ | _ | _ | _ | _ | _ | _ | _ | i <;> cases hi
  case succ.succ.succ.succ.succ.zero =>
    exact fun _ => ⟨by decide, not_compacts_of_alone (by decide)⟩
  all_goals first | trivial | (simp only [TrieStep.Clean]; decide)

omit [Blake3] in
theorem persistence_transparent_sample :
    let s := @run MerkleTrie.constHash (initial fun _ => none) sampleSteps
    (s.trie.existsKey s.db [1, 2, 3, 4, 5, 6, 7]).2 = .ok true ∧
      (s.trie.existsKey s.db [9, 2, 3, 4, 5, 6, 7]).2 = .ok false := by
  let _ := MerkleTrie.constHash
  obtain ⟨hex, -⟩ := persistence_transparent wellFormed_sampleSteps clean_sampleSteps
  obtain ⟨root, hroot⟩ := @MerkleTrie.run_holds _ (fun _ => none) _ rfl wellFormed_sampleSteps.calls
  have hmem := fun key => (MerkleTrie.existsKey_spec hroot.root_eq (hroot.represents fun _ => none) key).1
  exact ⟨(hex _).trans ((hmem _).trans (by decide)), (hex _).trans ((hmem _).trans (by decide))⟩

/-! ## Compaction leaves an orphan -/

/-- Two keys below the same uncompacted path, one of which is deleted again. -/
def orphanSteps : List TrieStep :=
  [.call (.insert [1, 2, 3, 4, 5, 6, 0x10]), .call (.insert [1, 2, 3, 4, 5, 6, 0x20]),
    .call (.delete [1, 2, 3, 4, 5, 6, 0x10]), .commit]

/-- The path of the leaf that the second key had before its parent absorbed it. -/
def orphanPath : Bytes := [0, 1, 0, 2, 0, 3, 0, 4, 0, 5, 0, 6, 2]

theorem wellFormed_orphanSteps : WellFormed (fun _ => none) orphanSteps := by
  refine ⟨fun _ => rfl, MerkleTrie.WellFormed.of_length (n := 7) (by decide) (by decide),
    forall_step_of_getElem fun i step hi => ?_⟩
  rcases i with _ | _ | _ | _ | i <;> cases hi <;> trivial

omit [Blake3] in
set_option maxRecDepth 100000 in
/-- After the deletion is committed, the database still holds a node at `orphanPath`, which the trie does not
    have: `compact` deletes the absorbed child under the key of another path. -/
theorem compaction_leaves_orphan : @WellFormed MerkleTrie.constHash (fun _ => none) orphanSteps ∧
    let s := @run MerkleTrie.constHash (initial fun _ => none) orphanSteps
    s.txnBatch = Batch.empty ∧ (s.db (nodeKey orphanPath)).isSome ∧
      (s.trie.root.bind fun root => root.getNodeFromTrie s.db [] orphanPath).isNone := by
  refine ⟨@wellFormed_orphanSteps MerkleTrie.constHash, rfl, ?_⟩
  decide +kernel

end TrieState
end Hypersnap
