import Hypersnap.Lib.Cutoffs
import Hypersnap.Store.CompactState

/-!
# `Store.LinkConfluence` — when the order of merging links does not matter

The link store with its compact states is a keeper with cutoffs: adds and removes compete on their conflict
key, a compact state is a cutoff. The database is exactly the entries of what the keeper holds (`LinkSim`), so
the order of merging matters exactly where it matters to the keeper (`link_confluent_iff`).
-/

namespace Hypersnap

open Overlay EState Layout Lib

/-- Links compete on their conflict key, compact states are cutoffs. -/
def linkRules : CutoffRules Record (Bytes × Bytes) Bytes Message Nat where
  key := conflictKey
  rank := linkLayout.rankOf
  time c := c.timestamp.toNat
  accepts c r := c.accepts r.message = true
  keeps c r := c.keeps r.message = true
  accepts_of_keeps := Message.accepts_of_keeps

namespace Store

/-- What the runs assume of the messages: they are links and compact states of one user and link type, their
    hashes are different, and they are as `message_bytes_decode` leaves them. -/
structure LinkFit [Prost] (fid : UInt64) (type : Bytes) (msgs : List Message) : Prop where
  link : ∀ m ∈ msgs, LinkMessage fid type m
  nodup_hash : (msgs.map Message.hash).Nodup
  normal : ∀ m ∈ msgs, m.Normal

/-! ## Messages as arrivals -/

section arrivals
variable {ctx : StateContext} {m c : Message} {r : Record} {msgs : List Message}

open Classical in
/-- A message as the keeper sees it. -/
noncomputable def arrival (ctx : StateContext) (m : Message) : Arrival Record Message :=
  if h : ∃ r, r.message = m ∧ linkLayout.Admits ctx r then .element h.choose
  else if m.isCompactState then .cutoff m
  else .other

theorem arrival_of_admits (hr : linkLayout.Admits ctx r) : arrival ctx r.message = .element r := by
  have h : ∃ r', r'.message = r.message ∧ linkLayout.Admits ctx r' := ⟨r, rfl, hr⟩
  have hspec := h.choose_spec
  rw [arrival, dif_pos h, hspec.2.toTyped.eq_of_message hr.toTyped hspec.1]

theorem not_admits_of_isCompactState (hc : r.message.isCompactState = true) : ¬ linkLayout.Admits ctx r := by
  intro hr
  have hcompact : r.message.hasType .linkCompactState = false := hr.toTyped.not_compact
  simp [Message.isCompactState, hcompact] at hc

theorem arrival_of_isCompactState (hc : c.isCompactState = true) : arrival ctx c = .cutoff c := by
  have h : ¬ ∃ r, r.message = c ∧ linkLayout.Admits ctx r := by
    rintro ⟨r, rfl, hr⟩
    exact not_admits_of_isCompactState hc hr
  rw [arrival, dif_neg h, if_pos hc]

theorem arrival_eq_element_iff : arrival ctx m = .element r ↔ r.message = m ∧ linkLayout.Admits ctx r := by
  constructor
  · intro h
    unfold arrival at h
    split at h
    next hex =>
      cases h
      exact hex.choose_spec
    next => split at h <;> cases h
  · rintro ⟨rfl, hr⟩
    exact arrival_of_admits hr

theorem arrival_eq_cutoff_iff : arrival ctx m = .cutoff c ↔ m = c ∧ c.isCompactState = true := by
  constructor
  · intro h
    unfold arrival at h
    split at h
    next => cases h
    next =>
      split at h
      next hc =>
        cases h
        exact ⟨rfl, hc⟩
      next => cases h
  · rintro ⟨rfl, hc⟩
    exact arrival_of_isCompactState hc

theorem elements_arrivals :
    Keeper.elements (msgs.map (arrival ctx)) = @records (linkStore ctx) linkLayout msgs := by
  ext r
  simp only [Keeper.elements, records, Set.mem_ofPred_eq, List.mem_map, arrival_eq_element_iff]
  constructor
  · rintro ⟨m, hm, rfl, hr⟩
    exact ⟨hm, hr⟩
  · rintro ⟨hm, hr⟩
    exact ⟨_, hm, rfl, hr⟩

theorem cutoffs_arrivals :
    Keeper.cutoffs (msgs.map (arrival ctx)) = {c | c ∈ msgs ∧ c.isCompactState = true} := by
  ext c
  simp only [Keeper.cutoffs, Set.mem_ofPred_eq, List.mem_map, arrival_eq_cutoff_iff]
  constructor
  · rintro ⟨m, hm, rfl, hc⟩
    exact ⟨hm, hc⟩
  · rintro ⟨hm, hc⟩
    exact ⟨_, hm, rfl, hc⟩

end arrivals

/-! ## The database of a keeper -/

variable {ctx : StateContext} {fid : UInt64} {type : Bytes} {msgs : List Message} {s : Keeper Record Message}
  {db : RocksDB} {r : Record}

/-- **The database holds the entries of what the keeper holds**, and nothing else but events. -/
structure LinkSim (ctx : StateContext) (fid : UInt64) (type : Bytes) (msgs : List Message)
    (s : Keeper Record Message) (db : RocksDB) : Prop where
  held : ∀ r ∈ s.held, r.message ∈ msgs ∧ linkLayout.Admits ctx r
  cutoff : ∀ c, s.cutoff = some c → c ∈ msgs ∧ c.isCompactState = true
  exact : ∀ {k v}, k[0]? ≠ some RootPrefix.hubEvents.toByte → (db k = some v ↔
    (∃ r ∈ s.held, (k, v) ∈ linkLayout.entries ctx r) ∨
      ∃ c, s.cutoff = some c ∧ k = compactKey ctx fid type ∧ v = messageEncode c)

namespace LinkSim

theorem empty (ctx : StateContext) (fid : UInt64) (type : Bytes) (msgs : List Message) :
    LinkSim ctx fid type msgs ⟨∅, none⟩ fun _ => none where
  held _ h := h.elim
  cutoff _ h := nomatch h
  exact _ := by simp

variable (h : LinkSim ctx fid type msgs s db) {v : DbValue} {k : Bytes}
include h

theorem compactKey_eq : db (compactKey ctx fid type) = s.cutoff.map messageEncode := by
  ext v
  rw [h.exact compactKey_ne_hubEvents, Option.map_eq_some_iff]
  constructor
  · rintro (⟨r, -, hkv⟩ | ⟨c, hc, -, rfl⟩)
    · exact absurd (List.mem_map_of_mem hkv) compactKey_not_mem_keys
    · exact ⟨c, hc, rfl⟩
  · rintro ⟨c, hc, rfl⟩
    exact .inr ⟨c, hc, rfl, rfl⟩

theorem user_key (hroot : k[0]? = some (ctx.rootPrefix .user)) (hv : db k = some v) :
    (∃ r ∈ s.held, k = primaryKey linkStoreDef ctx r ∧ v = messageEncode r.message ∨
      k = linkLayout.indexKey ctx r ∧ v = .bytes r.tsHash) ∨ k = compactKey ctx fid type := by
  rcases (h.exact (user_ne_hubEvents hroot)).1 hv with ⟨r, hr, hkv⟩ | ⟨c, -, hk, -⟩
  · refine .inl ⟨r, hr, ?_⟩
    rcases mem_entries.1 hkv with hp | hi | hs
    · exact .inl hp
    · exact .inr hi
    · exact absurd hroot (secondary_ne_user (List.mem_map_of_mem hs) linkLayout)
  · exact .inr hk

theorem mem_of_mem_entries (hr : r ∈ s.held) (hkv : (k, v) ∈ linkLayout.entries ctx r)
    (hk : k[0]? ≠ some RootPrefix.hubEvents.toByte) : db k = some v := (h.exact hk).2 (.inl ⟨r, hr, hkv⟩)

end LinkSim

variable [Prost]

namespace LinkFit

variable (hfit : LinkFit fid type msgs)
include hfit

theorem eq_of_tsHash {r r' : Record} (hr : r.message ∈ msgs ∧ linkLayout.Admits ctx r)
    (hr' : r'.message ∈ msgs ∧ linkLayout.Admits ctx r') (hts : r.tsHash = r'.tsHash) : r = r' :=
  hr.2.toTyped.eq_of_message hr'.2.toTyped (List.inj_on_of_nodup_map hfit.nodup_hash hr.1 hr'.1
    (hash_eq_of_tsHash hr.2.toTyped hr'.2.toTyped hts))

theorem conflictKey_eq_of_mem_keys {r r' : Record} (hr : r.message ∈ msgs ∧ linkLayout.Admits ctx r)
    (hr' : r'.message ∈ msgs ∧ linkLayout.Admits ctx r') {k : Bytes} (hk : k ∈ linkLayout.keys ctx r)
    (hk' : k ∈ linkLayout.keys ctx r') : conflictKey r = conflictKey r' := by
  rcases link_keys_disjoint hk hk' with hkey | hts
  · exact hkey
  · rw [hfit.eq_of_tsHash hr hr' hts]

theorem fid_eq (hr : r.message ∈ msgs ∧ linkLayout.Admits ctx r) : r.fid = fid := by
  obtain ⟨data, hdata, hfid, -⟩ := hr.2.data
  rw [← hfid]
  cases hfit.link _ hr.1 with
  | link hdata' hfid' => cases hdata.symm.trans hdata'; exact hfid'
  | compact hdata' hfid' => cases hdata.symm.trans hdata'; exact hfid'

theorem isCompactState {c : Message} (hc : c ∈ msgs ∧ c.isCompactState = true) :
    c.Normal ∧ LinkMessage fid type c ∧ c.hasType .linkCompactState = true :=
  ⟨hfit.normal c hc.1, hfit.link c hc.1, (Bool.and_eq_true_iff.1 hc.2).1⟩

omit [Prost] hfit in
theorem records_finite : {r | r.message ∈ msgs ∧ linkLayout.Admits ctx r}.Finite := by
  refine Set.Finite.of_finite_image (f := Record.message) ((List.finite_toSet msgs).subset ?_) ?_
  · rintro m ⟨r, hr, rfl⟩
    exact hr.1
  · intro r hr r' hr' heq
    exact hr.2.toTyped.eq_of_message hr'.2.toTyped heq

end LinkFit

namespace LinkSim

variable (h : LinkSim ctx fid type msgs s db) (hfit : LinkFit fid type msgs)
include h hfit

/-- **Who is held**: in the database what the keeper holds. -/
theorem held_iff : linkLayout.Held ctx db r ↔ r ∈ s.held := by
  constructor
  · intro hr
    rcases h.user_key rfl hr.primary with ⟨w, hw, ⟨-, henc⟩ | ⟨-, henc⟩⟩ | hk
    · obtain ⟨hmem, hadm⟩ := h.held w hw
      rwa [hr.typed.eq_of_message hadm.toTyped (messageEncode_inj hr.normal (hfit.normal _ hmem) henc)]
    · exact absurd henc messageEncode_ne_bytes
    · exact absurd (hk ▸ mem_keys.2 (.inl rfl)) (compactKey_not_mem_keys (r := r))
  · intro hr
    obtain ⟨hmem, hadm⟩ := h.held r hr
    exact ⟨hadm.toTyped, hfit.normal _ hmem, h.mem_of_mem_entries hr (mem_entries.2 (.inl ⟨rfl, rfl⟩))
      (user_ne_hubEvents rfl), h.mem_of_mem_entries hr (mem_entries.2 (.inr (.inl ⟨rfl, rfl⟩)))
      (user_ne_hubEvents rfl)⟩

theorem indexed : linkLayout.Indexed ctx db := .of_user_keys fun hroot hv => by
  rcases h.user_key hroot hv with ⟨r, hr, hk⟩ | rfl
  · exact .inl ⟨r, (h.held_iff hfit).2 hr, hk.imp And.left And.left⟩
  · refine .inr ⟨fun hset => absurd (Option.some.inj hset) (by decide), fun b hset =>
      absurd (Option.some.inj hset) ?_⟩
    cases b <;> decide

/-! ## One merge -/

variable [DbIterator] {g : HubEventIdGenerator} (hg : g.Ready)
include hg

/-- **Merging a link** is an arrival of its record. -/
theorem step_element (hr : r.message ∈ msgs ∧ linkLayout.Admits ctx r) :
    LinkSim ctx fid type msgs (Keeper.step linkRules s (.element r))
    ((linkStore ctx).mergeCommit g db r.message) := by
  have hcheck := @compactCheck_eq_ok_iff _ _ _ _ _ _ Batch.empty (hfit.link _ hr.1) hr.2 _ h.compactKey_eq
    fun c hc => hfit.isCompactState (h.cutoff c hc)
  have hadmits : ∀ x, linkLayout.Held ctx db x → linkLayout.Admits ctx x := fun x hx =>
    (h.held x ((h.held_iff hfit).1 hx)).2
  rcases @mergeCommit_outcome (linkStore ctx) linkLayout _ _ _ _ _ rfl (h.indexed hfit) hadmits hr.2 hg with
    ⟨hstop, heq⟩ | ⟨hok, hfree, xs, hxs, hdb⟩
  · -- stopped: the keeper turns it away for the same reason
    have hstep : Keeper.step linkRules s (.element r) = s := by
      refine if_neg fun hacc => ?_
      rcases hstop with hne | ⟨x, ⟨hx, hkey⟩, hcmp⟩
      · exact hne (hcheck.2 hacc.1)
      · exact hcmp (hacc.2 x ((h.held_iff hfit).1 hx) hkey)
    rw [hstep, heq]
    exact h
  · rw [Keeper.step_element_of_accept (hcheck.1 hok) fun w hw hkey => hfree w ⟨(h.held_iff hfit).2 hw, hkey⟩]
    refine ⟨?_, h.cutoff, fun {k v} hk => ?_⟩
    · rintro w (rfl | hw)
      · exact hr
      · exact h.held w hw.1
    have hxs : ∀ x, x ∈ xs ↔ x ∈ s.held ∧ conflictKey x = conflictKey r := fun x =>
      (hxs x).trans (and_congr_left fun _ => h.held_iff hfit)
    have hinst := @installed_eq_some (linkStore ctx) linkLayout db r xs k v
    rw [h.exact hk] at hinst
    rw [hdb k hk]
    refine hinst.trans ?_
    constructor
    · rintro (hkv | ⟨-, hne, ⟨w, hw, hkv⟩ | hcut⟩)
      · exact .inl ⟨r, .inl rfl, hkv⟩
      · refine .inl ⟨w, .inr ⟨hw, fun hkey => ?_⟩, hkv⟩
        exact hne w ((hxs w).2 ⟨hw, hkey⟩) (List.mem_map_of_mem hkv)
      · exact .inr hcut
    · rintro (⟨w, rfl | ⟨hw, hkey⟩, hkv⟩ | hcut)
      · exact .inl hkv
      · -- its keys are not those of the new record and its rivals
        have hkw : k ∈ linkLayout.keys ctx w := List.mem_map_of_mem hkv
        refine .inr ⟨fun hkr => hkey ?_, fun x hx hkx => hkey ?_, .inl ⟨w, hw, hkv⟩⟩
        · exact hfit.conflictKey_eq_of_mem_keys (h.held w hw) hr hkw hkr
        · obtain ⟨hx, hxkey⟩ := (hxs x).1 hx
          exact (hfit.conflictKey_eq_of_mem_keys (h.held w hw) (h.held x hx) hkw hkx).trans hxkey
      · obtain ⟨c, hc, rfl, rfl⟩ := hcut
        exact .inr ⟨compactKey_not_mem_keys, fun x _ => compactKey_not_mem_keys, .inr ⟨c, hc, rfl, rfl⟩⟩

/-- **Merging a compact state** is an arrival of a cutoff. -/
theorem step_cutoff [DbIterator.Exact] {c : Message} (hc : c ∈ msgs ∧ c.isCompactState = true)
    (huniq : ∀ a ∈ s.held, ∀ b ∈ s.held, conflictKey a = conflictKey b → a = b) :
    LinkSim ctx fid type msgs (Keeper.step linkRules s (.cutoff c)) ((linkStore ctx).mergeCommit g db c) := by
  have hadmits : ∀ x, linkLayout.Held ctx db x → linkLayout.Admits ctx x := fun x hx =>
    (h.held x ((h.held_iff hfit).1 hx)).2
  have hfin : {r | linkLayout.Held ctx db r}.Finite :=
    LinkFit.records_finite.subset fun r hr => h.held r ((h.held_iff hfit).1 hr)
  rcases mergeCommit_compact_cases (hfit.link c hc.1) hc.2 h.compactKey_eq
    (fun c hc => hfit.isCompactState (h.cutoff c hc)) (h.indexed hfit) hadmits hfin hg with
    ⟨⟨c₀, hc₀, hle⟩, heq⟩ | ⟨hlater, xs, hxs, hdb⟩
  · rw [Keeper.step_cutoff_of_le hc₀ (UInt32.le_iff_toNat_le.1 hle), heq]
    exact h
  · have hstep : Keeper.step linkRules s (.cutoff c) = ⟨{w ∈ s.held | linkRules.keeps c w}, some c⟩ :=
      if_pos fun c₀ hc₀ => UInt32.lt_iff_toNat_lt.1 (hlater c₀ hc₀)
    rw [hstep]
    refine ⟨fun r hr => h.held r hr.1, fun c' hc' => ?_, fun {k v} hk => ?_⟩
    · cases hc'
      exact hc
    have hxs : ∀ x, x ∈ xs ↔ x ∈ s.held ∧ c.keeps x.message = false := fun x => by
      refine (hxs x).trans (and_congr_left' ⟨fun hx => (h.held_iff hfit).1 hx.1, fun hx => ?_⟩)
      exact ⟨(h.held_iff hfit).2 hx, by rw [hfit.fid_eq (h.held x hx)]⟩
    rw [hdb k hk]
    by_cases hkc : k = compactKey ctx fid type
    · subst hkc
      rw [Function.update_self]
      constructor
      · intro hv
        exact .inr ⟨c, rfl, rfl, (Option.some.inj hv).symm⟩
      · rintro (⟨r, -, hkv⟩ | ⟨c', hc', -, rfl⟩)
        · exact absurd (List.mem_map_of_mem hkv) compactKey_not_mem_keys
        · cases hc'
          rfl
    · have hmem := @mem_flatMap_erased (linkStore ctx) linkLayout xs k
      rw [Function.update_of_ne hkc, eraseAll_eq_some, h.exact hk]
      refine (and_congr_left' (not_congr hmem)).trans ?_
      constructor
      · rintro ⟨hne, ⟨r, hr, hkv⟩ | ⟨c', -, hk', -⟩⟩
        · refine .inl ⟨r, ⟨hr, ?_⟩, hkv⟩
          show c.keeps r.message = true
          by_contra hkeeps
          exact hne ⟨r, (hxs r).2 ⟨hr, by simpa using hkeeps⟩, List.mem_map_of_mem hkv⟩
        · exact absurd hk' hkc
      · rintro (⟨r, ⟨hr, hkeeps⟩, hkv⟩ | ⟨c', -, hk', -⟩)
        · refine ⟨?_, .inl ⟨r, hr, hkv⟩⟩
          -- a deleted record with one of its keys would be the record itself
          rintro ⟨x, hx, hkx⟩
          obtain ⟨hx, hnot⟩ := (hxs x).1 hx
          have hkey :=
            hfit.conflictKey_eq_of_mem_keys (h.held r hr) (h.held x hx) (List.mem_map_of_mem hkv) hkx
          rw [← huniq r hr x hx hkey] at hnot
          exact absurd (hkeeps.symm.trans hnot) (by decide)
        · exact absurd hk' hkc

omit hg in
theorem step_other {m : Message} (hother : arrival ctx m = .other) :
    (linkStore ctx).mergeCommit g db m = db := by
  have hadm : ¬ ∃ r, r.message = m ∧ linkLayout.Admits ctx r := by
    rintro ⟨r, rfl, hr⟩
    exact absurd (hother.symm.trans (arrival_of_admits hr)) (by simp)
  by_cases htype : m.hasType .linkCompactState = true
  · -- a compact state without a proper hash fails at once
    have hnot : ¬ m.isCompactState = true := fun hc =>
      absurd (hother.symm.trans (arrival_of_isCompactState hc)) (by simp)
    have hcompact : (linkStore ctx).storeDef.isCompactStateType m = true := htype
    have hsup : (linkStore ctx).storeDef.compactStateTypeSupported = true := rfl
    cases hts : messageTsHash m with
    | ok ts => exact absurd (by simp [Message.isCompactState, htype, hts, Except.isOk, Except.toBool]) hnot
    | error e =>
      have hmerge : (linkStore ctx).merge db m ⟨Batch.empty, g⟩ = .error e ⟨Batch.empty, g⟩ := by
        simp only [merge, hcompact, hsup, hts, Bool.and_self, Bool.not_true, Bool.and_false,
          Bool.false_eq_true, if_false]
        rfl
      rw [mergeCommit, hmerge]
  · exact @mergeCommit_of_not_admits (linkStore ctx) linkLayout _ _ _ _ rfl (h.indexed hfit) _
      (Bool.eq_false_iff.2 htype) hadm

end LinkSim

/-! ## Runs -/

section runs
variable [DbIterator] [DbIterator.Exact] (hfit : LinkFit fid type msgs) {gen : Nat → HubEventIdGenerator}
  (hgen : ∀ i, (gen i).Ready)
include hfit hgen

/-- **A run of merges** is a run of the keeper. -/
theorem mergeAll_linkSim (ctx : StateContext) (order : List Message) (hsub : order ⊆ msgs) :
    LinkSim ctx fid type msgs (Keeper.run linkRules (order.map (arrival ctx)))
    ((linkStore ctx).mergeAll gen order) := by
  -- induction on the merges made so far
  induction order using List.reverseRecOn with
  | nil => exact LinkSim.empty ctx fid type msgs
  | append_singleton order m ih =>
    have hm : m ∈ msgs := hsub (by simp)
    have ih := ih fun x hx => hsub (List.mem_append_left _ hx)
    rw [mergeAll_snoc, List.map_append, List.map_singleton, Keeper.run_snoc]
    cases harr : arrival ctx m with
    | element r =>
      obtain ⟨rfl, hr⟩ := arrival_eq_element_iff.1 harr
      exact ih.step_element hfit (hgen _) ⟨hm, hr⟩
    | cutoff c =>
      obtain ⟨rfl, hc⟩ := arrival_eq_cutoff_iff.1 harr
      exact ih.step_cutoff hfit (hgen _) ⟨hm, hc⟩ (Keeper.run_kept linkRules _).unique
    | other =>
      rw [ih.step_other hfit harr]
      exact ih

end runs

/-! ## When the order does not matter -/

/-- No compact state of the messages is later. -/
def LatestCompact (msgs : List Message) (c : Message) : Prop :=
  c ∈ msgs ∧ c.isCompactState = true ∧ ∀ c' ∈ msgs, c'.isCompactState = true → c'.timestamp ≤ c.timestamp

/-- **The condition**: one compact state is the latest; and if it accepts some link of a conflict key, then
    every compact state keeps the best link of that key. -/
structure LinkSettled (store : Store) (msgs : List Message) : Prop where
  latest_unique : ∀ c c', LatestCompact msgs c → LatestCompact msgs c' → c = c'
  keeps_best : ∀ c, LatestCompact msgs c → ∀ m ∈ msgs, store.Best msgs m →
    (∃ m' ∈ msgs, store.mergeable m' = true ∧ store.Competes m' m ∧ c.accepts m' = true) →
      ∀ c' ∈ msgs, c'.isCompactState = true → c'.keeps m = true

omit [Prost] in
theorem isLatest_iff {c : Message} :
    Keeper.IsLatest linkRules (msgs.map (arrival ctx)) c ↔ LatestCompact msgs c := by
  rw [Keeper.IsLatest, cutoffs_arrivals]
  constructor
  · rintro ⟨⟨hm, hc⟩, hle⟩
    exact ⟨hm, hc, fun c' hm' hc' => UInt32.le_iff_toNat_le.2 (hle c' ⟨hm', hc'⟩)⟩
  · rintro ⟨hm, hc, hle⟩
    exact ⟨⟨hm, hc⟩, fun c' hc' => UInt32.le_iff_toNat_le.1 (hle c' hc'.1 hc'.2)⟩

omit [Prost] in
theorem settled_iff :
    Keeper.Settled linkRules (msgs.map (arrival ctx)) ↔ LinkSettled (linkStore ctx) msgs := by
  have hbest : ∀ {r}, r.message ∈ msgs → linkLayout.Admits ctx r →
      (IsBest linkRules.key linkRules.rank (Keeper.elements (msgs.map (arrival ctx))) r ↔
        (linkStore ctx).Best msgs r.message) := by
    intro r hm hr
    rw [elements_arrivals]
    exact @isBest_iff (linkStore ctx) linkLayout _ _ hr hm
  have hmergeable :
      ∀ {m}, (linkStore ctx).mergeable m = true ↔ ∃ r, r.message = m ∧ linkLayout.Admits ctx r :=
    @mergeable_iff (linkStore ctx) linkLayout
  have hcompetes : ∀ {r r'}, linkLayout.Admits ctx r → linkLayout.Admits ctx r' →
      ((linkStore ctx).Competes r.message r'.message ↔ conflictKey r = conflictKey r') := fun hr hr' =>
    @competes_iff (linkStore ctx) linkLayout _ _ hr.toTyped hr'.toTyped
  constructor
  · intro hset
    refine ⟨fun c c' hc hc' => hset.latest_unique c c' (isLatest_iff.2 hc) (isLatest_iff.2 hc'), ?_⟩
    intro c hc m hm hb ⟨m', hm', hmerge', hcomp, hacc⟩ c' hc' hcompact
    obtain ⟨r, rfl, hr⟩ := hmergeable.1 hb.1
    obtain ⟨r', rfl, hr'⟩ := hmergeable.1 hmerge'
    refine hset.keeps_best c (isLatest_iff.2 hc) r ((hbest hm hr).2 hb)
      ⟨r', ?_, (hcompetes hr' hr).1 hcomp, hacc⟩ c' ?_
    · rw [elements_arrivals]
      exact ⟨hm', hr'⟩
    · rw [cutoffs_arrivals]
      exact ⟨hc', hcompact⟩
  · intro hset
    refine ⟨fun c c' hc hc' => hset.latest_unique c c' (isLatest_iff.1 hc) (isLatest_iff.1 hc'), ?_⟩
    intro c hc r hb ⟨r', hr', hkey, hacc⟩ c' hc'
    have hr := hb.1
    rw [elements_arrivals] at hr hr'
    rw [cutoffs_arrivals] at hc'
    exact hset.keeps_best c (isLatest_iff.1 hc) r.message hr.1 ((hbest hr.1 hr.2).1 hb)
      ⟨r'.message, hr'.1, hmergeable.2 ⟨r', rfl, hr'.2⟩, (hcompetes hr'.2 hr.2).2 hkey, hacc⟩ c' hc'.1 hc'.2

theorem LinkSim.keeper_eq (hfit : LinkFit fid type msgs) {s' : Keeper Record Message} {db' : RocksDB}
    (h : LinkSim ctx fid type msgs s db) (h' : LinkSim ctx fid type msgs s' db')
    (heq : ∀ k : Bytes, k[0]? ≠ some RootPrefix.hubEvents.toByte → db k = db' k) : s = s' := by
  refine Keeper.ext ?_ ?_
  · ext r
    rw [← h.held_iff hfit, ← h'.held_iff hfit, held_congr heq]
  · have hcut : s.cutoff.map messageEncode = s'.cutoff.map messageEncode := by
      rw [← h.compactKey_eq, ← h'.compactKey_eq, heq _ compactKey_ne_hubEvents]
    cases hs : s.cutoff with
    | none =>
      rw [hs] at hcut
      exact (Option.map_eq_none_iff.1 hcut.symm).symm
    | some c =>
      rw [hs, Option.map_some] at hcut
      obtain ⟨c', hs', henc⟩ := Option.map_eq_some_iff.1 hcut.symm
      have hnormal := (hfit.isCompactState (h.cutoff c hs)).1
      have hnormal' := (hfit.isCompactState (h'.cutoff c' hs')).1
      rw [hs', messageEncode_inj hnormal' hnormal henc]

/-- **Convergence of the link store.** Whatever the order in which links and compact states of one user and
    link type are merged, the same messages and indices are left: exactly when the messages are settled. -/
theorem link_confluent_iff [DbIterator] [DbIterator.Exact] (ctx : StateContext) (fid : UInt64) (type : Bytes)
    (msgs : List Message) (hfit : LinkFit fid type msgs) (gen : Nat → HubEventIdGenerator)
    (hgen : ∀ i, (gen i).Ready) :
    (∀ order₁ order₂ : List Message, order₁.Perm msgs → order₂.Perm msgs →
      ∀ key : Bytes, key[0]? ≠ some RootPrefix.hubEvents.toByte →
        (linkStore ctx).mergeAll gen order₁ key = (linkStore ctx).mergeAll gen order₂ key) ↔
      LinkSettled (linkStore ctx) msgs := by
  have hinj : ∀ a ∈ Keeper.elements (msgs.map (arrival ctx)), ∀ b ∈ Keeper.elements (msgs.map (arrival ctx)),
      linkRules.key a = linkRules.key b → compare (linkRules.rank a) (linkRules.rank b) = .eq → a = b := by
    intro a ha b hb _ hcmp
    rw [elements_arrivals] at ha hb
    have hrank := bytesCompare_eq_iff.1 hcmp
    exact hfit.eq_of_tsHash ha hb (linkLayout.rank_inj ha.2.length_tsHash hb.2.length_tsHash hrank).2
  rw [← settled_iff, ← Keeper.run_perm_iff hinj]
  have hsim :
      ∀ {order}, order.Perm msgs → LinkSim ctx fid type msgs (Keeper.run linkRules (order.map (arrival ctx)))
      ((linkStore ctx).mergeAll gen order) := fun hp => mergeAll_linkSim hfit hgen ctx _ hp.subset
  constructor
  · intro h l₁ l₂ h₁ h₂
    obtain ⟨order₁, hp₁, rfl⟩ := exists_perm_map h₁
    obtain ⟨order₂, hp₂, rfl⟩ := exists_perm_map h₂
    exact (hsim hp₁).keeper_eq hfit (hsim hp₂) (h order₁ order₂ hp₁ hp₂)
  · intro h order₁ order₂ hp₁ hp₂ key hkey
    have h₂ := hsim hp₂
    rw [← h _ _ (hp₁.map _) (hp₂.map _)] at h₂
    ext v
    rw [(hsim hp₁).exact hkey, h₂.exact hkey]

/-! ### Samples -/

def sampleLink (type : MessageType) (timestamp : UInt32) (hash : UInt8) : Message where
  data := some ⟨type.toI32, 1, timestamp, 1, some (.linkBody [102] (some 5))⟩
  hash := List.replicate 20 hash
  hashScheme := blake3
  signature := []
  signatureScheme := ed25519
  signer := []
  dataBytes := none

def sampleCompactState (targets : List UInt64) (timestamp : UInt32) (hash : UInt8) : Message where
  data := some ⟨MessageType.linkCompactState.toI32, 1, timestamp, 1,
    some (.linkCompactStateBody [102] targets)⟩
  hash := List.replicate 20 hash
  hashScheme := blake3
  signature := []
  signatureScheme := ed25519
  signer := []
  dataBytes := none

def sampleLinkKey : Bytes :=
  makeMessagePrimaryKey RootPrefix.user.toByte 1 UserPostfix.linkMessage.toByte
    (toBeBytes 10 ++ List.replicate 20 1)

omit [Prost] in
/-- An add, and a compact state that lists it. -/
theorem link_confluent_listed :
    @mergeAll noProst sortedScan (linkStore .legacy) (fun _ => ⟨1, 0⟩)
        [sampleLink .linkAdd 10 1, sampleCompactState [5] 10 2] sampleLinkKey =
      @mergeAll noProst sortedScan (linkStore .legacy) (fun _ => ⟨1, 0⟩)
        [sampleCompactState [5] 10 2, sampleLink .linkAdd 10 1] sampleLinkKey := by
  let _ := noProst
  let _ := sortedScan
  have _ := sortedScan_exact
  have hfit : LinkFit 1 [102] [sampleLink .linkAdd 10 1, sampleCompactState [5] 10 2] := by
    refine ⟨?_, by decide, ?_⟩ <;> simp only [List.mem_cons, List.not_mem_nil, or_false]
    · rintro m (rfl | rfl)
      · exact .link rfl rfl rfl (.inl rfl)
      · exact .compact rfl rfl rfl rfl
    · rintro m (rfl | rfl) <;> rfl
  refine (link_confluent_iff .legacy 1 [102] _ hfit (fun _ => ⟨1, 0⟩) fun _ => by decide).2
    ⟨?_, ?_⟩ _ _ (.refl _)
    (.swap _ _ _) _ (by decide)
  · simp only [LatestCompact, List.mem_cons, List.not_mem_nil, or_false]
    rintro c c' ⟨rfl | rfl, hc, -⟩ ⟨rfl | rfl, hc', -⟩
    · rfl
    · exact absurd hc (by decide)
    · exact absurd hc' (by decide)
    · rfl
  · simp only [List.mem_cons, List.not_mem_nil, or_false]
    rintro c - m (rfl | rfl) hbest - c' (rfl | rfl) hc'
    · exact absurd hc' (by decide)
    · rfl
    · exact absurd hbest.1 (by decide)
    · exact absurd hbest.1 (by decide)

omit [Prost] in
/-- An add at the time of a compact state that does not list it: merged first it is deleted, merged last it is
    stored. -/
theorem link_tie_order_dependent :
    @mergeAll noProst (keyScan [sampleLinkKey]) (linkStore .legacy) (fun _ => ⟨1, 0⟩)
        [sampleLink .linkAdd 10 1, sampleCompactState [] 10 2] sampleLinkKey = none ∧
    @mergeAll noProst (keyScan [sampleLinkKey]) (linkStore .legacy) (fun _ => ⟨1, 0⟩)
        [sampleCompactState [] 10 2, sampleLink .linkAdd 10 1] sampleLinkKey =
      some (.message (sampleLink .linkAdd 10 1)) := by
  constructor <;> rfl

end Store

end Hypersnap
