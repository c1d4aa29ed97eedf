import Mathlib.Data.List.MinMax
import Mathlib.Data.Prod.Lex
import Hypersnap.Storage.Pages
import Hypersnap.Store.SignerIndex

/-!
# `Store.SignerOrder` — the signer index and the order of arrival

Signer events of one key may be merged in any order; the last word on chain should decide (`lastWord`). The
merge compares **blocks** only, so two events of one block are decided by their arrival, and a reset that
arrives before the event that added the key finds nothing. So the index is right in every order exactly if the
latest event that is no reset is alone in its block and no reset from its block on can find another Add
(`OrderFree`).
-/

namespace Hypersnap

open Overlay EState

/-! ## The last word on chain -/

namespace OnChainEvent

/-- Events in the order of the chain. -/
def chainOrder (e : OnChainEvent) : ℕ ×ₗ ℕ := toLex (e.blockNumber.toNat, e.logIndex.toNat)

/-- The event that decides a key: the latest one. A reset, if it is the latest, makes the key what the first
    Add made it; where nothing was added, there is nothing to reset. -/
def lastWord (events : List OnChainEvent) : Option OnChainEvent :=
  match events.argmax chainOrder with
  | some e =>
    if e.signerType = .adminReset then ((events.filter (·.signerType = .add)).argmin chainOrder).or
      ((events.filter (·.signerType ≠ .adminReset)).argmax chainOrder)
    else some e
  | none => none

/-- The latest event that is no reset is the only one of its block, and it is the only Add if there is a reset
    in its block or a later one. -/
def OrderFree (events : List OnChainEvent) : Prop :=
  ∀ m ∈ (events.filter (·.signerType ≠ .adminReset)).argmax chainOrder,
    (∀ x ∈ events, x.signerType ≠ .adminReset → x.blockNumber = m.blockNumber → x = m) ∧
    ((∃ r ∈ events, r.signerType = .adminReset ∧ m.blockNumber ≤ r.blockNumber) →
      ∀ x ∈ events, x.signerType = .add → x = m)

variable {e m x : OnChainEvent} {events : List OnChainEvent}

theorem block_le_of_chainOrder (h : e.chainOrder ≤ m.chainOrder) : e.blockNumber ≤ m.blockNumber := by
  rw [UInt32.le_iff_toNat_le]
  obtain hlt | ⟨heq, -⟩ := Prod.Lex.le_iff.1 h
  · exact hlt.le
  · exact heq.le

theorem place_eq_of_chainOrder (h : e.chainOrder = m.chainOrder) : e.place = m.place := by
  obtain ⟨hblock, hlog⟩ := Prod.mk.inj (toLex.injective h)
  exact Prod.ext (UInt32.toNat_inj.1 hblock) (UInt32.toNat_inj.1 hlog)

theorem of_mem_argmax (hm : m ∈ (events.filter (·.signerType ≠ .adminReset)).argmax chainOrder) :
    m ∈ events ∧ m.signerType ≠ .adminReset ∧
      ∀ x ∈ events, x.signerType ≠ .adminReset → x.chainOrder ≤ m.chainOrder := by
  obtain ⟨hmem, hreset⟩ := List.mem_filter.1 (List.argmax_mem hm)
  refine ⟨hmem, of_decide_eq_true hreset, fun x hx hreset => ?_⟩
  exact List.le_of_mem_argmax (List.mem_filter.2 ⟨hx, decide_eq_true hreset⟩) hm

/-- Where the order of arrival does not matter, the last word is the latest event that is no reset. -/
theorem OrderFree.lastWord_eq (hfree : OrderFree events) (hplaces : (events.map place).Nodup) :
    lastWord events = (events.filter (·.signerType ≠ .adminReset)).argmax chainOrder := by
  unfold lastWord
  cases hlatest : events.argmax chainOrder with
  | none =>
    rw [List.argmax_eq_none.1 hlatest]
    rfl
  | some e =>
    have he : e ∈ events := List.argmax_mem hlatest
    have hmax : ∀ x ∈ events, x.chainOrder ≤ e.chainOrder := fun x hx => List.le_of_mem_argmax hx hlatest
    dsimp only
    cases hm : (events.filter (·.signerType ≠ .adminReset)).argmax chainOrder with
    | none =>
      -- there are only resets
      have honly : ∀ x ∈ events, x.signerType = .adminReset := by
        intro x hx
        by_contra hreset
        have hx : x ∈ events.filter (·.signerType ≠ .adminReset) :=
          List.mem_filter.2 ⟨hx, decide_eq_true hreset⟩
        rw [List.argmax_eq_none.1 hm] at hx
        cases hx
      rw [if_pos (honly e he), Option.or_none, List.argmin_eq_none, List.filter_eq_nil_iff]
      intro x hx
      rw [honly x hx]
      decide
    | some m =>
      obtain ⟨hmem, hmreset, hmlast⟩ := of_mem_argmax hm
      split
      next hreset =>
        have hadds := (hfree m hm).2 ⟨e, he, hreset, block_le_of_chainOrder (hmax m hmem)⟩
        cases hadd : (events.filter (·.signerType = .add)).argmin chainOrder with
        | none => rfl
        | some y =>
          obtain ⟨hy, htype⟩ := List.mem_filter.1 (List.argmin_mem hadd)
          rw [Option.some_or, hadds y hy (of_decide_eq_true htype)]
      next hreset =>
        have hplace := place_eq_of_chainOrder (le_antisymm (hmlast e he hreset) (hmax m hmem))
        rw [List.inj_on_of_nodup_map hplaces he hmem hplace]

end OnChainEvent

/-! ## Orders of arrival -/

theorem Listed.merge [DbIterator] {fid : UInt64} {key : Bytes} {self : EventStore}
    {merged : List OnChainEvent} {e : OnChainEvent} (h : Listed fid self.view)
    (htracked : Tracked fid key merged self) (he : IsSignerEvent fid key e)
    (hnew : self.view (makeOnchainEventPrimaryKey e) = none) (conflictFree commits : Bool) :
    Listed fid (self.merge conflictFree (e, commits)).view := by
  obtain ⟨kept, hkept, -⟩ := htracked.index
  have hview : ∀ k, InSignerRange fid k → (self.merge conflictFree (e, commits)).view k =
      Function.update self.view (makeOnchainEventPrimaryKey e) (some (.onChainEvent e)) k := fun k hk =>
    EventStore.view_merge_records he hnew hkept hk.ne_hubEvents hk.ne_signerKey
  constructor
  · refine (h.finite.insert (makeOnchainEventPrimaryKey e)).subset fun k ⟨hk, hsome⟩ => ?_
    rw [hview k hk] at hsome
    by_cases heq : k = makeOnchainEventPrimaryKey e
    · exact .inl heq
    · rw [Function.update_of_ne heq] at hsome
      exact .inr ⟨hk, hsome⟩
  · intro k v hk hv
    rw [hview k hk] at hv
    by_cases heq : k = makeOnchainEventPrimaryKey e
    · rw [heq, Function.update_self] at hv
      exact ⟨e, (Option.some.inj hv).symm⟩
    · rw [Function.update_of_ne heq] at hv
      exact h.events k v hk hv

/-- New events of a key, at different places on chain. -/
structure NewEvents (fid : UInt64) (key : Bytes) (st : EventStore) (events : List OnChainEvent) : Prop where
  start : Tracked fid key [] st
  listed : Listed fid st.view
  signer : ∀ x ∈ events, IsSignerEvent fid key x
  places : (events.map OnChainEvent.place).Nodup
  new : ∀ x ∈ events, st.view (makeOnchainEventPrimaryKey x) = none

section orders
variable [DbIterator] {fid : UInt64} {key : Bytes} (conflictFree : Bool) {self : EventStore}
  {events : List OnChainEvent} {steps : List (OnChainEvent × Bool)} {m : OnChainEvent}

open OnChainEvent

omit [DbIterator] in
theorem NewEvents.run (h : NewEvents fid key self events) (hperm : (steps.map Prod.fst).Perm events) :
    SignerRun fid key self steps := by
  have hmem : ∀ step ∈ steps, step.1 ∈ events := fun step hs => hperm.subset (List.mem_map_of_mem hs)
  refine ⟨h.start, fun step hs => h.signer _ (hmem step hs), ?_, fun step hs => h.new _ (hmem step hs)⟩
  have hplaces := (hperm.map place).nodup_iff.2 h.places
  rw [List.map_map] at hplaces
  exact List.pairwise_map.1 hplaces

theorem SignerRun.listed (hrun : SignerRun fid key self steps) (h : Listed fid self.view) :
    Listed fid (self.mergeAll conflictFree steps).view := by
  induction steps using List.reverseRecOn with
  | nil => exact h
  | append_singleton steps step ih =>
    obtain ⟨he, htracked, hnew⟩ := hrun.before_last conflictFree
    rw [EventStore.mergeAll_concat]
    exact (ih (hrun.of_isPrefix (List.prefix_append _ _))).merge htracked he hnew conflictFree step.2

/-- What is in the database after a step: all of it, if the step commits. -/
theorem SignerRun.db_concat {step : OnChainEvent × Bool} (hrun : SignerRun fid key self (steps ++ [step])) :
    (self.mergeAll conflictFree (steps ++ [step])).db =
      if step.2 then (self.mergeAll conflictFree (steps ++ [step])).view
      else (self.mergeAll conflictFree steps).db := by
  obtain ⟨he, -, hnew⟩ := hrun.before_last conflictFree
  obtain ⟨b, hbody, -⟩ := he.body
  rw [EventStore.mergeAll_concat]
  exact (EventStore.merge_cases hbody hnew).2

/-- Once the latest event that is no reset is merged, the index stays at it. -/
theorem OnChainEvent.OrderFree.pointsTo (hfree : OrderFree events)
    (hm : m ∈ (events.filter (·.signerType ≠ .adminReset)).argmax chainOrder)
    (hrun : SignerRun fid key self steps) (hsub : ∀ x ∈ steps.map Prod.fst, x ∈ events)
    (hmem : m ∈ steps.map Prod.fst) :
    PointsTo (self.mergeAll conflictFree steps).view (makeSignerOnchainEventBySignerKey fid key)
    (some m) := by
  obtain ⟨-, hmreset, hlatest⟩ := of_mem_argmax hm
  obtain ⟨halone, hadds⟩ := hfree m hm
  induction steps using List.reverseRecOn with
  | nil => cases hmem
  | append_singleton steps step ih =>
    rw [List.map_append] at hsub hmem
    have hpre : ∀ x ∈ steps.map Prod.fst, x ∈ events := fun x hx => hsub x (List.mem_append_left _ hx)
    by_cases hstep : step.1 = m
    · rw [← hstep]
      refine hrun.last_wins conflictFree (hstep ▸ hmreset) fun x hx hreset => ?_
      exact hstep ▸ block_le_of_chainOrder (hlatest x (hpre x hx) hreset)
    · have hmem : m ∈ steps.map Prod.fst := (List.mem_append.1 hmem).resolve_right fun hx =>
        hstep (List.mem_singleton.1 hx).symm
      have he : step.1 ∈ events := hsub _ (List.mem_append_right _ (.head _))
      have hkept := ih (hrun.of_isPrefix (List.prefix_append _ _)) hpre hmem
      obtain ⟨hsigner, htracked, hnew⟩ := hrun.before_last conflictFree
      have hpoints := htracked.pointsTo_merge conflictFree step.2 hsigner hnew hkept
      rw [EventStore.mergeAll_concat]
      cases hmove : indexMove (self.mergeAll conflictFree steps).db key (some m) step.1 with
      | none =>
        rw [hmove] at hpoints
        exact hpoints
      | some x =>
        -- the entry moves: not to an event of an earlier block, and from a reset only to an Add
        rw [hmove] at hpoints
        suffices hx : x = m by
          rw [← hx]
          exact hpoints
        obtain ⟨hblock, ⟨rfl, hreset⟩ | ⟨hreset, hx, hadd⟩⟩ := htracked.of_indexMove hsigner hmove
        · have hle := block_le_of_chainOrder (hlatest _ he hreset)
          exact halone _ he hreset (UInt32.le_antisymm hle (hblock m rfl))
        · exact hadds ⟨step.1, he, hreset, hblock m rfl⟩ x (hpre x hx) hadd

theorem OnChainEvent.OrderFree.pointsTo_lastWord (hfree : OrderFree events)
    (h : NewEvents fid key self events) (hperm : (steps.map Prod.fst).Perm events) :
    PointsTo (self.mergeAll conflictFree steps).view (makeSignerOnchainEventBySignerKey fid key)
      (lastWord events) := by
  rw [hfree.lastWord_eq h.places]
  cases hm : (events.filter (·.signerType ≠ .adminReset)).argmax chainOrder with
  | some m =>
    exact hfree.pointsTo _ hm (h.run hperm) (fun x hx => hperm.subset hx)
      (hperm.mem_iff.2 (of_mem_argmax hm).1)
  | none =>
    -- there are only resets, and the index never points to one
    obtain ⟨kept, hkept, hmem⟩ := ((h.run hperm).tracked conflictFree).1.index
    cases kept with
    | none => exact hkept
    | some k =>
      obtain ⟨hk, hreset⟩ := hmem k rfl
      have hk : k ∈ events.filter (·.signerType ≠ .adminReset) :=
        List.mem_filter.2 ⟨hperm.subset hk, decide_eq_true hreset⟩
      rw [List.argmax_eq_none.1 hm] at hk
      cases hk

/-- The order in which an event arrives last. -/
def withLast (events : List OnChainEvent) (e : OnChainEvent) : List (OnChainEvent × Bool) :=
  (events.erase e).map (·, false) ++ [(e, false)]

omit [DbIterator] in
theorem withLast_perm {e : OnChainEvent} (he : e ∈ events) :
    ((withLast events e).map Prod.fst).Perm events := by
  have hfst : (withLast events e).map Prod.fst = events.erase e ++ [e] := by
    simp [withLast, Function.comp_def]
  rw [hfst]
  exact (List.perm_append_singleton e _).trans (List.perm_cons_erase he).symm

theorem NewEvents.pointsTo_withLast (h : NewEvents fid key self events) {e : OnChainEvent} (he : e ∈ events)
    (hreset : e.signerType ≠ .adminReset)
    (hmax : ∀ x ∈ events, x.signerType ≠ .adminReset → x.blockNumber ≤ e.blockNumber) :
    PointsTo (self.mergeAll conflictFree (withLast events e)).view (makeSignerOnchainEventBySignerKey fid key)
      (some e) := by
  refine (h.run (withLast_perm he)).last_wins _ hreset fun x hx => ?_
  simp only [List.map_map, Function.comp_def, List.map_id'] at hx
  exact hmax x (List.mem_of_mem_erase hx)

/-- The others are merged and committed, then `m` is merged, then a reset: it finds one of the others. -/
theorem NewEvents.pointsTo_reset [DbIterator.Exact] (h : NewEvents fid key self events)
    {others : List OnChainEvent} {r y : OnChainEvent} (hperm : (others ++ [m] ++ [r]).Perm events)
    (hm : m.signerType ≠ .adminReset)
    (hmax : ∀ x ∈ events, x.signerType ≠ .adminReset → x.blockNumber ≤ m.blockNumber)
    (hr : r.signerType = .adminReset) (hblock : m.blockNumber ≤ r.blockNumber) (hy : y ∈ others)
    (hadd : y.signerType = .add) :
    ∃ x ∈ others,
      PointsTo (self.mergeAll conflictFree (others.map (·, true) ++ [(m, false)] ++ [(r, false)])).view
      (makeSignerOnchainEventBySignerKey fid key) (some x) := by
  have hothers : ∀ x ∈ others, x ∈ events := fun x hx => hperm.subset (by simp [hx])
  have hrun : SignerRun fid key self (others.map (·, true) ++ [(m, false)] ++ [(r, false)]) :=
    h.run (by simpa [Function.comp_def] using hperm)
  have hrun₂ := hrun.of_isPrefix (List.prefix_append _ _)
  have hrun₁ := hrun₂.of_isPrefix (List.prefix_append _ _)
  obtain ⟨hrsigner, htracked₂, hrnew⟩ := hrun.before_last conflictFree
  obtain ⟨-, htracked₁, -⟩ := hrun₂.before_last conflictFree
  have hfst : (others.map (·, true)).map Prod.fst = others := by simp [Function.comp_def]
  rw [hfst] at htracked₁
  -- the others are in the database
  have hdb₁ : (self.mergeAll conflictFree (others.map (·, true))).db =
      (self.mergeAll conflictFree (others.map (·, true))).view := by
    obtain rfl | ⟨front, z, rfl⟩ := others.eq_nil_or_concat
    · cases hy
    · rw [List.concat_eq_append, List.map_append] at hrun₁ ⊢
      exact hrun₁.db_concat conflictFree
  -- and nothing else is when the reset arrives
  have hdb₂ : (self.mergeAll conflictFree (others.map (·, true) ++ [(m, false)])).db =
      (self.mergeAll conflictFree (others.map (·, true))).db := hrun₂.db_concat conflictFree
  have hmkept := hrun₂.last_wins conflictFree hm fun x hx =>
    hmax x (hothers x (hfst ▸ hx))
  obtain ⟨x, hfind⟩ : ∃ x, findSignerAdd (self.mergeAll conflictFree (others.map (·, true))).db fid key =
      .ok (some x) := by
    have hysigner := h.signer y (hothers y hy)
    have hyrange : InSignerRange fid (makeOnchainEventPrimaryKey y) := by
      unfold makeOnchainEventPrimaryKey
      rw [hysigner.type, hysigner.fid, List.append_assoc]
      exact inRange_of_isPrefix (by decide) (List.prefix_append _ _)
    have hlisted := hrun₁.listed conflictFree h.listed
    rw [← hdb₁] at hlisted
    refine exists_findSignerAdd hlisted hyrange (by rw [hdb₁]; exact htracked₁.stored y hy) ?_
    exact addsKey_iff.2 ⟨hadd, hysigner.signerKey⟩
  obtain ⟨k, hrange, hdb, -, hkey⟩ := stored_of_findSignerAdd hfind
  refine ⟨x, htracked₁.known k x hrange (.inl hdb) hkey, ?_⟩
  have hpoints := htracked₂.pointsTo_merge conflictFree false hrsigner hrnew hmkept
  have hmove :
      indexMove (self.mergeAll conflictFree (others.map (·, true) ++ [(m, false)])).db key (some m) r =
      some x := by
    rw [hdb₂, indexMove, if_neg (by simpa using hblock), if_pos hr, hrsigner.fid, hfind]
    rfl
  rw [hmove] at hpoints
  rw [EventStore.mergeAll_concat]
  exact hpoints

/-- **The signer index is right in every order** of a set of events of a key, resets among them, exactly if
    the latest event that is no reset is the only such event of its block and, if there is a reset in its
    block or later, the only Add: it points to the last word on chain then, however the events arrive and
    wherever the batch is committed in between. -/
theorem signerIndex_orderFree_iff [DbIterator.Exact] (h : NewEvents fid key self events) :
    (∀ steps : List (OnChainEvent × Bool), (steps.map Prod.fst).Perm events →
      (self.mergeAll conflictFree steps).view (makeSignerOnchainEventBySignerKey fid key) =
          (lastWord events).map (fun e => .bytes (makeOnchainEventPrimaryKey e)) ∧
        (self.mergeAll conflictFree steps).activeSigner fid key =
          .ok ((lastWord events).bind OnChainEvent.asActiveSigner)) ↔ OrderFree events := by
  constructor
  · intro hright m hm
    obtain ⟨hmem, hmreset, hlatest⟩ := of_mem_argmax hm
    have hblocks := fun x hx hreset => block_le_of_chainOrder (hlatest x hx hreset)
    -- all orders end where the one does that has `m` last
    have hend : ∀ {steps x}, (steps.map Prod.fst).Perm events → x ∈ events →
        PointsTo (self.mergeAll conflictFree steps).view
        (makeSignerOnchainEventBySignerKey fid key) (some x) →
          x = m := by
      intro steps x hperm hx hpoints
      have hlast := (h.pointsTo_withLast conflictFree hmem hmreset hblocks).1
      have hkeys := (hpoints.1.symm.trans (hright steps hperm).1).trans
        ((hright _ (withLast_perm hmem)).1.symm.trans hlast)
      exact List.inj_on_of_nodup_map h.places hx hmem
        (place_eq_of_primaryKey_eq (h.signer x hx) (h.signer m hmem)
          (DbValue.bytes.inj (Option.some.inj hkeys)))
    refine ⟨fun x hx hreset hblock => ?_, ?_⟩
    · exact hend (withLast_perm hx) hx (h.pointsTo_withLast _ hx hreset (hblock ▸ hblocks))
    · rintro ⟨r, hr, hrtype, hblock⟩ y hy hadd
      by_contra hne
      have hrm : r ≠ m := fun heq => hmreset (heq ▸ hrtype)
      have hyr : y ≠ r := fun heq => by rw [heq, hrtype] at hadd; cases hadd
      have hperm : ((events.erase r).erase m ++ [m] ++ [r]).Perm events :=
        (((List.perm_append_singleton m _).trans
          (List.perm_cons_erase ((List.mem_erase_of_ne hrm.symm).2 hmem)).symm).append_right _).trans
            ((List.perm_append_singleton r _).trans (List.perm_cons_erase hr).symm)
      obtain ⟨x, hx, hpoints⟩ := h.pointsTo_reset conflictFree hperm hmreset hblocks hrtype hblock
        ((List.mem_erase_of_ne hne).2 ((List.mem_erase_of_ne hyr).2 hy)) hadd
      have hnodup : (events.erase r).Nodup := (List.Nodup.of_map _ h.places).erase r
      refine (hnodup.mem_erase_iff.1 hx).1
        (hend ?_ (List.mem_of_mem_erase (List.mem_of_mem_erase hx)) hpoints)
      simpa [Function.comp_def] using hperm
  · intro hfree steps hperm
    have hpoints := hfree.pointsTo_lastWord conflictFree h hperm
    exact ⟨hpoints.view_eq, EventStore.activeSigner_of_pointsTo hpoints⟩

end orders

/-- A key that is removed, reset and added again is active, also if the Add arrives first and the Remove
    last. -/
theorem signerIndex_orderFree_reset :
    let _ := sortedScan
    let remove := sampleSignerEvent .remove 5 0
    let reset := sampleSignerEvent .adminReset 7 0
    let add := sampleSignerEvent .add 9 0
    (emptyEventStore.mergeAll true [(remove, true), (reset, false), (add, true)]).activeSigner 1 [7] =
      .ok (some add) ∧
      (emptyEventStore.mergeAll true [(add, true), (reset, true), (remove, false)]).activeSigner 1 [7] =
        .ok (some add) := by
  intro iterator remove reset add
  have _ : DbIterator.Exact := sortedScan_exact
  have hempty : {k | InSignerRange 1 k ∧ (emptyEventStore.view k).isSome} = ∅ :=
    Set.eq_empty_of_forall_notMem fun k hk => nomatch hk.2
  have hnew : NewEvents 1 [7] emptyEventStore [remove, reset, add] := by
    refine ⟨emptyEventStore_tracked 1 [7],
      ⟨hempty ▸ Set.finite_empty, fun _ _ _ hv => nomatch hv⟩, ?_, by decide,
      fun _ _ => rfl⟩
    intro x hx
    simp only [List.mem_cons, List.not_mem_nil, or_false] at hx
    obtain rfl | rfl | rfl := hx <;> exact ⟨rfl, rfl, _, rfl, rfl⟩
  have hfree : OnChainEvent.OrderFree [remove, reset, add] := by
    unfold OnChainEvent.OrderFree
    decide
  have hword : OnChainEvent.lastWord [remove, reset, add] = some add := by decide
  have hright := (signerIndex_orderFree_iff true hnew).2 hfree
  rw [hword] at hright
  exact ⟨(hright _ (List.Perm.refl _)).2, (hright _ (by decide)).2⟩

/-- The events of one block, in the two orders, leave the key removed or active. So do, with a reset, events
    of three blocks that are merged and committed in order, or with the reset first. -/
theorem signerIndex_depends_on_order :
    let _ := keyScan (List.map makeOnchainEventPrimaryKey
      [sampleSignerEvent .add 5 0, sampleSignerEvent .remove 6 0, sampleSignerEvent .adminReset 7 0])
    let add := sampleSignerEvent .add 5 0
    let remove := sampleSignerEvent .remove 5 1
    let laterRemove := sampleSignerEvent .remove 6 0
    let reset := sampleSignerEvent .adminReset 7 0
    let signer := fun steps => ((emptyEventStore.mergeAll true steps).activeSigner 1 [7]).toOption
    (signer [(add, true), (remove, true)] = some none ∧
      signer [(remove, true), (add, true)] = some (some add)) ∧
      signer [(add, true), (laterRemove, true), (reset, true)] = some (some add) ∧
      signer [(reset, true), (add, true), (laterRemove, true)] = some none := by
  decide +kernel

end Hypersnap
