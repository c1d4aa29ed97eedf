import Hypersnap.Store.SignerIndex

/-!
# `Store.SignerRemoval` — a removed signer that comes back

The rule that a removed key is not added again reads the type of the **new** event where it means the indexed
one, so it never applies. Signer events of one key that are merged in the order of the chain, resets among
them, always move the index to the event merged last, or, at a reset, to an event that added the key. So a
removal is final exactly if no event that adds the key follows it before the next reset
(`signerRemoval_final_iff`).
-/

namespace Hypersnap

open Overlay EState

namespace OnChainEvent

/-- The event is earlier on chain than another one. -/
def Before (e e' : OnChainEvent) : Prop :=
  e.blockNumber < e'.blockNumber ∨ e.blockNumber = e'.blockNumber ∧ e.logIndex < e'.logIndex

theorem Before.block_le {e e' : OnChainEvent} (h : e.Before e') : e.blockNumber ≤ e'.blockNumber := by
  obtain hlt | ⟨heq, -⟩ := h
  · exact UInt32.le_of_lt hlt
  · exact heq ▸ UInt32.le_refl _

theorem Before.place_ne {e e' : OnChainEvent} (h : e.Before e') : e.place ≠ e'.place := by
  intro heq
  obtain ⟨hblock, hlog⟩ := Prod.mk.inj heq
  obtain hlt | ⟨-, hlt⟩ := h
  · exact UInt32.lt_irrefl _ (hblock ▸ hlt)
  · exact UInt32.lt_irrefl _ (hlog ▸ hlt)

end OnChainEvent

/-- A history of a key: its signer events, new and in the order of the chain, on a store that has none of
    them. -/
structure SignerHistory (fid : UInt64) (key : Bytes) (st : EventStore) (steps : List (OnChainEvent × Bool)) :
    Prop where
  start : Tracked fid key [] st
  events : ∀ step ∈ steps, IsSignerEvent fid key step.1
  ordered : steps.Pairwise fun a b => a.1.Before b.1
  new : ∀ step ∈ steps, st.view (makeOnchainEventPrimaryKey step.1) = none

namespace SignerHistory
variable {fid : UInt64} {key : Bytes} {self : EventStore} {steps pre : List (OnChainEvent × Bool)}

theorem of_isPrefix (h : SignerHistory fid key self steps) (hpre : pre <+: steps) :
    SignerHistory fid key self pre :=
  ⟨h.start, fun step hs => h.events step (hpre.subset hs), h.ordered.sublist hpre.sublist,
    fun step hs => h.new step (hpre.subset hs)⟩

theorem run (h : SignerHistory fid key self steps) : SignerRun fid key self steps :=
  ⟨h.start, h.events, h.ordered.imp fun hab => hab.place_ne, h.new⟩

end SignerHistory

section final

variable [DbIterator] {fid : UInt64} {key : Bytes} {conflictFree : Bool} {self : EventStore}

/-- After a removal and events that are no resets, the key is what the last of them makes of it. -/
theorem activeSigner_after_removal {pre after : List (OnChainEvent × Bool)} {remove : OnChainEvent × Bool}
    (h : SignerHistory fid key self (pre ++ remove :: after)) (hremove : remove.1.signerType = .remove)
    (hreset : ∀ step ∈ after, step.1.signerType ≠ .adminReset) :
    (self.mergeAll conflictFree (pre ++ remove :: after)).activeSigner fid key =
      .ok (((remove :: after).getLast (by simp)).1.asActiveSigner) := by
  obtain ⟨front, last, hlast⟩ : ∃ front last, remove :: after = front ++ [last] :=
    ⟨_, _, (List.dropLast_append_getLast (List.cons_ne_nil remove after)).symm⟩
  have hreset : last.1.signerType ≠ .adminReset := by
    have hmem : last ∈ remove :: after := hlast ▸ List.mem_append_right _ (.head _)
    obtain rfl | hmem := List.mem_cons.1 hmem
    · simp [hremove]
    · exact hreset last hmem
  simp only [hlast, List.getLast_append_singleton]
  rw [hlast, ← List.append_assoc] at h
  rw [← List.append_assoc]
  refine EventStore.activeSigner_of_pointsTo (h.run.last_wins _ hreset fun x hx _ => ?_)
  obtain ⟨step, hstep, rfl⟩ := List.mem_map.1 hx
  exact ((List.pairwise_append.1 h.ordered).2.2 step hstep last (.head _)).block_le

/-- **Removals are final** in a history exactly if no event that makes the key active follows one of them
    before the next reset: once a removal is merged, the key is not reported active until a reset is. -/
theorem signerRemoval_final_iff {steps : List (OnChainEvent × Bool)} (h : SignerHistory fid key self steps) :
    (∀ pre remove after, pre ++ remove :: after <+: steps → remove.1.signerType = .remove →
      (∀ step ∈ after, step.1.signerType ≠ .adminReset) →
        (self.mergeAll conflictFree (pre ++ remove :: after)).activeSigner fid key = .ok none) ↔
    ∀ pre remove after, pre ++ remove :: after <+: steps → remove.1.signerType = .remove →
      (∀ step ∈ after, step.1.signerType ≠ .adminReset) → ∀ step ∈ after, step.1.asActiveSigner = none := by
  have hremoved : ∀ {e : OnChainEvent}, e.signerType = .remove → e.asActiveSigner = none := by
    intro e he
    unfold OnChainEvent.signerType at he
    unfold OnChainEvent.asActiveSigner
    split at he
    next body hbody => simp [he]
    · cases he
  constructor
  · intro hfinal pre remove after hpre hremove hreset step hstep
    -- the history up to the event in question
    obtain ⟨mid, post, rfl⟩ := List.append_of_mem hstep
    have hupto : pre ++ remove :: (mid ++ [step]) <+: steps := by
      refine List.IsPrefix.trans ?_ hpre
      exact ⟨post, by simp⟩
    have hmid : ∀ s ∈ mid ++ [step], s.1.signerType ≠ .adminReset := fun s hs =>
      hreset s (by
        obtain hs | hs := List.mem_append.1 hs
        · exact List.mem_append_left _ hs
        · exact List.mem_append_right _ (List.mem_singleton.1 hs ▸ .head _))
    have hactive := hfinal pre remove _ hupto hremove hmid
    rw [activeSigner_after_removal (h.of_isPrefix hupto) hremove hmid] at hactive
    simpa using Except.ok.inj hactive
  · intro hnone pre remove after hpre hremove hreset
    rw [activeSigner_after_removal (h.of_isPrefix hpre) hremove hreset]
    have hlast := List.getLast_mem (l := remove :: after) (by simp)
    obtain heq | hmem := List.mem_cons.1 hlast
    · rw [heq, hremoved hremove]
    · rw [hnone pre remove after hpre hremove hreset _ hmem]

end final

/-! ## A key that comes back -/

theorem sampleSignerHistory {steps : List (OnChainEvent × Bool)}
    (hevents : ∀ step ∈ steps, IsSignerEvent 1 [7] step.1)
    (hordered : steps.Pairwise fun a b => a.1.Before b.1) : SignerHistory 1 [7] emptyEventStore steps :=
  ⟨emptyEventStore_tracked 1 [7], hevents, hordered, fun _ _ => rfl⟩

/-- A key that is added in block 5 and removed in block 6 stays removed. -/
theorem signerRemoval_final_addRemove :
    let _ := keyScan []
    let add := sampleSignerEvent .add 5 0
    let remove := sampleSignerEvent .remove 6 0
    (emptyEventStore.mergeAll true [(add, true), (remove, true)]).activeSigner 1 [7] = .ok none := by
  intro iterator add remove
  have hhistory : SignerHistory 1 [7] emptyEventStore [(add, true), (remove, true)] := by
    refine sampleSignerHistory (fun step hs => ?_) ?_
    · obtain rfl | rfl := List.mem_pair.1 hs <;> exact ⟨rfl, rfl, _, rfl, rfl⟩
    · exact List.pairwise_pair.2 (.inl (by decide))
  refine (signerRemoval_final_iff hhistory).2 ?_ [(add, true)] (remove, true) [] List.prefix_rfl rfl
    (fun _ hs => nomatch hs)
  rintro pre r after ⟨post, hpost⟩ hr _ step hstep
  cases pre with
  | nil =>
    obtain rfl := (List.cons.inj hpost).1
    cases hr
  | cons x pre =>
    have hlen := congrArg List.length (List.cons.inj hpost).2
    have hpos := List.length_pos_of_mem hstep
    simp only [List.append_eq, List.length_append, List.length_cons, List.length_nil] at hlen
    omega

/-- Added again in block 7, without a reset, the key is active again. -/
theorem signerRemoval_undone :
    let _ := keyScan []
    let steps :=
      [(sampleSignerEvent .add 5 0, true), (sampleSignerEvent .remove 6 0, true),
        (sampleSignerEvent .add 7 0, true)]
    SignerHistory 1 [7] emptyEventStore steps ∧
      ((emptyEventStore.mergeAll true steps).activeSigner 1 [7]).toOption =
      some (some (sampleSignerEvent .add 7 0)) := by
  refine ⟨sampleSignerHistory (fun step hs => ?_) ?_, by decide +kernel⟩
  · simp only [List.mem_cons, List.not_mem_nil, or_false] at hs
    obtain rfl | rfl | rfl := hs <;> exact ⟨rfl, rfl, _, rfl, rfl⟩
  · refine List.pairwise_cons.2 ⟨fun b hb => ?_, List.pairwise_pair.2 (.inl (by decide))⟩
    obtain rfl | rfl := List.mem_pair.1 hb <;> exact .inl (by decide)

end Hypersnap
