import Hypersnap.Lib.Staging
import Hypersnap.Store.Effects

/-!
# `Store.Atomicity` — what a failed merge leaves behind

A merge looks first and writes afterwards: it finds the messages that give way, and then stages their
deletion, the message and its event in this order. Every one of these steps may still fail, and nothing is
undone. `mergeScript` lists the steps in between with their writes, for any store; `merge_atomic_iff` says
when a merge that fails has changed nothing.
-/

namespace Hypersnap

open Overlay EState

variable {m : Message} {tsHash : Bytes}

/-! ## Running a script -/

def StoreState.writeAll (s : StoreState) (ws : List (Bytes × Option DbValue)) : StoreState :=
  { s with txn := s.txn.writeAll ws }

abbrev StoreScript := Script Failure Bytes DbValue

def runScript : StoreScript → StoreM Unit
  | [] => pure ()
  | step :: rest => do
    let ws ← fromExcept step
    modify (·.writeAll ws)
    runScript rest

theorem runScript_eq (script : StoreScript) (s : StoreState) : runScript script s = match script.failure with
      | none => .ok () (s.writeAll script.writes)
      | some e => .error e (s.writeAll script.writes) := by
  induction script generalizing s with
  | nil => rfl
  | cons step rest ih =>
    cases step with
    | error e => rfl
    | ok ws =>
      have hstep : runScript (.ok ws :: rest) s = runScript rest (s.writeAll ws) := rfl
      have hwrites :
          (s.writeAll ws).writeAll (Script.writes rest) = s.writeAll (ws ++ Script.writes rest) := by
        simp only [StoreState.writeAll, writeAll_append]
      rw [hstep, ih, hwrites]
      rfl

theorem runScript_append (a b : StoreScript) : runScript (a ++ b) = (do runScript a; runScript b) := by
  induction a with
  | nil => rfl
  | cons step rest ih =>
    rw [List.cons_append, runScript, ih]
    simp only [runScript, bind_assoc]

theorem writeAll_deletes (s : StoreState) (keys : List Bytes) :
    s.writeAll (keys.map (·, none)) = s.deleteAll keys := by
  induction keys generalizing s with
  | nil => rfl
  | cons k keys ih => exact ih (s.delete k)

theorem writeAll_puts (s : StoreState) (entries : List (Bytes × DbValue)) :
    s.writeAll (entries.map fun e => (e.1, some e.2)) = s.putAll entries := by
  induction entries generalizing s with
  | nil => rfl
  | cons e entries ih => exact ih (s.put e.1 e.2)

namespace Store

variable (self : Store)

/-! ## The steps of a merge -/

def deleteStep (key : Except Failure Bytes) : Except Failure (List (Bytes × Option DbValue)) :=
  key.map fun k => [(k, none)]

def putStep (value : DbValue) (key : Except Failure Bytes) : Except Failure (List (Bytes × Option DbValue)) :=
  key.map fun k => [(k, some value)]

/-- The key of a compact state, in a store that has them. -/
def compactStateKey (m : Message) : Except Failure Bytes :=
  if self.storeDef.compactStateTypeSupported then self.storeDef.makeCompactStateAddKey m self.stateContext
  else .error (.hub (.validationFailure "compact state type not supported"))

def deleteAddScript (tsHash : Bytes) (m : Message) : StoreScript :=
  [(self.storeDef.secondaryIndexKeys tsHash m self.stateContext).map fun keys => keys.map (·, none),
    deleteStep (self.storeDef.makeAddKey m self.stateContext), deleteStep (primaryKeyOf self.userPrefix m)]

def deleteScript (m : Message) : StoreScript :=
  (if self.storeDef.isCompactStateType m then [deleteStep (self.compactStateKey m)]
    else if self.storeDef.isAddType m then
      match messageTsHash m with
      | .ok tsHash => self.deleteAddScript tsHash m
      | .error e => [.error e]
    else []) ++
  if self.storeDef.removeTypeSupported && self.storeDef.isRemoveType m then
    [deleteStep (self.storeDef.makeRemoveKey m self.stateContext),
      deleteStep (primaryKeyOf self.userPrefix m)]
  else []

def putScript (tsHash : Bytes) (m : Message) : StoreScript :=
  if self.storeDef.isCompactStateType m then [putStep (messageEncode m) (self.compactStateKey m)]
  else if self.storeDef.isAddType m then
    [putStep (messageEncode m) (primaryKeyOf self.userPrefix m),
      putStep (.bytes tsHash) (self.storeDef.makeAddKey m self.stateContext),
      (self.storeDef.secondaryIndices tsHash m self.stateContext).map fun es =>
      es.map fun e => (e.1, some e.2)]
  else
    [if self.storeDef.removeTypeSupported then putStep (messageEncode m) (primaryKeyOf self.userPrefix m)
      else .error (.hub (.validationFailure "remove type not supported")),
      putStep (.bytes tsHash) (self.storeDef.makeRemoveKey m self.stateContext)]

theorem runScript_deleteStep (key : Except Failure Bytes) (rest : StoreScript) :
    runScript (deleteStep key :: rest) = (do txnDelete (← fromExcept key); runScript rest) := by
  cases key <;> rfl

theorem runScript_putStep (value : DbValue) (key : Except Failure Bytes) (rest : StoreScript) :
    runScript (putStep value key :: rest) = (do txnPut (← fromExcept key) value; runScript rest) := by
  cases key <;> rfl

theorem deleteCompactStateTransaction_eq_runScript (m : Message) :
    self.deleteCompactStateTransaction m = runScript [deleteStep (self.compactStateKey m)] := by
  unfold deleteCompactStateTransaction compactStateKey
  cases self.storeDef.compactStateTypeSupported with
  | false => rfl
  | true => cases self.storeDef.makeCompactStateAddKey m self.stateContext <;> rfl

theorem deleteAddTransaction_eq_runScript (tsHash : Bytes) (m : Message) :
    self.deleteAddTransaction tsHash m = runScript (self.deleteAddScript tsHash m) := by
  unfold deleteAddTransaction deleteAddScript deleteSecondaryIndices deleteMessageTransaction
  rw [runScript, runScript_deleteStep, runScript_deleteStep]
  cases self.storeDef.secondaryIndexKeys tsHash m self.stateContext with
  | error e => rfl
  | ok keys =>
    have hkeys : (modify (·.writeAll (keys.map (·, none))) : StoreM Unit) = modify (·.deleteAll keys) := by
      funext s
      exact congrArg (EStateM.Result.ok _) (writeAll_deletes s keys)
    simp only [Except.map, fromExcept, hkeys, pure_bind, runScript, bind_pure_unit]

theorem deleteRemoveTransaction_eq_runScript (m : Message) (h : self.storeDef.removeTypeSupported = true) :
    self.deleteRemoveTransaction m =
      runScript [deleteStep (self.storeDef.makeRemoveKey m self.stateContext),
        deleteStep (primaryKeyOf self.userPrefix m)] := by
  unfold deleteRemoveTransaction deleteMessageTransaction
  rw [runScript_deleteStep, runScript_deleteStep]
  simp only [h, runScript]
  rfl

theorem deleteTransaction_eq_runScript (m : Message) :
    self.deleteTransaction m = runScript (self.deleteScript m) := by
  unfold deleteTransaction deleteScript
  rw [runScript_append]
  have hremove :
      (if self.storeDef.removeTypeSupported && self.storeDef.isRemoveType m then
        self.deleteRemoveTransaction m
      else pure ()) =
      runScript (if self.storeDef.removeTypeSupported && self.storeDef.isRemoveType m then
        [deleteStep (self.storeDef.makeRemoveKey m self.stateContext),
          deleteStep (primaryKeyOf self.userPrefix m)]
      else []) := by
    split
    · next h => exact self.deleteRemoveTransaction_eq_runScript m (Bool.and_eq_true_iff.1 h).1
    · rfl
  rw [← hremove]
  generalize (if self.storeDef.removeTypeSupported && self.storeDef.isRemoveType m then _
    else _ : StoreM Unit) = remove
  cases self.storeDef.isCompactStateType m with
  | true => simp only [if_true, deleteCompactStateTransaction_eq_runScript]
  | false =>
    cases self.storeDef.isAddType m with
    | false => rfl
    | true =>
      simp only [if_true, Bool.false_eq_true, if_false, deleteAddTransaction_eq_runScript]
      cases messageTsHash m <;> rfl

theorem deleteManyTransaction_eq_runScript (ms : List Message) :
    self.deleteManyTransaction ms = runScript (ms.flatMap self.deleteScript) := by
  induction ms with
  | nil => rfl
  | cons m ms ih =>
    rw [deleteManyTransaction, List.flatMap_cons, runScript_append, ih, deleteTransaction_eq_runScript]

section lookup

variable [Prost] [DbIterator] (db : RocksDB) (txn : RocksDbTransactionBatch) (m : Message)

/-- The messages that a compact state replaces. -/
def lookupCompacted : Except Failure (List Message) := do
  let superseded ← self.supersededCompactState db txn m
  let (fid, timestamp, targetFids) ← readCompactStateDetails m
  let compacted ← self.compactedBy timestamp targetFids (self.scanUser db fid)
  .ok (superseded ++ compacted)

/-- The messages that give way to an add or a remove. -/
def lookupConflicts (tsHash : Bytes) : Except Failure (List Message) := do
  if self.storeDef.isAddType m then self.checkCompactStateForAdd db txn m
  else self.checkCompactStateForRemove db txn m
  if self.conflictFree then .ok [] else self.storeDef.getMergeConflicts db txn m tsHash self.stateContext

/-- **What a merge finds out before it writes**: the `tsHash` of the message and the messages that give way to
    it. -/
def lookup : Except Failure (Bytes × List Message) := do
  if !self.storeDef.isAddType m
      && !(self.storeDef.removeTypeSupported && self.storeDef.isRemoveType m)
      && !(self.storeDef.compactStateTypeSupported && self.storeDef.isCompactStateType m) then
    .error (.hub (.validationFailure "invalid message type"))
  else
    let tsHash ← messageTsHash m
    let conflicts ← if self.storeDef.isCompactStateType m then self.lookupCompacted db txn m
      else self.lookupConflicts db txn m tsHash
    .ok (tsHash, conflicts)

end lookup

/-- The steps between the lookup and the event. -/
def mergeScript (tsHash : Bytes) (m : Message) (conflicts : List Message) : StoreScript :=
  conflicts.flatMap self.deleteScript ++ self.putScript tsHash m

/-- The merge of a compact state always numbers its event. -/
def numbersEvent (m : Message) : Bool := self.storeDef.isCompactStateType m || self.saveHubEvents

/-- The last step: number the event and stage it. -/
def finishMerge (m : Message) (conflicts : List Message) : StoreM HubEvent :=
  let event := HubEvent.new (self.storeDef.mergeEventArgs m conflicts)
  if self.numbersEvent m then commitTransaction self.noPersist event else pure event

/-- What follows the lookup. -/
def stageMerge (tsHash : Bytes) (m : Message) (conflicts : List Message) : StoreM HubEvent := do
  runScript (self.mergeScript tsHash m conflicts)
  self.finishMerge m conflicts

theorem stageMerge_eq {put : StoreM Unit} (hput : put = runScript (self.putScript tsHash m))
    (conflicts : List Message) :
    self.stageMerge tsHash m conflicts =
      (do self.deleteManyTransaction conflicts; put; self.finishMerge m conflicts) := by
  rw [stageMerge, hput, mergeScript, runScript_append, deleteManyTransaction_eq_runScript, bind_assoc]

theorem putScript_compact (h : self.storeDef.isCompactStateType m = true) (tsHash : Bytes) :
    self.putAddCompactStateTransaction m = runScript (self.putScript tsHash m) := by
  unfold putAddCompactStateTransaction putScript compactStateKey
  rw [if_pos h]
  cases self.storeDef.compactStateTypeSupported with
  | false => rfl
  | true => cases self.storeDef.makeCompactStateAddKey m self.stateContext <;> rfl

theorem putScript_add (h : self.storeDef.isCompactStateType m = false)
    (hadd : self.storeDef.isAddType m = true) (tsHash : Bytes) :
    self.putAddTransaction tsHash m = runScript (self.putScript tsHash m) := by
  unfold putAddTransaction putScript putMessageTransaction buildSecondaryIndices
  rw [if_neg (by simp [h]), if_pos hadd, runScript_putStep, runScript_putStep]
  simp only [bind_assoc, runScript]
  cases self.storeDef.secondaryIndices tsHash m self.stateContext with
  | error e => rfl
  | ok es =>
    have hes : (modify (·.writeAll (es.map fun e => (e.1, some e.2))) : StoreM Unit) =
        modify (·.putAll es) := by
      funext s
      exact congrArg (EStateM.Result.ok _) (writeAll_puts s es)
    simp only [Except.map, fromExcept, hes, pure_bind, bind_pure_unit]

theorem putScript_remove (h : self.storeDef.isCompactStateType m = false)
    (hadd : self.storeDef.isAddType m = false) (tsHash : Bytes) :
    self.putRemoveTransaction tsHash m = runScript (self.putScript tsHash m) := by
  simp only [putRemoveTransaction, putScript, putMessageTransaction, h, hadd, Bool.false_eq_true, if_false]
  cases self.storeDef.removeTypeSupported with
  | false => rfl
  | true =>
    simp only [if_true]
    rw [runScript_putStep, runScript_putStep]
    simp only [bind_assoc, runScript, bind_pure_unit]

section merging

variable [Prost] [DbIterator] {conflicts : List Message}

theorem mergeCompactState_eq (db : RocksDB) (h : self.storeDef.isCompactStateType m = true) (tsHash : Bytes)
    (s : StoreState) : self.mergeCompactState db m s =
      match self.lookupCompacted db s.txn m with
      | .error e => .error e s
      | .ok conflicts => self.stageMerge tsHash m conflicts s := by
  have hstage : ∀ conflicts, self.stageMerge tsHash m conflicts = (do
      self.deleteManyTransaction conflicts
      self.putAddCompactStateTransaction m
      commitTransaction self.noPersist (HubEvent.new (self.storeDef.mergeEventArgs m conflicts))) :=
        fun conflicts => by
    simp [self.stageMerge_eq (self.putScript_compact h tsHash), finishMerge, numbersEvent, h]
  unfold mergeCompactState lookupCompacted
  rw [bind_of_ok (show (get : StoreM StoreState) s = .ok s s from rfl)]
  simp only [hstage]
  cases self.supersededCompactState db s.txn m with
  | error e => rfl
  | ok superseded =>
    cases readCompactStateDetails m with
    | error e => rfl
    | ok details =>
      obtain ⟨fid, timestamp, targetFids⟩ := details
      change (fromExcept (self.compactedBy timestamp targetFids (self.scanUser db fid)) >>= _) s = _
      cases hcompacted : self.compactedBy timestamp targetFids (self.scanUser db fid) with
      | error e => simp only [bind, Except.bind, hcompacted]; rfl
      | ok compacted => simp only [bind, Except.bind, hcompacted]; rfl

omit [DbIterator] in
/-- The two merges that look for conflicts differ in the check against a compact state and in what they
    store. -/
theorem conflictMerge_eq (db : RocksDB) (h : self.storeDef.isCompactStateType m = false) {put : StoreM Unit}
    (hput : put = runScript (self.putScript tsHash m)) {check : Except Failure Unit} (s : StoreState) :
    (do fromExcept check
        let conflicts ← self.resolveConflicts db tsHash m
        put
        self.mergeEvent m conflicts) s =
      match (do
          check
          if self.conflictFree then .ok []
          else self.storeDef.getMergeConflicts db s.txn m tsHash self.stateContext :
        Except Failure (List Message)) with
      | .error e => .error e s
      | .ok conflicts => self.stageMerge tsHash m conflicts s := by
  have hstage : ∀ conflicts, self.stageMerge tsHash m conflicts = (do
      self.deleteManyTransaction conflicts
      put
      self.mergeEvent m conflicts) := fun conflicts => by
    simp [self.stageMerge_eq hput, finishMerge, numbersEvent, mergeEvent, h]
  simp only [hstage, resolveConflicts]
  cases check with
  | error e => rfl
  | ok =>
    cases self.conflictFree with
    | true => rfl
    | false =>
      simp only [Bool.false_eq_true, if_false, bind_assoc, pure_bind]
      change (fromExcept (self.storeDef.getMergeConflicts db s.txn m tsHash self.stateContext) >>= _) s =
        match self.storeDef.getMergeConflicts db s.txn m tsHash self.stateContext with
        | .error e => .error e s
        | .ok conflicts => _
      cases self.storeDef.getMergeConflicts db s.txn m tsHash self.stateContext <;> rfl

/-- **A merge looks, stages and numbers**, in this order. -/
theorem merge_eq_stage (db : RocksDB) (m : Message) (s : StoreState) : self.merge db m s =
      match self.lookup db s.txn m with
      | .error e => .error e s
      | .ok (tsHash, conflicts) => self.stageMerge tsHash m conflicts s := by
  unfold merge lookup
  split
  · rfl
  cases messageTsHash m with
  | error e => rfl
  | ok tsHash =>
    change (if self.storeDef.isCompactStateType m then _ else if self.storeDef.isAddType m then _
      else _ : StoreM HubEvent) s = _
    cases hc : self.storeDef.isCompactStateType m with
    | true =>
      refine (self.mergeCompactState_eq db hc tsHash s).trans ?_
      simp only [if_true, bind, Except.bind]
      cases self.lookupCompacted db s.txn m <;> rfl
    | false =>
      have hmerge : (if self.storeDef.isAddType m then self.mergeAdd db tsHash m
          else self.mergeRemove db tsHash m) s =
          match self.lookupConflicts db s.txn m tsHash with
          | .error e => .error e s
          | .ok conflicts => self.stageMerge tsHash m conflicts s := by
        unfold lookupConflicts
        cases ha : self.storeDef.isAddType m with
        | true => exact self.conflictMerge_eq db hc (self.putScript_add hc ha tsHash) s
        | false => exact self.conflictMerge_eq db hc (self.putScript_remove hc ha tsHash) s
      refine hmerge.trans ?_
      simp only [Bool.false_eq_true, if_false, bind, Except.bind]
      cases self.lookupConflicts db s.txn m tsHash <;> rfl

omit [Prost] [DbIterator] in
/-- Staging fails at a step of the script, or for want of an event number; either way the writes before it
    stay. -/
theorem stageMerge_error_iff {s s' : StoreState} :
    (∃ e, self.stageMerge tsHash m conflicts s = .error e s') ↔
      ¬ ((self.mergeScript tsHash m conflicts).failure = none ∧
        (self.numbersEvent m = true → s.generator.Ready)) ∧
        s' = s.writeAll (self.mergeScript tsHash m conflicts).writes := by
  have hrun := runScript_eq (self.mergeScript tsHash m conflicts) s
  unfold stageMerge
  cases hfail : (self.mergeScript tsHash m conflicts).failure with
  | some e =>
    rw [hfail] at hrun
    rw [bind_of_error hrun]
    constructor
    · rintro ⟨_, ⟨⟩⟩
      exact ⟨fun h => (nomatch h.1), rfl⟩
    · rintro ⟨-, rfl⟩
      exact ⟨e, rfl⟩
  | none =>
    rw [hfail] at hrun
    rw [bind_of_ok hrun]
    unfold finishMerge
    cases self.numbersEvent m with
    | false => simp [pure, EStateM.pure]
    | true =>
      simp only [if_true]
      rcases commitTransaction_cases (s.writeAll (self.mergeScript tsHash m conflicts).writes) self.noPersist
        (HubEvent.new (self.storeDef.mergeEventArgs m conflicts))
          with ⟨e, heq, hready⟩ | ⟨ev, s'', heq, -, hready, -⟩
      · have hready : ¬ s.generator.Ready := hready
        simp [heq, hready, eq_comm]
      · have hready : s.generator.Ready := hready
        simp [heq, hready]

omit [Prost] [DbIterator] in
theorem stageMerge_ok_iff {s : StoreState} :
    (∃ event s', self.stageMerge tsHash m conflicts s = .ok event s') ↔
      (self.mergeScript tsHash m conflicts).failure = none ∧
      (self.numbersEvent m = true → s.generator.Ready) := by
  cases hstage : self.stageMerge tsHash m conflicts s with
  | ok event s' =>
    refine ⟨fun _ => not_not.1 fun hnot => ?_, fun _ => ⟨event, s', rfl⟩⟩
    obtain ⟨e, he⟩ := self.stageMerge_error_iff.2 ⟨hnot, rfl⟩
    cases hstage.symm.trans he
  | error e s' =>
    obtain ⟨hnot, -⟩ := self.stageMerge_error_iff.1 ⟨e, hstage⟩
    exact ⟨fun ⟨_, _, h⟩ => (nomatch h), fun h => absurd h hnot⟩

/-- **When a merge succeeds**: it finds nothing in the way, every key can be built, and an event number is
    left. -/
theorem merge_ok_iff (db : RocksDB) (m : Message) (s : StoreState) :
    (∃ event s', self.merge db m s = .ok event s') ↔
      ∃ found, self.lookup db s.txn m = .ok found ∧ (self.mergeScript found.1 m found.2).failure = none ∧
        (self.numbersEvent m = true → s.generator.Ready) := by
  rw [self.merge_eq_stage]
  cases hlookup : self.lookup db s.txn m with
  | error e =>
    constructor
    · rintro ⟨_, _, ⟨⟩⟩
    · rintro ⟨_, ⟨⟩, -⟩
  | ok found =>
    refine self.stageMerge_ok_iff.trans ⟨fun h => ⟨found, rfl, h⟩, ?_⟩
    rintro ⟨_, ⟨⟩, h⟩
    exact h

/-- **When a failed merge changes nothing.** For any store, database, batch and message: a merge that the
    lookup lets pass leaves no trace if it fails exactly if it cannot fail any more, because every key of the
    messages it deletes and of the message it stores can be built and an event number is left, or if the batch
    holds all that it stages already. -/
theorem merge_atomic_iff (db : RocksDB) (m : Message) (s : StoreState) :
    (∀ e s', self.merge db m s = .error e s' → s'.txn = s.txn) ↔
      ∀ tsHash conflicts, self.lookup db s.txn m = .ok (tsHash, conflicts) →
        ((self.mergeScript tsHash m conflicts).failure = none ∧
          (self.numbersEvent m = true → s.generator.Ready)) ∨
          s.txn.HoldsAll (self.mergeScript tsHash m conflicts).writes := by
  rw [self.merge_eq_stage]
  cases hlookup : self.lookup db s.txn m with
  | error e =>
    constructor
    · rintro - tsHash conflicts ⟨⟩
    · rintro - e' s' ⟨⟩
      rfl
  | ok found =>
    obtain ⟨tsHash, conflicts⟩ := found
    dsimp only
    constructor
    · rintro h _ _ ⟨⟩
      by_cases hok : (self.mergeScript tsHash m conflicts).failure = none ∧
        (self.numbersEvent m = true → s.generator.Ready)
      · exact .inl hok
      · obtain ⟨e, he⟩ := self.stageMerge_error_iff.2 ⟨hok, rfl⟩
        exact .inr (writeAll_eq_self_iff.1 (h e _ he))
    · rintro h e s' he
      obtain ⟨hnot, rfl⟩ := self.stageMerge_error_iff.1 ⟨e, he⟩
      exact writeAll_eq_self_iff.2 ((h tsHash conflicts rfl).resolve_left hnot)

end merging

/-! ### An event number too few -/

def sampleUserData : Message where
  data := some ⟨MessageType.userDataAdd.toI32, 1, 5, 1, some (.userDataBody 2 [97])⟩
  hash := List.replicate 20 1
  hashScheme := 1
  signature := [1]
  signatureScheme := ed25519
  signer := [7]
  dataBytes := none

def sampleUserDataKey : Bytes :=
  makeMessagePrimaryKey RootPrefix.user.toByte 1 UserPostfix.userDataMessage.toByte
    (toBeBytes (5 : UInt32) ++ List.replicate 20 1)

/-- **The event comes last.** With the 2¹⁴ numbers of a block used up, the merge of a message into an empty
    store fails, and leaves the message in the batch. -/
theorem exhaustedMerge_leaves_message :
    let _ : Prost := ⟨fun _ => none⟩
    let _ : DbIterator := ⟨fun _ _ _ => [], fun h => (List.not_mem_nil h).elim⟩
    let store : Store := { storeDef := userDataStoreDef }
    let s : StoreState := ⟨Batch.empty, ⟨1, 16384⟩⟩
    ∃ e s', store.merge (fun _ => none) sampleUserData s = .error e s' ∧ s'.txn ≠ s.txn := by
  intro prost iterator store s
  have hleft : (match store.merge (fun _ => none) sampleUserData s with
      | .ok _ _ => false
      | .error _ s' => (s'.txn sampleUserDataKey).isSome) = true := by decide +kernel
  split at hleft
  · cases hleft
  · next e s' heq =>
    refine ⟨e, s', heq, fun htxn => ?_⟩
    rw [htxn] at hleft
    cases hleft

end Store

end Hypersnap
