import Hypersnap.Store.Atomicity
import Hypersnap.Store.Names
import Hypersnap.Store.StorageLend

/-!
# `Store.Views` — a merge sees only the view

Lookups of a merge go through the batch: they see the view, the database as it will be after the commit. So it
makes no difference to a merge whether the writes before it are still in the batch or already committed
(`loosely_merge`). Two kinds of messages are excepted: a compact state scans the **database**, and a lend of
nothing is pruned only if the event before it got an id.
-/

namespace Hypersnap

open Overlay EState

/-- Two databases, each under its batch, look the same. -/
def SameView (db db' : RocksDB) (s t : StoreState) : Prop := s.view db = t.view db'

theorem SameView.writeAll {db db' : RocksDB} {s t : StoreState} (h : SameView db db' s t)
    (ws : List (Bytes × Option DbValue)) :
    SameView db db' (s.writeAll ws) (t.writeAll ws) := by
  funext k
  have hk : (s.txn k).getD (db k) = (t.txn k).getD (db' k) := congrFun h k
  show (s.txn.writeAll ws k).getD (db k) = (t.txn.writeAll ws k).getD (db' k)
  rw [writeAll_apply, writeAll_apply]
  cases lastWrite ws k with
  | some w => rfl
  | none => exact hk

/-- Two operations that write the same; one may fail to number its event where the other does not. -/
def Loosely {α β : Type} (db db' : RocksDB) (x : StoreM α) (y : StoreM β) : Prop :=
  ∀ s t, SameView db db' s t → SameView db db' (stateOf (x s)) (stateOf (y t))

section rules
variable {α β : Type} {db db' : RocksDB}

theorem Loosely.map {γ δ : Type} {x : StoreM α} {y : StoreM β} (f : α → γ) (g : β → δ)
    (h : Loosely db db' x y) :
    Loosely db db' (x >>= fun a => pure (f a)) (y >>= fun b => pure (g b)) := by
  have hmap : ∀ {α γ : Type} (x : StoreM α) (f : α → γ) (s : StoreState),
      stateOf ((x >>= fun a => pure (f a)) s) = stateOf (x s) := by
    intro α γ x f s
    cases hx : x s with
    | ok a s' => rw [bind_of_ok hx]; rfl
    | error e s' => rw [bind_of_error hx]; rfl
  intro s t hst
  rw [hmap, hmap]
  exact h s t hst

theorem commitTransaction_quiet (event : HubEvent) (s : StoreState) :
    (stateOf (commitTransaction true event s)).txn = s.txn := by
  have hrun : commitTransaction true event s =
      (fromExcept (s.generator.generateId event) >>= fun r : UInt64 × HubEventIdGenerator => do
        set { s with generator := r.2 }
        pure { event with id := r.1 } : StoreM HubEvent) s := rfl
  rw [hrun]
  cases s.generator.generateId event <;> rfl

end rules

/-! ## Lookups -/

section lookups
variable [Prost] {db db' : RocksDB} {txn txn' : RocksDbTransactionBatch} (h : commit db txn = commit db' txn')
include h

omit [Prost] in
theorem getFromDbOrTxn_congr (key : Bytes) : getFromDbOrTxn db txn key = getFromDbOrTxn db' txn' key :=
  congrFun h key

theorem getMessage_congr (root : UInt8) (fid : UInt64) (set : UInt8) (tsHash : Bytes) :
    getMessage db txn root fid set tsHash = getMessage db' txn' root fid set tsHash := by
  rw [getMessage, getMessage, getMessageByKey, getMessageByKey, getFromDbOrTxn_congr h]

/-- A store whose own search for conflicts, if it has one, goes through the batch. -/
def StoreDef.LooksThrough (d : StoreDef) : Prop :=
  ∀ own, d.ownMergeConflicts = some own → ∀ {db db' : RocksDB} {txn txn' : RocksDbTransactionBatch},
    commit db txn = commit db' txn' → ∀ m ts ctx, own db txn m ts ctx = own db' txn' m ts ctx

theorem getMergeConflicts_congr {d : StoreDef} (hd : d.LooksThrough) (m : Message) (ts : Bytes)
    (ctx : StateContext) :
    d.getMergeConflicts db txn m ts ctx = d.getMergeConflicts db' txn' m ts ctx := by
  have hat (key : Bytes) (type : UInt8) (kind : String) :
      d.conflictAt db txn m ts ctx key type kind = d.conflictAt db' txn' m ts ctx key type kind := by
    simp only [StoreDef.conflictAt, getFromDbOrTxn_congr h, getMessage_congr h]
  unfold StoreDef.getMergeConflicts
  cases hown : d.ownMergeConflicts with
  | some own => exact hd own hown h m ts ctx
  | none => simp only [hat]

theorem storedCompactState_congr (store : Store) (m : Message) :
    store.storedCompactState db txn m = store.storedCompactState db' txn' m := by
  simp only [Store.storedCompactState, getFromDbOrTxn_congr h]

theorem checkCompactStateForAdd_congr (store : Store) (m : Message) :
    store.checkCompactStateForAdd db txn m = store.checkCompactStateForAdd db' txn' m := by
  simp only [Store.checkCompactStateForAdd, storedCompactState_congr h]

theorem checkCompactStateForRemove_congr (store : Store) (m : Message) :
    store.checkCompactStateForRemove db txn m = store.checkCompactStateForRemove db' txn' m := by
  simp only [Store.checkCompactStateForRemove, storedCompactState_congr h]

theorem usernameProof_getMergeConflicts_congr (m : Message) (ts : Bytes) (ctx : StateContext) :
    UsernameProofStoreDef.getMergeConflicts db txn m ts ctx =
      UsernameProofStoreDef.getMergeConflicts db' txn' m ts ctx := by
  simp only [UsernameProofStoreDef.getMergeConflicts, getFromDbOrTxn_congr h, getMessage_congr h]

end lookups

/-! ## Merging -/

namespace Store

variable {db db' : RocksDB} (store : Store)

theorem lookup_congr [Prost] [DbIterator] {txn txn' : RocksDbTransactionBatch}
    (h : commit db txn = commit db' txn') (hd : store.storeDef.LooksThrough) {m : Message}
    (hcompact : store.storeDef.isCompactStateType m = false) :
    store.lookup db txn m = store.lookup db' txn' m := by
  simp only [lookup, lookupConflicts, hcompact, checkCompactStateForAdd_congr h,
    checkCompactStateForRemove_congr h, getMergeConflicts_congr h hd, Bool.false_eq_true, if_false]

theorem loosely_stageMerge (hquiet : store.noPersist = true) (tsHash : Bytes) (m : Message)
    (conflicts : List Message) :
    Loosely db db' (store.stageMerge tsHash m conflicts) (store.stageMerge tsHash m conflicts) := by
  intro s t hst
  have hs := runScript_eq (store.mergeScript tsHash m conflicts) s
  have ht := runScript_eq (store.mergeScript tsHash m conflicts) t
  have hwritten := hst.writeAll (store.mergeScript tsHash m conflicts).writes
  unfold stageMerge
  cases hfail : (store.mergeScript tsHash m conflicts).failure with
  | some e =>
    rw [hfail] at hs ht
    rw [bind_of_error hs, bind_of_error ht]
    exact hwritten
  | none =>
    rw [hfail] at hs ht
    rw [bind_of_ok hs, bind_of_ok ht, finishMerge, hquiet]
    split
    · rw [SameView, StoreState.view, StoreState.view, commitTransaction_quiet, commitTransaction_quiet]
      exact hwritten
    · exact hwritten

/-- **A merge sees only the view**, also in the writes it stages. -/
theorem loosely_merge [Prost] [DbIterator] (hquiet : store.noPersist = true)
    (hd : store.storeDef.LooksThrough) (m : Message)
    (hcompact : store.storeDef.isCompactStateType m = false) :
    Loosely db db' (store.merge db m) (store.merge db' m) := by
  intro s t hst
  rw [store.merge_eq_stage, store.merge_eq_stage, store.lookup_congr hst hd hcompact]
  cases store.lookup db' t.txn m with
  | error e => exact hst
  | ok found => exact store.loosely_stageMerge hquiet found.1 m found.2 s t hst

end Store

/-- A lend of no units. -/
def Message.lendsNothing (m : Message) : Bool :=
  match m.data.bind (·.body) with
  | some (.lendStorageBody _ numUnits _) => numUnits == 0
  | _ => false

theorem loosely_mergeLend [Prost] [DbIterator] {db db' : RocksDB} {store : Store}
    (hdef : store.storeDef = storageLendStoreDef) (hquiet : store.noPersist = true) {m : Message}
    (hm : m.lendsNothing = false) :
    Loosely db db' (StorageLendStore.merge store db m) (StorageLendStore.merge store db' m) := by
  have hmerge : Loosely db db' (store.merge db m) (store.merge db' m) := by
    refine store.loosely_merge hquiet ?_ m ?_
    · rw [hdef]
      intro own hown
      cases hown
    · rw [hdef]
      rfl
  unfold StorageLendStore.merge
  cases hbody : m.data.bind (·.body) with
  | none =>
    -- without a body it is not a lend, and the store refuses it
    have htype : store.storeDef.isAddType m = false := by
      rw [hdef]
      show m.hasType .lendStorage = false
      unfold Message.hasType
      cases hdata : m.data with
      | none => rfl
      | some data =>
        rw [hdata] at hbody
        have hnone : data.body = none := hbody
        simp [hnone]
    have hrefuse (db : RocksDB) (s : StoreState) : ∃ e, store.merge db m s = .error (.hub e) s := by
      refine ⟨.validationFailure "invalid message type", ?_⟩
      unfold Store.merge
      rw [htype, hdef]
      rfl
    intro s t hst
    obtain ⟨e, he⟩ := hrefuse db s
    obtain ⟨e', he'⟩ := hrefuse db' t
    rw [bind_of_error he, bind_of_error he']
    exact hst
  | some body =>
    cases body with
    | lendStorageBody toFid numUnits unitType =>
      have hunits : ¬ numUnits = 0 := by simpa [Message.lendsNothing, hbody] using hm
      simp only [hunits, if_false]
      exact hmerge.map _ _
    | _ => exact hmerge.map _ _

end Hypersnap
