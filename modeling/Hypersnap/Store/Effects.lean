import Hypersnap.Store.Layout

/-!
# `Store.Effects` — what the store operations write

One equation per operation: deleting or storing a typed message stages its whole footprint, or fails before it
has staged anything of the user table. What a lookup sees afterwards is the old view with these keys erased or
these entries written.
-/

namespace Hypersnap

open Overlay EState

/-! ## Views -/

namespace StoreState

variable (s : StoreState) (db : RocksDB)

/-- What lookups see while the batch is pending. -/
def view : RocksDB := commit db s.txn

@[simp] theorem view_put (k : Bytes) (v : DbValue) :
    (s.put k v).view db = Function.update (s.view db) k (some v) := by
  simp [view, put]

@[simp] theorem view_delete (k : Bytes) : (s.delete k).view db = Function.update (s.view db) k none := by
  simp [view, delete]

theorem view_putAll (es : List (Bytes × DbValue)) :
    (s.putAll es).view db = Overlay.putAll (s.view db) es := by
  induction es generalizing s with
  | nil => rfl
  | cons e es ih => exact (ih (s.put e.1 e.2)).trans (by rw [view_put]; rfl)

theorem view_deleteAll (ks : List Bytes) : (s.deleteAll ks).view db = eraseAll (s.view db) ks := by
  induction ks generalizing s with
  | nil => simp [deleteAll]
  | cons k ks ih =>
    refine (ih (s.delete k)).trans ?_
    rw [view_delete]
    funext k'
    by_cases h : k' = k <;> simp [eraseAll, h]

@[simp] theorem generator_putAll (es : List (Bytes × DbValue)) : (s.putAll es).generator = s.generator := by
  induction es generalizing s with
  | nil => rfl
  | cons e es ih => exact ih (s.put e.1 e.2)

@[simp] theorem generator_deleteAll (ks : List Bytes) : (s.deleteAll ks).generator = s.generator := by
  induction ks generalizing s with
  | nil => rfl
  | cons k ks ih => exact ih (s.delete k)

theorem deleteAll_append (ks ks' : List Bytes) : s.deleteAll (ks ++ ks') = (s.deleteAll ks).deleteAll ks' :=
  List.foldl_append

end StoreState

/-! ## Deleting and storing one message -/

namespace Store

variable {self : Store} {lay : Layout self.storeDef} {r : Record} (s : StoreState)

open Layout

section

variable (h : lay.Typed r)
include h

theorem deleteMessageTransaction_eq :
    self.deleteMessageTransaction r.message s =
      .ok () (s.delete (primaryKey self.storeDef self.stateContext r)) := by
  have hkey := h.primaryKeyOf_eq self.stateContext
  simp only [deleteMessageTransaction, userPrefix, hkey]
  rfl

theorem putMessageTransaction_eq : self.putMessageTransaction r.message s =
      .ok () (s.put (primaryKey self.storeDef self.stateContext r) (messageEncode r.message)) := by
  have hkey := h.primaryKeyOf_eq self.stateContext
  simp only [putMessageTransaction, userPrefix, hkey]
  rfl

/-- The deletion of an add fails only on its secondary keys, and then before anything is staged. -/
theorem deleteAddTransaction_eq (hrem : r.isRemove = false) :
    self.deleteAddTransaction r.tsHash r.message s =
      resultOf (secondaryOf self.storeDef self.stateContext r) s fun es => s.deleteAll (es.map Prod.fst ++
        [lay.indexKey self.stateContext r, primaryKey self.storeDef self.stateContext r]) := by
  have hsec : self.deleteSecondaryIndices r.tsHash r.message s =
      resultOf (secondaryOf self.storeDef self.stateContext r) s fun es => s.deleteAll (es.map Prod.fst) := by
    simp only [deleteSecondaryIndices, lay.secondaryIndexKeys_eq, secondaryOf, hrem]
    cases self.storeDef.secondaryIndices r.tsHash r.message self.stateContext <;> rfl
  unfold deleteAddTransaction
  cases hs : secondaryOf self.storeDef self.stateContext r with
  | error e =>
    rw [hs] at hsec
    exact bind_of_error hsec
  | ok es =>
    rw [hs] at hsec
    rw [bind_of_ok hsec, h.makeAddKey_eq]
    simp only [resultOf_ok, StoreState.deleteAll_append, indexKey, hrem]
    exact deleteMessageTransaction_eq _ h

theorem deleteRemoveTransaction_eq (hrem : r.isRemove = true) :
    self.deleteRemoveTransaction r.message s =
      .ok () (s.deleteAll
        [lay.indexKey self.stateContext r, primaryKey self.storeDef self.stateContext r]) := by
  have hsup := h.supported_of_isRemove hrem
  simp only [deleteRemoveTransaction, hsup, h.makeRemoveKey_eq self.stateContext hsup, indexKey, hrem]
  exact deleteMessageTransaction_eq _ h

theorem deleteTransaction_eq : self.deleteTransaction r.message s =
      resultOf (secondaryOf self.storeDef self.stateContext r) s fun es => s.deleteAll (es.map Prod.fst ++
        [lay.indexKey self.stateContext r, primaryKey self.storeDef self.stateContext r]) := by
  simp only [deleteTransaction, h.not_compact, h.isAddType_eq, h.isRemoveType_eq]
  cases hrem : r.isRemove with
  | false =>
    have hdel := deleteAddTransaction_eq s h hrem
    simp only [Bool.not_false, Bool.false_eq_true, if_true, if_false, h.messageTsHash_eq]
    rw [bind_of_ok (show fromExcept (.ok r.tsHash) s = .ok r.tsHash s from rfl)]
    cases hs : secondaryOf self.storeDef self.stateContext r with
    | ok es => rw [hs] at hdel; exact bind_of_ok hdel
    | error e => rw [hs] at hdel; exact bind_of_error hdel
  | true =>
    simp only [Bool.not_true, Bool.false_eq_true, if_true, if_false]
    rw [deleteRemoveTransaction_eq s h hrem]
    simp [secondaryOf, hrem]

/-- Storing a message writes its primary and index entries; only then can its secondary entries fail. -/
theorem putAddTransaction_eq (hrem : r.isRemove = false) :
    self.putAddTransaction r.tsHash r.message s =
      let s' := (s.put (primaryKey self.storeDef self.stateContext r) (messageEncode r.message)).put
        (lay.indexKey self.stateContext r) (.bytes r.tsHash)
      resultOf (secondaryOf self.storeDef self.stateContext r) s' s'.putAll := by
  unfold putAddTransaction
  rw [bind_of_ok (putMessageTransaction_eq s h), h.makeAddKey_eq, indexKey, secondaryOf, hrem]
  simp only [buildSecondaryIndices]
  cases self.storeDef.secondaryIndices r.tsHash r.message self.stateContext <;> rfl

theorem putRemoveTransaction_eq (hrem : r.isRemove = true) :
    self.putRemoveTransaction r.tsHash r.message s =
      .ok () ((s.put (primaryKey self.storeDef self.stateContext r) (messageEncode r.message)).put
        (lay.indexKey self.stateContext r) (.bytes r.tsHash)) := by
  have hsup := h.supported_of_isRemove hrem
  simp only [putRemoveTransaction, hsup, h.makeRemoveKey_eq self.stateContext hsup, indexKey, hrem]
  exact bind_of_ok (putMessageTransaction_eq s h)

end

/-! ## Events -/

/-- Numbering and staging an event changes nothing outside the event log. -/
theorem commitTransaction_cases (noPersist : Bool) (event : HubEvent) :
    (∃ e, commitTransaction noPersist event s = .error (.hub e) s ∧ ¬ s.generator.Ready) ∨
    ∃ ev s', commitTransaction noPersist event s = .ok ev s' ∧ ev.body = event.body ∧ s.generator.Ready ∧
      ∀ db k, k[0]? ≠ some RootPrefix.hubEvents.toByte → s'.view db k = s.view db k := by
  unfold commitTransaction
  rw [bind_of_ok (show (get : StoreM StoreState) s = .ok s s from rfl)]
  by_cases hready : s.generator.Ready
  · obtain ⟨⟨id, g⟩, hid⟩ := HubEventIdGenerator.exists_generateId hready event
    refine .inr ?_
    rw [hid]
    cases noPersist with
    | true => exact ⟨_, _, rfl, rfl, hready, fun db k _ => rfl⟩
    | false =>
      refine ⟨_, _, rfl, rfl, hready, fun db k hk => ?_⟩
      have hne : k ≠ makeEventKey id := fun heq => hk (by rw [heq]; rfl)
      show commit db (s.txn.put (makeEventKey id) _) k = commit db s.txn k
      rw [commit_put, Function.update_of_ne hne]
  · obtain ⟨e, he⟩ := HubEventIdGenerator.generateId_error hready event
    exact .inl ⟨e, by rw [he]; rfl, hready⟩

theorem mergeEvent_cases (self : Store) (m : Message) (conflicts : List Message) :
    (∃ e, self.mergeEvent m conflicts s = .error (.hub e) s ∧ ¬ s.generator.Ready) ∨
    ∃ ev s', self.mergeEvent m conflicts s = .ok ev s' ∧ ev.body = self.storeDef.mergeEventArgs m conflicts ∧
      ∀ db k, k[0]? ≠ some RootPrefix.hubEvents.toByte → s'.view db k = s.view db k := by
  unfold mergeEvent
  cases self.saveHubEvents with
  | false => exact .inr ⟨_, s, rfl, rfl, fun _ _ _ => rfl⟩
  | true =>
    rcases commitTransaction_cases s self.noPersist (HubEvent.new (self.storeDef.mergeEventArgs m conflicts))
      with
      hfail | ⟨ev, s', heq, hbody, -, hview⟩
    · exact .inl hfail
    · exact .inr ⟨ev, s', heq, hbody, hview⟩

end Store

end Hypersnap
