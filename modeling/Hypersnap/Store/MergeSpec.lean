import Hypersnap.Store.Atomicity
import Hypersnap.Store.Indexed

/-!
# `Store.MergeSpec` — everything a merge can do

`merge_outcome` takes a merge of an add or a remove apart: it is stopped before it writes, or it deletes the
rivals of the message and stores it. The two ways to fail after something was staged (a rival or the message
itself whose secondary keys cannot be built) are outcomes of their own. Every later result about merging
starts from here.
-/

namespace Hypersnap

open Overlay EState

namespace Store

variable {self : Store} (lay : Layout self.storeDef)

open Layout

/-- The keys that deleting a message erases. -/
def erased (d : StoreDef) (lay : Layout d) (ctx : StateContext) (r : Record) : List Bytes :=
  (secondary d ctx r).map Prod.fst ++ [lay.indexKey ctx r, primaryKey d ctx r]

/-- The state after the rivals were deleted and the message was stored, without its secondary entries. -/
def replaced (s : StoreState) (xs : List Record) (r : Record) : StoreState :=
  ((s.deleteAll (xs.flatMap (erased self.storeDef lay self.stateContext))).put
      (primaryKey self.storeDef self.stateContext r) (messageEncode r.message)).put
    (lay.indexKey self.stateContext r) (.bytes r.tsHash)

theorem mem_erased {d : StoreDef} {lay : Layout d} {ctx : StateContext} {r : Record} {k : Bytes} :
    k ∈ erased d lay ctx r ↔ k ∈ lay.keys ctx r := by
  simp only [erased, mem_keys, List.mem_append, List.mem_cons, List.not_mem_nil, or_false]
  tauto

theorem deleteManyTransaction_cases {xs : List Record} (h : ∀ x ∈ xs, lay.Typed x) (s : StoreState) :
    ((∀ x ∈ xs, secondaryOf self.storeDef self.stateContext x =
      .ok (secondary self.storeDef self.stateContext x)) ∧
      self.deleteManyTransaction (xs.map (·.message)) s =
        .ok () (s.deleteAll (xs.flatMap (erased self.storeDef lay self.stateContext)))) ∨
    ∃ (ys : List Record) (z : Record) (e : Failure), z ∈ xs ∧ (∀ y ∈ ys, y ∈ xs) ∧
    secondaryOf self.storeDef self.stateContext z = .error e ∧
      self.deleteManyTransaction (xs.map (·.message)) s =
        .error e (s.deleteAll (ys.flatMap (erased self.storeDef lay self.stateContext))) := by
  induction xs generalizing s with
  | nil => exact .inl ⟨fun _ hx => (List.not_mem_nil hx).elim, rfl⟩
  | cons x xs ih =>
    have hdel := deleteTransaction_eq s (h x List.mem_cons_self)
    simp only [List.map_cons, deleteManyTransaction]
    cases hs : secondaryOf self.storeDef self.stateContext x with
    | error e =>
      rw [hs] at hdel
      exact .inr ⟨[], x, e, List.mem_cons_self, fun _ hy =>
        (List.not_mem_nil hy).elim, hs, bind_of_error hdel⟩
    | ok es =>
      have hsec : secondary self.storeDef self.stateContext x = es := by simp only [secondary, hs]
      rw [hs, ← hsec] at hdel
      have hdel : self.deleteTransaction x.message s =
        .ok () (s.deleteAll (erased self.storeDef lay self.stateContext x)) := hdel
      rw [bind_of_ok hdel]
      rcases ih (fun y hy => h y (List.mem_cons_of_mem _ hy))
        (s.deleteAll (erased self.storeDef lay self.stateContext x)) with
        ⟨hok, heq⟩ | ⟨ys, z, e, hz, hys, hze, heq⟩
      · refine .inl ⟨fun y hy => ?_, ?_⟩
        · rcases List.mem_cons.1 hy with rfl | hy
          · rw [hs, hsec]
          · exact hok y hy
        · rw [List.flatMap_cons, StoreState.deleteAll_append]
          exact heq
      · refine .inr ⟨x :: ys, z, e, List.mem_cons_of_mem _ hz, fun y hy => ?_, hze, ?_⟩
        · rcases List.mem_cons.1 hy with rfl | hy
          · exact List.mem_cons_self
          · exact List.mem_cons_of_mem _ (hys y hy)
        · rw [List.flatMap_cons, StoreState.deleteAll_append]
          exact heq

/-- **What a merge of an add or a remove can do** from a state whose view is `o`. -/
inductive MergeOutcome [Prost] (db : RocksDB) (s : StoreState) (r : Record) :
    EStateM.Result Failure StoreState HubEvent → Prop
  /-- Stopped by a compact state or by a rival that is not below the message. -/
  | blocked {e : Failure} (h : self.storeDef.compactStateTypeSupported = true ∨
      ∃ x, lay.Rival self.stateContext (s.view db) r x ∧ bytesCompare (lay.rankOf x) (lay.rankOf r) ≠ .lt) :
      MergeOutcome db s r (.error e s)
  /-- Some rivals deleted, then one that cannot be. -/
  | stuck {e : Failure} {ys : List Record} {z : Record}
      (hys : ∀ y ∈ ys, lay.Rival self.stateContext (s.view db) r y)
      (hz : lay.Rival self.stateContext (s.view db) r z)
      (hze : secondaryOf self.storeDef self.stateContext z = .error e) :
      MergeOutcome db s r (.error e (s.deleteAll (ys.flatMap (erased self.storeDef lay self.stateContext))))
  /-- Rivals deleted, the message stored, its secondary entries failed. -/
  | unindexed {e : Failure} {xs : List Record}
      (hxs : ∀ x, x ∈ xs ↔ lay.Rival self.stateContext (s.view db) r x)
      (hr : secondaryOf self.storeDef self.stateContext r = .error e) :
      MergeOutcome db s r (.error e (replaced lay s xs r))
  /-- Rivals deleted, the message stored; what is left is the event. -/
  | stored {xs : List Record} {res : EStateM.Result Failure StoreState HubEvent}
      (hxs : ∀ x, x ∈ xs ↔ lay.Rival self.stateContext (s.view db) r x)
      (hlt : ∀ x ∈ xs, bytesCompare (lay.rankOf x) (lay.rankOf r) = .lt)
      (hr : secondaryOf self.storeDef self.stateContext r = .ok (secondary self.storeDef self.stateContext r))
      (hres : self.mergeEvent r.message (xs.map (·.message))
        ((replaced lay s xs r).putAll (secondary self.storeDef self.stateContext r)) = res) :
      MergeOutcome db s r res

variable {lay} {db : RocksDB} {s : StoreState} {r : Record} [Prost] {m : Message}

/-- The step that stores the message, by its kind. -/
def putTransaction (self : Store) (isRemove : Bool) (tsHash : Bytes) (message : Message) : StoreM Unit :=
  if isRemove then self.putRemoveTransaction tsHash message else self.putAddTransaction tsHash message

omit [Prost] in
theorem putTransaction_eq (h : lay.Typed r) (s : StoreState) :
    self.putTransaction r.isRemove r.tsHash r.message s =
      let s' := (s.put (primaryKey self.storeDef self.stateContext r) (messageEncode r.message)).put
        (lay.indexKey self.stateContext r) (.bytes r.tsHash)
      resultOf (secondaryOf self.storeDef self.stateContext r) s' s'.putAll := by
  cases hrem : r.isRemove with
  | false => simpa [putTransaction] using putAddTransaction_eq s h hrem
  | true =>
    simp only [putTransaction, if_true, putRemoveTransaction_eq s h hrem, secondaryOf, hrem]
    rfl

theorem checkCompactStateForAdd_eq_ok (h : self.storeDef.compactStateTypeSupported = false) (db : RocksDB)
    (txn : RocksDbTransactionBatch) (m : Message) : self.checkCompactStateForAdd db txn m = .ok () := by
  simp only [checkCompactStateForAdd, h, Bool.false_and, Bool.false_eq_true, if_false]
  rfl

theorem checkCompactStateForRemove_eq_ok (h : self.storeDef.compactStateTypeSupported = false) (db : RocksDB)
    (txn : RocksDbTransactionBatch) (m : Message) : self.checkCompactStateForRemove db txn m = .ok () := by
  simp only [checkCompactStateForRemove, h, Bool.false_and, Bool.false_eq_true, if_false]
  rfl

/-- The check against a compact state, by the kind of the message. -/
def compactCheck (self : Store) (db : RocksDB) (txn : RocksDbTransactionBatch) (r : Record) :
    Except Failure Unit :=
  if r.isRemove then self.checkCompactStateForRemove db txn r.message
  else self.checkCompactStateForAdd db txn r.message

theorem compactCheck_eq_ok (h : self.storeDef.compactStateTypeSupported = false) (db : RocksDB)
    (txn : RocksDbTransactionBatch) (r : Record) : self.compactCheck db txn r = .ok () := by
  unfold compactCheck
  split
  · exact checkCompactStateForRemove_eq_ok h db txn r.message
  · exact checkCompactStateForAdd_eq_ok h db txn r.message

theorem merge_eq [DbIterator] (db : RocksDB) (s : StoreState) (hr : lay.Typed r) :
    self.merge db r.message s = (do
      fromExcept (self.compactCheck db s.txn r)
      let conflicts ← self.resolveConflicts db r.tsHash r.message
      self.putTransaction r.isRemove r.tsHash r.message
      self.mergeEvent r.message conflicts : StoreM HubEvent) s := by
  unfold merge compactCheck
  simp only [hr.not_compact, hr.isAddType_eq, hr.isRemoveType_eq, hr.messageTsHash_eq]
  cases r.isRemove <;> rfl

/-- **Conflicts of a merge.** A compact state, or a rival that is not below the message, stops it; otherwise
    all rivals are deleted, and the message is stored. -/
theorem merge_cases [DbIterator] (db : RocksDB) (s : StoreState) (hopt : self.conflictFree = false)
    (hr : lay.Typed r) (hidx : lay.Indexed self.stateContext (s.view db)) :
    ((self.compactCheck db s.txn r ≠ .ok () ∨
        ∃ x, lay.Rival self.stateContext (s.view db) r x ∧ bytesCompare (lay.rankOf x) (lay.rankOf r) ≠ .lt) ∧
      ∃ e, self.merge db r.message s = .error e s) ∨
      self.compactCheck db s.txn r = .ok () ∧ ∃ xs : List Record,
      (∀ x, x ∈ xs ↔ lay.Rival self.stateContext (s.view db) r x) ∧
      (∀ x ∈ xs, bytesCompare (lay.rankOf x) (lay.rankOf r) = .lt) ∧
      self.merge db r.message s = (do
        self.deleteManyTransaction (xs.map (·.message))
        self.putTransaction r.isRemove r.tsHash r.message
        self.mergeEvent r.message (xs.map (·.message)) : StoreM HubEvent) s := by
  rw [merge_eq db s hr]
  cases self.compactCheck db s.txn r with
  | error e => exact .inl ⟨.inl (by simp), e, rfl⟩
  | ok u =>
    rw [bind_of_ok (show fromExcept (.ok u) s = .ok u s from rfl)]
    simp only [resolveConflicts, hopt, Bool.false_eq_true, if_false, bind_assoc, pure_bind]
    rw [bind_of_ok (show (get : StoreM StoreState) s = .ok s s from rfl)]
    rcases getMergeConflicts_cases hidx hr with ⟨x, e, hx, hcmp, heq⟩ | ⟨xs, heq, hxs, hlt⟩
    · exact .inl ⟨.inr ⟨x, hx, hcmp⟩, _, by rw [heq]; rfl⟩
    · exact .inr ⟨trivial, xs, hxs, hlt, by rw [heq]; rfl⟩

/-- Where no compact state stops it, everything that can happen is one of the outcomes. -/
theorem merge_outcome [DbIterator] (db : RocksDB) (s : StoreState) (hopt : self.conflictFree = false)
    (hr : lay.Typed r) (hidx : lay.Indexed self.stateContext (s.view db)) :
    MergeOutcome lay db s r (self.merge db r.message s) := by
  rcases merge_cases db s hopt hr hidx with ⟨hstop, e, heq⟩ | ⟨-, xs, hxs, hlt, heq⟩
  · rw [heq]
    refine .blocked (hstop.imp_left fun hcheck => ?_)
    by_contra hsup
    exact hcheck (compactCheck_eq_ok (Bool.not_eq_true _ ▸ hsup) db s.txn r)
  · rw [heq]
    rcases deleteManyTransaction_cases lay (fun x hx => ((hxs x).1 hx).1.typed) s with
      ⟨-, hdel⟩ | ⟨ys, z, e, hz, hys, hze, hdel⟩
    · rw [bind_of_ok hdel]
      have hput := putTransaction_eq hr
        (s.deleteAll (xs.flatMap (erased self.storeDef lay self.stateContext)))
      cases hsec : secondaryOf self.storeDef self.stateContext r with
      | error e =>
        rw [hsec] at hput
        rw [bind_of_error hput]
        exact .unindexed hxs hsec
      | ok es =>
        have hes : es = secondary self.storeDef self.stateContext r := by simp only [secondary, hsec]
        rw [hsec] at hput
        rw [bind_of_ok hput, hes]
        exact .stored hxs hlt (by rw [hsec, hes]) rfl
    · rw [bind_of_error hdel]
      exact .stuck (fun y hy => (hxs y).1 (hys y hy)) ((hxs z).1 hz) hze

/-! ## Messages that are merged -/

theorem getMergeConflicts_slot {data : MessageData} {txn : RocksDbTransactionBatch} {ts : Bytes}
    {conflicts : List Message} (hd : m.data = some data)
    (h : self.storeDef.getMergeConflicts db txn m ts self.stateContext = .ok conflicts) :
    ∃ slot, lay.slot m = some slot := by
  simp only [StoreDef.getMergeConflicts, lay.ownMergeConflicts_eq] at h
  have hkey : ∃ key, self.storeDef.makeAddKey m self.stateContext = .ok key := by
    split at h
    · obtain ⟨removeKey, -, h⟩ := except_bind_eq_ok.1 h
      obtain ⟨removes, -, h⟩ := except_bind_eq_ok.1 h
      exact (except_bind_eq_ok.1 h).imp fun _ h => h.1
    · obtain ⟨removes, -, h⟩ := except_bind_eq_ok.1 h
      exact (except_bind_eq_ok.1 h).imp fun _ h => h.1
  obtain ⟨key, hkey⟩ := hkey
  exact ((lay.makeAddKey_iff hd).1 hkey).imp fun _ hs => hs.1

/-- **Only messages of the store are merged**: a merge that succeeds was given an add or a remove with a
    conflict key, or a compact state. -/
theorem typed_of_merge_eq_ok [DbIterator] {ev : HubEvent} {s' : StoreState} (lay : Layout self.storeDef)
    (hopt : self.conflictFree = false) (hcompact : self.storeDef.isCompactStateType m = false)
    (h : self.merge db m s = .ok ev s') : ∃ r, r.message = m ∧ lay.Typed r := by
  obtain ⟨found, hlookup, -⟩ := (self.merge_ok_iff db m s).1 ⟨ev, s', h⟩
  simp only [lookup, lookupConflicts, hcompact, hopt, Bool.and_false, Bool.not_false, Bool.and_true,
    Bool.false_eq_true, if_false] at hlookup
  split at hlookup
  · cases hlookup
  next hkind =>
    obtain ⟨ts, hts, hlookup⟩ := except_bind_eq_ok.1 hlookup
    obtain ⟨cs, hcs, -⟩ := except_bind_eq_ok.1 hlookup
    replace hcs : self.storeDef.getMergeConflicts db s.txn m ts self.stateContext = .ok cs := by
      split at hcs <;> exact (except_bind_eq_ok.1 hcs).elim fun _ h => h.2
    -- a message that is typed and hashed is a record once its conflicts were looked up
    have record : ∀ {b data}, m.data = some data →
        ((b = false ∧ self.storeDef.isAddType m = true) ∨
          (b = true ∧ self.storeDef.removeTypeSupported = true ∧ self.storeDef.isRemoveType m = true)) →
        ∃ r, r.message = m ∧ lay.Typed r := by
      intro b data hd hkind
      obtain ⟨slot, hslot⟩ := getMergeConflicts_slot hd hcs
      simp only [messageTsHash, hd] at hts
      exact ⟨⟨m, data.fid, ts, slot, b⟩, rfl, ⟨data, hd, rfl, hts⟩, hslot, hkind⟩
    cases hadd : self.storeDef.isAddType m with
    | true =>
      obtain ⟨data, -, -, hd, -⟩ := lay.ofType_add hadd
      exact record hd (.inl ⟨rfl, hadd⟩)
    | false =>
      obtain ⟨hsup, hremove⟩ :
          self.storeDef.removeTypeSupported = true ∧ self.storeDef.isRemoveType m = true := by
        simpa [hadd] using hkind
      obtain ⟨data, -, -, hd, -⟩ := lay.ofType_remove hremove
      exact record hd (.inr ⟨rfl, hsup, hremove⟩)

end Store

end Hypersnap
