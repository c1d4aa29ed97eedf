import Hypersnap.Store.Effects
import Hypersnap.Store.OnChainEvents

/-!
# `Store.SignerIndex` — merging the signer events of a key

The signer index points from a key to the event that decides it. An event moves the entry to itself unless the
entry is of a later block; an AdminReset moves it to the first stored event that adds the key, which it looks
for in the database only (`indexMove`). Over a run, with commits in between, the entry points to one of the
merged events (`Tracked`).
-/

namespace Hypersnap

open Overlay EState

variable {kept : Option OnChainEvent} {e : OnChainEvent} {self : EventStore} {db : RocksDB}

/-! ## Signer events -/

/-- The events of one key of a user. -/
structure IsSignerEvent (fid : UInt64) (key : Bytes) (e : OnChainEvent) : Prop where
  type : e.type = OnChainEventType.eventTypeSigner.toI32
  fid : e.fid = fid
  body : ∃ b, e.body = some (.signerEventBody b) ∧ b.key = key

namespace OnChainEvent

def signerType (e : OnChainEvent) : SignerEventType :=
  match e.body with
  | some (.signerEventBody body) => .orDefault body.eventType
  | _ => .none

/-- The key a signer event is about. -/
def signerKey (e : OnChainEvent) : Option Bytes :=
  match e.body with
  | some (.signerEventBody body) => some body.key
  | _ => none

/-- The active signer that the event makes of its key, if it is the last word. -/
def asActiveSigner (e : OnChainEvent) : Option OnChainEvent :=
  match e.body with
  | some (.signerEventBody body) =>
    if SignerEventType.orDefault body.eventType = .add ∧ body.keyType = 1 then some e else none
  | _ => none

/-- The place of an event on chain. -/
def place (e : OnChainEvent) : UInt32 × UInt32 := (e.blockNumber, e.logIndex)

theorem addsKey_iff {key : Bytes} {e : OnChainEvent} :
    e.addsKey key = true ↔ e.signerType = .add ∧ e.signerKey = some key := by
  unfold addsKey signerType signerKey
  rcases e.body with _ | body
  · simp
  · cases body <;> simp

end OnChainEvent

theorem IsSignerEvent.signerKey {fid : UInt64} {key : Bytes} (he : IsSignerEvent fid key e) :
    e.signerKey = some key := by
  obtain ⟨b, hbody, rfl⟩ := he.body
  rw [OnChainEvent.signerKey, hbody]

/-! ## Merging one event after the other -/

/-- The event store: the database, and the batch at hand. -/
structure EventStore where
  db : RocksDB
  state : StoreState

namespace EventStore

def view (self : EventStore) : RocksDB := self.state.view self.db

/-- Merge an event; the batch may be committed after it. -/
def merge [DbIterator] (conflictFree : Bool) (self : EventStore) (step : OnChainEvent × Bool) : EventStore :=
  let s := stateOf (mergeOnchainEvent conflictFree self.db step.1 self.state)
  if step.2 then ⟨commit self.db s.txn, { s with txn := Batch.empty }⟩ else ⟨self.db, s⟩

def mergeAll [DbIterator] (conflictFree : Bool) (self : EventStore) (steps : List (OnChainEvent × Bool)) :
    EventStore :=
  steps.foldl (merge conflictFree) self

def activeSigner (self : EventStore) (fid : UInt64) (key : Bytes) :
    Except OnchainEventStorageError (Option OnChainEvent) := getActiveSigner self.db self.state.txn fid key

end EventStore

/-! ## The keys -/

section keys
variable {fid : UInt64} {key : Bytes}

theorem primaryKey_ne_hubEvents (e : OnChainEvent) :
    (makeOnchainEventPrimaryKey e)[0]? ≠ some RootPrefix.hubEvents.toByte := by
  rw [show (makeOnchainEventPrimaryKey e)[0]? = some RootPrefix.onChainEvent.toByte from rfl]
  decide

theorem signerKey_ne_hubEvents (fid : UInt64) (key : Bytes) :
    (makeSignerOnchainEventBySignerKey fid key)[0]? ≠ some RootPrefix.hubEvents.toByte := by
  rw [show (makeSignerOnchainEventBySignerKey fid key)[0]? = some RootPrefix.onChainEvent.toByte from rfl]
  decide

theorem primaryKey_ne_signerKey (e : OnChainEvent) (fid : UInt64) (key : Bytes) :
    makeOnchainEventPrimaryKey e ≠ makeSignerOnchainEventBySignerKey fid key := by
  intro h
  have hbyte : some OnChainEventPostfix.onChainEvents.toByte = some OnChainEventPostfix.signerByFid.toByte :=
    congrArg (·[1]?) h
  exact absurd hbyte (by decide)

theorem place_eq_of_primaryKey_eq {e' : OnChainEvent} (he : IsSignerEvent fid key e)
    (he' : IsSignerEvent fid key e') (h : makeOnchainEventPrimaryKey e = makeOnchainEventPrimaryKey e') :
    e.place = e'.place := by
  unfold makeOnchainEventPrimaryKey at h
  rw [he.type, he'.type, he.fid, he'.fid] at h
  obtain ⟨h, hlog⟩ := List.append_inj' h rfl
  obtain ⟨-, hblock⟩ := List.append_inj' h rfl
  unfold OnChainEvent.place
  rw [toBeBytes_injective hblock, toBeBytes_injective hlog]

/-- The keys under which the signer events of a user are stored. -/
def InSignerRange (fid : UInt64) (k : Bytes) : Prop :=
  let start := makeOnchainEventTypePrefix .eventTypeSigner ++ makeFidKey fid
  InRange start (incrementVecU8 start) k

theorem incrementVecU8_cons_cons (x y : UInt8) {z : UInt8} (hz : z ≠ 255) (rest : Bytes) :
    ∃ t, incrementVecU8 (x :: y :: z :: rest) = x :: y :: t := by
  rcases hgo : incrementVecU8.go rest with ⟨t, carry⟩
  cases carry <;> simp [incrementVecU8, incrementVecU8.go, hgo, hz]

theorem InSignerRange.bytes {k : Bytes} (h : InSignerRange fid k) :
    k[0]? = some RootPrefix.onChainEvent.toByte ∧ k[1]? = some OnChainEventPostfix.onChainEvents.toByte := by
  obtain ⟨t, ht⟩ := incrementVecU8_cons_cons RootPrefix.onChainEvent.toByte
    OnChainEventPostfix.onChainEvents.toByte (z := asU8 OnChainEventType.eventTypeSigner.toI32) (by decide)
    (makeFidKey fid)
  have h' : InRange (RootPrefix.onChainEvent.toByte :: OnChainEventPostfix.onChainEvents.toByte ::
      asU8 OnChainEventType.eventTypeSigner.toI32 :: makeFidKey fid)
      (RootPrefix.onChainEvent.toByte :: OnChainEventPostfix.onChainEvents.toByte :: t) k := by
    rw [← ht]
    exact h
  obtain _ | ⟨a, k⟩ := k
  · exact absurd rfl h'.1
  obtain rfl := h'.head_eq
  have h'' := inRange_cons_self.1 h'
  obtain _ | ⟨b, k⟩ := k
  · exact absurd rfl h''.1
  obtain rfl := h''.head_eq
  exact ⟨rfl, rfl⟩

theorem InSignerRange.ne_signerKey {k : Bytes} (h : InSignerRange fid k) :
    k ≠ makeSignerOnchainEventBySignerKey fid key := by
  rintro rfl
  have hbyte : some OnChainEventPostfix.signerByFid.toByte = some OnChainEventPostfix.onChainEvents.toByte :=
    h.bytes.2
  exact absurd hbyte (by decide)

theorem InSignerRange.ne_hubEvents {k : Bytes} (h : InSignerRange fid k) :
    k[0]? ≠ some RootPrefix.hubEvents.toByte := by
  rw [h.bytes.1]
  decide

end keys

/-! ## What a reset finds -/

section find
variable [DbIterator] {fid : UInt64} {key : Bytes}

theorem stored_of_findSignerAddFuel {start : Bytes} {x : OnChainEvent} {fuel : Nat} {token : Option Bytes}
    (htoken : ∀ t ∈ token, InRange start (incrementVecU8 start) t)
    (h : findSignerAddFuel db start key fuel token = .ok (some x)) :
    ∃ k, InRange start (incrementVecU8 start) k ∧ db k = some (.onChainEvent x) ∧ x.addsKey key = true := by
  induction fuel generalizing token with
  | zero => cases h
  | succ fuel ih =>
    -- a page starts at `start` or after a key in the range
    have hentry : ∀ entry ∈ (readPage db start (incrementVecU8 start) eventPageSize token).1,
        InRange start (incrementVecU8 start) entry.1 ∧ db entry.1 = some entry.2 := by
      intro entry hentry
      obtain ⟨hrange, hdb⟩ := DbIterator.inRange (List.mem_of_mem_take hentry)
      refine ⟨⟨?_, hrange.2⟩, hdb⟩
      cases token with
      | none => exact hrange.1
      | some t => exact le_of_le_of_lt (htoken t rfl).1 ((snoc_zero_le_iff t _).1 hrange.1)
    unfold findSignerAddFuel at h
    obtain ⟨events, hevents, h⟩ := except_bind_eq_ok.1 h
    cases hfind : events.find? (·.addsKey key) with
    | some event =>
      rw [hfind] at h
      cases h
      obtain ⟨⟨k, v⟩, hmem, hdecode⟩ := (mem_of_mapM_eq_ok hevents).1 (List.mem_of_find?_eq_some hfind)
      have hv : v = .onChainEvent x := by
        cases v <;> cases hdecode
        rfl
      exact ⟨k, (hentry _ hmem).1, hv ▸ (hentry _ hmem).2, List.find?_some hfind⟩
    | none =>
      rw [hfind] at h
      cases hnext : (readPage db start (incrementVecU8 start) eventPageSize token).2 with
      | none =>
        rw [hnext] at h
        cases h
      | some t =>
        rw [hnext] at h
        refine ih (fun t' ht' => ?_) h
        obtain rfl := Option.mem_some.1 ht'
        -- the token is the key of the last entry
        obtain ⟨-, hkey⟩ := Option.ite_none_left_eq_some.1 hnext
        obtain ⟨entry, hlast, rfl⟩ := Option.map_eq_some_iff.1 hkey
        exact (hentry entry (List.mem_of_getLast? hlast)).1

/-- A reset finds a stored event that adds the key. -/
theorem stored_of_findSignerAdd {x : OnChainEvent} (h : findSignerAdd db fid key = .ok (some x)) :
    ∃ k, InSignerRange fid k ∧ db k = some (.onChainEvent x) ∧ x.signerType = .add ∧
    x.signerKey = some key := by
  obtain ⟨k, hrange, hdb, hadds⟩ :=
    stored_of_findSignerAddFuel (fun _ ht => (Option.not_mem_none _ ht).elim) h
  exact ⟨k, hrange, hdb, OnChainEvent.addsKey_iff.1 hadds⟩

theorem findSignerAddFuel_eq {start : Bytes} {events : List OnChainEvent} {fuel : Nat} {token : Option Bytes}
    (h : (readPagesFuel db start (incrementVecU8 start) eventPageSize fuel token).mapM
      (fun entry => decodeOnchainEvent entry.2) = .ok events) :
    findSignerAddFuel db start key fuel token = .ok (events.find? (·.addsKey key)) := by
  induction fuel generalizing token events with
  | zero =>
    cases h
    rfl
  | succ fuel ih =>
    unfold readPagesFuel at h
    unfold findSignerAddFuel
    rcases hpage : readPage db start (incrementVecU8 start) eventPageSize token with ⟨entries, _ | t⟩
    · rw [hpage] at h
      dsimp only at h ⊢
      rw [h]
      cases hfind : events.find? (·.addsKey key) <;> simp only [bind, Except.bind, hfind]
    · rw [hpage] at h
      dsimp only at h ⊢
      rw [List.mapM_append] at h
      obtain ⟨first, hfirst, h⟩ := except_bind_eq_ok.1 h
      obtain ⟨rest, hrest, h⟩ := except_bind_eq_ok.1 h
      cases h
      rw [hfirst, List.find?_append]
      cases hfind : first.find? (·.addsKey key) with
      | some event => simp only [bind, Except.bind, hfind, Option.some_or]
      | none =>
        simp only [bind, Except.bind, hfind, Option.none_or]
        exact ih hrest

/-- A store whose signer records are events, finitely many of them. -/
structure Listed (fid : UInt64) (o : RocksDB) : Prop where
  finite : {k | InSignerRange fid k ∧ (o k).isSome}.Finite
  events : ∀ k v, InSignerRange fid k → o k = some v → ∃ e, v = .onChainEvent e

/-- Where an event that adds the key is stored, a reset finds one. -/
theorem exists_findSignerAdd [DbIterator.Exact] (hlisted : Listed fid db) {k : Bytes}
    (hk : InSignerRange fid k) (hdb : db k = some (.onChainEvent e)) (hadds : e.addsKey key = true) :
    ∃ x, findSignerAdd db fid key = .ok (some x) := by
  generalize hstart : makeOnchainEventTypePrefix .eventTypeSigner ++ makeFidKey fid = start
  have hpages : readPagesFuel db start (incrementVecU8 start) eventPageSize
      ((DbIterator.scan db start (incrementVecU8 start)).length + 1) none =
        DbIterator.scan db start (incrementVecU8 start) := by
    subst hstart
    exact readPages_eq (by decide) hlisted.finite
  have hrange : ∀ {k v}, (k, v) ∈ DbIterator.scan db start (incrementVecU8 start) ↔
      InSignerRange fid k ∧ db k = some v := by
    subst hstart
    exact mem_scan_iff hlisted.finite
  cases hevents : (DbIterator.scan db start (incrementVecU8 start)).mapM
      (fun entry => decodeOnchainEvent entry.2) with
  | error err =>
    obtain ⟨⟨k, v⟩, hmem, herr⟩ := exists_of_mapM_eq_error hevents
    obtain ⟨x, rfl⟩ := hlisted.events k v (hrange.1 hmem).1 (hrange.1 hmem).2
    cases herr
  | ok events =>
    have hmem : e ∈ events := (mem_of_mapM_eq_ok hevents).2 ⟨(k, .onChainEvent e), hrange.2 ⟨hk, hdb⟩, rfl⟩
    obtain ⟨x, hx⟩ := Option.isSome_iff_exists.1 (List.find?_isSome.2 ⟨e, hmem, hadds⟩)
    refine ⟨x, ?_⟩
    unfold findSignerAdd
    simp only [hstart]
    rw [findSignerAddFuel_eq (hpages ▸ hevents), hx]

end find

/-! ## What a merge does to the index -/

/-- The index entry of a key points to a stored event, or there is none. -/
def PointsTo (o : RocksDB) (indexKey : Bytes) : Option OnChainEvent → Prop
  | none => o indexKey = none
  | some e => o indexKey = some (.bytes (makeOnchainEventPrimaryKey e)) ∧
      o (makeOnchainEventPrimaryKey e) = some (.onChainEvent e)

/-- The event that the index moves to, if it moves. -/
def indexMove [DbIterator] (db : RocksDB) (key : Bytes) (kept : Option OnChainEvent) (e : OnChainEvent) :
    Option OnChainEvent :=
  if kept.any fun k => decide (e.blockNumber < k.blockNumber) then none
  else if e.signerType = .adminReset then (findSignerAdd db e.fid key).toOption.join
  else some e

section step
variable {fid : UInt64} {key indexKey : Bytes} {s : StoreState} {b : SignerEventBody}

theorem getEventBySecondaryKey_of_pointsTo {txn : RocksDbTransactionBatch}
    (h : PointsTo (commit db txn) indexKey kept) : getEventBySecondaryKey db txn indexKey = .ok kept := by
  unfold getEventBySecondaryKey getFromDbOrTxn
  cases kept with
  | none =>
    rw [show commit db txn indexKey = none from h]
  | some k =>
    rw [h.1]
    dsimp only
    rw [h.2]

theorem EventStore.activeSigner_of_pointsTo
    (h : PointsTo self.view (makeSignerOnchainEventBySignerKey fid key) kept) :
    self.activeSigner fid key = .ok (kept.bind OnChainEvent.asActiveSigner) := by
  unfold EventStore.activeSigner getActiveSigner
  rw [getEventBySecondaryKey_of_pointsTo h]
  cases kept with
  | none => rfl
  | some e =>
    rw [Option.bind_some]
    unfold OnChainEvent.asActiveSigner
    change (match e.body with
      | some (.signerEventBody body) => _
      | _ => _) = _
    split
    · split <;> rfl
    · rfl

theorem PointsTo.view_eq {o : RocksDB} (h : PointsTo o indexKey kept) :
    o indexKey = kept.map fun e => .bytes (makeOnchainEventPrimaryKey e) := by
  cases kept with
  | none => exact h
  | some e => exact h.1

theorem PointsTo.congr {o o' : RocksDB} (h : PointsTo o indexKey kept) (hindex : o' indexKey = o indexKey)
    (hevent : ∀ e, o (makeOnchainEventPrimaryKey e) = some (.onChainEvent e) →
      o' (makeOnchainEventPrimaryKey e) = some (.onChainEvent e)) : PointsTo o' indexKey kept := by
  cases kept with
  | none => exact hindex.trans h
  | some k => exact ⟨hindex.trans h.1, hevent k h.2⟩

variable [DbIterator] {conflictFree commits : Bool}

theorem stateOf_buildSecondaryIndicesForSigner (hbody : e.body = some (.signerEventBody b))
    (hkept : PointsTo (s.view db) (makeSignerOnchainEventBySignerKey e.fid b.key) kept) :
    stateOf (buildSecondaryIndicesForSigner db e b s) =
      (indexMove db b.key kept e).elim s fun x =>
        s.put (makeSignerOnchainEventBySignerKey e.fid b.key) (.bytes (makeOnchainEventPrimaryKey x)) := by
  have htype : e.signerType = SignerEventType.orDefault b.eventType := by rw [OnChainEvent.signerType, hbody]
  unfold buildSecondaryIndicesForSigner indexMove
  rw [bind_of_ok (show (get : StoreOp OnchainEventStorageError StoreState) s = .ok s s from rfl),
    getEventBySecondaryKey_of_pointsTo hkept, htype]
  have hnever : ¬ (kept.isSome = true ∧ SignerEventType.orDefault b.eventType = .remove ∧
      SignerEventType.orDefault b.eventType = .add) := by
    rintro ⟨-, hremove, hadd⟩
    cases hremove.symm.trans hadd
  rw [bind_of_ok (show raise (.ok kept) s = .ok kept s from rfl), if_neg hnever]
  split
  · rfl
  split
  · cases hfind : findSignerAdd db e.fid b.key with
    | error err => rfl
    | ok found =>
      rw [bind_of_ok (show raise (.ok found) s = .ok found s from rfl)]
      cases found <;> rfl
  · rfl

/-- Merging a new event puts it and updates the index; the rest only concerns the event log. -/
theorem EventStore.merge_cases
    (hbody : e.body = some (.signerEventBody b)) (hnew : self.view (makeOnchainEventPrimaryKey e) = none) :
    (∀ k, k[0]? ≠ some RootPrefix.hubEvents.toByte → (self.merge conflictFree (e, commits)).view k =
      (stateOf (buildSecondaryIndicesForSigner self.db e b
        (self.state.put (makeOnchainEventPrimaryKey e) (.onChainEvent e)))).view self.db k) ∧
    (self.merge conflictFree (e, commits)).db =
      if commits then (self.merge conflictFree (e, commits)).view else self.db := by
  have hput : putOnchainEvent conflictFree self.db e self.state =
      buildSecondaryIndicesForSigner self.db e b
        (self.state.put (makeOnchainEventPrimaryKey e) (.onChainEvent e)) := by
    unfold putOnchainEvent buildEventIndices
    rw [bind_of_ok (show (get : StoreOp OnchainEventStorageError StoreState) _ = .ok _ _ from rfl)]
    have hfresh : getFromDbOrTxn self.db self.state.txn (makeOnchainEventPrimaryKey e) = none := hnew
    rw [hfresh, hbody, Option.isSome_none, Bool.and_false]
    rfl
  have hview : ∀ k, k[0]? ≠ some RootPrefix.hubEvents.toByte →
      (stateOf (mergeOnchainEvent conflictFree self.db e self.state)).view self.db k =
        (stateOf (buildSecondaryIndicesForSigner self.db e b
          (self.state.put (makeOnchainEventPrimaryKey e) (.onChainEvent e)))).view self.db k := by
    intro k hk
    unfold mergeOnchainEvent
    cases hrun : buildSecondaryIndicesForSigner self.db e b
        (self.state.put (makeOnchainEventPrimaryKey e) (.onChainEvent e)) with
    | error err s₂ =>
      rw [bind_of_error (hput.trans hrun)]
      rfl
    | ok _ s₂ =>
      rw [bind_of_ok (hput.trans hrun)]
      unfold StoreM.toOp mapError
      obtain ⟨err, herr, -⟩ | ⟨ev, s₃, hok, -, -, hview⟩ :=
        Store.commitTransaction_cases s₂ false (.new (.mergeOnChainEventBody e))
      · rw [herr]
        rfl
      · rw [hok]
        exact hview self.db k hk
  unfold EventStore.merge
  cases commits with
  | false => exact ⟨hview, rfl⟩
  | true => exact ⟨hview, rfl⟩

theorem EventStore.view_merge (he : IsSignerEvent fid key e)
    (hnew : self.view (makeOnchainEventPrimaryKey e) = none)
    (hkept : PointsTo self.view (makeSignerOnchainEventBySignerKey fid key) kept) {k : Bytes}
    (hk : k[0]? ≠ some RootPrefix.hubEvents.toByte) :
    (self.merge conflictFree (e, commits)).view k =
      (indexMove self.db key kept e).elim
        (Function.update self.view (makeOnchainEventPrimaryKey e) (some (.onChainEvent e))) (fun x =>
        Function.update (Function.update self.view (makeOnchainEventPrimaryKey e) (some (.onChainEvent e)))
          (makeSignerOnchainEventBySignerKey fid key) (some (.bytes (makeOnchainEventPrimaryKey x)))) k := by
  obtain ⟨b, hbody, rfl⟩ := he.body
  obtain rfl := he.fid
  -- the record is put first, and the old entry is still what it was
  have hkept' : PointsTo ((self.state.put (makeOnchainEventPrimaryKey e) (.onChainEvent e)).view self.db)
      (makeSignerOnchainEventBySignerKey e.fid b.key) kept := by
    rw [StoreState.view_put]
    refine hkept.congr (Function.update_of_ne (primaryKey_ne_signerKey e _ _).symm _ _) fun x hx => ?_
    rw [Function.update_of_ne]
    · exact hx
    · intro heq
      rw [heq] at hx
      cases hnew.symm.trans hx
  rw [(EventStore.merge_cases hbody hnew).1 k hk,
    stateOf_buildSecondaryIndicesForSigner hbody hkept']
  cases indexMove self.db b.key kept e with
  | none =>
    rw [Option.elim_none, Option.elim_none, StoreState.view_put]
    rfl
  | some x =>
    rw [Option.elim_some, Option.elim_some, StoreState.view_put, StoreState.view_put]
    rfl

theorem EventStore.view_merge_records (he : IsSignerEvent fid key e)
    (hnew : self.view (makeOnchainEventPrimaryKey e) = none)
    (hkept : PointsTo self.view (makeSignerOnchainEventBySignerKey fid key) kept) {k : Bytes}
    (hk : k[0]? ≠ some RootPrefix.hubEvents.toByte) (hindex : k ≠ makeSignerOnchainEventBySignerKey fid key) :
    (self.merge conflictFree (e, commits)).view k =
      Function.update self.view (makeOnchainEventPrimaryKey e) (some (.onChainEvent e)) k := by
  rw [view_merge he hnew hkept hk]
  cases indexMove self.db key kept e with
  | none => rfl
  | some x => rw [Option.elim_some, Function.update_of_ne hindex]

end step

/-! ## What a run leaves -/

/-- The events of a key merged so far are stored, no other ones of the key are, and the index points to one of
    them that is no reset. -/
structure Tracked (fid : UInt64) (key : Bytes) (merged : List OnChainEvent) (st : EventStore) : Prop where
  index : ∃ kept, PointsTo st.view (makeSignerOnchainEventBySignerKey fid key) kept ∧
    ∀ k ∈ kept, k ∈ merged ∧ k.signerType ≠ .adminReset
  stored : ∀ e ∈ merged, st.view (makeOnchainEventPrimaryKey e) = some (.onChainEvent e)
  known : ∀ k e, InSignerRange fid k → st.db k = some (.onChainEvent e) ∨ st.view k = some (.onChainEvent e) →
    e.signerKey = some key → e ∈ merged

section run

variable [DbIterator] {fid : UInt64} {key : Bytes} {merged : List OnChainEvent}

/-- The index moves to the event itself, or at a reset to one merged before that adds the key. -/
theorem Tracked.of_indexMove (h : Tracked fid key merged self) (he : IsSignerEvent fid key e)
    {x : OnChainEvent} (hx : indexMove self.db key kept e = some x) :
    (∀ k ∈ kept, k.blockNumber ≤ e.blockNumber) ∧
      (x = e ∧ e.signerType ≠ .adminReset ∨
        e.signerType = .adminReset ∧ x ∈ merged ∧ x.signerType = .add) := by
  unfold indexMove at hx
  split at hx
  · cases hx
  next hlater =>
  refine ⟨fun k hk => ?_, ?_⟩
  · rw [Bool.not_eq_true, Option.any_eq_false] at hlater
    simpa using hlater k hk
  split at hx
  next hreset =>
    cases hfind : findSignerAdd self.db e.fid key with
    | error err =>
      rw [hfind] at hx
      cases hx
    | ok found =>
      rw [hfind] at hx
      obtain rfl : found = some x := hx
      rw [he.fid] at hfind
      obtain ⟨k, hrange, hdb, hadd, hkey⟩ := stored_of_findSignerAdd hfind
      exact .inr ⟨hreset, h.known k x hrange (.inl hdb) hkey, hadd⟩
  next hreset => exact .inl ⟨(Option.some.inj hx).symm, hreset⟩

variable {conflictFree commits : Bool}

theorem Tracked.stored_merge (h : Tracked fid key merged self) (he : IsSignerEvent fid key e)
    (hnew : self.view (makeOnchainEventPrimaryKey e) = none) {x : OnChainEvent} (hx : x ∈ merged ++ [e]) :
    (self.merge conflictFree (e, commits)).view (makeOnchainEventPrimaryKey x) = some (.onChainEvent x) := by
  obtain ⟨kept, hkept, -⟩ := h.index
  rw [EventStore.view_merge_records he hnew hkept (primaryKey_ne_hubEvents x)
    (primaryKey_ne_signerKey x _ _)]
  obtain hx | hx := List.mem_append.1 hx
  · rw [Function.update_of_ne]
    · exact h.stored x hx
    · intro heq
      have hstored := h.stored x hx
      rw [heq, hnew] at hstored
      cases hstored
  · rw [List.mem_singleton.1 hx, Function.update_self]

variable (conflictFree commits)

/-- **One event moves the index**, or leaves it. -/
theorem Tracked.pointsTo_merge (h : Tracked fid key merged self) (he : IsSignerEvent fid key e)
    (hnew : self.view (makeOnchainEventPrimaryKey e) = none)
    (hkept : PointsTo self.view (makeSignerOnchainEventBySignerKey fid key) kept) :
    PointsTo (self.merge conflictFree (e, commits)).view (makeSignerOnchainEventBySignerKey fid key)
      ((indexMove self.db key kept e).or kept) := by
  have hindex :=
    @EventStore.view_merge _ _ _ _ _ _ conflictFree commits he hnew hkept _ (signerKey_ne_hubEvents fid key)
  cases hmove : indexMove self.db key kept e with
  | none =>
    rw [Option.none_or]
    rw [hmove, Option.elim_none, Function.update_of_ne (primaryKey_ne_signerKey e _ _).symm] at hindex
    refine hkept.congr hindex fun x hx => ?_
    rw [EventStore.view_merge_records he hnew hkept (primaryKey_ne_hubEvents x)
      (primaryKey_ne_signerKey x _ _), Function.update_of_ne]
    · exact hx
    · intro heq
      rw [heq] at hx
      cases hnew.symm.trans hx
  | some x =>
    rw [Option.some_or]
    rw [hmove, Option.elim_some, Function.update_self] at hindex
    refine ⟨hindex, h.stored_merge he hnew ?_⟩
    obtain ⟨-, ⟨rfl, -⟩ | ⟨-, hx, -⟩⟩ := h.of_indexMove he hmove
    · exact List.mem_append_right _ (.head _)
    · exact List.mem_append_left _ hx

/-- **One more event** is tracked, whatever its type. -/
theorem Tracked.merge (h : Tracked fid key merged self) (he : IsSignerEvent fid key e)
    (hnew : self.view (makeOnchainEventPrimaryKey e) = none) :
    Tracked fid key (merged ++ [e]) (self.merge conflictFree (e, commits)) := by
  obtain ⟨kept, hkept, hmem⟩ := h.index
  have hview :
      ∀ k x, InSignerRange fid k → (self.merge conflictFree (e, commits)).view k = some (.onChainEvent x) →
      x.signerKey = some key → x ∈ merged ++ [e] := by
    intro k x hrange hx hkey
    rw [EventStore.view_merge_records he hnew hkept hrange.ne_hubEvents hrange.ne_signerKey] at hx
    by_cases hk : k = makeOnchainEventPrimaryKey e
    · rw [hk, Function.update_self] at hx
      cases hx
      exact List.mem_append_right _ (.head _)
    · rw [Function.update_of_ne hk] at hx
      exact List.mem_append_left _ (h.known k x hrange (.inr hx) hkey)
  refine ⟨⟨_, h.pointsTo_merge conflictFree commits he hnew hkept, fun k hk => ?_⟩,
    fun x => h.stored_merge he hnew,
    fun k x hrange hx hkey => hx.elim (fun hx => ?_) fun hx => hview k x hrange hx hkey⟩
  · cases hmove : indexMove self.db key kept e with
    | none =>
      rw [hmove, Option.none_or] at hk
      exact ⟨List.mem_append_left _ (hmem k hk).1, (hmem k hk).2⟩
    | some x =>
      rw [hmove, Option.some_or] at hk
      obtain rfl := Option.mem_some.1 hk
      obtain ⟨-, ⟨rfl, hreset⟩ | ⟨-, hx, hadd⟩⟩ := h.of_indexMove he hmove
      · exact ⟨List.mem_append_right _ (.head _), hreset⟩
      · exact ⟨List.mem_append_left _ hx, by simp [hadd]⟩
  · obtain ⟨b, hbody, -⟩ := he.body
    rw [(EventStore.merge_cases hbody hnew).2] at hx
    cases commits with
    | false => exact List.mem_append_left _ (h.known k x hrange (.inl hx) hkey)
    | true => exact hview k x hrange hx hkey

/-- Signer events of a key, new and at different places, on a store that has none of the key. -/
structure SignerRun (fid : UInt64) (key : Bytes) (st : EventStore) (steps : List (OnChainEvent × Bool)) :
    Prop where
  start : Tracked fid key [] st
  events : ∀ step ∈ steps, IsSignerEvent fid key step.1
  places : steps.Pairwise fun a b => a.1.place ≠ b.1.place
  new : ∀ step ∈ steps, st.view (makeOnchainEventPrimaryKey step.1) = none

omit [DbIterator] in
theorem SignerRun.of_isPrefix {steps pre : List (OnChainEvent × Bool)} (h : SignerRun fid key self steps)
    (hpre : pre <+: steps) : SignerRun fid key self pre :=
  ⟨h.start, fun step hs => h.events step (hpre.subset hs), h.places.sublist hpre.sublist,
    fun step hs => h.new step (hpre.subset hs)⟩

theorem EventStore.mergeAll_concat (steps : List (OnChainEvent × Bool)) (step : OnChainEvent × Bool) :
    self.mergeAll conflictFree (steps ++ [step]) =
      (self.mergeAll conflictFree steps).merge conflictFree step :=
  List.foldl_concat ..

/-- All events of a run are tracked; what is not theirs stays. -/
theorem SignerRun.tracked {steps : List (OnChainEvent × Bool)} (h : SignerRun fid key self steps) :
    Tracked fid key (steps.map Prod.fst) (self.mergeAll conflictFree steps) ∧
      ∀ x, IsSignerEvent fid key x → (∀ step ∈ steps, step.1.place ≠ x.place) →
        (self.mergeAll conflictFree steps).view (makeOnchainEventPrimaryKey x) =
          self.view (makeOnchainEventPrimaryKey x) := by
  induction steps using List.reverseRecOn with
  | nil => exact ⟨h.start, fun _ _ _ => rfl⟩
  | append_singleton steps step ih =>
    obtain ⟨e, commits⟩ := step
    obtain ⟨htracked, hother⟩ := ih (h.of_isPrefix (List.prefix_append _ _))
    have he := h.events (e, commits) (by simp)
    have hplaces : ∀ step ∈ steps, step.1.place ≠ e.place := fun step hs =>
      (List.pairwise_append.1 h.places).2.2 step hs (e, commits) (by simp)
    have hnew : (self.mergeAll conflictFree steps).view (makeOnchainEventPrimaryKey e) = none :=
      (hother e he hplaces).trans (h.new (e, commits) (by simp))
    rw [EventStore.mergeAll_concat, List.map_append]
    refine ⟨htracked.merge conflictFree commits he hnew, fun x hx hplace => ?_⟩
    obtain ⟨kept, hkept, -⟩ := htracked.index
    have hxe : makeOnchainEventPrimaryKey x ≠ makeOnchainEventPrimaryKey e := fun heq =>
      hplace (e, commits) (by simp) (place_eq_of_primaryKey_eq hx he heq).symm
    rw [EventStore.view_merge_records he hnew hkept (primaryKey_ne_hubEvents x)
      (primaryKey_ne_signerKey x _ _), Function.update_of_ne hxe]
    exact hother x hx fun step hs => hplace step (List.mem_append_left _ hs)

theorem SignerRun.before_last {steps : List (OnChainEvent × Bool)} {step : OnChainEvent × Bool}
    (h : SignerRun fid key self (steps ++ [step])) :
    IsSignerEvent fid key step.1 ∧ Tracked fid key (steps.map Prod.fst) (self.mergeAll conflictFree steps) ∧
      (self.mergeAll conflictFree steps).view (makeOnchainEventPrimaryKey step.1) = none := by
  obtain ⟨htracked, hother⟩ := (h.of_isPrefix (List.prefix_append _ _)).tracked conflictFree
  have he := h.events step (by simp)
  refine ⟨he, htracked, (hother step.1 he fun s hs => ?_).trans (h.new step (by simp))⟩
  exact (List.pairwise_append.1 h.places).2.2 s hs step (by simp)

/-- **The last event of a run** takes the index, if it is no reset and none that is no reset is of a later
    block. -/
theorem SignerRun.last_wins {steps : List (OnChainEvent × Bool)} {step : OnChainEvent × Bool}
    (h : SignerRun fid key self (steps ++ [step])) (hreset : step.1.signerType ≠ .adminReset)
    (hmax : ∀ x ∈ steps.map Prod.fst, x.signerType ≠ .adminReset → x.blockNumber ≤ step.1.blockNumber) :
    PointsTo (self.mergeAll conflictFree (steps ++ [step])).view (makeSignerOnchainEventBySignerKey fid key)
      (some step.1) := by
  obtain ⟨he, htracked, hnew⟩ := h.before_last conflictFree
  obtain ⟨kept, hkept, hmem⟩ := htracked.index
  have hpoints := htracked.pointsTo_merge conflictFree step.2 he hnew hkept
  have hlater : (kept.any fun k => decide (step.1.blockNumber < k.blockNumber)) = false := by
    rw [Option.any_eq_false]
    intro k hk
    simpa using hmax k (hmem k hk).1 (hmem k hk).2
  rw [indexMove, hlater, if_neg Bool.false_ne_true, if_neg hreset, Option.some_or] at hpoints
  rw [EventStore.mergeAll_concat]
  exact hpoints

end run

/-! ## Samples -/

/-- An event of the key `7` of fid 1. -/
def sampleSignerEvent (type : SignerEventType) (block log : UInt32) : OnChainEvent where
  type := OnChainEventType.eventTypeSigner.toI32
  chainId := 10
  blockNumber := block
  blockHash := []
  blockTimestamp := 0
  transactionHash := []
  logIndex := log
  fid := 1
  body := some (.signerEventBody ⟨[7], 1, type.toI32, [], 1⟩)
  txIndex := 0
  version := 1

def emptyEventStore : EventStore := ⟨fun _ => none, ⟨Batch.empty, ⟨0, 0⟩⟩⟩

theorem emptyEventStore_tracked (fid : UInt64) (key : Bytes) : Tracked fid key [] emptyEventStore :=
  ⟨⟨none, rfl, (fun _ hk => nomatch hk)⟩, (fun _ he => nomatch he),
    fun _ _ _ hx => hx.elim (fun h => nomatch h) (fun h => nomatch h)⟩

end Hypersnap
