import Hypersnap.Storage.Pages
import Hypersnap.Store.OnChainEvents
import Hypersnap.Store.Scan

/-!
# `Store.FidIterator` — enumerating the registered fids

`FIDIterator` goes through the id-register events by fid and yields the fids with an event of type `Register`.
It fetches pages of 100 **stored events**, drops the events of other types, and takes a page of which nothing
is left for the end. So the enumeration is complete if and only if, from the start and from each registered
fid, the next `Register` event is among the next 100 events (`fidIterator_complete_iff`).

A key holds four bytes of a fid. The results are for fids that fit.
-/

namespace Hypersnap

variable {s fid : UInt64} {event : OnChainEvent}

/-! ## The iterator -/

/-- An id-register event of type `Register`. -/
def OnChainEvent.isRegister (event : OnChainEvent) : Bool :=
  match event.body with
  | some (.idRegisterEventBody body) => IdRegisterEventType.orDefault body.eventType = .register
  | _ => false

structure FIDIterator where
  lastFid : UInt64
  fids : List UInt64
deriving DecidableEq, Repr

namespace FIDIterator

def pageSizeMax : Nat := 100

def new (startFid : UInt64) : FIDIterator := ⟨startFid, []⟩

/-- A fid at the end of the queue, unless it is there already; the second component is the last one pushed. -/
def pushFid (s : List UInt64 × UInt64) (fid : UInt64) : List UInt64 × UInt64 :=
  if s.1.getLast? = some fid then s else (s.1 ++ [fid], fid)

/-- The callback of `fetch`. -/
def fetchEntry (_ : Bytes) (value : DbValue) (s : List UInt64 × UInt64) :
    Except OnchainEventStorageError (Bool × (List UInt64 × UInt64)) :=
  match decodeOnchainEvent value with
  | .error e => .error e
  | .ok event =>
    if event.isRegister then
      let s := pushFid s event.fid
      .ok (decide (pageSizeMax ≤ s.1.length), s)
    else .ok (false, s)

/-- The next page of fids, behind those in the queue. Nothing is returned if none was pushed. After an error
    the queue is not read again. -/
def fetch [DbIterator] (db : RocksDB) (self : FIDIterator) :
    Except OnchainEventStorageError (List UInt64 × Option UInt64) :=
  let typePrefix := makeOnchainEventTypePrefix .eventTypeIdRegister
  match forEachIteratorByPrefixPaged db (some (typePrefix ++ makeFidKey (self.lastFid + 1)))
      (some (incrementVecU8 typePrefix)) ⟨some pageSizeMax, none, false⟩ fetchEntry (self.fids, 0) with
  | .error e => .error e
  | .ok (_, (fids, lastFid)) => .ok (fids, if 0 < lastFid then some lastFid else none)

def next [DbIterator] (db : RocksDB) (self : FIDIterator) : Option (UInt64 × FIDIterator) :=
  let fids :=
    if self.fids.isEmpty then
      match fetch db self with
      | .ok (fids, some _) => fids
      | _ => []
    else self.fids
  match fids with
  | [] => none
  | fid :: rest => some (fid, ⟨fid, rest⟩)

/-- **Iterating to exhaustion** ends, and yields these fids. -/
@[mk_iff] inductive Yields [DbIterator] (db : RocksDB) : FIDIterator → List UInt64 → Prop
  | done {it : FIDIterator} (h : next db it = none) : Yields db it []
  | step {it it' : FIDIterator} {fid : UInt64} {fids : List UInt64} (h : next db it = some (fid, it'))
      (hrest : Yields db it' fids) : Yields db it (fid :: fids)

/-! ## The queue -/

section queue
variable [DbIterator] {db : RocksDB} {l : List UInt64}

theorem yields_of_next_none {it : FIDIterator} (h : next db it = none) : Yields db it l ↔ l = [] := by
  rw [yields_iff, h]
  simp

theorem yields_of_next_some {it it' : FIDIterator} (h : next db it = some (fid, it')) :
    Yields db it l ↔ ∃ l', Yields db it' l' ∧ l = fid :: l' := by
  rw [yields_iff, h]
  simp

theorem yields_queue (fids : List UInt64) (last : UInt64) :
    Yields db ⟨last, fids⟩ l ↔ ∃ l', Yields db ⟨fids.getLast?.getD last, []⟩ l' ∧ l = fids ++ l' := by
  induction fids generalizing last l with
  | nil => simp
  | cons fid rest ih =>
    have hnext : next db ⟨last, fid :: rest⟩ = some (fid, ⟨fid, rest⟩) := rfl
    have hlast : (fid :: rest).getLast?.getD last = rest.getLast?.getD fid := by
      cases rest with
      | nil => rfl
      | cons x rest => simp [List.getLast?_cons]
    rw [yields_of_next_some hnext, hlast]
    simp only [ih]
    constructor
    · rintro ⟨_, ⟨l', hl', rfl⟩, rfl⟩
      exact ⟨l', hl', rfl⟩
    · rintro ⟨l', hl', rfl⟩
      exact ⟨rest ++ l', ⟨l', hl', rfl⟩, rfl⟩

end queue

/-! ## A page -/

def pushAll (s : List UInt64 × UInt64) (events : List OnChainEvent) : List UInt64 × UInt64 :=
  events.foldl (fun s event => if event.isRegister then pushFid s event.fid else s) s

theorem length_pushFid (s : List UInt64 × UInt64) (fid : UInt64) :
    (pushFid s fid).1.length ≤ s.1.length + 1 := by
  unfold pushFid
  split <;> simp

def entryOfEvent (event : OnChainEvent) : Bytes × DbValue :=
  (makeOnchainEventPrimaryKey event, .onChainEvent event)

/-- **A page is made from the first 100 events**, whatever their types. -/
theorem iterate_fetchEntry (events : List OnChainEvent) {count : Nat} (hcount : count < pageSizeMax)
    {s : List UInt64 × UInt64} (hs : s.1.length ≤ count) :
    ∃ allDone, iterateWithOpts (some pageSizeMax) fetchEntry (events.map entryOfEvent) count s =
      .ok (allDone, pushAll s (events.take (pageSizeMax - count))) := by
  induction events generalizing count s with
  | nil => exact ⟨true, by simp [iterateWithOpts, pushAll]⟩
  | cons event events ih =>
    -- the queue after this event, which is longer by one at most
    let s' := if event.isRegister then pushFid s event.fid else s
    have hs' : s'.1.length ≤ count + 1 := by
      have := length_pushFid s event.fid
      simp only [s']
      split <;> omega
    have htake :
        (event :: events).take (pageSizeMax - count) = event :: events.take (pageSizeMax - (count + 1)) := by
      obtain ⟨n, hn⟩ : ∃ n, pageSizeMax - count = n + 1 := ⟨pageSizeMax - count - 1, by omega⟩
      rw [hn, List.take_succ_cons]
      congr 2
      omega
    have hpush : pushAll s ((event :: events).take (pageSizeMax - count)) =
        pushAll s' (events.take (pageSizeMax - (count + 1))) := by rw [htake]; rfl
    obtain ⟨stop, hentry, hstop⟩ :
        ∃ stop, fetchEntry (entryOfEvent event).1 (entryOfEvent event).2 s = .ok (stop, s') ∧
        (stop = true → pageSizeMax ≤ s'.1.length) := by
      simp only [fetchEntry, entryOfEvent, decodeOnchainEvent, s']
      split
      · exact ⟨_, rfl, of_decide_eq_true⟩
      · exact ⟨false, rfl, fun h => by cases h⟩
    have hfull (h : pageSizeMax ≤ count + 1) : pushAll s' (events.take (pageSizeMax - (count + 1))) = s' := by
      rw [Nat.sub_eq_zero_of_le h, List.take_zero]
      rfl
    rw [hpush, List.map_cons]
    cases stop with
    | true =>
      refine ⟨false, ?_⟩
      rw [hfull (Nat.le_trans (hstop rfl) hs')]
      simp only [entryOfEvent] at hentry
      simp only [entryOfEvent, iterateWithOpts, hentry]
    | false =>
      simp only [entryOfEvent] at hentry
      by_cases h : pageSizeMax ≤ count + 1
      · refine ⟨true, ?_⟩
        rw [hfull h]
        simp only [entryOfEvent, iterateWithOpts, hentry, h, if_true]
      · obtain ⟨allDone, hrest⟩ := ih (Nat.lt_of_not_le h) hs'
        refine ⟨allDone, ?_⟩
        simp only [iterateWithOpts, entryOfEvent, hentry, h, if_false]
        exact hrest

variable {events : List OnChainEvent}

/-- **The queue after a page** of events in the order of their fids: the registered fids, each once, in
    order. -/
theorem pushAll_spec (hsorted : events.Pairwise fun a b => a.fid ≤ b.fid) :
    (pushAll ([], 0) events).1.Pairwise (· < ·) ∧
      (∀ fid, fid ∈ (pushAll ([], 0) events).1 ↔ ∃ e ∈ events, e.isRegister = true ∧ e.fid = fid) ∧
      (pushAll ([], 0) events).2 = (pushAll ([], 0) events).1.getLast?.getD 0 := by
  -- induction on the events pushed so far
  induction events using List.reverseRecOn with
  | nil => exact ⟨.nil, by simp [pushAll], rfl⟩
  | append_singleton events event ih =>
    obtain ⟨hevents, -, hcross⟩ := List.pairwise_append.1 hsorted
    obtain ⟨hasc, hmem, hlast⟩ := ih hevents
    have hsnoc : pushAll ([], 0) (events ++ [event]) =
        if event.isRegister then pushFid (pushAll ([], 0) events) event.fid else pushAll ([], 0) events := by
      simp [pushAll, List.foldl_append]
    generalize pushAll ([], 0) events = s at *
    rw [hsnoc]
    cases hreg : event.isRegister with
    | false =>
      refine ⟨by simpa using hasc, fun fid => ?_, by simpa using hlast⟩
      simp [hmem, hreg, or_and_right, exists_or]
    | true =>
      have hle : ∀ fid ∈ s.1, fid ≤ event.fid := by
        intro fid hfid
        obtain ⟨e, he, -, rfl⟩ := (hmem fid).1 hfid
        exact hcross e he event (by simp)
      rw [if_pos rfl, pushFid]
      split
      next hsame =>
        refine ⟨hasc, fun fid => ?_, hlast⟩
        rw [hmem]
        constructor
        · rintro ⟨e, he, hr⟩
          exact ⟨e, List.mem_append_left _ he, hr⟩
        · rintro ⟨e, he, hr, rfl⟩
          rcases List.mem_append.1 he with he | he
          · exact ⟨e, he, hr, rfl⟩
          · cases List.mem_singleton.1 he
            exact (hmem _).1 (List.mem_of_getLast? hsame)
      next hnew =>
        refine ⟨?_, fun fid => ?_, by simp⟩
        · refine List.pairwise_append.2 ⟨hasc, List.pairwise_singleton _ _, fun fid hfid x hx => ?_⟩
          cases List.mem_singleton.1 hx
          -- below or at the last one, which is another
          refine UInt64.lt_of_le_of_ne (hle fid hfid) fun heq => hnew ?_
          rcases List.eq_nil_or_concat s.1 with hs | ⟨front, last, hs⟩
          · rw [hs] at hfid
            cases hfid
          · rw [List.concat_eq_append] at hs
            have hlast_le := hle last (by simp [hs])
            rw [hs] at hfid hasc ⊢
            rw [List.getLast?_concat, Option.some.injEq]
            rcases List.mem_append.1 hfid with hfront | hfid
            · have hlt := (List.pairwise_append.1 hasc).2.2 fid hfront last (by simp)
              rw [heq] at hlt
              exact absurd hlast_le (UInt64.not_le.2 hlt)
            · rw [← List.mem_singleton.1 hfid, heq]
        · simp only [List.mem_append, hmem, List.mem_singleton]
          constructor
          · rintro (⟨e, he, hr⟩ | rfl)
            · exact ⟨e, .inl he, hr⟩
            · exact ⟨event, .inr rfl, hreg, rfl⟩
          · rintro ⟨e, he | rfl, hr, rfl⟩
            · exact .inl ⟨e, he, hr, rfl⟩
            · exact .inr rfl

/-! ## The stored events -/

theorem mem_take_filter {α : Type} {p : α → Bool} {l : List α} {n : Nat} {a : α} (ha : a ∈ l.take n)
    (hp : p a = true) :
    a ∈ (l.filter p).take n := by
  have hmem : a ∈ (l.take n).filter p := List.mem_filter.2 ⟨ha, hp⟩
  rw [List.prefix_iff_eq_take.1 ((List.take_prefix n l).filter p)] at hmem
  refine (List.take_prefix_take_left ?_).subset hmem
  exact Nat.le_trans (List.length_filter_le _ _) (List.length_take_le _ _)

/-- **The content of the store** that matters here: what is stored under the type is an event under its own
    key. -/
def StoresIdRegisters (db : RocksDB) : Prop :=
  ∀ k v, makeOnchainEventTypePrefix .eventTypeIdRegister <+: k → db k = some v →
    ∃ event, (k, v) = entryOfEvent event

/-- The fid has a stored id-register event of type `Register`. -/
def Registered (db : RocksDB) (fid : UInt64) : Prop :=
  ∃ k event, makeOnchainEventTypePrefix .eventTypeIdRegister <+: k ∧ db k = some (.onChainEvent event) ∧
    event.isRegister = true ∧ event.fid = fid

/-- A fid and the one after it fit into the four bytes of a key. -/
def FidFits (fid : UInt64) : Prop := fid.toNat + 1 < 2 ^ 32

/-- The fids of the stored events fit. -/
def FidsFit (db : RocksDB) : Prop :=
  ∀ k event, makeOnchainEventTypePrefix .eventTypeIdRegister <+: k → db k = some (.onChainEvent event) →
    FidFits event.fid

section events
variable [DbIterator] {db : RocksDB}

/-- The stored id-register events, in key order. -/
def idRegisterEvents (db : RocksDB) : List OnChainEvent :=
  let typePrefix := makeOnchainEventTypePrefix .eventTypeIdRegister
  (DbIterator.scan db typePrefix (incrementVecU8 typePrefix)).filterMap fun e =>
    match e.2 with
    | .onChainEvent event => some event
    | _ => none

/-- Those of the fids above this one. -/
def eventsAfter (db : RocksDB) (fid : UInt64) : List OnChainEvent :=
  (idRegisterEvents db).filter fun event => fid < event.fid

omit [DbIterator] in
theorem inRange_typePrefix_iff {k : Bytes} : InRange (makeOnchainEventTypePrefix .eventTypeIdRegister)
        (incrementVecU8 (makeOnchainEventTypePrefix .eventTypeIdRegister)) k ↔
      makeOnchainEventTypePrefix .eventTypeIdRegister <+: k :=
  @inRange_iff_isPrefix [RootPrefix.onChainEvent.toByte, OnChainEventPostfix.onChainEvents.toByte]
    k 3 (by decide)

theorem scan_eq_map (hstore : StoresIdRegisters db) :
    DbIterator.scan db (makeOnchainEventTypePrefix .eventTypeIdRegister)
        (incrementVecU8 (makeOnchainEventTypePrefix .eventTypeIdRegister)) =
          (idRegisterEvents db).map entryOfEvent := by
  obtain ⟨events, hevents, -⟩ : ∃ events : List OnChainEvent, events.map entryOfEvent = DbIterator.scan db
      (makeOnchainEventTypePrefix .eventTypeIdRegister)
      (incrementVecU8 (makeOnchainEventTypePrefix .eventTypeIdRegister)) ∧ ∀ e ∈ events, True := by
    refine exists_map_eq fun e he => ?_
    obtain ⟨hrange, hv⟩ := DbIterator.inRange he
    obtain ⟨event, hevent⟩ := hstore e.1 e.2 (inRange_typePrefix_iff.1 hrange) hv
    exact ⟨event, trivial, hevent.symm⟩
  have hback : idRegisterEvents db = events := by
    simp only [idRegisterEvents, ← hevents, List.filterMap_map, entryOfEvent, Function.comp_def]
    exact List.filterMap_some
  rw [hback, hevents]

theorem mem_idRegisterEvents [DbIterator.Exact] (hdb : {k | (db k).isSome}.Finite)
    (hstore : StoresIdRegisters db) : event ∈ idRegisterEvents db ↔
      makeOnchainEventTypePrefix .eventTypeIdRegister <+: makeOnchainEventPrimaryKey event ∧
        db (makeOnchainEventPrimaryKey event) = some (.onChainEvent event) := by
  have hinj : Function.Injective entryOfEvent := fun a b h => DbValue.onChainEvent.inj (congrArg Prod.snd h)
  rw [← List.mem_map_of_injective hinj, ← scan_eq_map hstore, ← inRange_typePrefix_iff, entryOfEvent]
  exact mem_scan_iff (hdb.subset fun k hk => hk.2)

theorem registered_iff [DbIterator.Exact] (hdb : {k | (db k).isSome}.Finite) (hstore : StoresIdRegisters db) :
    Registered db fid ↔ ∃ event ∈ idRegisterEvents db, event.isRegister = true ∧ event.fid = fid := by
  constructor
  · rintro ⟨k, event, hk, hv, hreg, rfl⟩
    obtain ⟨event', heq⟩ := hstore k _ hk hv
    obtain ⟨rfl, hevent⟩ := Prod.mk.inj heq
    cases hevent
    exact ⟨event, (mem_idRegisterEvents hdb hstore).2 ⟨hk, hv⟩, hreg, rfl⟩
  · rintro ⟨event, hevent, hreg, rfl⟩
    obtain ⟨hk, hv⟩ := (mem_idRegisterEvents hdb hstore).1 hevent
    exact ⟨_, event, hk, hv, hreg, rfl⟩

omit [DbIterator] in
theorem primaryKey_of_isPrefix
    (h : makeOnchainEventTypePrefix .eventTypeIdRegister <+: makeOnchainEventPrimaryKey event) :
    makeOnchainEventPrimaryKey event = makeOnchainEventTypePrefix .eventTypeIdRegister ++
      (makeFidKey event.fid ++ (toBeBytes event.blockNumber ++ toBeBytes event.logIndex)) := by
  have htype : makeOnchainEventTypePrefix .eventTypeIdRegister =
      makeOnchainEventTypePrefix (.orDefault event.type) := by
    simp only [makeOnchainEventPrimaryKey, List.append_assoc] at h
    exact (List.prefix_of_prefix_length_le h (List.prefix_append _ _) (Nat.le_refl 3)).eq_of_length rfl
  simp only [makeOnchainEventPrimaryKey, htype, List.append_assoc]

omit [DbIterator] in
theorem compare_makeFidKey {a b : UInt64} (ha : a.toNat < 2 ^ 32) (hb : b.toNat < 2 ^ 32) :
    bytesCompare (makeFidKey a) (makeFidKey b) ≠ .gt ↔ a ≤ b := by
  rw [makeFidKey, makeFidKey, bytesCompare_toBeBytes]
  have hgt : compare a.toUInt32 b.toUInt32 = .gt ↔ b.toUInt32 < a.toUInt32 := Std.compare_eq_gt
  rw [ne_eq, hgt, UInt32.lt_iff_toNat_lt, UInt64.le_iff_toNat_le, UInt64.toNat_toUInt32,
    UInt64.toNat_toUInt32, Nat.mod_eq_of_lt ha, Nat.mod_eq_of_lt hb, Nat.not_lt]

omit [DbIterator] in
theorem le_key_iff (hs : FidFits s) (hfits : FidFits event.fid)
    (h : makeOnchainEventTypePrefix .eventTypeIdRegister <+: makeOnchainEventPrimaryKey event) :
    bytesCompare (makeOnchainEventTypePrefix .eventTypeIdRegister ++ makeFidKey (s + 1))
      (makeOnchainEventPrimaryKey event) ≠ .gt ↔ s < event.fid := by
  unfold FidFits at hs hfits
  have hsucc : (s + 1).toNat = s.toNat + 1 := by
    rw [UInt64.toNat_add]
    exact Nat.mod_eq_of_lt (by simp only [UInt64.reduceToNat]; omega)
  have hfid := @compare_makeFidKey (s + 1) event.fid (by omega) (by omega)
  rw [UInt64.le_iff_toNat_le, hsucc] at hfid
  rw [primaryKey_of_isPrefix h, bytesCompare_append_left, ← List.append_nil (makeFidKey (s + 1)),
    bytesCompare_append _ _ (by simp), UInt64.lt_iff_toNat_lt, ← Nat.succ_le_iff, ← hfid]
  cases bytesCompare (makeFidKey (s + 1)) (makeFidKey event.fid) with
  | lt => simp
  | eq => simpa using bytesCompare_nil_left _
  | gt => simp

variable [DbIterator.Exact]

theorem sorted_keys (hstore : StoresIdRegisters db) : (idRegisterEvents db).Pairwise fun a b =>
    bytesCompare (makeOnchainEventPrimaryKey a) (makeOnchainEventPrimaryKey b) = .lt := by
  have hsorted := DbIterator.Exact.sorted db (makeOnchainEventTypePrefix .eventTypeIdRegister)
    (incrementVecU8 (makeOnchainEventTypePrefix .eventTypeIdRegister))
  rwa [scan_eq_map hstore, List.pairwise_map] at hsorted

variable (hdb : {k | (db k).isSome}.Finite) (hstore : StoresIdRegisters db) (hfits : FidsFit db)
  {last : UInt64}
include hdb hstore hfits

omit hfits in
theorem fits_of_mem (hfits : FidsFit db) (h : event ∈ idRegisterEvents db) : FidFits event.fid :=
  have hmem := (mem_idRegisterEvents hdb hstore).1 h
  hfits _ _ hmem.1 hmem.2

theorem sorted_fids : (idRegisterEvents db).Pairwise fun a b => a.fid ≤ b.fid := by
  refine (sorted_keys hstore).imp_of_mem fun {a b} ha hb hlt => ?_
  have hfa := fits_of_mem hdb hstore hfits ha
  have hfb := fits_of_mem hdb hstore hfits hb
  unfold FidFits at hfa hfb
  rw [← compare_makeFidKey (by omega) (by omega)]
  intro hgt
  rw [primaryKey_of_isPrefix ((mem_idRegisterEvents hdb hstore).1 ha).1,
    primaryKey_of_isPrefix ((mem_idRegisterEvents hdb hstore).1 hb).1, bytesCompare_append_left,
    bytesCompare_append _ _ (by simp), hgt] at hlt
  cases hlt

/-- **A fetch scans the events after the last fid.** -/
theorem scan_eventsAfter (hs : FidFits s) :
    DbIterator.scan db (makeOnchainEventTypePrefix .eventTypeIdRegister ++ makeFidKey (s + 1))
        (incrementVecU8 (makeOnchainEventTypePrefix .eventTypeIdRegister)) =
          (eventsAfter db s).map entryOfEvent := by
  refine eq_of_mem_iff_of_ascending (DbIterator.Exact.sorted _ _ _)
    (List.pairwise_map.2 ((sorted_keys hstore).filter _)) ?_
  rintro ⟨k, v⟩
  rw [mem_scan_iff (hdb.subset fun k hk => hk.2)]
  have hmem {event : OnChainEvent} :
      event ∈ eventsAfter db s ↔ event ∈ idRegisterEvents db ∧ s < event.fid := by
    simp [eventsAfter]
  constructor
  · rintro ⟨⟨hge, hlt⟩, hv⟩
    -- the range begins after the prefix of the type
    have hle : bytesCompare (makeOnchainEventTypePrefix .eventTypeIdRegister) k ≠ .gt :=
      Ordering.isLE_iff_ne_gt.1 (bytesLe_trans _ _ _ (Ordering.isLE_iff_ne_gt.2 (le_append _ _))
        (Ordering.isLE_iff_ne_gt.2 hge))
    have hk := inRange_typePrefix_iff.1 ⟨hle, hlt⟩
    obtain ⟨event, heq⟩ := hstore k v hk hv
    cases heq
    have hevent := (mem_idRegisterEvents hdb hstore).2 ⟨hk, hv⟩
    refine List.mem_map.2 ⟨event, hmem.2 ⟨hevent, ?_⟩, rfl⟩
    exact (le_key_iff hs (fits_of_mem hdb hstore hfits hevent) hk).1 hge
  · intro h
    obtain ⟨event, hevent, heq⟩ := List.mem_map.1 h
    cases heq
    obtain ⟨hevent, hlt⟩ := hmem.1 hevent
    obtain ⟨hk, hv⟩ := (mem_idRegisterEvents hdb hstore).1 hevent
    exact ⟨⟨(le_key_iff hs (fits_of_mem hdb hstore hfits hevent) hk).2 hlt, (inRange_typePrefix_iff.2 hk).2⟩,
      hv⟩

def page (db : RocksDB) (s : UInt64) : List UInt64 :=
  (pushAll ([], 0) ((eventsAfter db s).take pageSizeMax)).1

theorem page_spec (s : UInt64) : (page db s).Pairwise (· < ·) ∧
    (∀ fid, fid ∈ page db s ↔ ∃ e ∈ (eventsAfter db s).take pageSizeMax, e.isRegister = true ∧ e.fid = fid) ∧
    (pushAll ([], 0) ((eventsAfter db s).take pageSizeMax)).2 = (page db s).getLast?.getD 0 :=
  pushAll_spec (((sorted_fids hdb hstore hfits).filter _).sublist (List.take_sublist _ _))

omit hdb hstore hfits [DbIterator.Exact] in
theorem lt_of_mem_eventsAfter (h : event ∈ eventsAfter db s) : s < event.fid := by
  simpa using (List.mem_filter.1 h).2

/-- **One page and the rest.** -/
theorem yields_page_iff (hs : FidFits s) {l : List UInt64} : Yields db ⟨s, []⟩ l ↔ page db s = [] ∧ l = [] ∨
      ∃ last l', (page db s).getLast? = some last ∧ Yields db ⟨last, []⟩ l' ∧ l = page db s ++ l' := by
  obtain ⟨-, hmem, hlast⟩ := page_spec hdb hstore hfits s
  obtain ⟨allDone, hiter⟩ := @iterate_fetchEntry (eventsAfter db s) 0 (by decide) ([], 0) (Nat.le_refl _)
  have hfetch : fetch db ⟨s, []⟩ = .ok (page db s, if 0 < (page db s).getLast?.getD 0 then
      some ((page db s).getLast?.getD 0) else none) := by
    rw [← scan_eventsAfter hdb hstore hfits hs] at hiter
    have hpage : forEachIteratorByPrefixPaged db
        (some (makeOnchainEventTypePrefix .eventTypeIdRegister ++ makeFidKey (s + 1)))
        (some (incrementVecU8 (makeOnchainEventTypePrefix .eventTypeIdRegister)))
          ⟨some pageSizeMax, none, false⟩ fetchEntry
        ([], 0) = .ok (allDone, pushAll ([], 0) ((eventsAfter db s).take pageSizeMax)) := hiter
    simp only [fetch, hpage, ← hlast]
    rfl
  cases hpage : (page db s).getLast? with
  | none =>
    have hnil : page db s = [] := List.getLast?_eq_none_iff.1 hpage
    rw [hpage, hnil] at hfetch
    have hnext : next db ⟨s, []⟩ = none := by simp [next, hfetch]
    rw [yields_of_next_none hnext]
    simp [hnil]
  | some last =>
    -- the last fid is above `s`, hence not 0
    have hmem_last := List.mem_of_getLast? hpage
    obtain ⟨e, he, -, rfl⟩ := (hmem last).1 hmem_last
    have hlt := lt_of_mem_eventsAfter (List.mem_of_mem_take he)
    have hpos : 0 < e.fid := UInt64.lt_of_le_of_lt UInt64.zero_le hlt
    rw [hpage, Option.getD_some, if_pos hpos] at hfetch
    have hne : page db s ≠ [] := List.ne_nil_of_mem hmem_last
    have hnext : next db ⟨s, []⟩ = next db ⟨s, page db s⟩ := by
      simp [next, hfetch, hne]
    rw [yields_iff, hnext, ← yields_iff, yields_queue, hpage]
    simp [hne]

/-! ## Completeness -/

/-- **The enumeration is complete**: iterating ends with the registered fids above the start, in increasing
    order. -/
def Complete (db : RocksDB) (start : UInt64) : Prop :=
  ∃ fids, Yields db (new start) fids ∧ fids.Pairwise (· < ·) ∧ ∀ fid, fid ∈ fids ↔
    start < fid ∧ Registered db fid

/-- **No long gaps**: from the start and from each registered fid after it, the next `Register` event is among
    the events of one page. -/
def GapsFit (db : RocksDB) (start : UInt64) : Prop :=
  ∀ s, s = start ∨ start < s ∧ Registered db s → (∃ e ∈ eventsAfter db s, e.isRegister = true) →
    ∃ e ∈ (eventsAfter db s).take pageSizeMax, e.isRegister = true

omit hfits in
theorem registered_after_iff :
    s < fid ∧ Registered db fid ↔ ∃ e ∈ eventsAfter db s, e.isRegister = true ∧ e.fid = fid := by
  rw [registered_iff hdb hstore]
  simp only [eventsAfter, List.mem_filter, decide_eq_true_eq]
  constructor
  · rintro ⟨hlt, e, he, hreg, rfl⟩
    exact ⟨e, ⟨he, hlt⟩, hreg, rfl⟩
  · rintro ⟨e, ⟨he, hlt⟩, hreg, rfl⟩
    exact ⟨hlt, e, he, hreg, rfl⟩

omit hdb hstore hfits [DbIterator.Exact] in
theorem eventsAfter_of_lt {s' : UInt64} (h : s < s') :
    eventsAfter db s' = (eventsAfter db s).filter fun e => s' < e.fid := by
  rw [eventsAfter, eventsAfter, List.filter_filter]
  refine List.filter_congr fun e _ => ?_
  rw [Bool.eq_iff_iff, Bool.and_eq_true, decide_eq_true_eq, decide_eq_true_eq]
  exact ⟨fun hlt => ⟨hlt, UInt64.lt_trans h hlt⟩, And.left⟩

/-- **A page has every registered fid up to its last one.** -/
theorem mem_page_iff {s last : UInt64} (hlast : (page db s).getLast? = some last) {fid : UInt64} :
    fid ∈ page db s ↔ (s < fid ∧ Registered db fid) ∧ fid ≤ last := by
  obtain ⟨hasc, hmem, -⟩ := page_spec hdb hstore hfits s
  have hsorted : (eventsAfter db s).Pairwise fun a b => a.fid ≤ b.fid :=
    (sorted_fids hdb hstore hfits).filter _
  constructor
  · intro hfid
    obtain ⟨e, he, hreg, rfl⟩ := (hmem fid).1 hfid
    refine ⟨(registered_after_iff hdb hstore).2 ⟨e, List.mem_of_mem_take he, hreg, rfl⟩, ?_⟩
    obtain ⟨front, hfront⟩ := List.getLast?_eq_some_iff.1 hlast
    rw [hfront] at hfid hasc
    rcases List.mem_append.1 hfid with h | h
    · exact UInt64.le_of_lt ((List.pairwise_append.1 hasc).2.2 _ h last (by simp))
    · rw [List.mem_singleton.1 h]
      exact UInt64.le_refl _
  · rintro ⟨hfid, hle⟩
    obtain ⟨e, he, hreg, rfl⟩ := (registered_after_iff hdb hstore).1 hfid
    obtain ⟨e', he', hreg', rfl⟩ := (hmem last).1 (List.mem_of_getLast? hlast)
    by_cases heq : e.fid = e'.fid
    · rw [heq]
      exact (hmem _).2 ⟨e', he', hreg', rfl⟩
    · -- an event of a smaller fid comes before, on the same page
      refine (hmem _).2 ⟨e, ?_, hreg, rfl⟩
      rw [← List.take_append_drop pageSizeMax (eventsAfter db s)] at he hsorted
      rcases List.mem_append.1 he with h | h
      · exact h
      · have := (List.pairwise_append.1 hsorted).2.2 e' he' e h
        exact absurd (UInt64.le_antisymm hle this) heq

theorem page_eq_nil_iff :
    page db s = [] ↔ ¬∃ e ∈ (eventsAfter db s).take pageSizeMax, e.isRegister = true := by
  obtain ⟨-, hmem, -⟩ := page_spec hdb hstore hfits s
  rw [List.eq_nil_iff_forall_not_mem]
  constructor
  · rintro h ⟨e, he, hreg⟩
    exact h _ ((hmem _).2 ⟨e, he, hreg, rfl⟩)
  · intro h fid hfid
    obtain ⟨e, he, hreg, -⟩ := (hmem fid).1 hfid
    exact h ⟨e, he, hreg⟩

/-- No long gaps from `s` on: none right after `s`, and none from the end of the page on. -/
theorem gapsFit_iff_of_page (hlast : (page db s).getLast? = some last) : GapsFit db s ↔ GapsFit db last := by
  have hlast_reg := (mem_page_iff hdb hstore hfits hlast).1 (List.mem_of_getLast? hlast)
  obtain ⟨-, hmem, -⟩ := page_spec hdb hstore hfits s
  obtain ⟨e, he, hreg, hefid⟩ := (hmem last).1 (List.mem_of_getLast? hlast)
  constructor
  · rintro h s' (rfl | ⟨hlt, hreg'⟩)
    · exact h s' (.inr hlast_reg.1)
    · exact h s' (.inr ⟨UInt64.lt_trans hlast_reg.1.1 hlt, hreg'⟩)
  · rintro h s' (rfl | ⟨hlt, hreg'⟩) hsome
    · exact ⟨e, he, hreg⟩
    · rcases UInt64.lt_or_le s' last with hbefore | hafter
      · -- the last event of the page is still among the first 100 after `s'`
        refine ⟨e, ?_, hreg⟩
        rw [eventsAfter_of_lt hlt]
        exact mem_take_filter he (by simpa [hefid] using hbefore)
      · by_cases heq : s' = last
        · exact h s' (.inl heq) hsome
        · exact h s' (.inr ⟨UInt64.lt_of_le_of_ne hafter (Ne.symm heq), hreg'⟩) hsome

/-- After a page, the enumeration is complete if and only if it is from the end of the page on. -/
theorem complete_iff_of_page (hs : FidFits s) (hlast : (page db s).getLast? = some last) :
    Complete db s ↔ Complete db last := by
  have hmem {fid : UInt64} := @mem_page_iff _ db _ hdb hstore hfits s last hlast fid
  have hlast_reg := hmem.1 (List.mem_of_getLast? hlast)
  have hyields {l : List UInt64} :
      Yields db (new s) l ↔ ∃ l', Yields db (new last) l' ∧ l = page db s ++ l' := by
    have hne : page db s ≠ [] := List.ne_nil_of_mem (List.mem_of_getLast? hlast)
    rw [new, yields_page_iff hdb hstore hfits hs, hlast]
    simp [hne, new]
  constructor
  · rintro ⟨l, hl, hasc, hl_mem⟩
    obtain ⟨l', hl', rfl⟩ := hyields.1 hl
    obtain ⟨-, hasc', hcross⟩ := List.pairwise_append.1 hasc
    refine ⟨l', hl', hasc', fun fid => ⟨fun hfid => ?_, fun hfid => ?_⟩⟩
    · exact ⟨hcross last (List.mem_of_getLast? hlast) fid hfid,
        ((hl_mem fid).1 (List.mem_append_right _ hfid)).2⟩
    · rcases List.mem_append.1 ((hl_mem fid).2 ⟨UInt64.lt_trans hlast_reg.1.1 hfid.1, hfid.2⟩) with h | h
      · exact absurd hfid.1 (UInt64.not_lt.2 (hmem.1 h).2)
      · exact h
  · rintro ⟨l', hl', hasc', hl_mem⟩
    refine ⟨page db s ++ l', hyields.2 ⟨l', hl', rfl⟩,
      List.pairwise_append.2 ⟨?_, hasc', fun a ha b hb => ?_⟩, fun fid => ?_⟩
    · exact (page_spec hdb hstore hfits s).1
    · exact UInt64.lt_of_le_of_lt (hmem.1 ha).2 ((hl_mem b).1 hb).1
    · rw [List.mem_append, hmem, hl_mem]
      constructor
      · rintro (h | h)
        · exact h.1
        · exact ⟨UInt64.lt_trans hlast_reg.1.1 h.1, h.2⟩
      · intro h
        rcases UInt64.lt_or_le last fid with hlt | hle
        · exact .inr ⟨hlt, h.2⟩
        · exact .inl ⟨h, hle⟩

theorem complete_iff_of_nil (hs : FidFits s) (hnil : page db s = []) :
    (Complete db s ↔ ∀ fid, ¬(s < fid ∧ Registered db fid)) ∧
      (GapsFit db s ↔ ∀ fid, ¬(s < fid ∧ Registered db fid)) := by
  have hyields {l : List UInt64} : Yields db (new s) l ↔ l = [] := by
    rw [new, yields_page_iff hdb hstore hfits hs]
    simp [hnil]
  constructor
  · constructor
    · rintro ⟨l, hl, -, hl_mem⟩ fid hfid
      have := (hl_mem fid).2 hfid
      rw [hyields.1 hl] at this
      cases this
    · intro hnone
      exact ⟨[], hyields.2 rfl, .nil, fun fid =>
        ⟨fun h => (List.not_mem_nil h).elim, fun h => (hnone fid h).elim⟩⟩
  · constructor
    · intro hgaps fid hfid
      obtain ⟨e, he, hreg, -⟩ := (registered_after_iff hdb hstore).1 hfid
      exact (page_eq_nil_iff hdb hstore hfits).1 hnil (hgaps s (.inl rfl) ⟨e, he, hreg⟩)
    · rintro hnone s' (rfl | hs') hsome
      · obtain ⟨e, he, hreg⟩ := hsome
        exact (hnone e.fid ((registered_after_iff hdb hstore).2 ⟨e, he, hreg, rfl⟩)).elim
      · exact (hnone s' hs').elim

/-- **The enumeration is complete if and only if there are no long gaps.** -/
theorem fidIterator_complete_iff {start : UInt64} (hstart : FidFits start) :
    Complete db start ↔ GapsFit db start := by
  -- induction on the number of events after the start, page by page
  induction hn : (eventsAfter db start).length using Nat.strong_induction_on generalizing start with
  | _ n ih =>
    cases hlast : (page db start).getLast? with
    | none =>
      have hnil := complete_iff_of_nil hdb hstore hfits hstart (List.getLast?_eq_none_iff.1 hlast)
      exact hnil.1.trans hnil.2.symm
    | some last =>
      obtain ⟨-, hmem, -⟩ := page_spec hdb hstore hfits start
      obtain ⟨e, he, -, rfl⟩ := (hmem last).1 (List.mem_of_getLast? hlast)
      have hevent := List.mem_of_mem_take he
      have hshort : (eventsAfter db e.fid).length < n := by
        rw [← hn, eventsAfter_of_lt (lt_of_mem_eventsAfter hevent)]
        exact List.length_filter_lt_length_iff_exists.2 ⟨e, hevent, by simp⟩
      rw [complete_iff_of_page hdb hstore hfits hstart hlast, gapsFit_iff_of_page hdb hstore hfits hlast]
      exact ih _ hshort (fits_of_mem hdb hstore hfits (List.mem_filter.1 hevent).1) rfl

end events

/-! ### A long gap -/

def sampleIdEvent (type : IdRegisterEventType) (fid : UInt64) (block : UInt32) : OnChainEvent where
  type := OnChainEventType.eventTypeIdRegister.toI32
  chainId := 10
  blockNumber := block
  blockHash := []
  blockTimestamp := 0
  transactionHash := []
  logIndex := 0
  fid := fid
  body := some (.idRegisterEventBody ⟨[1], type.toI32, [], []⟩)
  txIndex := 0
  version := 2

def sampleIdDb (events : List OnChainEvent) : RocksDB := fun k =>
  (events[fromBeBytes ((k.drop 7).take 4)]?.filter fun e =>
    makeOnchainEventPrimaryKey e == k).map .onChainEvent

theorem of_sampleIdDb {k : Bytes} {v : DbValue} (h : sampleIdDb events k = some v) :
    ∃ e ∈ events, (k, v) = entryOfEvent e := by
  obtain ⟨e, he, rfl⟩ := Option.map_eq_some_iff.1 h
  obtain ⟨he, hk⟩ := Option.filter_eq_some_iff.1 he
  exact ⟨e, List.mem_of_getElem? he, Prod.ext (eq_of_beq hk).symm rfl⟩

theorem sampleIdDb_finite (events : List OnChainEvent) : {k | (sampleIdDb events k).isSome}.Finite := by
  refine (events.map makeOnchainEventPrimaryKey).finite_toSet.subset fun k hk => ?_
  obtain ⟨v, hv⟩ := Option.isSome_iff_exists.1 hk
  obtain ⟨e, he, heq⟩ := of_sampleIdDb hv
  exact List.mem_map.2 ⟨e, he, (congrArg Prod.fst heq).symm⟩

/-- Two registered fids, with a transfer between them. -/
theorem fidIterator_complete_transfer :
    @Complete sortedScan (sampleIdDb [sampleIdEvent .register 1 0, sampleIdEvent .transfer 1 1,
      sampleIdEvent .register 3 2]) 0 := by
  let _ := sortedScan
  have := sortedScan_exact
  generalize hevents :
    [sampleIdEvent .register 1 0, sampleIdEvent .transfer 1 1, sampleIdEvent .register 3 2] = events
  have hstore : StoresIdRegisters (sampleIdDb events) := fun k v _ hv => (of_sampleIdDb hv).imp fun _ h => h.2
  have hfits : FidsFit (sampleIdDb events) := by
    intro k event _ hv
    obtain ⟨e, he, heq⟩ := of_sampleIdDb hv
    cases heq
    subst hevents
    simp only [List.mem_cons, List.not_mem_nil, or_false] at he
    rcases he with rfl | rfl | rfl <;> unfold FidFits <;> decide
  refine (fidIterator_complete_iff (sampleIdDb_finite events) hstore hfits (by unfold FidFits; decide)).2
    fun s _ hsome => ?_
  -- there are fewer events than fit on a page
  have hsub : eventsAfter (sampleIdDb events) s ⊆ events := by
    intro e he
    obtain ⟨-, hv⟩ := (mem_idRegisterEvents (sampleIdDb_finite events) hstore).1 (List.mem_filter.1 he).1
    obtain ⟨e', he', heq⟩ := of_sampleIdDb hv
    obtain rfl : e = e' := DbValue.onChainEvent.inj (congrArg Prod.snd heq)
    exact he'
  have hnodup : (eventsAfter (sampleIdDb events) s).Nodup := by
    refine ((sorted_keys hstore).imp fun {a b} hlt hab => ?_).filter _
    rw [hab, bytesCompare_eq_iff.2 rfl] at hlt
    cases hlt
  have hlen := (List.subperm_of_subset hnodup hsub).length_le
  rw [List.take_of_length_le (Nat.le_trans hlen (by subst hevents; decide))]
  exact hsome

/-- A user whose account was transferred a hundred times, and a registered user after it. -/
def longGap : List OnChainEvent :=
  (List.range 100).map (fun block => sampleIdEvent .transfer 1 block.toUInt32) ++
    [sampleIdEvent .register 2 100]

/-- **A registered fid is not enumerated**: the first page holds a hundred transfers, and the iterator ends
    there. -/
theorem fidIterator_misses_fid :
    @next (keyScan (longGap.map makeOnchainEventPrimaryKey)) (sampleIdDb longGap) (new 0) = none ∧
      Registered (sampleIdDb longGap) 2 := by
  let key := makeOnchainEventPrimaryKey (sampleIdEvent .register 2 100)
  have hregister : sampleIdDb longGap key = some (.onChainEvent (sampleIdEvent .register 2 100)) :=
    Option.map_eq_some_iff.2 ⟨_, by decide +kernel, rfl⟩
  exact ⟨by decide +kernel, key, _, by decide, hregister, rfl, rfl⟩

end FIDIterator

end Hypersnap
