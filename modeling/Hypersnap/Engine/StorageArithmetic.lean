import Hypersnap.Engine.Stores

/-!
# `Engine.StorageArithmetic` — slots and limits in 32 bits and over the integers

What a user may store is computed from the rents that have not expired, minus what the user lends, plus what
the user borrows, all in 32 bits. Rents expire and lends do not, so the subtraction may go below zero long
after the lend was admitted (`expiredRent_underflows`). While the rents that are still active cover the lends,
and the totals are small, slots and limits are what the same formulas give over the integers
(`storageSlot_exact_iff`).
-/

namespace Hypersnap

open EState

/-! ## Admission of a lend -/

/-- The storage check of a lend in shard 0 (`BlockEngine::validate_user_message`): on mainnet the lender has
    bought a thousand units of the type, and enough of them are available; with the fix one unit stays with
    the lender. -/
def lendAdmitted (network : FarcasterNetwork) (purchased available : StorageSlot) (numUnits : UInt64)
    (unitType : Int32) (storageLendingLimitFix : Bool) : Bool :=
  let unitType := StorageUnitType.orDefault unitType
  let required := if storageLendingLimitFix then numUnits + 1 else numUnits
  !(network == .mainnet && decide (purchased.unitsFor unitType < 1000)) &&
    !decide (available.unitsFor unitType < required.toUInt32)

/-! ## The formulas over the integers -/

/-- A storage slot whose numbers are integers. -/
structure IntSlot where
  unitsLegacy : Int
  units2024 : Int
  units2025 : Int
  invalidateAt : Int
deriving DecidableEq, Repr

namespace IntSlot

def unitsFor (slot : IntSlot) : StorageUnitType → Int
  | .unitTypeLegacy => slot.unitsLegacy
  | .unitType2024 => slot.units2024
  | .unitType2025 => slot.units2025

def fromStorageLend (numUnits : UInt64) (unitType : Int32) : IntSlot :=
  match StorageUnitType.orDefault unitType with
  | .unitTypeLegacy => ⟨numUnits.toNat, 0, 0, 4294967295⟩
  | .unitType2024 => ⟨0, numUnits.toNat, 0, 4294967295⟩
  | .unitType2025 => ⟨0, 0, numUnits.toNat, 4294967295⟩

def fromEvent (event : OnChainEvent) (network : FarcasterNetwork) : Except OnchainEventStorageError IntSlot :=
  match event.body with
  | some (.storageRentEventBody rent) =>
    let rentedAt : Int := event.blockTimestamp.toNat
    if rentedAt < 1724889600 then .ok ⟨rent.units.toNat, 0, 0, rentedAt + 31536000 * 3⟩
    else if rentedAt < (StorageSlot.unitType2024Cutoff network).toNat then
      .ok ⟨0, rent.units.toNat, 0, rentedAt + 31536000 * 2⟩
    else .ok ⟨0, 0, rent.units.toNat, rentedAt + 31536000⟩
  | _ => .error .invalidStorageRentEventType

def isActive (now : Int) (slot : IntSlot) : Bool := decide (now < slot.invalidateAt)

def merge (now : Int) (slot other : IntSlot) : IntSlot :=
  if !other.isActive now then slot
  else if !slot.isActive now then other
  else
    ⟨slot.unitsLegacy + other.unitsLegacy, slot.units2024 + other.units2024, slot.units2025 + other.units2025,
      min slot.invalidateAt other.invalidateAt⟩

def sub (now : Int) (slot other : IntSlot) : IntSlot :=
  if other.isActive now then
    { slot with
      unitsLegacy := slot.unitsLegacy - other.unitsLegacy
      units2024 := slot.units2024 - other.units2024
      units2025 := slot.units2025 - other.units2025 }
  else slot

def mergeRents (now : Int) (network : FarcasterNetwork) :
    List OnChainEvent → IntSlot → Except OnchainEventStorageError IntSlot
  | [], slot => .ok slot
  | event :: rest, slot => do
    let rent ← fromEvent event network
    mergeRents now network rest (slot.merge now rent)

def lendSlot (m : Message) : Option IntSlot :=
  match m.data.bind (·.body) with
  | some (.lendStorageBody _ numUnits unitType) => some (.fromStorageLend numUnits unitType)
  | _ => none

def addLends (now : Int) (lends : List Message) : IntSlot :=
  (lends.filterMap lendSlot).foldl (merge now) ⟨0, 0, 0, 0⟩

end IntSlot

/-- What the slot of a user is computed from: the stored rents and those of the transaction at hand, the lends
    of the user, and the lends to the user unless they do not count. -/
structure SlotInputs where
  rents : List OnChainEvent
  lends : List Message
  borrows : Option (List Message)

namespace SlotInputs

/-- What is borrowed; if it does not count, a slot of no units that never expires. -/
def intBorrowed (inputs : SlotInputs) (now : Int) : IntSlot :=
  match inputs.borrows with
  | some borrows => IntSlot.addLends now borrows
  | none => ⟨0, 0, 0, 4294967295⟩

/-- Purchased minus lent plus borrowed, over the integers. -/
def intSlot (inputs : SlotInputs) (now : Int) (network : FarcasterNetwork) :
    Except OnchainEventStorageError IntSlot := do
  let purchased ← IntSlot.mergeRents now network inputs.rents ⟨0, 0, 0, 0⟩
  .ok ((purchased.sub now (IntSlot.addLends now inputs.lends)).merge now (inputs.intBorrowed now))

/-- The same, in 32 bits, as the code has it. -/
def slot (inputs : SlotInputs) (now : UInt64) (network : FarcasterNetwork) :
    Except OnchainEventStorageError StorageSlot := do
  let purchased ← mergeRents now network inputs.rents ⟨0, 0, 0, 0⟩
  let borrowed := match inputs.borrows with
    | some borrows => StorageLendStore.addLends now borrows
    | none => ⟨0, 0, 0, 4294967295⟩
  .ok ((purchased.sub now (StorageLendStore.addLends now inputs.lends)).merge now borrowed)

end SlotInputs

def StoreLimits.intMaxMessages (limits : StoreLimits) (slot : IntSlot) (storeType : StoreType) : Int :=
  ([.unitType2025, .unitType2024, .unitTypeLegacy].map fun unitType =>
    (((limits.forType unitType).forStoreType storeType).toNat : Int) * slot.unitsFor unitType).sum

/-! ## What the code reads -/

section inputs

variable [Platform] (env : EngineEnv)

/-- The lends an index of a borrower leads to. -/
def borrowedLends (store : Store) (db : RocksDB) (fid : UInt64) : Except Failure (List (Option Message)) :=
  let start := RootPrefix.lendStorageByRecipient.toByte :: makeFidKey fid
  (DbIterator.scan db start (incrementVecU8 start)).mapM fun e => StorageLendStore.lendAt store db e.1

/-- The inputs are what the database holds for the user. -/
structure ReadsInputs (fid : UInt64) (countBorrowed : Bool) (pending : List OnChainEvent)
    (inputs : SlotInputs) : Prop where
  rents : ∃ stored, getOnchainEvents env.db .eventTypeStorageRent fid = .ok stored ∧
    inputs.rents = stored ++ pending.filter fun e =>
      e.fid == fid && OnChainEventType.orDefault e.type == .eventTypeStorageRent
  lends : (env.store .legacy storageLendStoreDef).getAddsByFid env.db fid (fun _ => true) = .ok inputs.lends
  borrows : if countBorrowed then
    ∃ found, borrowedLends (env.store .legacy storageLendStoreDef) env.db fid = .ok found ∧
      inputs.borrows = some found.reduceOption
    else inputs.borrows = none

end inputs

/-! ## Slots modulo 2³² -/

namespace IntSlot

variable {now : Int} {a b : IntSlot} {u : StorageUnitType}

/-- The units that count at the time `now`. -/
def counted (now : Int) (slot : IntSlot) (u : StorageUnitType) : Int :=
  if slot.isActive now then slot.unitsFor u else 0

/-- The units of a type in the slots that have not expired. -/
def activeUnits (now : Int) (slots : List IntSlot) (u : StorageUnitType) : Int :=
  (slots.map fun slot => slot.counted now u).sum

/-- A slot that has expired has no units left. -/
def Empties (now : Int) (slot : IntSlot) : Prop := slot.isActive now = false → ∀ u, slot.unitsFor u = 0

theorem Empties.counted_eq (h : a.Empties now) (u : StorageUnitType) : a.counted now u = a.unitsFor u := by
  unfold counted
  split
  · rfl
  · next hactive => exact (h (Bool.eq_false_iff.2 hactive) u).symm

theorem empties_zero : (⟨0, 0, 0, 0⟩ : IntSlot).Empties now := by
  rintro - (_ | _ | _) <;> rfl

/-- **What a merge counts** is the sum of what the two slots count, and a merge keeps expired slots empty. -/
theorem merge_spec (now : Int) (a b : IntSlot) :
    (a.merge now b).isActive now = (a.isActive now || b.isActive now) ∧
      (∀ u, (a.merge now b).counted now u = a.counted now u + b.counted now u) ∧
      (a.Empties now → (a.merge now b).Empties now) := by
  unfold merge
  cases hb : b.isActive now with
  | false =>
    refine ⟨by simp, fun u => ?_, id⟩
    simp [counted, hb]
  | true =>
    cases ha : a.isActive now with
    | false =>
      refine ⟨by simpa using hb, fun u => ?_, fun _ hinactive => nomatch hb.symm.trans hinactive⟩
      simp [counted, ha]
    | true =>
      have hactive :
          ∀ x y z, (⟨x, y, z, min a.invalidateAt b.invalidateAt⟩ : IntSlot).isActive now = true := by
        intro x y z
        simp only [isActive, decide_eq_true_eq] at *
        omega
      simp only [Bool.not_true, Bool.false_eq_true, if_false, Bool.or_true]
      refine ⟨hactive _ _ _, fun u => ?_, fun _ hinactive => nomatch (hactive _ _ _).symm.trans hinactive⟩
      rw [counted, if_pos (hactive _ _ _), counted, counted, if_pos ha, if_pos hb]
      cases u <;> rfl

theorem foldl_merge_spec (now : Int) (slots : List IntSlot) (a : IntSlot) :
    (slots.foldl (merge now) a).isActive now = (a.isActive now || slots.any (isActive now)) ∧
      (∀ u, (slots.foldl (merge now) a).counted now u = a.counted now u + activeUnits now slots u) ∧
      (a.Empties now → (slots.foldl (merge now) a).Empties now) := by
  induction slots generalizing a with
  | nil => exact ⟨by simp, fun u => (Int.add_zero _).symm, id⟩
  | cons slot rest ih =>
    obtain ⟨hactive, hcounted, hempties⟩ := merge_spec now a slot
    obtain ⟨hactive', hcounted', hempties'⟩ := ih (a.merge now slot)
    refine ⟨?_, fun u => ?_, fun h => hempties' (hempties h)⟩
    · rw [List.foldl_cons, hactive', hactive, List.any_cons, Bool.or_assoc]
    · rw [List.foldl_cons, hcounted', hcounted, Int.add_assoc]
      rfl

theorem foldl_merge_zero (now : Int) (hnow : 0 ≤ now) (slots : List IntSlot) :
    (slots.foldl (merge now) ⟨0, 0, 0, 0⟩).isActive now = slots.any (isActive now) ∧
      (∀ u, (slots.foldl (merge now) ⟨0, 0, 0, 0⟩).unitsFor u = activeUnits now slots u) ∧
      (slots.foldl (merge now) ⟨0, 0, 0, 0⟩).Empties now := by
  obtain ⟨hactive, hcounted, hempties⟩ := foldl_merge_spec now slots ⟨0, 0, 0, 0⟩
  have hzero : (⟨0, 0, 0, 0⟩ : IntSlot).isActive now = false := by
    simpa [isActive] using hnow
  refine ⟨by rw [hactive, hzero, Bool.false_or], fun u => ?_, hempties empties_zero⟩
  rw [← (hempties empties_zero).counted_eq u, hcounted, counted, if_neg (by simp [hzero]), Int.zero_add]

end IntSlot

namespace StorageSlot

variable {now : UInt64} {a b : StorageSlot} {i j : IntSlot}

def toInt (slot : StorageSlot) : IntSlot :=
  ⟨slot.unitsLegacy.toNat, slot.units2024.toNat, slot.units2025.toNat, slot.invalidateAt.toNat⟩

theorem toInt_unitsFor (slot : StorageSlot) (u : StorageUnitType) :
    slot.toInt.unitsFor u = (slot.unitsFor u).toNat := by
  cases u <;> rfl

/-- The units are those of the integer slot modulo 2³², and the slot expires at the same time. -/
structure Agrees (slot : StorageSlot) (int : IntSlot) : Prop where
  units : ∀ u, ((slot.unitsFor u).toNat : Int) = int.unitsFor u % 2 ^ 32
  expiry : (slot.invalidateAt.toNat : Int) = int.invalidateAt

theorem Agrees.isActive (hnow : now.toNat < 2 ^ 32) (h : a.Agrees i) :
    i.isActive now.toNat = a.isActive now := by
  have htime : now.toUInt32.toNat = now.toNat := by
    rw [UInt64.toNat_toUInt32]
    omega
  simp only [IntSlot.isActive, StorageSlot.isActive, ← h.expiry, UInt32.lt_iff_toNat_lt, htime, Nat.cast_lt]

theorem toNat_min (x y : UInt32) : ((min x y).toNat : Int) = min (x.toNat : Int) (y.toNat : Int) := by
  by_cases h : x ≤ y
  · rw [show min x y = x from if_pos h]
    have := UInt32.le_iff_toNat_le.1 h
    omega
  · rw [show min x y = y from if_neg h]
    have := UInt32.lt_iff_toNat_lt.1 (UInt32.not_le.1 h)
    omega

theorem Agrees.merge (hnow : now.toNat < 2 ^ 32) (ha : a.Agrees i) (hb : b.Agrees j) :
    (a.merge now b).Agrees (i.merge now.toNat j) := by
  unfold StorageSlot.merge IntSlot.merge
  rw [ha.isActive hnow, hb.isActive hnow]
  split
  · exact ha
  split
  · exact hb
  · refine ⟨fun u => ?_, ?_⟩
    · have hu : ((a.unitsFor u + b.unitsFor u).toNat : Int) = (i.unitsFor u + j.unitsFor u) % 2 ^ 32 := by
        have hau := ha.units u
        have hbu := hb.units u
        rw [UInt32.toNat_add]
        omega
      cases u <;> exact hu
    · rw [toNat_min, ha.expiry, hb.expiry]

theorem Agrees.sub (hnow : now.toNat < 2 ^ 32) (ha : a.Agrees i) (hb : b.Agrees j) :
    (a.sub now b).Agrees (i.sub now.toNat j) := by
  unfold StorageSlot.sub IntSlot.sub
  rw [hb.isActive hnow]
  split
  · refine ⟨fun u => ?_, ha.expiry⟩
    have hu : ((a.unitsFor u - b.unitsFor u).toNat : Int) = (i.unitsFor u - j.unitsFor u) % 2 ^ 32 := by
      have hau := ha.units u
      have hbu := hb.units u
      have hlt := (b.unitsFor u).toNat_lt
      rw [UInt32.toNat_sub]
      omega
    cases u <;> exact hu
  · exact ha

theorem agrees_zero : (⟨0, 0, 0, 0⟩ : StorageSlot).Agrees ⟨0, 0, 0, 0⟩ := by
  refine ⟨?_, rfl⟩
  rintro (_ | _ | _) <;> rfl

theorem Agrees.toInt_eq_iff (h : a.Agrees i) :
    a.toInt = i ↔ ∀ u, 0 ≤ i.unitsFor u ∧ i.unitsFor u < 2 ^ 32 := by
  constructor
  · rintro rfl u
    have hlt := (a.unitsFor u).toNat_lt
    rw [toInt_unitsFor]
    omega
  · intro hrange
    have hunits : ∀ u, ((a.unitsFor u).toNat : Int) = i.unitsFor u := by
      intro u
      obtain ⟨hlow, hhigh⟩ := hrange u
      rw [h.units u, Int.emod_eq_of_lt hlow hhigh]
    obtain ⟨legacy, u2024, u2025, expiry⟩ := i
    have hl := hunits .unitTypeLegacy
    have h4 := hunits .unitType2024
    have h5 := hunits .unitType2025
    have he := h.expiry
    simp only [unitsFor, IntSlot.unitsFor] at hl h4 h5 he
    simp only [toInt, hl, h4, h5, he]

theorem agrees_foldl_merge (hnow : now.toNat < 2 ^ 32) {slots : List StorageSlot} {ints : List IntSlot}
    (hslots : List.Forall₂ Agrees slots ints) (ha : a.Agrees i) :
    (slots.foldl (StorageSlot.merge now) a).Agrees (ints.foldl (IntSlot.merge now.toNat) i) := by
  induction hslots generalizing a i with
  | nil => exact ha
  | cons h _ ih => exact ih (ha.merge hnow h)

theorem agrees_fromStorageLend (numUnits : UInt64) (unitType : Int32) :
    (fromStorageLend numUnits unitType).Agrees (.fromStorageLend numUnits unitType) := by
  have hunits : (numUnits.toUInt32.toNat : Int) = (numUnits.toNat : Int) % 2 ^ 32 := by
    rw [UInt64.toNat_toUInt32]
    omega
  unfold fromStorageLend IntSlot.fromStorageLend
  cases StorageUnitType.orDefault unitType <;> refine ⟨?_, rfl⟩ <;> rintro (_ | _ | _) <;>
    first | exact hunits | rfl

theorem agrees_fromEvent {event : OnChainEvent} {network : FarcasterNetwork}
    (htime : event.blockTimestamp.toNat + 31536000 < 2 ^ 32) (h : fromEvent event network = .ok a) :
    ∃ int, IntSlot.fromEvent event network = .ok int ∧ a.Agrees int := by
  have hrented : event.blockTimestamp.toUInt32.toNat = event.blockTimestamp.toNat := by
    rw [UInt64.toNat_toUInt32]
    omega
  have hcutoff : (unitType2024Cutoff network).toUInt64.toNat = (unitType2024Cutoff network).toNat := rfl
  have hlate : (unitType2024Cutoff network).toNat ≤ 1752685200 := by
    unfold unitType2024Cutoff
    split <;> decide
  have hunits : ∀ units : UInt32, (units.toNat : Int) = (units.toNat : Int) % 2 ^ 32 := by
    intro units
    have hlt := units.toNat_lt
    omega
  have hexpiry : ∀ years : UInt32, event.blockTimestamp.toNat + years.toNat < 2 ^ 32 →
      ((event.blockTimestamp.toUInt32 + years).toNat : Int) = event.blockTimestamp.toNat + years.toNat := by
    intro years hfits
    rw [UInt32.toNat_add, hrented, Nat.mod_eq_of_lt hfits, Int.natCast_add]
  obtain ⟨rent, hbody⟩ : ∃ rent, event.body = some (.storageRentEventBody rent) := by
    unfold fromEvent at h
    split at h
    · exact ⟨_, ‹_›⟩
    · cases h
  simp only [fromEvent, hbody, UInt64.lt_iff_toNat_lt, hcutoff] at h
  simp only [IntSlot.fromEvent, hbody]
  split at h
  case isTrue hlegacy =>
    change event.blockTimestamp.toNat < 1724889600 at hlegacy
    cases h
    refine ⟨_, if_pos (by omega), ?_, hexpiry (oneYearInSeconds * 3) ?_⟩
    · rintro (_ | _ | _) <;> exact hunits _
    · change event.blockTimestamp.toNat + 94608000 < 2 ^ 32
      omega
  case isFalse hlegacy =>
    change ¬event.blockTimestamp.toNat < 1724889600 at hlegacy
    rw [if_neg (by omega)]
    split at h
    case isTrue h2024 =>
      cases h
      refine ⟨_, if_pos (by omega), ?_, hexpiry (oneYearInSeconds * 2) ?_⟩
      · rintro (_ | _ | _) <;> exact hunits _
      · change event.blockTimestamp.toNat + 63072000 < 2 ^ 32
        omega
    case isFalse h2024 =>
      cases h
      refine ⟨_, if_neg (by omega), ?_, hexpiry oneYearInSeconds htime⟩
      rintro (_ | _ | _) <;> exact hunits _

end StorageSlot

/-! ## Rents and lends -/

section rents

variable {now : UInt64} {network : FarcasterNetwork} {rents : List OnChainEvent}

theorem agrees_mergeRents (hnow : now.toNat < 2 ^ 32) {slot out : StorageSlot} {int : IntSlot}
    (htimes : ∀ event ∈ rents, event.blockTimestamp.toNat + 31536000 < 2 ^ 32) (hslot : slot.Agrees int)
    (h : mergeRents now network rents slot = .ok out) :
    ∃ intOut, IntSlot.mergeRents now.toNat network rents int = .ok intOut ∧ out.Agrees intOut := by
  induction rents generalizing slot int with
  | nil =>
    cases h
    exact ⟨int, rfl, hslot⟩
  | cons event rest ih =>
    obtain ⟨rent, hrent, hrest⟩ := except_bind_eq_ok.1 h
    obtain ⟨intRent, hintRent, hagrees⟩ :=
      StorageSlot.agrees_fromEvent (htimes event List.mem_cons_self) hrent
    obtain ⟨intOut, hintOut, hout⟩ :=
      ih (fun e he => htimes e (List.mem_cons_of_mem _ he)) (hslot.merge hnow hagrees) hrest
    refine ⟨intOut, ?_, hout⟩
    rw [IntSlot.mergeRents, hintRent]
    exact hintOut

def rentSlots (network : FarcasterNetwork) (rents : List OnChainEvent) : List IntSlot :=
  rents.filterMap fun event => (IntSlot.fromEvent event network).toOption

theorem mergeRents_eq_foldl {time : Int} {slot out : IntSlot}
    (h : IntSlot.mergeRents time network rents slot = .ok out) :
    out = (rentSlots network rents).foldl (IntSlot.merge time) slot := by
  induction rents generalizing slot with
  | nil =>
    cases h
    rfl
  | cons event rest ih =>
    obtain ⟨rent, hrent, hrest⟩ := except_bind_eq_ok.1 h
    have hslots : rentSlots network (event :: rest) = rent :: rentSlots network rest := by
      rw [rentSlots, List.filterMap_cons, hrent]
      rfl
    rw [ih hrest, hslots, List.foldl_cons]

theorem mergeRents_append (first second : List OnChainEvent) (slot : StorageSlot) :
    mergeRents now network (first ++ second) slot =
      (mergeRents now network first slot).bind (mergeRents now network second) := by
  induction first generalizing slot with
  | nil => rfl
  | cons event rest ih =>
    rw [List.cons_append, mergeRents, mergeRents]
    cases StorageSlot.fromEvent event network with
    | error e => rfl
    | ok rent => exact ih _

theorem agrees_lendSlot (m : Message) : (StorageLendStore.lendSlot m = none ∧ IntSlot.lendSlot m = none) ∨
      ∃ slot int, StorageLendStore.lendSlot m = some slot ∧ IntSlot.lendSlot m = some int ∧
      slot.Agrees int := by
  unfold StorageLendStore.lendSlot
  split
  · next hbody =>
    refine .inr ⟨_, _, rfl, ?_, StorageSlot.agrees_fromStorageLend _ _⟩
    rw [IntSlot.lendSlot, hbody]
  · next hbody =>
    refine .inl ⟨rfl, ?_⟩
    rw [IntSlot.lendSlot]
    split
    · next hlend => exact absurd hlend (hbody _ _ _)
    · rfl

theorem agrees_addLends (hnow : now.toNat < 2 ^ 32) (lends : List Message) :
    (StorageLendStore.addLends now lends).Agrees (IntSlot.addLends now.toNat lends) := by
  refine StorageSlot.agrees_foldl_merge hnow ?_ StorageSlot.agrees_zero
  induction lends with
  | nil => exact .nil
  | cons m rest ih =>
    rcases agrees_lendSlot m with ⟨hslot, hint⟩ | ⟨slot, int, hslot, hint, hagrees⟩
    · rwa [List.filterMap_cons_none hslot, List.filterMap_cons_none hint]
    · rw [List.filterMap_cons_some hslot, List.filterMap_cons_some hint]
      exact .cons hagrees ih

end rents

/-! ## The slot -/

namespace SlotInputs

variable {inputs : SlotInputs} {now : UInt64} {network : FarcasterNetwork} {time : Int}

/-- The clock and the ends of the rents fit into 32 bits. -/
def TimesFit (inputs : SlotInputs) (now : UInt64) : Prop :=
  now.toNat < 2 ^ 32 ∧ ∀ event ∈ inputs.rents, event.blockTimestamp.toNat + 31536000 < 2 ^ 32

/-- The code's slot agrees with the integer one modulo 2³². -/
theorem slot_agrees (htimes : inputs.TimesFit now) {slot : StorageSlot}
    (h : inputs.slot now network = .ok slot) :
    ∃ int, inputs.intSlot now.toNat network = .ok int ∧ slot.Agrees int := by
  obtain ⟨hnow, hrents⟩ := htimes
  obtain ⟨purchased, hpurchased, hslot⟩ := except_bind_eq_ok.1 h
  obtain ⟨intPurchased, hint, hagrees⟩ := agrees_mergeRents hnow hrents StorageSlot.agrees_zero hpurchased
  cases hslot
  refine ⟨_, except_bind_eq_ok.2 ⟨intPurchased, hint, rfl⟩, ?_⟩
  refine (hagrees.sub hnow (agrees_addLends hnow inputs.lends)).merge hnow ?_
  unfold intBorrowed
  cases inputs.borrows with
  | some borrows => exact agrees_addLends hnow borrows
  | none =>
    refine ⟨?_, rfl⟩
    rintro (_ | _ | _) <;> rfl

/-- The lends to the user that count. -/
def borrowSlots (inputs : SlotInputs) : List IntSlot :=
  match inputs.borrows with
  | some borrows => borrows.filterMap IntSlot.lendSlot
  | none => [⟨0, 0, 0, 4294967295⟩]

/-- **What the sums say a user has.** With an active rent: the units of the active rents, minus those lent,
    plus those borrowed. Without one, borrowed units stand alone, and without those the lends stand against
    nothing. -/
def available (inputs : SlotInputs) (now : Int) (network : FarcasterNetwork) (u : StorageUnitType) : Int :=
  let rented := rentSlots network inputs.rents
  let lent := inputs.lends.filterMap IntSlot.lendSlot
  if !rented.any (IntSlot.isActive now) && inputs.borrowSlots.any (IntSlot.isActive now) then
    IntSlot.activeUnits now inputs.borrowSlots u
  else
    IntSlot.activeUnits now rented u - IntSlot.activeUnits now lent u +
      IntSlot.activeUnits now inputs.borrowSlots u

theorem intBorrowed_spec (inputs : SlotInputs) (htime : 0 ≤ time) :
    (inputs.intBorrowed time).isActive time = inputs.borrowSlots.any (IntSlot.isActive time) ∧
      (∀ u, (inputs.intBorrowed time).unitsFor u = IntSlot.activeUnits time inputs.borrowSlots u) ∧
      (inputs.intBorrowed time).Empties time := by
  unfold intBorrowed borrowSlots
  cases inputs.borrows with
  | some borrows => exact IntSlot.foldl_merge_zero time htime _
  | none =>
    refine ⟨by simp, ?_, ?_⟩
    · rintro (_ | _ | _) <;> simp [IntSlot.activeUnits, IntSlot.counted, IntSlot.unitsFor]
    · rintro - (_ | _ | _) <;> rfl

theorem intSlot_units (htime : 0 ≤ time) {int : IntSlot} (h : inputs.intSlot time network = .ok int)
    (u : StorageUnitType) : int.unitsFor u = inputs.available time network u := by
  obtain ⟨purchased, hpurchased, hint⟩ := except_bind_eq_ok.1 h
  cases hint
  obtain ⟨hactive, hunits, -⟩ := IntSlot.foldl_merge_zero time htime (rentSlots network inputs.rents)
  rw [← mergeRents_eq_foldl hpurchased] at hactive hunits
  obtain ⟨-, hlentUnits, hlentEmpties⟩ :=
    IntSlot.foldl_merge_zero time htime (inputs.lends.filterMap IntSlot.lendSlot)
  obtain ⟨hborrowed, hborrowedUnits, hborrowedEmpties⟩ := intBorrowed_spec inputs htime
  have hsub :
      (purchased.sub time (IntSlot.addLends time inputs.lends)).isActive time = purchased.isActive time := by
    unfold IntSlot.sub
    split <;> rfl
  have hdiff : (purchased.sub time (IntSlot.addLends time inputs.lends)).unitsFor u =
      IntSlot.activeUnits time (rentSlots network inputs.rents) u -
        IntSlot.activeUnits time (inputs.lends.filterMap IntSlot.lendSlot) u := by
    rw [← hunits u, ← hlentUnits u]
    unfold IntSlot.sub
    split
    · cases u <;> rfl
    · next hinactive =>
      have hnone := hlentEmpties (Bool.eq_false_iff.2 hinactive) u
      rw [hnone, Int.sub_zero]
  simp only [available]
  rw [← hactive, ← hborrowed, ← hdiff, ← hborrowedUnits u]
  unfold IntSlot.merge
  rw [hsub]
  cases hb : (inputs.intBorrowed time).isActive time with
  | false =>
    have hnone := hborrowedEmpties hb u
    simp [hnone]
  | true =>
    cases purchased.isActive time with
    | false => simp
    | true => cases u <;> simp [IntSlot.unitsFor]

/-- The sums and the limits they buy are in range. -/
structure Fits (inputs : SlotInputs) (limits : StoreLimits) (now : UInt64) (network : FarcasterNetwork) :
    Prop where
  units : ∀ u, 0 ≤ inputs.available now.toNat network u ∧ inputs.available now.toNat network u < 2 ^ 32
  messages : ∀ storeType, ([.unitType2025, .unitType2024, .unitTypeLegacy].map fun unitType =>
    (((limits.forType unitType).forStoreType storeType).toNat : Int) * inputs.available now.toNat network
      unitType).sum < 2 ^ 32

end SlotInputs

theorem maxMessages_exact_iff (limits : StoreLimits) (slot : StorageSlot) (storeType : StoreType) :
    ((limits.maxMessages slot storeType).toNat : Int) = limits.intMaxMessages slot.toInt storeType ↔
      limits.intMaxMessages slot.toInt storeType < 2 ^ 32 := by
  have hmod : ((limits.maxMessages slot storeType).toNat : Int) =
      limits.intMaxMessages slot.toInt storeType % 2 ^ 32 := by
    simp only [StoreLimits.maxMessages, StoreLimits.intMaxMessages, List.map_cons, List.map_nil,
      List.sum_cons, List.sum_nil, UInt32.toNat_add, UInt32.toNat_mul, StorageSlot.toInt_unitsFor,
      ← Int.natCast_mul]
    generalize ((limits.forType _).forStoreType storeType).toNat * (slot.unitsFor .unitType2025).toNat = x
    generalize ((limits.forType _).forStoreType storeType).toNat * (slot.unitsFor .unitType2024).toNat = y
    generalize ((limits.forType _).forStoreType storeType).toNat * (slot.unitsFor .unitTypeLegacy).toNat = z
    have hzero : (0 : UInt32).toNat = 0 := rfl
    omega
  have hnonneg : 0 ≤ limits.intMaxMessages slot.toInt storeType := by
    simp only [StoreLimits.intMaxMessages, List.map_cons, List.map_nil, List.sum_cons, List.sum_nil,
      StorageSlot.toInt_unitsFor, ← Int.natCast_mul]
    omega
  omega

section engine

variable [Platform] {env : EngineEnv}

theorem getStorageSlotForFid_eq {fid : UInt64} {countBorrowed : Bool} {pending : List OnChainEvent}
    {inputs : SlotInputs} (h : ReadsInputs env fid countBorrowed pending inputs) :
    getStorageSlotForFid env fid countBorrowed pending =
      (inputs.slot env.now env.network).mapError fun e => .err (.onchainEventError e) := by
  obtain ⟨⟨stored, hstored, hrents⟩, hlends, hborrows⟩ := h
  have hlent : StorageLendStore.getLentStorage env.now (env.store .legacy storageLendStoreDef) env.db fid =
      .ok (StorageLendStore.addLends env.now inputs.lends) := by
    rw [StorageLendStore.getLentStorage, hlends]
    rfl
  have hrented : ∀ lent borrowed, getRentedSlot env.now env.network env.db fid pending lent borrowed =
      (mergeRents env.now env.network inputs.rents ⟨0, 0, 0, 0⟩).bind fun purchased =>
        .ok ((purchased.sub env.now lent).merge env.now borrowed) := by
    intro lent borrowed
    rw [getRentedSlot, hstored, hrents, mergeRents_append]
    change (mergeRents _ _ stored _ >>= _) = _
    cases mergeRents env.now env.network stored ⟨0, 0, 0, 0⟩ <;> rfl
  cases countBorrowed with
  | false =>
    rw [if_neg Bool.false_ne_true] at hborrows
    simp only [getStorageSlotForFid, hlent, hrented, SlotInputs.slot, hborrows]
    rfl
  | true =>
    rw [if_pos rfl] at hborrows
    obtain ⟨found, hfound, hborrows⟩ := hborrows
    have hborrowed :
        StorageLendStore.getBorrowedStorage env.now (env.store .legacy storageLendStoreDef) env.db fid =
        .ok (StorageLendStore.addLends env.now found.reduceOption) := by
      unfold borrowedLends at hfound
      simp only [StorageLendStore.getBorrowedStorage, hfound]
      rfl
    simp only [getStorageSlotForFid, hlent, hborrowed, hrented, SlotInputs.slot, hborrows, if_true]
    rfl

/-- The slot is the integer one, nothing in it is negative, and so are the limits it buys. -/
structure SlotExact (limits : StoreLimits) (slot : StorageSlot) (int : IntSlot) : Prop where
  slot_eq : slot.toInt = int
  nonneg : ∀ u, 0 ≤ int.unitsFor u
  limits_eq :
    ∀ storeType, ((limits.maxMessages slot storeType).toNat : Int) = limits.intMaxMessages int storeType

/-- **Storage arithmetic is exact while the sums fit**: at any time within 32 bits, the slot of a user and the
    limits it buys are those of the same formulas over the integers, and not negative, exactly if the units of
    the active rents and the borrowed ones cover those lent and the totals stay below 2³². -/
theorem storageSlot_exact_iff {fid : UInt64} {countBorrowed : Bool} {pending : List OnChainEvent}
    {inputs : SlotInputs} {slot : StorageSlot} (hreads : ReadsInputs env fid countBorrowed pending inputs)
    (htimes : inputs.TimesFit env.now)
    (hslot : getStorageSlotForFid env fid countBorrowed pending = .ok slot) :
    (∃ int, inputs.intSlot env.now.toNat env.network = .ok int ∧ SlotExact env.storeLimits slot int) ↔
      inputs.Fits env.storeLimits env.now env.network := by
  rw [getStorageSlotForFid_eq hreads, except_mapError_eq_ok] at hslot
  obtain ⟨int, hint, hagrees⟩ := SlotInputs.slot_agrees htimes hslot
  have hunits := SlotInputs.intSlot_units (Int.natCast_nonneg _) hint
  have hmessages : ∀ storeType, env.storeLimits.intMaxMessages int storeType =
      ([.unitType2025, .unitType2024, .unitTypeLegacy].map fun unitType =>
        (((env.storeLimits.forType unitType).forStoreType storeType).toNat : Int) *
          inputs.available env.now.toNat env.network unitType).sum := by
    intro storeType
    simp only [StoreLimits.intMaxMessages, hunits]
  constructor
  · rintro ⟨int', hint', hexact⟩
    cases hint.symm.trans hint'
    refine ⟨fun u => ?_, fun storeType => ?_⟩
    · rw [← hunits u]
      exact hagrees.toInt_eq_iff.1 hexact.slot_eq u
    · have hlimits := hexact.limits_eq storeType
      rw [← hmessages, ← hexact.slot_eq]
      rw [← hexact.slot_eq] at hlimits
      exact (maxMessages_exact_iff _ _ _).1 hlimits
  · rintro ⟨hrange, hfits⟩
    have hslotEq : slot.toInt = int := by
      refine hagrees.toInt_eq_iff.2 fun u => ?_
      rw [hunits u]
      exact hrange u
    refine ⟨int, hint, hslotEq, fun u => ?_, fun storeType => ?_⟩
    · rw [hunits u]
      exact (hrange u).1
    · rw [← hslotEq]
      refine (maxMessages_exact_iff _ _ _).2 ?_
      rw [hslotEq, hmessages]
      exact hfits storeType

end engine

/-! ### A lend that outlives its rent -/

def sampleRentEvent : OnChainEvent where
  type := OnChainEventType.eventTypeStorageRent.toI32
  chainId := 10
  blockNumber := 1
  blockHash := []
  blockTimestamp := 1760000000
  transactionHash := [1]
  logIndex := 0
  fid := 1
  body := some (.storageRentEventBody ⟨[], 2000, 0⟩)
  txIndex := 0
  version := 1

/-- A thousand of them lent to user 2. -/
def sampleLend : Message where
  data := some ⟨MessageType.lendStorage.toI32, 1, 150000000, 1,
    some (.lendStorageBody 2 1000 StorageUnitType.unitType2025.toI32)⟩
  hash := List.replicate 20 1
  hashScheme := 1
  signature := [1]
  signatureScheme := 1
  signer := [7]
  dataBytes := none

def sampleLendKey : Bytes :=
  makeMessagePrimaryKey RootPrefix.user.toByte 1 UserPostfix.lendStorageMessage.toByte
    (toBeBytes (150000000 : UInt32) ++ List.replicate 20 1)

/-- Libraries over the keys of the rent, the lend and its index entry by borrower. -/
@[reducible] def lendPlatform : Platform :=
  samplePlatform (keyScan [makeOnchainEventPrimaryKey sampleRentEvent, sampleLendKey,
    RootPrefix.lendStorageByRecipient.toByte :: (makeFidKey 2 ++ makeFidKey 1)])

def lendEnv (db : RocksDB) (now : UInt64) : EngineEnv where
  shardId := 0
  network := .mainnet
  db := db
  now := now

/-- The rent merged and committed. -/
def rentedDb : RocksDB :=
  let _ := lendPlatform
  Overlay.commit (fun _ => none)
    (stateOf (mergeOnchainEvent false (fun _ => none) sampleRentEvent ⟨Overlay.Batch.empty, ⟨0, 0⟩⟩)).txn

/-- Then the lend. -/
def lentDb : RocksDB :=
  let _ := lendPlatform
  Overlay.commit rentedDb
    (stateOf (StorageLendStore.merge
      ((lendEnv rentedDb 0).store .legacy storageLendStoreDef) rentedDb sampleLend
      ⟨Overlay.Batch.empty, ⟨1, 0⟩⟩)).txn

def lentInputs : SlotInputs := ⟨[sampleRentEvent], [sampleLend], some []⟩

theorem lentInputs_read (now : UInt64) : let _ := lendPlatform
    ReadsInputs (lendEnv lentDb now) 1 true [] lentInputs := by
  let _ := lendPlatform
  have hrents :
      (getOnchainEvents lentDb .eventTypeStorageRent 1).toOption = some [sampleRentEvent] := by decide +kernel
  have hlends :
      (((lendEnv lentDb 0).store .legacy storageLendStoreDef).getAddsByFid lentDb 1
        (fun _ => true)).toOption =
      some [sampleLend] := by decide +kernel
  have hborrows :
      (borrowedLends ((lendEnv lentDb 0).store .legacy storageLendStoreDef) lentDb 1).toOption = some [] := by
    decide +kernel
  exact ⟨⟨_, except_eq_ok_of_toOption hrents, rfl⟩, except_eq_ok_of_toOption hlends,
    [], except_eq_ok_of_toOption hborrows, rfl⟩

/-- One second after the rent the lender has a thousand units left. -/
theorem storageSlot_exact_lender :
    let _ := lendPlatform
    ∃ int, lentInputs.intSlot 1760000001 .mainnet = .ok int ∧
      SlotExact (lendEnv lentDb 1760000001).storeLimits ⟨0, 0, 1000, 1791536000⟩ int := by
  let _ := lendPlatform
  have hslot : (getStorageSlotForFid (lendEnv lentDb 1760000001) 1 true []).toOption =
      some ⟨0, 0, 1000, 1791536000⟩ := by
    decide +kernel
  refine (storageSlot_exact_iff (lentInputs_read 1760000001) ⟨by decide, ?_⟩
    (except_eq_ok_of_toOption hslot)).2 ⟨?_, ?_⟩
  · intro event hevent
    obtain rfl := List.mem_singleton.1 hevent
    decide
  · rintro (_ | _ | _) <;> decide +kernel
  · rintro (_ | _ | _ | _ | _ | _ | _ | _) <;> decide +kernel

/-- **An expired rent underflows.** The lend is admitted one second after the rent, with the unit that the fix
    keeps back. The rent runs out after a year and the lend does not: the lender then has 2³² - 1000 units
    where the formulas give -1000. -/
theorem expiredRent_underflows :
    let _ := lendPlatform
    (∃ bought, (getRentedSlot 1760000001 .mainnet rentedDb 1 [] ⟨0, 0, 0, 0⟩ ⟨0, 0, 0, 0⟩).toOption =
      some bought ∧
      (getStorageSlotForFid (lendEnv rentedDb 1760000001) 1 true []).toOption = some bought ∧
      lendAdmitted .mainnet bought bought 1000 StorageUnitType.unitType2025.toI32 true = true) ∧
    ReadsInputs (lendEnv lentDb 1791536000) 1 true [] lentInputs ∧
      lentInputs.TimesFit 1791536000 ∧
      (getStorageSlotForFid (lendEnv lentDb 1791536000) 1 true []).toOption = some ⟨0, 0, 4294966296, 0⟩ ∧
      (lentInputs.intSlot 1791536000 .mainnet).toOption = some ⟨0, 0, -1000, 0⟩ := by
  refine ⟨⟨⟨0, 0, 2000, 1791536000⟩, by decide +kernel, by decide +kernel, by decide +kernel⟩,
    lentInputs_read 1791536000, ⟨by decide, ?_⟩, by decide +kernel, by decide +kernel⟩
  intro event hevent
  obtain rfl := List.mem_singleton.1 hevent
  decide

end Hypersnap
