import Mathlib.Data.UInt
import Hypersnap.Proto.Enums
import Hypersnap.Version.Version

/-!
# `Store.StorageSlot` — rented storage and the limits it buys

A slot counts the units of storage a user has, by the time they were rented, and says when they expire.
Whether a slot is active is decided by the **clock of the machine** (`now`, in Unix seconds), not by the time
of the block. All arithmetic is in 32 bits.
-/

namespace Hypersnap

/-- Why an operation of the on-chain event store fails. -/
inductive OnchainEventStorageError where
  | hubError (e : HubError)
  | invalidStorageRentEventType
  | decodeError
  | unexpectedEventType
  | duplicateOnchainEvent
deriving DecidableEq, Repr

/-! ## Slots -/

def unitTypeLegacyCutoffTimestamp : UInt32 := 1724889600

def unitType2024CutoffTimestamp : UInt32 := 1752685200

def unitType2024CutoffTimestampTestnet : UInt32 := 1752426000

def oneYearInSeconds : UInt32 := 31536000

structure StorageSlot where
  unitsLegacy : UInt32
  units2024 : UInt32
  units2025 : UInt32
  invalidateAt : UInt32
deriving DecidableEq, Repr

namespace StorageSlot

def unitsFor (slot : StorageSlot) : StorageUnitType → UInt32
  | .unitTypeLegacy => slot.unitsLegacy
  | .unitType2024 => slot.units2024
  | .unitType2025 => slot.units2025

def unitType2024Cutoff (network : FarcasterNetwork) : UInt32 :=
  if network = .mainnet then unitType2024CutoffTimestamp else unitType2024CutoffTimestampTestnet

/-- A lend never expires. -/
def fromStorageLend (numUnits : UInt64) (unitType : Int32) : StorageSlot :=
  match StorageUnitType.orDefault unitType with
  | .unitTypeLegacy => ⟨numUnits.toUInt32, 0, 0, 4294967295⟩
  | .unitType2024 => ⟨0, numUnits.toUInt32, 0, 4294967295⟩
  | .unitType2025 => ⟨0, 0, numUnits.toUInt32, 4294967295⟩

/-- The slot of a rent: units bought early were extended twice, later ones once, the latest not at all. -/
def fromEvent (event : OnChainEvent) (network : FarcasterNetwork) :
    Except OnchainEventStorageError StorageSlot :=
  match event.body with
  | some (.storageRentEventBody rent) =>
    let rentedAt := event.blockTimestamp.toUInt32
    if event.blockTimestamp < unitTypeLegacyCutoffTimestamp.toUInt64 then
      .ok ⟨rent.units, 0, 0, rentedAt + oneYearInSeconds * 3⟩
    else if event.blockTimestamp < (unitType2024Cutoff network).toUInt64 then
      .ok ⟨0, rent.units, 0, rentedAt + oneYearInSeconds * 2⟩
    else .ok ⟨0, 0, rent.units, rentedAt + oneYearInSeconds⟩
  | _ => .error .invalidStorageRentEventType

def isActive (now : UInt64) (slot : StorageSlot) : Bool := decide (now.toUInt32 < slot.invalidateAt)

/-- An expired slot adds nothing, and is replaced by an active one. -/
def merge (now : UInt64) (slot other : StorageSlot) : StorageSlot :=
  if !other.isActive now then slot
  else if !slot.isActive now then other
  else
    ⟨slot.unitsLegacy + other.unitsLegacy, slot.units2024 + other.units2024, slot.units2025 + other.units2025,
      min slot.invalidateAt other.invalidateAt⟩

def sub (now : UInt64) (slot other : StorageSlot) : StorageSlot :=
  if other.isActive now then
    { slot with
      unitsLegacy := slot.unitsLegacy - other.unitsLegacy
      units2024 := slot.units2024 - other.units2024
      units2025 := slot.units2025 - other.units2025 }
  else slot

end StorageSlot

/-! ## Limits -/

inductive StoreType where
  | none
  | casts
  | links
  | reactions
  | userData
  | verifications
  | usernameProofs
  | storageLends
deriving DecidableEq, Repr

structure Limits where
  casts : UInt32
  links : UInt32
  reactions : UInt32
  userData : UInt32
  userNameProofs : UInt32
  verifications : UInt32
  storageLends : UInt32
deriving DecidableEq, Repr

namespace Limits

def ofType : StorageUnitType → Limits
  | .unitTypeLegacy => ⟨5000, 2500, 2500, 50, 5, 25, 1⟩
  | .unitType2024 => ⟨2000, 1000, 1000, 50, 5, 25, 1⟩
  | .unitType2025 => ⟨100, 200, 200, 25, 2, 5, 1⟩

def messageTypeToStoreType : MessageType → StoreType
  | .castAdd | .castRemove => .casts
  | .reactionAdd | .reactionRemove => .reactions
  | .linkAdd | .linkRemove | .linkCompactState => .links
  | .verificationAddEthAddress | .verificationRemove => .verifications
  | .userDataAdd => .userData
  | .usernameProof => .usernameProofs
  | .lendStorage => .storageLends
  | .frameAction | .keyAdd | .keyRemove | .none => .none

def storeTypeToMessageTypes : StoreType → List MessageType
  | .casts => [.castAdd, .castRemove]
  | .links => [.linkAdd, .linkRemove, .linkCompactState]
  | .reactions => [.reactionAdd, .reactionRemove]
  | .userData => [.userDataAdd]
  | .verifications => [.verificationAddEthAddress, .verificationRemove]
  | .usernameProofs => [.usernameProof]
  | .storageLends => [.lendStorage]
  | .none => []

def forStoreType (limits : Limits) : StoreType → UInt32
  | .casts => limits.casts
  | .links => limits.links
  | .reactions => limits.reactions
  | .userData => limits.userData
  | .verifications => limits.verifications
  | .usernameProofs => limits.userNameProofs
  | .storageLends => limits.storageLends
  | .none => 0

end Limits

structure StoreLimits where
  limits2025 : Limits := .ofType .unitType2025
  limits2024 : Limits := .ofType .unitType2024
  limitsLegacy : Limits := .ofType .unitTypeLegacy
deriving DecidableEq, Repr

namespace StoreLimits

def forType (limits : StoreLimits) : StorageUnitType → Limits
  | .unitTypeLegacy => limits.limitsLegacy
  | .unitType2024 => limits.limits2024
  | .unitType2025 => limits.limits2025

def maxMessages (limits : StoreLimits) (slot : StorageSlot) (storeType : StoreType) : UInt32 :=
  ([.unitType2025, .unitType2024, .unitTypeLegacy].map fun unitType =>
    (limits.forType unitType).forStoreType storeType * slot.unitsFor unitType).sum

end StoreLimits

end Hypersnap
