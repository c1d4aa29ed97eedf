import Hypersnap.Storage.Paging
import Hypersnap.Store.StorageSlot
import Hypersnap.Store.Store

/-!
# `Store.OnChainEvents` — the events of the registries on chain

The model of `onchain_event_store.rs`. An event is stored under its type, fid, block and log index; two
indices point to events by their primary key: the id-register index by fid and the signer index by fid and
key. Reads through an index go through the batch; listings read the database, page by page.
-/

namespace Hypersnap

open Overlay EState

def HubError.protoDecodeError : HubError := ⟨"bad_request.decode_error", "failed to decode Protobuf message"⟩

def OnchainEventStorageError.display : OnchainEventStorageError → String
  | .hubError e => e.code ++ "/" ++ e.message
  | .invalidStorageRentEventType => "Invalid event type calculating storage slots "
  | .decodeError => "failed to decode Protobuf message"
  | .unexpectedEventType => "Unexpected event type"
  | .duplicateOnchainEvent => "Duplicate onchain event"

/-- A failure of a store as an error value of the caller. -/
def Failure.toStop {ε : Type} (f : HubError → ε) : Failure → Stop ε
  | .hub e => .err (f e)
  | .panic => .panic

/-- A store operation with errors of another type than `HubError`. -/
abbrev StoreOp (ε : Type) := EStateM (Stop ε) StoreState

/-- A store operation called from code with its own error type. -/
def StoreM.toOp {ε α : Type} (f : HubError → ε) (x : StoreM α) : StoreOp ε α := mapError (Failure.toStop f) x

/-! ## Keys -/

def makeOnchainEventTypePrefix (type : OnChainEventType) : Bytes :=
  [RootPrefix.onChainEvent.toByte, OnChainEventPostfix.onChainEvents.toByte, asU8 type.toI32]

def makeOnchainEventPrimaryKey (event : OnChainEvent) : Bytes :=
  makeOnchainEventTypePrefix (.orDefault event.type) ++ makeFidKey event.fid ++ toBeBytes event.blockNumber
    ++ toBeBytes event.logIndex

def makeIdRegisterByFidKey (fid : UInt64) : Bytes :=
  [RootPrefix.onChainEvent.toByte, OnChainEventPostfix.idRegisterByFid.toByte] ++ makeFidKey fid

def makeSignerOnchainEventBySignerKey (fid : UInt64) (key : Bytes) : Bytes :=
  [RootPrefix.onChainEvent.toByte, OnChainEventPostfix.signerByFid.toByte] ++ makeFidKey fid ++ key

/-! ## Reading -/

/-- The event an index entry points to. Index entries are keys; a value of another kind is no key of an
    event. -/
def getEventBySecondaryKey (db : RocksDB) (txn : RocksDbTransactionBatch) (secondaryKey : Bytes) :
    Except OnchainEventStorageError (Option OnChainEvent) :=
  match getFromDbOrTxn db txn secondaryKey with
  | some (.bytes primaryKey) =>
    match getFromDbOrTxn db txn primaryKey with
    | some (.onChainEvent event) => .ok (some event)
    | some _ => .error .decodeError
    | none => .ok none
  | _ => .ok none

def getIdRegisterEventByFid (db : RocksDB) (txn : RocksDbTransactionBatch) (fid : UInt64) :
    Except OnchainEventStorageError (Option OnChainEvent) :=
  getEventBySecondaryKey db txn (makeIdRegisterByFidKey fid)

/-- The signer event of a key, if it adds a key of the supported type. -/
def getActiveSigner (db : RocksDB) (txn : RocksDbTransactionBatch) (fid : UInt64) (signer : Bytes) :
    Except OnchainEventStorageError (Option OnChainEvent) := do
  let event ← getEventBySecondaryKey db txn (makeSignerOnchainEventBySignerKey fid signer)
  match event with
  | some event =>
    match event.body with
    | some (.signerEventBody body) =>
      if SignerEventType.orDefault body.eventType = .add ∧ body.keyType = 1 then
        .ok (some event) else .ok none
    | _ => .ok none
  | none => .ok none

def decodeOnchainEvent : DbValue → Except OnchainEventStorageError OnChainEvent
  | .onChainEvent event => .ok event
  | _ => .error (.hubError .protoDecodeError)

section listings
variable [DbIterator]

/-- `PAGE_SIZE`, and `PAGE_SIZE_MAX` of `constants.rs`. -/
def eventPageSize : Nat := 1000

/-- The stored events of a type and fid, in key order. -/
def getOnchainEvents (db : RocksDB) (type : OnChainEventType) (fid : UInt64) :
    Except OnchainEventStorageError (List OnChainEvent) :=
  let start := makeOnchainEventTypePrefix type ++ makeFidKey fid
  (readPages db start (incrementVecU8 start) eventPageSize).mapM fun e => decodeOnchainEvent e.2

/-- When a subscription paid by these purchases expires; purchases after `asOf` do not count. -/
def tierExpiresAt (tierType : Int32) (asOf : Option FarcasterTime) : List OnChainEvent → UInt64 → UInt64
  | [], expiresAt => expiresAt
  | event :: rest, expiresAt =>
    match event.body with
    | some (.tierPurchaseEventBody body) =>
      if body.tierType = tierType then
        if asOf.any fun t => decide (t.toUnixSeconds < event.blockTimestamp) then expiresAt
        else tierExpiresAt tierType asOf rest
          (max event.blockTimestamp expiresAt + body.forDays * 24 * 60 * 60)
      else tierExpiresAt tierType asOf rest expiresAt
    | _ => tierExpiresAt tierType asOf rest expiresAt

def tierSubscriptionExpiresAt (db : RocksDB) (tierType : Int32) (fid : UInt64) (asOf : Option FarcasterTime) :
    Except OnchainEventStorageError UInt64 := do
  let purchases ← getOnchainEvents db .eventTypeTierPurchase fid
  .ok (tierExpiresAt tierType asOf purchases 0)

def isTierSubscriptionActiveAt (db : RocksDB) (tierType : Int32) (fid : UInt64) (timestamp : FarcasterTime) :
    Except OnchainEventStorageError Bool := do
  let expiresAt ← tierSubscriptionExpiresAt db tierType fid (some timestamp)
  .ok (decide (timestamp.toUnixSeconds ≤ expiresAt))

/-- Add the slots of rent events, one after the other. -/
def mergeRents (now : UInt64) (network : FarcasterNetwork) :
    List OnChainEvent → StorageSlot → Except OnchainEventStorageError StorageSlot
  | [], slot => .ok slot
  | event :: rest, slot => do
    let rent ← StorageSlot.fromEvent event network
    mergeRents now network rest (slot.merge now rent)

def getRentedSlot (now : UInt64) (network : FarcasterNetwork) (db : RocksDB) (fid : UInt64)
    (pendingEvents : List OnChainEvent) (lentStorage borrowedStorage : StorageSlot) :
    Except OnchainEventStorageError StorageSlot := do
  let rents ← getOnchainEvents db .eventTypeStorageRent fid
  let slot ← mergeRents now network rents ⟨0, 0, 0, 0⟩
  let pending := pendingEvents.filter fun e =>
    e.fid == fid && OnChainEventType.orDefault e.type == .eventTypeStorageRent
  let slot ← mergeRents now network pending slot
  .ok ((slot.sub now lentStorage).merge now borrowedStorage)

/-! ## Merging -/

def buildSecondaryIndicesForIdRegister (db : RocksDB) (event : OnChainEvent) (body : IdRegisterEventBody) :
    StoreOp OnchainEventStorageError Unit := do
  if IdRegisterEventType.orDefault body.eventType = .changeRecovery then
    pure ()
  else
    let key := makeIdRegisterByFidKey event.fid
    let existing ← raise (getEventBySecondaryKey db (← get).txn key)
    if existing.any fun e => decide (event.blockNumber < e.blockNumber) then pure ()
    else modify (·.put key (.bytes (makeOnchainEventPrimaryKey event)))

/-- The event adds the key. -/
def OnChainEvent.addsKey (key : Bytes) (event : OnChainEvent) : Bool :=
  match event.body with
  | some (.signerEventBody body) => SignerEventType.orDefault body.eventType == .add && body.key == key
  | _ => false

/-- Read pages until one has an event that adds the key. -/
def findSignerAddFuel (db : RocksDB) (start key : Bytes) :
    Nat → Option Bytes → Except OnchainEventStorageError (Option OnChainEvent)
  | 0, _ => .ok none
  | fuel + 1, token => do
    let page := readPage db start (incrementVecU8 start) eventPageSize token
    let events ← page.1.mapM fun e => decodeOnchainEvent e.2
    match events.find? (·.addsKey key), page.2 with
    | some event, _ => .ok (some event)
    | none, none => .ok none
    | none, some token => findSignerAddFuel db start key fuel (some token)

/-- The stored event that added the key, the first in key order. -/
def findSignerAdd (db : RocksDB) (fid : UInt64) (key : Bytes) :
    Except OnchainEventStorageError (Option OnChainEvent) :=
  let start := makeOnchainEventTypePrefix .eventTypeSigner ++ makeFidKey fid
  findSignerAddFuel db start key ((DbIterator.scan db start (incrementVecU8 start)).length + 1) none

def buildSecondaryIndicesForSigner (db : RocksDB) (event : OnChainEvent) (body : SignerEventBody) :
    StoreOp OnchainEventStorageError Unit := do
  let signerKey := makeSignerOnchainEventBySignerKey event.fid body.key
  let existing ← raise (getEventBySecondaryKey db (← get).txn signerKey)
  if existing.any fun e => decide (event.blockNumber < e.blockNumber) then
    pure ()
  -- the source reads the type of the existing event from the new one, so this never holds
  else if existing.isSome ∧ SignerEventType.orDefault body.eventType = .remove
      ∧ SignerEventType.orDefault body.eventType = .add then
    pure ()
  else if SignerEventType.orDefault body.eventType = .adminReset then
    match ← raise (findSignerAdd db event.fid body.key) with
    | some add => modify (·.put signerKey (.bytes (makeOnchainEventPrimaryKey add)))
    | none => pure ()
  else modify (·.put signerKey (.bytes (makeOnchainEventPrimaryKey event)))

/-- The function `build_secondary_indices` of the on-chain event store. -/
def buildEventIndices (db : RocksDB) (event : OnChainEvent) : StoreOp OnchainEventStorageError Unit :=
  match event.body with
  | some (.idRegisterEventBody body) => buildSecondaryIndicesForIdRegister db event body
  | some (.signerEventBody body) => buildSecondaryIndicesForSigner db event body
  | _ => pure ()

/-- The event as a record with its indices. -/
def putOnchainEvent (conflictFree : Bool) (db : RocksDB) (event : OnChainEvent) :
    StoreOp OnchainEventStorageError Unit := do
  let primaryKey := makeOnchainEventPrimaryKey event
  if !conflictFree && (getFromDbOrTxn db (← get).txn primaryKey).isSome then
    throw (.err .duplicateOnchainEvent)
  modify (·.put primaryKey (.onChainEvent event))
  buildEventIndices db event

def mergeOnchainEvent (conflictFree : Bool) (db : RocksDB) (event : OnChainEvent) :
    StoreOp OnchainEventStorageError HubEvent := do
  putOnchainEvent conflictFree db event
  (commitTransaction false (.new (.mergeOnChainEventBody event))).toOp .hubError

end listings

end Hypersnap
