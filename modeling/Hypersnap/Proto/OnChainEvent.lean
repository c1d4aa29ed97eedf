import Hypersnap.Core.Bytes

/-!
# `Proto.OnChainEvent` — events of the registries on chain

The records as they arrive from the wire: enumerations are the `i32` of the protobuf field.
-/

namespace Hypersnap

inductive OnChainEventType where
  | eventTypeNone
  | eventTypeSigner
  | eventTypeSignerMigrated
  | eventTypeIdRegister
  | eventTypeStorageRent
  | eventTypeTierPurchase
deriving DecidableEq, Repr

namespace OnChainEventType

def toI32 : OnChainEventType → Int32
  | eventTypeNone => 0
  | eventTypeSigner => 1
  | eventTypeSignerMigrated => 2
  | eventTypeIdRegister => 3
  | eventTypeStorageRent => 4
  | eventTypeTierPurchase => 5

def all : List OnChainEventType :=
  [eventTypeNone, eventTypeSigner, eventTypeSignerMigrated, eventTypeIdRegister, eventTypeStorageRent,
    eventTypeTierPurchase]

def tryFrom (n : Int32) : Option OnChainEventType := all.find? fun t => t.toI32 == n

end OnChainEventType

structure SignerEventBody where
  key : Bytes
  keyType : UInt32
  eventType : Int32
  metadata : Bytes
  metadataType : UInt32
deriving DecidableEq, Repr

structure IdRegisterEventBody where
  toAddress : Bytes
  eventType : Int32
  fromAddress : Bytes
  recoveryAddress : Bytes
deriving DecidableEq, Repr

structure StorageRentEventBody where
  payer : Bytes
  units : UInt32
  expiry : UInt32
deriving DecidableEq, Repr

structure TierPurchaseBody where
  tierType : Int32
  forDays : UInt64
  payer : Bytes
deriving DecidableEq, Repr

inductive OnChainEventBody where
  | signerEventBody (body : SignerEventBody)
  | signerMigratedEventBody (migratedAt : UInt32)
  | idRegisterEventBody (body : IdRegisterEventBody)
  | storageRentEventBody (body : StorageRentEventBody)
  | tierPurchaseEventBody (body : TierPurchaseBody)
deriving DecidableEq, Repr

structure OnChainEvent where
  type : Int32
  chainId : UInt32
  blockNumber : UInt32
  blockHash : Bytes
  blockTimestamp : UInt64
  transactionHash : Bytes
  logIndex : UInt32
  fid : UInt64
  body : Option OnChainEventBody
  txIndex : UInt32
  version : UInt32
deriving DecidableEq, Repr

/-- `OnChainEvent::type`: an unknown number reads as the default. -/
def OnChainEvent.eventType (e : OnChainEvent) : OnChainEventType :=
  (OnChainEventType.tryFrom e.type).getD .eventTypeNone

end Hypersnap
