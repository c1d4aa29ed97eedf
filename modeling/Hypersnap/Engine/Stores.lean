import Hypersnap.Engine.State

/-!
# `Engine.Stores` — operations over all message stores of an engine

How much storage a user has and uses, and the revocation of everything a key has signed. The storage of a user
is read from the **database** alone and depends on the clock; the usage is read from the trie through the
batch.
-/

namespace Hypersnap

open EState

variable [Platform] (env : EngineEnv)

/-! ## Storage -/

def Failure.toStoresError : Failure → Stop StoresError := Failure.toStop fun e => .storeError e []

def getStorageSlotForFid (fid : UInt64) (countBorrowedStorage : Bool) (pendingEvents : List OnChainEvent) :
    Except (Stop StoresError) StorageSlot := do
  let lendStore := env.store .legacy storageLendStoreDef
  let lent ← (StorageLendStore.getLentStorage env.now lendStore env.db fid).mapError Failure.toStoresError
  let borrowed ←
    if countBorrowedStorage then
      (StorageLendStore.getBorrowedStorage env.now lendStore env.db fid).mapError Failure.toStoresError
    else .ok ⟨0, 0, 0, 4294967295⟩
  (getRentedSlot env.now env.network env.db fid pendingEvents lent borrowed).mapError
    fun e => .err (.onchainEventError e)

/-- The number of a user's entries in the trie, over the message types of a store. -/
def getUsageByStoreType (txn : RocksDbTransactionBatch) (fid : UInt64) (storeType : StoreType) : UInt32 :=
  ((Limits.storeTypeToMessageTypes storeType).map fun type =>
    (MerkleTrie.getCount env.db txn (TrieKey.forMessageType fid (asU8 type.toI32))).toUInt32).sum

/-- What a user has of a kind, and may have. -/
def getUsage (txn : RocksDbTransactionBatch) (fid : UInt64) (type : MessageType) :
    Except (Stop StoresError) (UInt32 × UInt32) := do
  let storeType := Limits.messageTypeToStoreType type
  let slot ← getStorageSlotForFid env fid (storeType != .storageLends) []
  .ok (getUsageByStoreType env txn fid storeType, env.storeLimits.maxMessages slot storeType)

def isProUser (fid : UInt64) (blockTimestamp : FarcasterTime) : Except OnchainEventStorageError Bool :=
  isTierSubscriptionActiveAt env.db tierPro fid blockTimestamp

/-! ## Revoking -/

/-- The stores from which the messages of a key are revoked, in this order. -/
def revocableStoreDefs : List StoreDef :=
  [castStoreDef, linkStoreDef, reactionStoreDef, userDataStoreDef, verificationStoreDef]

/-- The first store that fails ends the revocation; its events and those before it are lost, the writes are
    not. -/
def revokeFrom (ctx : StateContext) (fid : UInt64) (key : Bytes) :
    List StoreDef → StoreOp StoresError (List HubEvent)
  | [] => pure []
  | storeDef :: rest => do
    let events ← ((env.store ctx storeDef).revokeMessagesBySigner env.db fid key).toOp
      fun e => .storeError e key
    return events ++ (← revokeFrom ctx fid key rest)

def revokeMessages (ctx : StateContext) (fid : UInt64) (key : Bytes) : StoreOp StoresError (List HubEvent) :=
  revokeFrom env ctx fid key revocableStoreDefs

end Hypersnap
