import Hypersnap.Store.Defs
import Hypersnap.Store.OnChainEvents

/-!
# `Store.StorageLend` — storage lent to other users

A lend is kept by lender and borrower; an index by borrower finds the lends a user may use. A lend of no units
replaces the one before and is pruned at once.
-/

namespace Hypersnap

open EState

namespace StorageLendStoreDef

/-- The borrower of a lend; reading the data of a message without any panics. -/
def borrowerOf (m : Message) : Except Failure (MessageData × UInt64) :=
  match m.data with
  | none => .error .panic
  | some data =>
    match data.body with
    | some (.lendStorageBody toFid _ _) => .ok (data, toFid)
    | _ => .error (.hub (.invalidParameter "LendStorage message missing body"))

def makeAddKey (m : Message) (ctx : StateContext) : Except Failure Bytes := do
  let (data, toFid) ← borrowerOf m
  .ok (makeIndexKey ctx data.fid .lendStorages (makeFidKey toFid))

def byBorrowerSecondaryIndexKey (root : UInt8) (m : Message) : Except Failure Bytes := do
  let (data, toFid) ← borrowerOf m
  .ok (root :: (makeFidKey toFid ++ makeFidKey data.fid))

/-- A message without a borrower has no entry, and that is no error. -/
def secondaryIndices (_ : Bytes) (m : Message) (ctx : StateContext) :
    Except Failure (List (Bytes × DbValue)) :=
  match byBorrowerSecondaryIndexKey (ctx.rootPrefix .lendStorageByRecipient) m with
  | .ok key => .ok [(key, trueValue)]
  | .error .panic => .error .panic
  | .error (.hub _) => .ok []

end StorageLendStoreDef

def storageLendStoreDef : StoreDef where
  setPostfix := UserPostfix.lendStorageMessage.toByte
  addMessageType := asU8 MessageType.lendStorage.toI32
  removeMessageType := asU8 MessageType.none.toI32
  compactStateMessageType := asU8 MessageType.none.toI32
  isAddType m := m.hasType .lendStorage
  isRemoveType _ := false
  isCompactStateType _ := false
  makeAddKey := StorageLendStoreDef.makeAddKey
  makeRemoveKey _ _ := .error (.hub (.invalidParameter "removes not supported"))
  makeCompactStateAddKey _ _ :=
    .error (.hub (.invalidParameter "StorageLendStore doesn't support compact state"))
  secondaryIndices := StorageLendStoreDef.secondaryIndices

namespace StorageLendStore

variable [Prost] [DbIterator]

/-- The slot of the lend in a message. -/
def lendSlot (m : Message) : Option StorageSlot :=
  match m.data.bind (·.body) with
  | some (.lendStorageBody _ numUnits unitType) => some (.fromStorageLend numUnits unitType)
  | _ => none

def addLends (now : UInt64) (lends : List Message) : StorageSlot :=
  (lends.filterMap lendSlot).foldl (StorageSlot.merge now) ⟨0, 0, 0, 0⟩

def getLentStorage (now : UInt64) (store : Store) (db : RocksDB) (fid : UInt64) :
    Except Failure StorageSlot := do
  let lends ← store.getAddsByFid db fid fun _ => true
  .ok (addLends now lends)

/-- The message that carries only the key fields of a lend. -/
def partialMessage (lender borrower : UInt64) : Message :=
  ⟨some ⟨0, lender, 0, 0, some (.lendStorageBody borrower 0 0)⟩, [], 0, [], 0, [], none⟩

/-- The lend an index entry stands for; one that cannot be read is skipped. -/
def lendAt (store : Store) (db : RocksDB) (key : Bytes) : Except Failure (Option Message) := do
  let lender ← readFidKey key 5
  let borrower ← readFidKey key 1
  match store.getAdd db Overlay.Batch.empty (partialMessage lender borrower) with
  | .ok found => .ok found
  | .error (.hub _) => .ok none
  | .error .panic => .error .panic

def getBorrowedStorage (now : UInt64) (store : Store) (db : RocksDB) (fid : UInt64) :
    Except Failure StorageSlot := do
  let start := RootPrefix.lendStorageByRecipient.toByte :: makeFidKey fid
  let lends ← (DbIterator.scan db start (incrementVecU8 start)).mapM fun e => lendAt store db e.1
  .ok (addLends now lends.reduceOption)

/-- Merge a lend, and prune it again if it lends nothing; a failure to prune is only logged. -/
def merge (store : Store) (db : RocksDB) (message : Message) : StoreM (List HubEvent) := do
  let event ← store.merge db message
  match message.data.bind (·.body) with
  | some (.lendStorageBody _ numUnits _) =>
    if numUnits = 0 then
      match ← attempt (store.pruneMessage message) with
      | .ok (some pruned) => pure [event, pruned]
      | _ => pure [event]
    else pure [event]
  | some _ => pure [event]
  | none => throw .panic

end StorageLendStore

end Hypersnap
