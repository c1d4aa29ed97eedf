import Hypersnap.Store.OnChainEvents

/-!
# `Store.BlockEvents` — the events of shard zero

Every block event is kept under its sequence number; the highest key tells the number of the last one.
-/

namespace Hypersnap

open EState

inductive BlockEventStorageError where
  | tooManyBlocksInResult
  | eventMissingBody
deriving DecidableEq, Repr

def makeBlockEventKey (seqnum : UInt64) : Bytes := RootPrefix.blockEvent.toByte :: toBeBytes64 seqnum

/-- `BlockEvent::seqnum`; an event without data panics. -/
def BlockEvent.seqnum (event : BlockEvent) : Option UInt64 := event.data.map (·.seqnum)

def putBlockEvent (event : BlockEvent) : StoreOp BlockEventStorageError Unit := do
  match event.data with
  | none => throw (.err .eventMissingBody)
  | some data => modify (·.put (makeBlockEventKey data.seqnum) (.blockEvent event))

/-- The event with the highest key: the first of a backward scan of the table. -/
def getLastBlockEvent [DbIterator] (db : RocksDB) : Except BlockEventStorageError (Option BlockEvent) :=
  match (DbIterator.scan db (makeBlockEventKey 0) [RootPrefix.blockEvent.toByte + 1]).getLast? with
  | none => .ok none
  | some (_, .blockEvent event) => .ok (some event)
  | some _ => .error .tooManyBlocksInResult

def maxSeqnum [DbIterator] (db : RocksDB) : Except BlockEventStorageError UInt64 := do
  match ← getLastBlockEvent db with
  | none => .ok 0
  | some event =>
    match event.data with
    | none => .error .eventMissingBody
    | some data => .ok data.seqnum

end Hypersnap
