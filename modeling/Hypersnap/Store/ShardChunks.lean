import Hypersnap.Storage.Paging
import Hypersnap.Store.OnChainEvents

/-!
# `Store.ShardChunks` — the chunks a shard has committed

A chunk is kept under its block number; the first chunk of a timestamp is indexed by it.
-/

namespace Hypersnap

open Overlay

def makeShardKey (blockNumber : UInt64) : Bytes := RootPrefix.shard.toByte :: toBeBytes64 blockNumber

def makeBlockTimestampIndex (shardIndex : UInt32) (timestamp : UInt64) : Bytes :=
  RootPrefix.blockIndex.toByte :: (toBeBytes shardIndex ++ toBeBytes64 timestamp)

/-- The chunk in a batch of its own. A chunk without a header or a height is not written. -/
def putShardChunk (db : RocksDB) (chunk : ShardChunk) : RocksDB :=
  match chunk.header with
  | none => db
  | some header =>
    match header.height with
    | none => db
    | some height =>
      let primaryKey := makeShardKey height.blockNumber
      let index := makeBlockTimestampIndex height.shardIndex header.timestamp
      let txn := Batch.empty.put primaryKey (.shardChunk chunk)
      commit db (if (db index).isNone then txn.put index (.bytes primaryKey) else txn)

/-- The chunk with the highest block number; one that cannot be decoded is only logged. -/
def getLastShardChunk [DbIterator] (db : RocksDB) : Option ShardChunk :=
  match (DbIterator.scan db (makeShardKey 0) [RootPrefix.shard.toByte + 1]).getLast? with
  | some (_, .shardChunk chunk) => some chunk
  | _ => none

def maxBlockNumber [DbIterator] (db : RocksDB) : UInt64 :=
  match (getLastShardChunk db).bind (·.header) with
  | some header => (header.height.map (·.blockNumber)).getD 0
  | none => 0

/-- Chunks are read in pages of this many. -/
def shardPageSize : Nat := 100

def shardChunkDecode : DbValue → Except HubError ShardChunk
  | .shardChunk chunk => .ok chunk
  | _ => .error .protoDecodeError

/-- `get_shard_chunks`: the chunks from a block number on, up to but **not including** the stop. -/
def getShardChunks [DbIterator] (db : RocksDB) (startBlockNumber : UInt64) (stopBlockNumber : Option UInt64) :
    Except HubError (List ShardChunk) :=
  let stop := match stopBlockNumber with
    | some blockNumber => makeShardKey blockNumber
    | none => [RootPrefix.shard.toByte + 1]
  (readPages db (makeShardKey startBlockNumber) stop shardPageSize).mapM fun e => shardChunkDecode e.2

end Hypersnap
