import Hypersnap.Proto.Message

/-!
# `Proto.Block` — heights, transactions, shard chunks, blocks and proposals
-/

namespace Hypersnap

/-! ## Heights and hashes -/

structure Height where
  shardIndex : UInt32
  blockNumber : UInt64
deriving DecidableEq, Repr

namespace Height

/-- The derived order: by shard, then by block. -/
instance : Ord Height := ⟨compareLex (compareOn shardIndex) (compareOn blockNumber)⟩

instance : Std.TransOrd Height :=
  inferInstanceAs (Std.TransCmp (compareLex (compareOn shardIndex) (compareOn blockNumber)))

instance : Std.LawfulEqOrd Height where
  eq_of_compare {a b} h := by
    have hlex : (compare a.shardIndex b.shardIndex).then (compare a.blockNumber b.blockNumber) = .eq := h
    rw [Ordering.then_eq_eq] at hlex
    obtain ⟨s, n⟩ := a
    obtain ⟨s', n'⟩ := b
    have hs : s = s' := Std.LawfulEqOrd.eq_of_compare hlex.1
    have hn : n = n' := Std.LawfulEqOrd.eq_of_compare hlex.2
    rw [hs, hn]

/-- `block_number + n` in 64 bits. -/
def incrementBy (h : Height) (n : UInt64) : Height := { h with blockNumber := h.blockNumber + n }

def increment (h : Height) : Height := h.incrementBy 1

end Height

/-- A hash within a shard. -/
structure ShardHash where
  shardIndex : UInt32
  hash : Bytes
deriving DecidableEq, Repr

namespace ShardHash

instance : Ord ShardHash := ⟨compareLex (compareOn shardIndex) (compareOn hash)⟩

instance : Std.TransOrd ShardHash :=
  inferInstanceAs (Std.TransCmp (compareLex (compareOn shardIndex) (compareOn hash)))

instance : Std.LawfulEqOrd ShardHash where
  eq_of_compare {a b} h := by
    have hlex : (compare a.shardIndex b.shardIndex).then (compare a.hash b.hash) = .eq := h
    rw [Ordering.then_eq_eq] at hlex
    obtain ⟨s, n⟩ := a
    obtain ⟨s', n'⟩ := b
    have hs : s = s' := Std.LawfulEqOrd.eq_of_compare hlex.1
    have hn : n = n' := Std.LawfulEqOrd.eq_of_compare hlex.2
    rw [hs, hn]

end ShardHash

/-! ## Commits -/

structure CommitSignature where
  signer : Bytes
  signature : Bytes
deriving DecidableEq, Repr

structure Commits where
  height : Option Height
  round : Int64
  value : Option ShardHash
  signatures : List CommitSignature
deriving DecidableEq, Repr

/-! ## Transactions -/

structure FnameTransfer where
  id : UInt64
  fromFid : UInt64
  proof : Option UserNameProof
deriving DecidableEq, Repr

inductive BlockEventBody where
  | heartbeatEventBody
  | mergeMessageEventBody (message : Option Message)
deriving DecidableEq, Repr

structure BlockEventData where
  seqnum : UInt64
  type : Int32
  blockNumber : UInt64
  eventIndex : UInt64
  blockTimestamp : UInt64
  body : Option BlockEventBody
deriving DecidableEq, Repr

structure BlockEvent where
  hash : Bytes
  data : Option BlockEventData
deriving DecidableEq, Repr

structure ValidatorMessage where
  onChainEvent : Option OnChainEvent
  fnameTransfer : Option FnameTransfer
  blockEvent : Option BlockEvent
deriving DecidableEq, Repr

structure Transaction where
  fid : UInt64
  userMessages : List Message
  systemMessages : List ValidatorMessage
  accountRoot : Bytes
deriving DecidableEq, Repr

inductive MempoolMessage where
  | userMessage (message : Message)
  | onchainEvent (event : OnChainEvent)
  | onchainEventForMigration (event : OnChainEvent)
  | fnameTransfer (transfer : FnameTransfer)
  | blockEvent (forShard : UInt32) (message : BlockEvent)
deriving DecidableEq, Repr

/-! ## Chunks and blocks -/

structure ShardHeader where
  height : Option Height
  timestamp : UInt64
  parentHash : Bytes
  shardRoot : Bytes
deriving DecidableEq, Repr

structure ShardChunk where
  header : Option ShardHeader
  hash : Bytes
  transactions : List Transaction
  commits : Option Commits
deriving DecidableEq, Repr

structure ShardChunkWitness where
  height : Option Height
  shardRoot : Bytes
  shardHash : Bytes
deriving DecidableEq, Repr

structure BlockHeader where
  height : Option Height
  timestamp : UInt64
  version : UInt32
  chainId : Int32
  shardWitnessesHash : Bytes
  parentHash : Bytes
  stateRoot : Bytes
  eventsHash : Bytes
deriving DecidableEq, Repr

structure Block where
  header : Option BlockHeader
  hash : Bytes
  /-- `shard_witness.shard_chunk_witnesses`. -/
  shardWitness : Option (List ShardChunkWitness)
  commits : Option Commits
  transactions : List Transaction
  events : List BlockEvent
deriving DecidableEq, Repr

/-! ## Proposals and decided values -/

/-- What a proposal or a decided value carries. -/
inductive Value where
  | block (block : Block)
  | shard (chunk : ShardChunk)
deriving DecidableEq, Repr

structure FullProposal where
  height : Option Height
  round : Int64
  proposedValue : Option Value
  proposer : Bytes
deriving DecidableEq, Repr

structure DecidedValue where
  value : Option Value
deriving DecidableEq, Repr

namespace FullProposal

/-- `FullProposal::shard_hash`; without a height or a value it panics. -/
def shardHash (p : FullProposal) : Option ShardHash := do
  let height ← p.height
  match ← p.proposedValue with
  | .block block => some ⟨height.shardIndex, block.hash⟩
  | .shard chunk => some ⟨height.shardIndex, chunk.hash⟩

def shardChunk (p : FullProposal) (commits : Commits) : Option ShardChunk :=
  match p.proposedValue with
  | some (.shard chunk) => some { chunk with commits := some commits }
  | _ => none

def block (p : FullProposal) (commits : Commits) : Option Block :=
  match p.proposedValue with
  | some (.block block) => some { block with commits := some commits }
  | _ => none

end FullProposal

/-! ## Votes -/

inductive VoteType where
  | prevote
  | precommit
deriving DecidableEq, Repr

structure Vote where
  voteType : VoteType
  height : Height
  round : Int64
  /-- `NilOrVal<ShardHash>`. -/
  shardHash : Option ShardHash
  voter : Bytes
deriving DecidableEq, Repr

def Vote.newPrecommit (height : Height) (round : Int64) (value : Option ShardHash) (address : Bytes) : Vote :=
  ⟨.precommit, height, round, value, address⟩

/-- The protobuf encodings that are hashed or signed. -/
class ProstEncode where
  encodeShardHeader : ShardHeader → Bytes
  encodeBlockHeader : BlockHeader → Bytes
  encodeShardWitness : List ShardChunkWitness → Bytes
  encodeBlockEventData : BlockEventData → Bytes
  /-- `Vote::to_sign_bytes`. -/
  encodeVote : Vote → Bytes

end Hypersnap
