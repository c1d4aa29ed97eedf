import Std.Data.TreeMap
import Hypersnap.Proto.Block
import Hypersnap.Version.Version

/-!
# `Consensus.Proposer` — proposing, validating and deciding chunks and blocks

A proposer keeps the proposals it has made or received under the hash field they carry (`ProposedValues`)
until a height is decided. The shard proposer stores a proposal **before** it validates it, the block proposer
after; neither compares the hash field, the parent hash or the height of the proposal with anything.

`none` is a panic.
-/

namespace Hypersnap

/-! ## State changes and engines -/

structure ShardStateChange where
  shardId : UInt32
  timestamp : FarcasterTime
  newStateRoot : Bytes
  transactions : List Transaction
  events : List HubEvent
  version : EngineVersion
  maxBlockEventSeqnum : UInt64

structure BlockStateChange where
  timestamp : FarcasterTime
  newStateRoot : Bytes
  eventsHash : Bytes
  transactions : List Transaction
  events : List BlockEvent

/-- What a proposer needs of the engine of a shard. -/
class ShardEngineApi (S : Type) where
  network : S → FarcasterNetwork
  getConfirmedHeight : S → Height
  getLastShardChunk : S → Option ShardChunk
  startRound : S → Height → S
  proposeStateChange : S → UInt32 → List MempoolMessage → Option (ShardStateChange × S)
  validateStateChange : S → ShardStateChange → Height → Option (Bool × S)
  commitShardChunk : S → ShardChunk → Option S

/-- What a proposer needs of the engine of shard zero. -/
class BlockEngineApi (B : Type) where
  getConfirmedHeight : B → Height
  getLastBlock : B → Option Block
  validateStateChange : B → BlockStateChange → Height → Option (Bool × B)
  commitBlock : B → Block → Option B

inductive Validity where
  | valid
  | invalid
deriving DecidableEq, Repr

/-! ## Proposals that wait for a decision -/

structure ProposedValues where
  valuesByHeight : Std.TreeMap Height (List ShardHash)
  values : Std.TreeMap ShardHash FullProposal

namespace ProposedValues

def new : ProposedValues := ⟨∅, ∅⟩

def addProposedValue (self : ProposedValues) (value : FullProposal) : Option ProposedValues := do
  let height ← value.height
  let shardHash ← value.shardHash
  some ⟨self.valuesByHeight.insert height ((self.valuesByHeight[height]?).getD [] ++ [shardHash]),
    self.values.insert shardHash value⟩

def getByShardHash (self : ProposedValues) (shardHash : ShardHash) : Option FullProposal :=
  self.values[shardHash]?

/-- Forget the proposals up to a height. -/
def decide (self : ProposedValues) (height : Height) : ProposedValues :=
  let removed := self.valuesByHeight.toList.takeWhile fun e => compare e.1 height != .gt
  ⟨removed.foldl (fun m e => m.erase e.1) self.valuesByHeight,
    (removed.flatMap (·.2)).foldl (fun m shardHash => m.erase shardHash) self.values⟩

end ProposedValues

/-! ## The shard proposer -/

structure ShardProposer (S : Type) where
  shardId : UInt32
  address : Bytes
  proposedChunks : ProposedValues
  engine : S

namespace ShardProposer

variable {S : Type} [ShardEngineApi S]

def getProposedValue (self : ShardProposer S) (shardHash : ShardHash) : Option FullProposal :=
  self.proposedChunks.getByShardHash shardHash

/-- `propose_value`, on the messages that the mempool gave. The first chunk's parent is the string `0 32`. -/
def proposeValue [Blake3] [ProstEncode] (self : ShardProposer S) (height : Height) (round : Int64)
    (messages : List MempoolMessage) : Option (FullProposal × ShardProposer S) := do
  let parentHash := match ShardEngineApi.getLastShardChunk self.engine with
    | some chunk => chunk.hash
    | none => [0, 32]
  let (stateChange, engine) ← ShardEngineApi.proposeStateChange self.engine self.shardId messages
  let header : ShardHeader := ⟨some height, stateChange.timestamp.toU64, parentHash, stateChange.newStateRoot⟩
  let chunk : ShardChunk :=
    ⟨some header, (Blake3.hash (ProstEncode.encodeShardHeader header)).toList, stateChange.transactions, none⟩
  let proposal : FullProposal := ⟨some height, round, some (.shard chunk), self.address⟩
  let proposedChunks ← self.proposedChunks.addProposedValue proposal
  some (proposal, { self with proposedChunks, engine })

def stateChangeOf (self : ShardProposer S) (header : ShardHeader) (height : Height) (chunk : ShardChunk) :
    ShardStateChange where
  shardId := height.shardIndex
  timestamp := ⟨header.timestamp⟩
  newStateRoot := header.shardRoot
  transactions := chunk.transactions
  events := []
  version := EngineVersion.versionFor ⟨header.timestamp⟩ (ShardEngineApi.network self.engine)
  maxBlockEventSeqnum := 0

/-- `add_proposed_value`: the proposal is stored first and validated then. -/
def addProposedValue (self : ShardProposer S) (fullProposal : FullProposal) :
    Option (Validity × ShardProposer S) :=
  match fullProposal.proposedValue with
  | some (.shard chunk) => do
    let header ← chunk.header
    let height ← header.height
    let proposedChunks ← self.proposedChunks.addProposedValue fullProposal
    let self := { self with proposedChunks }
    if height ≠ (ShardEngineApi.getConfirmedHeight self.engine).increment then some (.invalid, self)
    else do
      let (ok, engine) ← ShardEngineApi.validateStateChange self.engine
        (self.stateChangeOf header height chunk) height
      some (if ok then .valid else .invalid, { self with engine })
  | _ => some (.invalid, self)

/-- `decide`: the chunk that is committed, and the proposer after it. -/
def decide (self : ShardProposer S) (commits : Commits) : Option (ShardChunk × ShardProposer S) := do
  let value ← commits.value
  let height ← commits.height
  let proposal ← self.proposedChunks.getByShardHash value
  let chunk ← proposal.shardChunk commits
  let engine ← ShardEngineApi.commitShardChunk self.engine chunk
  some (chunk, { self with engine, proposedChunks := self.proposedChunks.decide height })

def startRound (self : ShardProposer S) (height : Height) : ShardProposer S :=
  { self with engine := ShardEngineApi.startRound self.engine height }

end ShardProposer

/-! ## The block proposer -/

structure BlockProposer (B : Type) where
  numShards : UInt32
  network : FarcasterNetwork
  proposedBlocks : ProposedValues
  engine : B

namespace BlockProposer

variable {B : Type} [BlockEngineApi B]

def getProposedValue (self : BlockProposer B) (shardHash : ShardHash) : Option FullProposal :=
  self.proposedBlocks.getByShardHash shardHash

/-- The checks of a block's header and witness, before its state change is validated. -/
def headerOk [Blake3] [ProstEncode] (self : BlockProposer B) (block : Block) (header : BlockHeader)
    (height : Height) : Bool :=
  height == (BlockEngineApi.getConfirmedHeight self.engine).increment &&
    header.chainId == self.network.toI32 &&
    header.version == (EngineVersion.versionFor ⟨header.timestamp⟩ self.network).protocolVersion &&
    !header.shardWitnessesHash.isEmpty &&
    match block.shardWitness with
    | none => false
    | some witnesses =>
      witnesses.length == self.numShards.toNat &&
        (Blake3.hash (ProstEncode.encodeShardWitness witnesses)).toList == header.shardWitnessesHash

/-- `add_proposed_value`. A proposal that is not a block falls through to `Valid`. -/
def addProposedValue [Blake3] [ProstEncode] (self : BlockProposer B) (fullProposal : FullProposal) :
    Option (Validity × BlockProposer B) :=
  match fullProposal.proposedValue with
  | some (.block block) => do
    let header ← block.header
    let height ← header.height
    if !self.headerOk block header height then some (.invalid, self)
    else do
      let (ok, engine) ← BlockEngineApi.validateStateChange self.engine
        ⟨⟨header.timestamp⟩, header.stateRoot, header.eventsHash, block.transactions, block.events⟩ height
      let self := { self with engine }
      if !ok then some (.invalid, self)
      else do
        let proposedBlocks ← self.proposedBlocks.addProposedValue fullProposal
        some (.valid, { self with proposedBlocks })
  | _ => some (.valid, self)

end BlockProposer

end Hypersnap
