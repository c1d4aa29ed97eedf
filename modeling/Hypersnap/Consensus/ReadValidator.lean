import Std.Data.TreeMap
import Hypersnap.Consensus.Certificate
import Hypersnap.Version.Version

/-!
# `Consensus.ReadValidator` — how a read node applies decided values

A read node follows the chain from values that peers send it. Each value is checked (`verifySignatures`), then
committed if it is the next one, parked in a bounded ordered buffer if it is a later one, and dropped
otherwise; after a commit the buffer is drained as far as it goes.

`none` is a panic: an `unwrap` of nothing, a value of the wrong kind, or a commit that the engine refuses.
-/

namespace Hypersnap

/-- What the node needs of the engine of a shard, and of shard zero: applying a decided value, which may
    panic. -/
class CommitEngine (S B : Type) where
  commitShardChunk : S → ShardChunk → Option S
  commitBlock : B → Block → Option B

inductive Engine (S B : Type) where
  | shardEngine (engine : S)
  | blockEngine (engine : B)

structure ReadValidator (S B : Type) where
  engine : Engine S B
  lastHeight : Height
  maxNumBufferedBlocks : UInt32
  bufferedBlocks : Std.TreeMap Height DecidedValue
  validatorSets : StoredValidatorSets

/-- `get_decided_value_height`: the height in the header of the value. -/
def DecidedValue.height (v : DecidedValue) : Option Height := do
  match ← v.value with
  | .shard chunk => (← chunk.header).height
  | .block block => (← block.header).height

def DecidedValue.commits (v : DecidedValue) : Option Commits := do
  match ← v.value with
  | .shard chunk => chunk.commits
  | .block block => block.commits

namespace Engine

variable {S B : Type} [CommitEngine S B]

def commit : Engine S B → DecidedValue → Option (Engine S B)
  | shardEngine e, ⟨some (.shard chunk)⟩ => (CommitEngine.commitShardChunk B e chunk).map shardEngine
  | blockEngine e, ⟨some (.block block)⟩ => (CommitEngine.commitBlock S e block).map blockEngine
  | _, _ => none

def commitAll (e : Engine S B) : List DecidedValue → Option (Engine S B)
  | [] => some e
  | v :: rest => do (← e.commit v).commitAll rest

theorem commitAll_append (e : Engine S B) (vs ws : List DecidedValue) :
    e.commitAll (vs ++ ws) = (e.commitAll vs).bind (·.commitAll ws) := by
  induction vs generalizing e with
  | nil => rfl
  | cons v vs ih =>
    simp only [List.cons_append, commitAll]
    cases e.commit v with
    | none => rfl
    | some e' => exact ih e'

end Engine

namespace ReadValidator

variable {S B : Type} [CommitEngine S B] [VoteLibs] [ProstEncode]

def commitDecidedValue (self : ReadValidator S B) (value : DecidedValue) (height : Height) :
    Option (ReadValidator S B) := do
  let engine ← self.engine.commit value
  some { self with engine, lastHeight := height }

/-- `BTreeMap::pop_first`: the entries are listed in the order of their keys. -/
def popFirst (buffer : Std.TreeMap Height DecidedValue) :
    Option ((Height × DecidedValue) × Std.TreeMap Height DecidedValue) :=
  match buffer.toList with
  | [] => none
  | (height, value) :: _ => some ((height, value), buffer.erase height)

/-- The loop of `process_buffered_blocks`; the number counts the commits. Each turn takes an entry off the
    buffer, so as many turns as there are entries are enough. -/
def processBuffered : Nat → ReadValidator S B → Option (UInt64 × ReadValidator S B)
  | 0, self => some (0, self)
  | turns + 1, self =>
    match popFirst self.bufferedBlocks with
    | none => some (0, self)
    | some ((height, value), rest) =>
      match compare height self.lastHeight.increment with
      | .eq => do
        let self ← { self with bufferedBlocks := rest }.commitDecidedValue value height
        let (n, self) ← processBuffered turns self
        some (n + 1, self)
      | .gt => some (0, { self with bufferedBlocks := rest.insert height value })
      | .lt => processBuffered turns { self with bufferedBlocks := rest }

def processBufferedBlocks (self : ReadValidator S B) : Option (UInt64 × ReadValidator S B) :=
  self.processBuffered self.bufferedBlocks.size

/-- Only blocks have a protocol version. -/
def validateProtocolVersion (value : DecidedValue) : Option Bool :=
  match value.value with
  | some (.block block) => do
    let header ← block.header
    let network ← FarcasterNetwork.tryFrom header.chainId
    some (header.version == (EngineVersion.versionFor ⟨header.timestamp⟩ network).protocolVersion)
  | _ => some true

/-- `process_decided_value`: the number of values committed, and the node after it. -/
def processDecidedValue (self : ReadValidator S B) (value : DecidedValue) :
    Option (UInt64 × ReadValidator S B) := do
  let height ← value.height
  let verified ← verifySignatures (← value.commits) self.validatorSets
  if !verified then return (0, self)
  if !(← validateProtocolVersion value) then return (0, self)
  match compare height self.lastHeight.increment with
  | .gt =>
    if UInt32.ofNat self.bufferedBlocks.size < self.maxNumBufferedBlocks then
      some (0, { self with bufferedBlocks := self.bufferedBlocks.insert height value })
    else some (0, self)
  | .eq => do
    let self ← self.commitDecidedValue value height
    let (n, self) ← self.processBufferedBlocks
    some (n + 1, self)
  | .lt => some (0, self)

/-- A sequence of calls, with the numbers they return. -/
def processAll (self : ReadValidator S B) : List DecidedValue → Option (List UInt64 × ReadValidator S B)
  | [] => some ([], self)
  | value :: rest => do
    let (n, self) ← self.processDecidedValue value
    let (ns, self) ← self.processAll rest
    some (n :: ns, self)

end ReadValidator

end Hypersnap
