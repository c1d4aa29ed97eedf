import Hypersnap.Lib.Ascending
import Hypersnap.Consensus.Certificate
import Hypersnap.Consensus.ProposalChain
import Hypersnap.Storage.Db

/-!
# `Consensus.Validator` — a validator and its own proposals

A validator keeps what it proposes in two places: its proposer holds the proposal in memory, by hash, and the
local database holds it by height and round. `propose_value` looks into the database first and **returns what
it finds there**; only a new proposal goes into memory. `get_proposed_value`, which the host asks when a value
is decided, looks into memory only. So a proposal that is returned again after a restart cannot be decided.
`own_proposals_iff` says when one can.

`none` is a panic.
-/

namespace Hypersnap

/-! ## Proposing blocks -/

/-- What a proposer of blocks needs of the engine of shard zero beyond validating. -/
class BlockProposalApi (B : Type) extends BlockEngineApi B where
  proposeStateChange : B → List MempoolMessage → Height → Option (BlockStateChange × B)

def genesisMessage : Bytes :=
  "It occurs to me that our survival may depend upon our talking to one another.".toUTF8.toList

namespace BlockProposer

variable {B : Type} [BlockProposalApi B]

/-- The parent of a block: the genesis message at the first height, zeros if the parent is missing. -/
def parentHash (engine : B) (shardId : UInt32) (height : Height) : Bytes :=
  if height = ⟨shardId, 1⟩ then genesisMessage
  else match BlockEngineApi.getLastBlock engine with
    | some block => block.hash
    | none => List.replicate 32 0

/-- `propose_value`, on the messages that the mempool gave and the witnesses that were collected from the
    shards. The shard and the address are those of the node. -/
def proposeValue [Blake3] [ProstEncode] (self : BlockProposer B) (shardId : UInt32) (address : Bytes)
    (height : Height) (round : Int64) (messages : List MempoolMessage) (witnesses : List ShardChunkWitness) :
    Option (FullProposal × BlockProposer B) := do
  let (stateChange, engine) ← BlockProposalApi.proposeStateChange self.engine messages height
  let header : BlockHeader :=
    { height := some height
      timestamp := stateChange.timestamp.toU64
      version := (EngineVersion.versionFor stateChange.timestamp self.network).protocolVersion
      chainId := self.network.toI32
      shardWitnessesHash := (Blake3.hash (ProstEncode.encodeShardWitness witnesses)).toList
      parentHash := parentHash engine shardId height
      stateRoot := stateChange.newStateRoot
      eventsHash := stateChange.eventsHash }
  let block : Block :=
    ⟨some header, (Blake3.hash (ProstEncode.encodeBlockHeader header)).toList, some witnesses, none,
      stateChange.transactions, stateChange.events⟩
  let proposal : FullProposal := ⟨some height, round, some (.block block), address⟩
  let proposedBlocks ← self.proposedBlocks.addProposedValue proposal
  some (proposal, { self with proposedBlocks, engine })

/-- `decide`: the block that is committed, and the proposer after it. The height of every witness is
    reported. -/
def decide (self : BlockProposer B) (commits : Commits) : Option (Block × BlockProposer B) := do
  let value ← commits.value
  let height ← commits.height
  let proposal ← self.proposedBlocks.getByShardHash value
  let block ← proposal.block commits
  let witnesses ← block.shardWitness
  if witnesses.all (·.height.isSome) then do
    let engine ← BlockEngineApi.commitBlock self.engine block
    some (block, { self with engine, proposedBlocks := self.proposedBlocks.decide height })
  else none

end BlockProposer

/-! ## Proposers -/

/-- `trait Proposer`, as far as a validator uses it for its own proposals. -/
class Proposer (P : Type) where
  /-- What is read from outside while a value is made. -/
  Input : Type
  proposedValues : P → ProposedValues
  proposeValue : P → Height → Int64 → Input → Option (FullProposal × P)
  decide : P → Commits → Option P

instance {S : Type} [ShardEngineApi S] [Blake3] [ProstEncode] : Proposer (ShardProposer S) where
  Input := List MempoolMessage
  proposedValues := (·.proposedChunks)
  proposeValue self height round messages := self.proposeValue height round messages
  decide self commits := (self.decide commits).map Prod.snd

/-- What the proposer of blocks reads, and the node it runs on. -/
structure BlockInput where
  shardId : UInt32
  address : Bytes
  messages : List MempoolMessage
  witnesses : List ShardChunkWitness

instance {B : Type} [BlockProposalApi B] [Blake3] [ProstEncode] : Proposer (BlockProposer B) where
  Input := BlockInput
  proposedValues := (·.proposedBlocks)
  proposeValue self height round input :=
    self.proposeValue input.shardId input.address height round input.messages input.witnesses
  decide self commits := (self.decide commits).map Prod.snd

/-- **What the proposers have in common**: a value that is made is held, and a decision forgets up to its
    height. -/
class LawfulProposer (P : Type) [Proposer P] : Prop where
  proposeValue_held : ∀ {self after : P} {height round input p},
    Proposer.proposeValue self height round input = some (p, after) →
    (Proposer.proposedValues self).addProposedValue p = some (Proposer.proposedValues after)
  decide_held : ∀ {self after : P} {commits}, Proposer.decide self commits = some after →
    ∃ height, commits.height = some height ∧
    Proposer.proposedValues after = (Proposer.proposedValues self).decide height

/-! ## The local database -/

/-- The proposals in the local database of the node. -/
abbrev LocalStateStore := Overlay.KVMap Bytes FullProposal

namespace LocalStateStore

def makeHeightPrefix (shardIndex : UInt32) (height : UInt64) : Bytes :=
  RootPrefix.block.toByte :: (toBeBytes shardIndex ++ toBeBytes64 height)

def makeProposalKey (shardIndex : UInt32) (height : UInt64) (round : Int64) : Bytes :=
  makeHeightPrefix shardIndex height ++ toBeBytes64 round.toUInt64

/-- `put_proposal`; a round that is no 32-bit number panics. -/
def putProposal (store : LocalStateStore) (proposal : FullProposal) : Option LocalStateStore := do
  let height ← proposal.height
  if 0 ≤ proposal.round ∧ proposal.round < 4294967296 then
    some (Function.update store (makeProposalKey height.shardIndex height.blockNumber proposal.round)
      (some proposal))
  else none

def getProposal (store : LocalStateStore) (shardIndex : UInt32) (height : Height) (round : Int64) :
    Option FullProposal :=
  store (makeProposalKey shardIndex height.blockNumber round)

/-- `delete_proposals`: all rounds of a height. -/
def deleteProposals (store : LocalStateStore) (shardIndex : UInt32) (height : Height) :
    LocalStateStore := fun key =>
  let startPrefix := makeHeightPrefix shardIndex height.blockNumber
  if bytesCompare startPrefix key != .gt && bytesCompare key (incrementVecU8 startPrefix) == .lt then none
    else store key

end LocalStateStore

/-! ## The validator -/

structure ShardValidator (P : Type) where
  shardId : UInt32
  proposer : P
  localStateStore : LocalStateStore

namespace ShardValidator

variable {P : Type} [Proposer P]

/-- `propose_value`: what the database has, or a new proposal, which is stored there. -/
def proposeValue (self : ShardValidator P) (height : Height) (round : Int64) (input : Proposer.Input P) :
    Option (FullProposal × ShardValidator P) :=
  match self.localStateStore.getProposal self.shardId height round with
  | some proposal => some (proposal, self)
  | none => do
    let (proposal, proposer) ← Proposer.proposeValue self.proposer height round input
    let localStateStore ← self.localStateStore.putProposal proposal
    some (proposal, { self with proposer, localStateStore })

def getProposedValue (self : ShardValidator P) (shardHash : ShardHash) : Option FullProposal :=
  (Proposer.proposedValues self.proposer).getByShardHash shardHash

/-- `decide`; commits of another shard panic. -/
def decide (self : ShardValidator P) (commits : Commits) : Option (ShardValidator P) := do
  let height ← commits.height
  if self.shardId ≠ height.shardIndex then none
  else do
    let proposer ← Proposer.decide self.proposer commits
    some { self with proposer, localStateStore := self.localStateStore.deleteProposals self.shardId height }

/-- The host's answer to a decision: whether the value was decided. Without signatures, or if the value is not
    found, the height is started again. -/
def handleDecided (self : ShardValidator P) (certificate : CommitCertificate) :
    Option (Bool × ShardValidator P) :=
  if certificate.signatures.isEmpty then some (false, self)
  else if (self.getProposedValue certificate.valueId).isNone then some (false, self)
  else (self.decide certificate.toCommits).map (true, ·)

end ShardValidator

/-! ## The proposers are lawful -/

instance {S : Type} [ShardEngineApi S] [Blake3] [ProstEncode] : LawfulProposer (ShardProposer S) where
  proposeValue_held h := ShardProposer.proposeValue_stored h
  decide_held {self after commits} h := by
    obtain ⟨⟨chunk, node⟩, hdecide, rfl⟩ := Option.map_eq_some_iff.1 h
    obtain ⟨-, height, -, -, hheight, -, -, hvalues⟩ := ShardProposer.decide_stored hdecide
    exact ⟨height, hheight, hvalues⟩

instance {B : Type} [BlockProposalApi B] [Blake3] [ProstEncode] : LawfulProposer (BlockProposer B) where
  proposeValue_held {self after height round input p} h := by
    have hpropose : self.proposeValue input.shardId input.address height round input.messages
        input.witnesses = some (p, after) := h
    unfold BlockProposer.proposeValue at hpropose
    obtain ⟨⟨change, engine⟩, -, hpropose⟩ := Option.bind_eq_some_iff.1 hpropose
    obtain ⟨proposed, hadd, hpropose⟩ := Option.bind_eq_some_iff.1 hpropose
    cases hpropose
    exact hadd
  decide_held {self after commits} h := by
    obtain ⟨⟨block, node⟩, hdecide, rfl⟩ := Option.map_eq_some_iff.1 h
    unfold BlockProposer.decide at hdecide
    obtain ⟨value, -, hdecide⟩ := Option.bind_eq_some_iff.1 hdecide
    obtain ⟨height, hheight, hdecide⟩ := Option.bind_eq_some_iff.1 hdecide
    obtain ⟨p, -, hdecide⟩ := Option.bind_eq_some_iff.1 hdecide
    obtain ⟨b, -, hdecide⟩ := Option.bind_eq_some_iff.1 hdecide
    obtain ⟨witnesses, -, hdecide⟩ := Option.bind_eq_some_iff.1 hdecide
    split at hdecide
    · obtain ⟨engine, -, hdecide⟩ := Option.bind_eq_some_iff.1 hdecide
      cases hdecide
      exact ⟨height, hheight, rfl⟩
    · cases hdecide

/-! ## What is held -/

namespace ProposedValues

variable {self after : ProposedValues} {p : FullProposal} {height h : Height} {hash : ShardHash}

def hashesAt (self : ProposedValues) (height : Height) : List ShardHash :=
  (self.valuesByHeight[height]?).getD []

@[simp] theorem hashesAt_new : new.hashesAt height = [] := by simp [new, hashesAt]

@[simp] theorem getByShardHash_new : new.getByShardHash hash = none := by simp [new, getByShardHash]

theorem mem_hashesAt : hash ∈ self.hashesAt h ↔ ∃ l, self.valuesByHeight[h]? = some l ∧ hash ∈ l := by
  unfold hashesAt
  cases self.valuesByHeight[h]? <;> simp

theorem addProposedValue_cases (hadd : self.addProposedValue p = some after) :
    ∃ height key, p.height = some height ∧ p.shardHash = some key ∧
      (∀ h, after.hashesAt h = if h = height then self.hashesAt height ++ [key] else self.hashesAt h) ∧
      ∀ hash, after.getByShardHash hash = if hash = key then some p else self.getByShardHash hash := by
  obtain ⟨key, hkey, hget⟩ := addProposedValue_eq_some hadd
  unfold addProposedValue at hadd
  obtain ⟨height, hheight, hadd⟩ := Option.bind_eq_some_iff.1 hadd
  obtain ⟨key', hkey', hadd⟩ := Option.bind_eq_some_iff.1 hadd
  cases hkey.symm.trans hkey'
  cases hadd
  refine ⟨height, key, hheight, hkey, fun h => ?_, hget⟩
  simp only [hashesAt, Std.TreeMap.getElem?_insert, Std.LawfulEqOrd.compare_eq_iff_eq, @eq_comm _ height]
  split <;> rfl

theorem mem_removed {l : List ShardHash} :
    (h, l) ∈ self.valuesByHeight.toList.takeWhile (fun e => compare e.1 height != .gt) ↔
      self.valuesByHeight[h]? = some l ∧ compare h height ≠ .gt := by
  rw [Ascending.mem_takeWhile_iff Std.TreeMap.ordered_keys_toList,
    Std.TreeMap.mem_toList_iff_getElem?_eq_some, bne_iff_ne]
  intro a b hab hb
  rw [bne_iff_ne] at hb ⊢
  have hle : (compare a.1 b.1).isLE = true := by rw [hab]; rfl
  exact Ordering.isLE_iff_ne_gt.1 (Std.TransCmp.isLE_trans hle (Ordering.isLE_iff_ne_gt.2 hb))

/-- **A decision forgets the hashes of the heights up to its own**, -/
theorem mem_hashesAt_decide :
    hash ∈ (self.decide height).hashesAt h ↔ hash ∈ self.hashesAt h ∧ compare h height = .gt := by
  have hvalues (l : List ShardHash) : (self.decide height).valuesByHeight[h]? = some l ↔
      self.valuesByHeight[h]? = some l ∧ compare h height = .gt := by
    have hfold : (self.decide height).valuesByHeight =
        ((self.valuesByHeight.toList.takeWhile fun e => compare e.1 height != .gt).map Prod.fst).foldl
          (fun m k => m.erase k) self.valuesByHeight := by
      rw [List.foldl_map]
      rfl
    rw [hfold, getElem?_foldl_erase_eq_some]
    constructor
    · rintro ⟨hkept, hl⟩
      refine ⟨hl, ?_⟩
      by_contra hle
      exact hkept (List.mem_map.2 ⟨(h, l), mem_removed.2 ⟨hl, hle⟩, rfl⟩)
    · rintro ⟨hl, hgt⟩
      refine ⟨fun hremoved => ?_, hl⟩
      obtain ⟨⟨_, l'⟩, hmem, rfl⟩ := List.mem_map.1 hremoved
      exact (mem_removed.1 hmem).2 hgt
  simp only [mem_hashesAt, hvalues, and_right_comm, exists_and_right]

theorem getByShardHash_decide : (self.decide height).getByShardHash hash = some p ↔
    self.getByShardHash hash = some p ∧ ∀ h, hash ∈ self.hashesAt h → compare h height = .gt := by
  unfold getByShardHash decide
  rw [getElem?_foldl_erase_eq_some, and_comm]
  refine and_congr_right fun _ => ?_
  rw [List.mem_flatMap]
  constructor
  · intro hkept h hin
    obtain ⟨l, hl, hin⟩ := mem_hashesAt.1 hin
    by_contra hle
    exact hkept ⟨(h, l), mem_removed.2 ⟨hl, hle⟩, hin⟩
  · rintro hlater ⟨⟨h, l⟩, hmem, hin⟩
    obtain ⟨hl, hle⟩ := mem_removed.1 hmem
    exact hle (hlater h (mem_hashesAt.2 ⟨l, hl, hin⟩))

end ProposedValues

/-! ## Runs -/

section runs
variable {P : Type} [Proposer P]

/-- What happens to a validator. After a restart the proposer holds nothing; the rest of it is read from its
    databases. -/
inductive ValidatorOp (P : Type) [Proposer P] where
  | propose (height : Height) (round : Int64) (input : Proposer.Input P)
  | decided (certificate : CommitCertificate)
  | restart (proposer : P) (holdsNothing : Proposer.proposedValues proposer = .new)

/-- A validator, and the proposals it has returned for heights that are not decided. -/
structure OwnProposals (P : Type) where
  validator : ShardValidator P
  undecided : List FullProposal

namespace OwnProposals

def laterThan (height : Height) (p : FullProposal) : Bool :=
  match p.height with
  | some h => compare h height == .gt
  | none => false

def step (self : OwnProposals P) : ValidatorOp P → Option (OwnProposals P)
  | .propose height round input => do
    let (p, validator) ← self.validator.proposeValue height round input
    some ⟨validator, p :: self.undecided⟩
  | .decided certificate => do
    let (isDecided, validator) ← self.validator.handleDecided certificate
    some ⟨validator, if isDecided then self.undecided.filter (laterThan certificate.height)
      else self.undecided⟩
  | .restart proposer _ => some { self with validator := { self.validator with proposer } }

/-- **Every undecided proposal can be decided**: it is found under its hash. -/
def CanDecide (self : OwnProposals P) : Prop :=
  ∀ p ∈ self.undecided, ∃ key, p.shardHash = some key ∧ self.validator.getProposedValue key = some p

/-- **The condition on a step**: there is no restart while a proposal is undecided; what the database has for
    a height and round is such a proposal; and a new proposal does not have the hash of another one. -/
def Meets (self : OwnProposals P) : ValidatorOp P → Prop
  | .propose height round input =>
    match self.validator.localStateStore.getProposal self.validator.shardId height round with
    | some stored => stored ∈ self.undecided
    | none => ∀ p after, Proposer.proposeValue self.validator.proposer height round input = some (p, after) →
        ∀ q ∈ self.undecided, q.shardHash = p.shardHash → q = p
  | .decided _ => True
  | .restart _ _ => self.undecided = []

/-- Runs whose steps all meet the condition. -/
inductive Run (start : OwnProposals P) : OwnProposals P → Prop
  | start : Run start start
  | step {s s' : OwnProposals P} (op : ValidatorOp P) : Run start s → s.Meets op →
    s.step op = some s' → Run start s'

/-- **The invariant**: the proposer holds exactly the undecided proposals, by hash and by height. -/
structure Held (values : ProposedValues) (undecided : List FullProposal) : Prop where
  found : ∀ p ∈ undecided, ∃ key, p.shardHash = some key ∧ values.getByShardHash key = some p
  only : ∀ {key p}, values.getByShardHash key = some p →
    p ∈ undecided ∧ ∃ h, p.height = some h ∧ key ∈ values.hashesAt h
  hashes : ∀ {h key}, key ∈ values.hashesAt h → ∃ p ∈ undecided, p.height = some h ∧ p.shardHash = some key

theorem Held.new : Held .new [] where
  found _ hp := nomatch hp
  only h := by simp at h
  hashes h := by simp at h

variable {values after : ProposedValues} {undecided : List FullProposal} {p : FullProposal}

section

variable (h : Held values undecided)
include h

theorem Held.again (hp : p ∈ undecided) : Held values (p :: undecided) where
  found q hq := h.found q ((List.mem_cons.1 hq).elim (fun he => he ▸ hp) id)
  only hq := ⟨List.mem_cons_of_mem _ (h.only hq).1, (h.only hq).2⟩
  hashes hk :=
    let ⟨q, hq, hrest⟩ := h.hashes hk
    ⟨q, List.mem_cons_of_mem _ hq, hrest⟩

theorem found_add_iff (hadd : values.addProposedValue p = some after) :
    (∀ q ∈ p :: undecided, ∃ key, q.shardHash = some key ∧ after.getByShardHash key = some q) ↔
      ∀ q ∈ undecided, q.shardHash = p.shardHash → q = p := by
  obtain ⟨height, key, -, hkey, -, hget⟩ := ProposedValues.addProposedValue_cases hadd
  constructor
  · intro hfound q hq hsame
    obtain ⟨key', hkey', hq'⟩ := hfound q (List.mem_cons_of_mem _ hq)
    rw [hsame, hkey] at hkey'
    cases hkey'
    rw [hget, if_pos rfl] at hq'
    exact (Option.some.inj hq').symm
  · intro hdistinct q hq
    rcases List.mem_cons.1 hq with rfl | hq
    · exact ⟨key, hkey, by rw [hget, if_pos rfl]⟩
    · obtain ⟨key', hkey', hq'⟩ := h.found q hq
      refine ⟨key', hkey', ?_⟩
      rw [hget]
      split
      · next heq =>
        subst heq
        rw [hdistinct q hq (hkey'.trans hkey.symm)]
      · exact hq'

theorem Held.add (hadd : values.addProposedValue p = some after)
    (hdistinct : ∀ q ∈ undecided, q.shardHash = p.shardHash → q = p) : Held after (p :: undecided) := by
  have hfound := (found_add_iff h hadd).2 hdistinct
  obtain ⟨height, key, hheight, hkey, hhashes, hget⟩ := ProposedValues.addProposedValue_cases hadd
  have hmem {h : Height} {k : ShardHash} :
      k ∈ after.hashesAt h ↔ k ∈ values.hashesAt h ∨ h = height ∧ k = key := by
    rw [hhashes]
    by_cases heq : h = height
    · simp [heq]
    · simp [heq]
  refine ⟨hfound, fun {k q} hq => ?_, fun {h' k} hk => ?_⟩
  · rw [hget] at hq
    split at hq
    · next heq =>
      cases hq
      exact ⟨List.mem_cons_self, height, hheight, hmem.2 (.inr ⟨rfl, heq⟩)⟩
    · obtain ⟨hq', h', hh', hk⟩ := h.only hq
      exact ⟨List.mem_cons_of_mem _ hq', h', hh', hmem.2 (.inl hk)⟩
  · rcases hmem.1 hk with hk | ⟨rfl, rfl⟩
    · obtain ⟨q, hq, hrest⟩ := h.hashes hk
      exact ⟨q, List.mem_cons_of_mem _ hq, hrest⟩
    · exact ⟨p, List.mem_cons_self, hheight, hkey⟩

/-- **A decision keeps the proposals of later heights**: no earlier height has one of their hashes. -/
theorem Held.decide (height : Height) :
    Held (values.decide height) (undecided.filter (laterThan height)) := by
  have hlater {q : FullProposal} {h' : Height} (hh : q.height = some h') :
      laterThan height q = true ↔ compare h' height = .gt := by
    rw [laterThan, hh]
    exact beq_iff_eq
  -- a hash is held for one height only
  have hunique {q : FullProposal} {key : ShardHash} {h₁ h₂ : Height} (hq : values.getByShardHash key = some q)
      (hh : q.height = some h₁) (hk : key ∈ values.hashesAt h₂) : h₂ = h₁ := by
    obtain ⟨r, hr, hrh, hrk⟩ := h.hashes hk
    obtain ⟨key', hkey', hr'⟩ := h.found r hr
    cases hrk.symm.trans hkey'
    cases hq.symm.trans hr'
    exact Option.some.inj (hrh.symm.trans hh)
  refine ⟨fun q hq => ?_, fun {key q} hq => ?_, fun {h' key} hk => ?_⟩
  · obtain ⟨hq, hqlater⟩ := List.mem_filter.1 hq
    obtain ⟨key, hkey, hget⟩ := h.found q hq
    obtain ⟨-, h', hh', -⟩ := h.only hget
    refine ⟨key, hkey, ProposedValues.getByShardHash_decide.2 ⟨hget, fun h'' hk => ?_⟩⟩
    rw [hunique hget hh' hk]
    exact (hlater hh').1 hqlater
  · obtain ⟨hget, hkept⟩ := ProposedValues.getByShardHash_decide.1 hq
    obtain ⟨hq', h', hh', hk⟩ := h.only hget
    exact ⟨List.mem_filter.2 ⟨hq', (hlater hh').2 (hkept h' hk)⟩, h', hh',
      ProposedValues.mem_hashesAt_decide.2 ⟨hk, hkept h' hk⟩⟩
  · obtain ⟨hk, hgt⟩ := ProposedValues.mem_hashesAt_decide.1 hk
    obtain ⟨q, hq, hh', hkey⟩ := h.hashes hk
    exact ⟨q, List.mem_filter.2 ⟨hq, (hlater hh').2 hgt⟩, hh', hkey⟩

end

/-- What the proposer holds. -/
def memory (s : OwnProposals P) : ProposedValues := Proposer.proposedValues s.validator.proposer

theorem proposeValue_cases {self after : ShardValidator P} {height : Height} {round : Int64}
    {input : Proposer.Input P} (h : self.proposeValue height round input = some (p, after)) :
    self.localStateStore.getProposal self.shardId height round = some p ∧ after = self ∨
    self.localStateStore.getProposal self.shardId height round = none ∧
      ∃ proposer, Proposer.proposeValue self.proposer height round input = some (p, proposer) ∧
      after.proposer = proposer := by
  unfold ShardValidator.proposeValue at h
  split at h
  next proposal hstored =>
    cases h
    exact .inl ⟨hstored, rfl⟩
  next hnone =>
    obtain ⟨⟨q, proposer⟩, hq, h⟩ := Option.bind_eq_some_iff.1 h
    obtain ⟨store, -, h⟩ := Option.bind_eq_some_iff.1 h
    cases h
    exact .inr ⟨hnone, proposer, hq, rfl⟩

variable [LawfulProposer P] {s s' : OwnProposals P}

theorem handleDecided_cases {self after : ShardValidator P} {certificate : CommitCertificate}
    {isDecided : Bool} (h : self.handleDecided certificate = some (isDecided, after)) :
    isDecided = false ∧ after = self ∨
    isDecided = true ∧ Proposer.proposedValues after.proposer =
      (Proposer.proposedValues self.proposer).decide certificate.height := by
  unfold ShardValidator.handleDecided at h
  split at h
  · cases h
    exact .inl ⟨rfl, rfl⟩
  · split at h
    · cases h
      exact .inl ⟨rfl, rfl⟩
    · obtain ⟨v, hv, h⟩ := Option.map_eq_some_iff.1 h
      cases h
      unfold ShardValidator.decide at hv
      obtain ⟨height, -, hv⟩ := Option.bind_eq_some_iff.1 hv
      split at hv
      · cases hv
      · obtain ⟨proposer, hproposer, hv⟩ := Option.bind_eq_some_iff.1 hv
        cases hv
        obtain ⟨height', hheight', heq⟩ := LawfulProposer.decide_held hproposer
        cases hheight'
        exact .inr ⟨rfl, heq⟩

/-- **Step**: from a state that holds its undecided proposals, a step keeps them decidable exactly if it meets
    the condition, and then the next state holds them. -/
theorem step_iff (h : Held s.memory s.undecided) (op : ValidatorOp P) (hstep : s.step op = some s') :
    (s'.CanDecide ↔ s.Meets op) ∧ (s.Meets op → Held s'.memory s'.undecided) := by
  cases op with
  | propose height round input =>
    obtain ⟨⟨p, validator⟩, hp, heq⟩ := Option.bind_eq_some_iff.1 hstep
    cases heq
    rcases proposeValue_cases hp with ⟨hstored, rfl⟩ | ⟨hnone, proposer, hnew, rfl⟩
    · -- what the database has is in memory exactly if it is undecided
      have hmeets : s.Meets (.propose height round input) ↔ p ∈ s.undecided := by simp only [Meets, hstored]
      rw [hmeets]
      refine ⟨⟨fun hdecidable => ?_, fun hp => (h.again hp).found⟩, h.again⟩
      obtain ⟨key, -, hget⟩ := hdecidable p List.mem_cons_self
      exact (h.only hget).1
    · have hadd := LawfulProposer.proposeValue_held hnew
      have hmeets :
          s.Meets (.propose height round input) ↔ ∀ q ∈ s.undecided, q.shardHash = p.shardHash → q = p := by
        simp only [Meets, hnone]
        refine ⟨fun hall => hall p _ hnew, fun hall q after hq => ?_⟩
        rw [hnew] at hq
        cases hq
        exact hall
      rw [hmeets]
      exact ⟨found_add_iff h hadd, h.add hadd⟩
  | decided certificate =>
    obtain ⟨⟨isDecided, validator⟩, hdecided, heq⟩ := Option.bind_eq_some_iff.1 hstep
    cases heq
    have hnext : Held (Proposer.proposedValues validator.proposer)
        (if isDecided then s.undecided.filter (laterThan certificate.height) else s.undecided) := by
      rcases handleDecided_cases hdecided with ⟨rfl, rfl⟩ | ⟨rfl, hvalues⟩
      · exact h
      · rw [hvalues]
        exact h.decide certificate.height
    exact ⟨iff_of_true hnext.found trivial, fun _ => hnext⟩
  | restart proposer hnothing =>
    cases hstep
    have hvalues : memory ⟨{ s.validator with proposer }, s.undecided⟩ = .new := hnothing
    have hmeets : s.Meets (.restart proposer hnothing) ↔ s.undecided = [] := Iff.rfl
    rw [hmeets, hvalues]
    refine ⟨⟨fun hdecidable => ?_, fun hnil p hp => ?_⟩, fun hnil => ?_⟩
    · refine List.eq_nil_iff_forall_not_mem.2 fun p hp => ?_
      obtain ⟨key, -, hget⟩ := hdecidable p hp
      have hnone : (Proposer.proposedValues proposer).getByShardHash key = none := by simp [hnothing]
      cases hnone.symm.trans hget
    · have hp' : p ∈ s.undecided := hp
      rw [hnil] at hp'
      cases hp'
    · show Held .new s.undecided
      rw [hnil]
      exact .new

/-- **Run**: the undecided proposals are held in every state. -/
theorem Run.held {start : OwnProposals P} (hstart : Held start.memory start.undecided) (hrun : Run start s) :
    Held s.memory s.undecided := by
  induction hrun with
  | start => exact hstart
  | step op _ hmeets hstep ih => exact (step_iff ih op hstep).2 hmeets

end OwnProposals

open OwnProposals

/-- **A validator can decide what it proposed**, in every state of a run whose steps all meet the condition;
    and the first step that does not meet it ends in a state where some proposal cannot be decided. -/
theorem own_proposals_iff [LawfulProposer P] (validator : ShardValidator P)
    (hstart : Proposer.proposedValues validator.proposer = .new) (s : OwnProposals P)
    (hrun : OwnProposals.Run ⟨validator, []⟩ s) :
    s.CanDecide ∧ ∀ op s', s.step op = some s' → (s'.CanDecide ↔ s.Meets op) := by
  have hheld : Held s.memory s.undecided := hrun.held (by rw [memory, hstart]; exact .new)
  exact ⟨hheld.found, fun op s' hstep => (step_iff hheld op hstep).1⟩

end runs

/-! ### A restart -/

/-- A validator of shard 1 with the proposer `countProposer`, before it proposes anything. -/
def countValidator : OwnProposals (ShardProposer CountEngine) := ⟨⟨1, countProposer, fun _ => none⟩, []⟩

/-- A certificate for the value that `countProposer` makes. -/
def countCertificate : CommitCertificate := ⟨⟨1, 2⟩, 0, ⟨1, List.replicate 32 0⟩, [⟨[], []⟩]⟩

/-- The first proposal is decided, then the validator restarts: what it proposes next can be decided. -/
theorem own_proposals_past_restart :
    let _ := zeroBlake3
    let _ := emptyEncode
    ∃ s₁ s₂ s₃ s₄, countValidator.step (.propose ⟨1, 2⟩ 0 []) = some s₁ ∧
      s₁.step (.decided countCertificate) = some s₂ ∧ s₁.undecided.length = 1 ∧ s₂.undecided = [] ∧
      s₂.step (.restart countProposer rfl) = some s₃ ∧ s₃.step (.propose ⟨1, 3⟩ 0 []) = some s₄ ∧
      s₄.undecided.length = 1 ∧ s₄.CanDecide := by
  intro _ _
  have hruns : (countValidator.step (.propose ⟨1, 2⟩ 0 [])).any (fun s₁ =>
      (s₁.step (.decided countCertificate)).any fun s₂ => (s₂.step (.restart countProposer rfl)).any fun s₃ =>
        (s₃.step (.propose ⟨1, 3⟩ 0 [])).any fun s₄ =>
        s₁.undecided.length == 1 && s₂.undecided == [] && s₄.undecided.length == 1 &&
        s₃.validator.localStateStore.getProposal s₃.validator.shardId ⟨1, 3⟩ 0 == none) =
        true := by decide +kernel
  simp only [Option.any_eq_true, Bool.and_eq_true, beq_iff_eq] at hruns
  obtain ⟨s₁, h₁, s₂, h₂, s₃, h₃, s₄, h₄, ⟨⟨hone, hnil⟩, hlast⟩, hnone⟩ := hruns
  refine ⟨s₁, s₂, s₃, s₄, h₁, h₂, hone, hnil, h₃, h₄, hlast, ?_⟩
  have hmeets₁ : countValidator.Meets (.propose ⟨1, 2⟩ 0 []) := by
    intro p after _ q hq
    cases hq
  have hmeets₄ : s₃.Meets (.propose ⟨1, 3⟩ 0 []) := by
    cases h₃
    simp only [OwnProposals.Meets, hnone, hnil]
    intro p after _ q hq
    cases hq
  have hrun : OwnProposals.Run countValidator s₄ :=
    .step _ (.step (.restart countProposer rfl) (.step (.decided countCertificate) (.step _ .start hmeets₁ h₁)
      trivial h₂) hnil h₃) hmeets₄ h₄
  exact (own_proposals_iff countValidator.validator rfl s₄ hrun).1

/-- The validator proposes, restarts, and is asked for its proposal again: it returns the one in the database,
    which it does not find when it is decided, so that the height is started again. -/
theorem own_proposals_of_restart :
    let _ := zeroBlake3
    let _ := emptyEncode
    ∃ s₁ s₂ s₃ p key, countValidator.step (.propose ⟨1, 2⟩ 0 []) = some s₁ ∧
      s₁.step (.restart countProposer rfl) = some s₂ ∧ s₂.step (.propose ⟨1, 2⟩ 0 []) = some s₃ ∧
      s₃.undecided = [p, p] ∧
      p.shardHash = some key ∧ s₃.validator.getProposedValue key = none ∧
      s₃.validator.handleDecided ⟨⟨1, 2⟩, 0, key, [⟨[], []⟩]⟩ = some (false, s₃.validator) := by
  intro _ _
  have hruns : (countValidator.step (.propose ⟨1, 2⟩ 0 [])).any
      (fun s₁ => (s₁.step (.restart countProposer rfl)).any fun s₂ =>
      (s₂.step (.propose ⟨1, 2⟩ 0 [])).any fun s₃ => s₃.undecided.head?.any fun p => s₃.undecided == [p, p] &&
        p.shardHash.any fun key => (s₃.validator.getProposedValue key).isNone) = true := by decide +kernel
  simp only [Option.any_eq_true, Bool.and_eq_true, beq_iff_eq, Option.isNone_iff_eq_none] at hruns
  obtain ⟨s₁, h₁, s₂, h₂, s₃, h₃, p, -, hp, key, hkey, hnone⟩ := hruns
  refine ⟨s₁, s₂, s₃, p, key, h₁, h₂, h₃, hp, hkey, hnone, ?_⟩
  simp [ShardValidator.handleDecided, hnone]

end Hypersnap
