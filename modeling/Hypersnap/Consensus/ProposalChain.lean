import Hypersnap.Consensus.Proposer

/-!
# `Consensus.ProposalChain` — what a valid proposal and a decision say about the chain

Two questions about the proposers: does a proposal that was found valid extend the chain
(`valid_proposal_extends_iff`), and are the transactions that a decision commits ones that this node proposed
or validated (`decided_transactions_validated`)? Both are answered up to the checks that the code does not
make.
-/

namespace Hypersnap

variable {p : FullProposal} {event : ProposerEvent}

/-! ## Stored proposals -/

namespace ProposedValues

variable {self after : ProposedValues} {p q : FullProposal} {hash : ShardHash}

theorem addProposedValue_eq_some (h : self.addProposedValue p = some after) :
    ∃ key, p.shardHash = some key ∧ ∀ hash, after.getByShardHash hash =
      if hash = key then some p else self.getByShardHash hash := by
  unfold addProposedValue at h
  obtain ⟨height, -, h⟩ := Option.bind_eq_some_iff.1 h
  obtain ⟨key, hkey, h⟩ := Option.bind_eq_some_iff.1 h
  cases h
  refine ⟨key, hkey, fun hash => ?_⟩
  simp only [getByShardHash, Std.TreeMap.getElem?_insert, Std.LawfulEqOrd.compare_eq_iff_eq, @eq_comm _ key]

theorem getByShardHash_self (h : self.addProposedValue p = some after) :
    ∃ key, p.shardHash = some key ∧ after.getByShardHash key = some p := by
  obtain ⟨key, hkey, hget⟩ := addProposedValue_eq_some h
  exact ⟨key, hkey, by rw [hget, if_pos rfl]⟩

theorem getElem?_foldl_erase_eq_some {κ β : Type} [Ord κ] [Std.TransOrd κ] [Std.LawfulEqOrd κ]
    {m : Std.TreeMap κ β} {removed : List κ} {k : κ} {v : β} :
    (removed.foldl (fun m k => m.erase k) m)[k]? = some v ↔ k ∉ removed ∧ m[k]? = some v := by
  induction removed generalizing m with
  | nil => simp
  | cons r removed ih =>
    rw [List.foldl_cons, ih, Std.TreeMap.getElem?_erase]
    by_cases hr : r = k
    · simp [hr]
    · have hne : compare r k ≠ .eq := mt Std.LawfulEqOrd.eq_of_compare hr
      simp [hne, Ne.symm hr]

theorem getByShardHash_of_decide {height : Height} (h : (self.decide height).getByShardHash hash = some p) :
    self.getByShardHash hash = some p :=
  (getElem?_foldl_erase_eq_some.1 h).2

end ProposedValues

/-! ## Valid proposals -/

section valid
variable [Blake3] [ProstEncode]

def FullProposal.CarriesChunk (p : FullProposal) (chunk : ShardChunk) (header : ShardHeader) : Prop :=
  p.proposedValue = some (.shard chunk) ∧ chunk.header = some header

def FullProposal.CarriesBlock (p : FullProposal) (block : Block) (header : BlockHeader) : Prop :=
  p.proposedValue = some (.block block) ∧ block.header = some header

namespace ShardProposer

variable {S : Type} [ShardEngineApi S]

/-- The links of a chunk to its own header, to the last chunk and to the proposal. -/
structure Linked (node : ShardProposer S) (p : FullProposal) (chunk : ShardChunk) (header : ShardHeader) :
    Prop where
  hash : chunk.hash = (Blake3.hash (ProstEncode.encodeShardHeader header)).toList
  parent : ∀ last, ShardEngineApi.getLastShardChunk node.engine = some last → header.parentHash = last.hash
  height : p.height = header.height

/-- **The proposal extends the chain** of the node `self`, and the node `after` can find it. -/
def ExtendsChain (self after : ShardProposer S) (p : FullProposal) : Prop :=
  ∃ chunk header, p.CarriesChunk chunk header ∧ self.Linked p chunk header ∧
    ∃ key, p.shardHash = some key ∧ after.getProposedValue key = some p

omit [Blake3] [ProstEncode] in
theorem addProposedValue_cases {self after : ShardProposer S} {validity : Validity}
    (h : self.addProposedValue p = some (validity, after)) :
    (∃ chunk header, p.CarriesChunk chunk header) ∧
    self.proposedChunks.addProposedValue p = some after.proposedChunks ∨
      validity = .invalid ∧ after.proposedChunks = self.proposedChunks := by
  unfold addProposedValue at h
  split at h
  next chunk hvalue =>
    obtain ⟨header, hheader, h⟩ := Option.bind_eq_some_iff.1 h
    obtain ⟨height, -, h⟩ := Option.bind_eq_some_iff.1 h
    obtain ⟨proposed, hadd, h⟩ := Option.bind_eq_some_iff.1 h
    refine .inl ⟨⟨chunk, header, hvalue, hheader⟩, ?_⟩
    dsimp only at h
    split at h
    · cases h
      exact hadd
    · obtain ⟨⟨ok, engine⟩, -, h⟩ := Option.bind_eq_some_iff.1 h
      cases h
      exact hadd
  next =>
    cases h
    exact .inr ⟨rfl, rfl⟩

omit [Blake3] [ProstEncode] in
theorem valid_cases {self after : ShardProposer S} (h : self.addProposedValue p = some (.valid, after)) :
    (∃ chunk header, p.CarriesChunk chunk header) ∧
      ∃ key, p.shardHash = some key ∧ after.getProposedValue key = some p := by
  rcases addProposedValue_cases h with ⟨hcarries, hadd⟩ | ⟨hvalidity, -⟩
  · exact ⟨hcarries, ProposedValues.getByShardHash_self hadd⟩
  · cases hvalidity

end ShardProposer

namespace BlockProposer

variable {B : Type} [BlockEngineApi B]

structure Linked (node : BlockProposer B) (p : FullProposal) (block : Block) (header : BlockHeader) :
    Prop where
  hash : block.hash = (Blake3.hash (ProstEncode.encodeBlockHeader header)).toList
  parent : ∀ last, BlockEngineApi.getLastBlock node.engine = some last → header.parentHash = last.hash
  height : p.height = header.height

def ExtendsChain (self after : BlockProposer B) (p : FullProposal) : Prop :=
  ∃ block header, p.CarriesBlock block header ∧ self.Linked p block header ∧
    ∃ key, p.shardHash = some key ∧ after.getProposedValue key = some p

/-- A valid proposal is a block with a header and is stored, or it is no block at all. -/
theorem valid_cases {self after : BlockProposer B} (h : self.addProposedValue p = some (.valid, after)) :
    (∀ block, p.proposedValue ≠ some (.block block)) ∨ (∃ block header, p.CarriesBlock block header) ∧
      ∃ key, p.shardHash = some key ∧ after.getProposedValue key = some p := by
  unfold addProposedValue at h
  split at h
  next block hvalue =>
    obtain ⟨header, hheader, h⟩ := Option.bind_eq_some_iff.1 h
    obtain ⟨height, -, h⟩ := Option.bind_eq_some_iff.1 h
    refine .inr ⟨⟨block, header, hvalue, hheader⟩, ?_⟩
    dsimp only at h
    split at h
    · cases h
    · obtain ⟨⟨ok, engine⟩, -, h⟩ := Option.bind_eq_some_iff.1 h
      dsimp only at h
      split at h
      · cases h
      · obtain ⟨proposed, hadd, h⟩ := Option.bind_eq_some_iff.1 h
        cases h
        exact ProposedValues.getByShardHash_self hadd
  next hother => exact .inl fun block hvalue => hother block hvalue

end BlockProposer

/-- **When a valid proposal extends the chain**: the shard proposer checks that it is a chunk and stores it,
    the links of the chunk are up to whoever made the proposal; for the block proposer, so is being a
    block. -/
theorem valid_proposal_extends_iff {S B : Type} [ShardEngineApi S] [BlockEngineApi B] :
    (∀ (self after : ShardProposer S) (p : FullProposal), self.addProposedValue p = some (.valid, after) →
      (self.ExtendsChain after p ↔
        ∀ chunk header, p.CarriesChunk chunk header → self.Linked p chunk header)) ∧
    ∀ (self after : BlockProposer B) (p : FullProposal), self.addProposedValue p = some (.valid, after) →
      (self.ExtendsChain after p ↔ (∃ block header, p.CarriesBlock block header) ∧
        ∀ block header, p.CarriesBlock block header → self.Linked p block header) := by
  refine ⟨fun self after p h => ?_, fun self after p h => ?_⟩
  · obtain ⟨⟨chunk, header, hc⟩, hstored⟩ := ShardProposer.valid_cases h
    refine ⟨?_, fun hlinked => ⟨chunk, header, hc, hlinked chunk header hc, hstored⟩⟩
    rintro ⟨chunk', header', hc', hlinked, -⟩ chunk'' header'' hc''
    cases hc'.1.symm.trans hc''.1
    cases hc'.2.symm.trans hc''.2
    exact hlinked
  · constructor
    · rintro ⟨block, header, hb, hlinked, -⟩
      refine ⟨⟨block, header, hb⟩, fun block' header' hb' => ?_⟩
      cases hb.1.symm.trans hb'.1
      cases hb.2.symm.trans hb'.2
      exact hlinked
    · rintro ⟨⟨block, header, hb⟩, hlinked⟩
      rcases BlockProposer.valid_cases h with hnone | ⟨-, hstored⟩
      · exact absurd hb.1 (hnone block)
      · exact ⟨block, header, hb, hlinked block header hb, hstored⟩

end valid

/-! ### A small shard -/

/-- A shard whose state root is the number of transactions of its last chunk. -/
structure CountEngine where
  confirmed : Height
  last : Option ShardChunk

instance : ShardEngineApi CountEngine where
  network _ := .devnet
  getConfirmedHeight := (·.confirmed)
  getLastShardChunk := (·.last)
  startRound self _ := self
  proposeStateChange self shardId _ := some (⟨shardId, ⟨0⟩, [0], [], [], .v0, 0⟩, self)
  validateStateChange self change _ :=
    some (change.newStateRoot == [change.transactions.length.toUInt8], self)
  commitShardChunk self chunk := do
    let height ← (← chunk.header).height
    some { self with confirmed := height, last := some chunk }

/-- A shard zero without blocks. -/
instance : BlockEngineApi Unit where
  getConfirmedHeight _ := ⟨0, 0⟩
  getLastBlock _ := none
  validateStateChange self _ _ := some (true, self)
  commitBlock self _ := some self

@[reducible] def zeroBlake3 : Blake3 := ⟨fun _ => Vector.replicate 32 0⟩

@[reducible] def emptyEncode : ProstEncode :=
  ⟨fun _ => [], fun _ => [], fun _ => [], fun _ => [], fun _ => []⟩

/-- A proposer of shard 1 that has committed a chunk with the hash `9`. -/
def countProposer : ShardProposer CountEngine :=
  ⟨1, [], .new, ⟨1, 1⟩, some ⟨some ⟨some ⟨1, 1⟩, 0, [], []⟩, [9], [], none⟩⟩

/-- A chunk of height 2 without transactions. -/
def countChunk (parent hash : Bytes) : ShardChunk := ⟨some ⟨some ⟨1, 2⟩, 0, parent, [0]⟩, hash, [], none⟩

def countProposal (height : Height) (chunk : ShardChunk) : FullProposal :=
  ⟨some height, 0, some (.shard chunk), []⟩

def emptyBlockProposer : BlockProposer Unit := ⟨1, .devnet, .new, ()⟩

/-- A linked chunk extends the chain. -/
theorem valid_proposal_extends_count :
    ∃ after, countProposer.addProposedValue (countProposal ⟨1, 2⟩ (countChunk [9] (List.replicate 32 0))) =
        some (.valid, after) ∧ @ShardProposer.ExtendsChain zeroBlake3 emptyEncode _ _ countProposer after
        (countProposal ⟨1, 2⟩ (countChunk [9] (List.replicate 32 0))) := by
  let _ := zeroBlake3
  let _ := emptyEncode
  refine ⟨_, rfl, ((valid_proposal_extends_iff (B := Unit)).1 _ _ _ rfl).2 ?_⟩
  rintro chunk header ⟨hchunk, hheader⟩
  cases hchunk
  cases hheader
  refine ⟨rfl, fun last hlast => ?_, rfl⟩
  cases hlast
  rfl

/-- **Valid proposals that do not extend the chain**: the shard proposer accepts an empty chunk with another
    parent, an empty hash and a proposal for another height, and the block proposer a proposal without a
    value, which it does not even store. -/
theorem valid_proposal_unlinked :
    (∃ after, countProposer.addProposedValue (countProposal ⟨1, 7⟩ (countChunk [8] [])) =
      some (.valid, after) ∧
      ¬ @ShardProposer.ExtendsChain zeroBlake3 emptyEncode _ _ countProposer after
        (countProposal ⟨1, 7⟩ (countChunk [8] []))) ∧
    ∃ after, @BlockProposer.addProposedValue _ _ zeroBlake3 emptyEncode emptyBlockProposer
      ⟨some ⟨0, 1⟩, 0, none, []⟩ = some (.valid, after) ∧
      ¬ @BlockProposer.ExtendsChain zeroBlake3 emptyEncode _ _ emptyBlockProposer after
        ⟨some ⟨0, 1⟩, 0, none, []⟩ := by
  let _ := zeroBlake3
  let _ := emptyEncode
  refine ⟨⟨_, rfl, ?_⟩, _, rfl, ?_⟩
  · rintro ⟨chunk, header, ⟨hchunk, hheader⟩, hlinked, -⟩
    cases hchunk
    cases hheader
    have hparent : ([8] : Bytes) = [9] := hlinked.parent _ rfl
    cases hparent
  · rintro ⟨block, header, ⟨hblock, -⟩, -⟩
    cases hblock

/-! ## Decisions -/

def FullProposal.transactions (p : FullProposal) : Option (List Transaction) :=
  match p.proposedValue with
  | some (.shard chunk) => some chunk.transactions
  | _ => none

theorem FullProposal.transactions_of_shardChunk {commits : Commits} {chunk : ShardChunk}
    (h : p.shardChunk commits = some chunk) : p.transactions = some chunk.transactions := by
  cases hvalue : p.proposedValue with
  | none => simp [shardChunk, hvalue] at h
  | some value =>
    cases value with
    | block block => simp [shardChunk, hvalue] at h
    | shard c =>
      simp only [shardChunk, hvalue] at h
      cases h
      simp only [transactions, hvalue]

/-- What the consensus layer asks of a shard proposer. -/
inductive ProposerOp where
  | proposeValue (height : Height) (round : Int64) (messages : List MempoolMessage)
  | addProposedValue (fullProposal : FullProposal)
  | decide (commits : Commits)
  | startRound (height : Height)

/-- What comes of it. -/
inductive ProposerEvent where
  | proposed (p : FullProposal)
  | received (p : FullProposal) (validity : Validity)
  | decided (value : ShardHash) (chunk : ShardChunk)
  | started (height : Height)
deriving DecidableEq

namespace ShardProposer

variable {S : Type} [ShardEngineApi S]

def step [Blake3] [ProstEncode] (self : ShardProposer S) :
    ProposerOp → Option (ProposerEvent × ShardProposer S)
  | .proposeValue height round messages => do
    let (p, node) ← self.proposeValue height round messages
    some (.proposed p, node)
  | .addProposedValue p => do
    let (validity, node) ← self.addProposedValue p
    some (.received p validity, node)
  | .decide commits => do
    let value ← commits.value
    let (chunk, node) ← self.decide commits
    some (.decided value chunk, node)
  | .startRound height => some (.started height, self.startRound height)

def run [Blake3] [ProstEncode] (self : ShardProposer S) :
    List ProposerOp → Option (List ProposerEvent × ShardProposer S)
  | [] => some ([], self)
  | op :: ops => do
    let (event, node) ← self.step op
    let (events, node) ← node.run ops
    some (event :: events, node)

end ShardProposer

namespace ProposerEvent

/-- `P` holds of every event, given the events before it. -/
def Along (P : List ProposerEvent → ProposerEvent → Prop) (events : List ProposerEvent) : Prop :=
  ∀ history event rest, events = history ++ event :: rest → P history event

/-- The node made the proposal or found it valid. -/
def Accepted (history : List ProposerEvent) (p : FullProposal) : Prop :=
  .proposed p ∈ history ∨ .received p .valid ∈ history

/-- The transactions of a proposal with this hash that the node accepted. -/
def Validated (history : List ProposerEvent) (value : ShardHash) (transactions : List Transaction) : Prop :=
  ∃ p, Accepted history p ∧ p.shardHash = some value ∧ p.transactions = some transactions

/-- A value that is decided is that of an accepted proposal, and a proposal that is received under the hash of
    an accepted one has its transactions. -/
def Faithful (history : List ProposerEvent) : ProposerEvent → Prop
  | .received p _ => ∀ q transactions, Accepted history q → q.shardHash = p.shardHash →
      p.transactions = some transactions → q.transactions = some transactions
  | .decided value _ => ∃ q, Accepted history q ∧ q.shardHash = some value
  | _ => True

/-- What is committed was validated. -/
def CommitsValidated (history : List ProposerEvent) : ProposerEvent → Prop
  | .decided value chunk => Validated history value chunk.transactions
  | _ => True

theorem along_cons {P : List ProposerEvent → ProposerEvent → Prop} {events : List ProposerEvent} :
    Along P (event :: events) ↔ P [] event ∧ Along (fun history => P (event :: history)) events := by
  constructor
  · intro h
    exact ⟨h [] event events rfl, fun history e rest heq =>
      h (event :: history) e rest (congrArg (event :: ·) heq)⟩
  · rintro ⟨hhead, htail⟩ history e rest heq
    cases history with
    | nil =>
      cases heq
      exact hhead
    | cons first history =>
      cases heq
      exact htail history e rest rfl

variable {history : List ProposerEvent} {event : ProposerEvent}

theorem Accepted.snoc (h : Accepted history p) : Accepted (history ++ [event]) p :=
  h.imp (List.mem_append_left _) (List.mem_append_left _)

theorem Validated.snoc {value : ShardHash} {transactions : List Transaction}
    (h : Validated history value transactions) :
    Validated (history ++ [event]) value transactions :=
  let ⟨p, hp, hrest⟩ := h
  ⟨p, hp.snoc, hrest⟩

end ProposerEvent

namespace ShardProposer

open ProposerEvent

variable {S : Type} [ShardEngineApi S] {self node : ShardProposer S} {history events : List ProposerEvent}

/-- **The invariant of a faithful run**: once a proposal under some hash is accepted, whatever is stored under
    that hash has transactions of an accepted one. -/
def Backed (history : List ProposerEvent) (stored : ProposedValues) : Prop :=
  ∀ value p transactions, stored.getByShardHash value = some p → p.transactions = some transactions →
    (∃ q, Accepted history q ∧ q.shardHash = some value) → Validated history value transactions

/-- An event that accepts nothing keeps the invariant, also if the store forgets. -/
theorem Backed.mono {stored stored' : ProposedValues} (h : Backed history stored)
    (hsub : ∀ value p, stored'.getByShardHash value = some p → stored.getByShardHash value = some p)
    (hnew : ∀ q, Accepted (history ++ [event]) q → Accepted history q) :
    Backed (history ++ [event]) stored' := by
  rintro value p transactions hp hts ⟨q, hq, hvalue⟩
  exact (h value p transactions (hsub value p hp) hts ⟨q, hnew q hq, hvalue⟩).snoc

/-- Storing a proposal keeps the invariant if, once there is an accepted proposal with its hash, there is one
    that has its transactions too. -/
theorem Backed.add {stored stored' : ProposedValues} {event : ProposerEvent} {p : FullProposal}
    (h : Backed history stored) (hadd : stored.addProposedValue p = some stored')
    (hnew : ∀ q, Accepted (history ++ [event]) q → Accepted history q ∨ q = p)
    (hbacked : ∀ value transactions, p.shardHash = some value → p.transactions = some transactions →
      (∃ q, Accepted (history ++ [event]) q ∧ q.shardHash = some value) →
        Validated (history ++ [event]) value transactions) :
    Backed (history ++ [event]) stored' := by
  obtain ⟨key, hkey, hget⟩ := ProposedValues.addProposedValue_eq_some hadd
  rintro value q transactions hq hts hacc
  rw [hget] at hq
  split at hq
  next heq =>
    cases hq
    exact hbacked value transactions (heq ▸ hkey) hts hacc
  next hne =>
    obtain ⟨r, hr, hvalue⟩ := hacc
    rcases hnew r hr with hr | rfl
    · exact (h value q transactions hq hts ⟨r, hr, hvalue⟩).snoc
    · exact absurd (Option.some.inj (hvalue.symm.trans hkey)) hne

theorem proposeValue_stored [Blake3] [ProstEncode] {height : Height} {round : Int64}
    {messages : List MempoolMessage} (h : self.proposeValue height round messages = some (p, node)) :
    self.proposedChunks.addProposedValue p = some node.proposedChunks := by
  unfold proposeValue at h
  obtain ⟨⟨change, engine⟩, -, h⟩ := Option.bind_eq_some_iff.1 h
  obtain ⟨proposed, hadd, h⟩ := Option.bind_eq_some_iff.1 h
  cases h
  exact hadd

theorem decide_stored {commits : Commits} {chunk : ShardChunk}
    (h : self.decide commits = some (chunk, node)) :
    ∃ value height p, commits.value = some value ∧ commits.height = some height ∧
      self.proposedChunks.getByShardHash value = some p ∧ p.transactions = some chunk.transactions ∧
      node.proposedChunks = self.proposedChunks.decide height := by
  unfold decide at h
  obtain ⟨value, hvalue, h⟩ := Option.bind_eq_some_iff.1 h
  obtain ⟨height, hheight, h⟩ := Option.bind_eq_some_iff.1 h
  obtain ⟨p, hp, h⟩ := Option.bind_eq_some_iff.1 h
  obtain ⟨c, hc, h⟩ := Option.bind_eq_some_iff.1 h
  obtain ⟨engine, -, h⟩ := Option.bind_eq_some_iff.1 h
  cases h
  exact ⟨value, height, p, hvalue, hheight, hp, FullProposal.transactions_of_shardChunk hc, rfl⟩

/-- **Step**: a faithful step keeps the invariant, and if it is a decision, it commits validated
    transactions. -/
theorem step_validated [Blake3] [ProstEncode] {op : ProposerOp} (hstep : self.step op = some (event, node))
    (hinv : Backed history self.proposedChunks) (hfaithful : Faithful history event) :
    CommitsValidated history event ∧ Backed (history ++ [event]) node.proposedChunks := by
  cases op with
  | proposeValue height round messages =>
    obtain ⟨⟨p, node'⟩, hp, h⟩ := Option.bind_eq_some_iff.1 hstep
    cases h
    have hacc : Accepted (history ++ [.proposed p]) p := .inl (List.mem_append_right _ List.mem_cons_self)
    refine ⟨trivial, hinv.add (proposeValue_stored hp) ?_ fun value ts hvalue hts _ => ⟨p, hacc, hvalue, hts⟩⟩
    simp only [Accepted, List.mem_append, List.mem_singleton, ProposerEvent.proposed.injEq,
      reduceCtorEq, or_false]
    tauto
  | addProposedValue p =>
    obtain ⟨⟨validity, node'⟩, hp, h⟩ := Option.bind_eq_some_iff.1 hstep
    cases h
    refine ⟨trivial, ?_⟩
    have hnew : ∀ q, Accepted (history ++ [.received p validity]) q →
        Accepted history q ∨ q = p ∧ validity = .valid := by
      simp only [Accepted, List.mem_append, List.mem_singleton, ProposerEvent.received.injEq,
        reduceCtorEq, or_false]
      tauto
    rcases addProposedValue_cases hp with ⟨-, hadd⟩ | ⟨rfl, hstored⟩
    · refine hinv.add hadd (fun q hq => (hnew q hq).imp_right And.left) ?_
      rintro value ts hvalue hts ⟨q, hq, hqvalue⟩
      rcases hnew q hq with hold | ⟨rfl, rfl⟩
      · -- the hash was accepted before, so the new proposal has the transactions of that one
        exact ⟨q, hold.snoc, hqvalue, hfaithful q ts hold (hqvalue.trans hvalue.symm) hts⟩
      · exact ⟨q, hq, hvalue, hts⟩
    · refine hinv.mono (fun value q hq => hstored ▸ hq) fun q hq => ?_
      rcases hnew q hq with hold | ⟨-, hvalid⟩
      · exact hold
      · cases hvalid
  | decide commits =>
    obtain ⟨value, hvalue, h⟩ := Option.bind_eq_some_iff.1 hstep
    obtain ⟨⟨chunk, node'⟩, hdecide, h⟩ := Option.bind_eq_some_iff.1 h
    cases h
    obtain ⟨value', height, p, hvalue', -, hp, hts, hstored⟩ := decide_stored hdecide
    cases hvalue.symm.trans hvalue'
    refine ⟨hinv value p _ hp hts hfaithful, hinv.mono (fun value q hq => ?_) fun q hq => ?_⟩
    · exact ProposedValues.getByShardHash_of_decide (hstored ▸ hq)
    · simpa [Accepted] using hq
  | startRound height =>
    cases hstep
    refine ⟨trivial, hinv.mono (fun value q hq => hq) fun q hq => ?_⟩
    simpa [Accepted] using hq

/-- **Run**: the same along every faithful run. -/
theorem run_validated [Blake3] [ProstEncode] {ops : List ProposerOp}
    (hrun : self.run ops = some (events, node)) (hinv : Backed history self.proposedChunks)
    (hfaithful : Along (fun later => Faithful (history ++ later)) events) :
    Along (fun later => CommitsValidated (history ++ later)) events := by
  induction ops generalizing self history events with
  | nil =>
    cases hrun
    intro later event rest heq
    simp at heq
  | cons op ops ih =>
    obtain ⟨⟨event, node'⟩, hstep, h⟩ := Option.bind_eq_some_iff.1 hrun
    obtain ⟨⟨events', node''⟩, hrest, h⟩ := Option.bind_eq_some_iff.1 h
    cases h
    obtain ⟨hhead, htail⟩ := along_cons.1 hfaithful
    rw [List.append_nil] at hhead
    obtain ⟨hcommits, hinv'⟩ := step_validated hstep hinv hhead
    have hassoc : ∀ later, history ++ event :: later = history ++ [event] ++ later :=
      List.append_cons history event
    refine along_cons.2 ⟨by rwa [List.append_nil], fun later e rest heq => ?_⟩
    show CommitsValidated (history ++ event :: later) e
    rw [hassoc]
    refine ih hrest hinv' (fun later e rest heq => ?_) later e rest heq
    show Faithful (history ++ [event] ++ later) e
    rw [← hassoc]
    exact htail later e rest heq

/-- **Only validated transactions are committed**, in every run of a new proposer whose decisions are for
    accepted hashes and in which no proposal is received that has the hash of an accepted one but other
    transactions. -/
theorem decided_transactions_validated [Blake3] [ProstEncode] (start : ShardProposer S)
    (hstart : start.proposedChunks = .new) (ops : List ProposerOp) (events : List ProposerEvent)
    (node : ShardProposer S) (hrun : start.run ops = some (events, node))
    (hfaithful : Along Faithful events) :
    Along CommitsValidated events := by
  have hinv : Backed [] start.proposedChunks := by
    rw [hstart]
    rintro value p ts hp
    simp [ProposedValues.new, ProposedValues.getByShardHash] at hp
  exact run_validated hrun hinv hfaithful

/-- A proposal of height 2 is accepted and decided. -/
theorem decided_transactions_validated_count : ∃ chunk node, @run _ _ zeroBlake3 emptyEncode countProposer
        [.addProposedValue (countProposal ⟨1, 2⟩ (countChunk [9] [5])),
          .decide ⟨some ⟨1, 2⟩, 0, some ⟨1, [5]⟩, []⟩] =
        some ([.received (countProposal ⟨1, 2⟩ (countChunk [9] [5])) .valid, .decided ⟨1, [5]⟩ chunk], node) ∧
      Along CommitsValidated
        [.received (countProposal ⟨1, 2⟩ (countChunk [9] [5])) .valid, .decided ⟨1, [5]⟩ chunk] := by
  let _ := zeroBlake3
  let _ := emptyEncode
  have hrun : ∃ chunk node, countProposer.run [.addProposedValue (countProposal ⟨1, 2⟩ (countChunk [9] [5])),
      .decide ⟨some ⟨1, 2⟩, 0, some ⟨1, [5]⟩, []⟩] =
      some ([.received (countProposal ⟨1, 2⟩ (countChunk [9] [5])) .valid, .decided ⟨1, [5]⟩ chunk], node) :=
    ⟨_, _, rfl⟩
  obtain ⟨chunk, node, hrun⟩ := hrun
  refine ⟨chunk, node, hrun, decided_transactions_validated countProposer rfl _ _ _ hrun ?_⟩
  refine along_cons.2 ⟨?_, along_cons.2 ⟨?_, ?_⟩⟩
  · rintro q ts (hq | hq) <;> cases hq
  · exact ⟨_, .inr List.mem_cons_self, rfl⟩
  · rintro later event rest heq
    simp at heq

/-- A proposal under the hash of `countChunk [9] [5]`, with a transaction and a header of a height that is
    long past. -/
def rivalProposal : FullProposal :=
  countProposal ⟨1, 2⟩ ⟨some ⟨some ⟨1, 0⟩, 0, [], []⟩, [5], [⟨3, [], [], []⟩], none⟩

/-- **A decision that commits transactions which were never validated**: the first proposal under the hash `5`
    is valid, a rival one under the same hash is not but replaces it, and the decision for the hash commits
    the rival's. -/
theorem decided_transactions_replaced : ∃ chunk node, @run _ _ zeroBlake3 emptyEncode countProposer
        [.addProposedValue (countProposal ⟨1, 2⟩ (countChunk [9] [5])), .addProposedValue rivalProposal,
          .decide ⟨some ⟨1, 2⟩, 0, some ⟨1, [5]⟩, []⟩] =
        some ([.received (countProposal ⟨1, 2⟩ (countChunk [9] [5])) .valid, .received rivalProposal .invalid,
          .decided ⟨1, [5]⟩ chunk], node) ∧ chunk.transactions = [⟨3, [], [], []⟩] ∧
      ¬ Validated
        [.received (countProposal ⟨1, 2⟩ (countChunk [9] [5])) .valid, .received rivalProposal .invalid]
        ⟨1, [5]⟩ chunk.transactions := by
  refine ⟨_, _, rfl, rfl, ?_⟩
  rintro ⟨p, hacc, -, hts⟩
  have hp : p = countProposal ⟨1, 2⟩ (countChunk [9] [5]) := by simpa [Accepted] using hacc
  subst hp
  cases hts

end ShardProposer

end Hypersnap
