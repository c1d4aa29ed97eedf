import Hypersnap.Consensus.ProposalChain
import Hypersnap.Engine.Proposal
import Hypersnap.Mempool.Mempool
import Hypersnap.Store.History

/-!
# `Mempool.Node` — a message on its way from the mempool into a chunk

A validator of one shard: its mempool, its proposer, and the decisions that the mempool has not seen yet. A
pull hands messages to the proposer, who puts them into a proposal for the current height; when some proposal
is decided, the mempool learns of it and removes its messages.
-/

namespace Hypersnap

open Overlay EState

variable {p : FullProposal} {ambient : Ambient} {events : List NodeEvent} {m : Message} {env : MempoolEnv}

structure ValidatorNode where
  mempool : Mempool
  proposer : ShardProposer ShardEngine
  /-- Decided chunks that the mempool has yet to receive. -/
  decisions : List ShardChunk

/-- What happens to a validator. Clocks, orders and the other shards' databases are those of the moment. -/
inductive NodeOp where
  | insert (env : MempoolEnv) (message : MempoolMessage) (limited : UInt32 → Bool)
  /-- Pull from the mempool and propose; a reply that takes too long is not waited for. -/
  | propose (env : MempoolEnv) (ambient : Ambient) (height : Height) (round : Int64)
    (maxMessagesPerBlock : UInt32) (timely : Bool)
  | receive (ambient : Ambient) (proposal : FullProposal)
  | startRound (ambient : Ambient) (height : Height)
  | decide (ambient : Ambient) (commits : Commits)
  /-- The mempool receives the next decision. -/
  | observe
  /-- The mempool was too slow, and the oldest decision is overwritten. -/
  | lag

inductive NodeEvent where
  | admitted (message : Message)
  | refused (message : Message)
  | proposed (proposal : FullProposal)
  | received (proposal : FullProposal)
  | decided (chunk : ShardChunk)
deriving DecidableEq

namespace ValidatorNode

variable [Platform] [ProstEncode] (self : ValidatorNode)

def shardId : UInt32 := self.proposer.shardId

/-- The mempool reads the shard's own database. -/
def poolEnv (env : MempoolEnv) : MempoolEnv :=
  { env with shardStores := Function.update env.shardStores self.shardId (some self.proposer.engine.db) }

def confirmedHeight : Height := self.proposer.engine.getConfirmedHeight

/-- A user message that its shard's pool has taken. -/
def admissions (reply : Except HubError Unit) (message : MempoolMessage) (env : MempoolEnv) :
    List NodeEvent :=
  match reply, message with
  | .ok (), .userMessage message =>
    if routeMessage message env.numShards = self.shardId then [.admitted message] else []
  | _, _ => []

def refusals (dropped : List MempoolMessage) : List NodeEvent :=
  dropped.filterMap fun
    | .userMessage message => some (.refused message)
    | _ => none

def step : NodeOp → Option (List NodeEvent × ValidatorNode)
  | .insert env message limited => do
    let (reply, mempool) ← self.mempool.insert (self.poolEnv env) message limited
    some (self.admissions reply message env, { self with mempool })
  | .propose env ambient height round maxMessagesPerBlock timely => do
    let (pulled, mempool) ← self.mempool.pullMessages (self.poolEnv env) self.shardId maxMessagesPerBlock
    let messages := if timely then pulled.messages else []
    let (proposal, proposer) ← @ShardProposer.proposeValue _
      (ShardEngine.api ambient) _ _ self.proposer height round messages
    some (refusals pulled.dropped ++ [.proposed proposal], { self with mempool, proposer })
  | .receive ambient proposal => do
    let (_, proposer) ← @ShardProposer.addProposedValue _ (ShardEngine.api ambient) self.proposer proposal
    some ([.received proposal], { self with proposer })
  | .startRound ambient height =>
    some ([], { self with proposer :=
      @ShardProposer.startRound _ (ShardEngine.api ambient) self.proposer height })
  | .decide ambient commits => do
    let (chunk, proposer) ← @ShardProposer.decide _ (ShardEngine.api ambient) self.proposer commits
    some ([.decided chunk], { self with proposer, decisions := self.decisions ++ [chunk] })
  | .observe =>
    match self.decisions with
    | [] => some ([], self)
    | chunk :: decisions => do
      let height ← chunk.header.bind (·.height)
      let mempool ← self.mempool.removeCommittedTxns height chunk.transactions
      some ([], { self with mempool, decisions })
  | .lag => some ([], { self with decisions := self.decisions.tail })

def run (self : ValidatorNode) : List NodeOp → Option (List NodeEvent × ValidatorNode)
  | [] => some ([], self)
  | op :: ops => do
    let (events, node) ← self.step op
    let (rest, node) ← node.run ops
    some (events ++ rest, node)

/-! ## Messages that are held -/

end ValidatorNode

def FullProposal.userMessages (p : FullProposal) : List Message :=
  (p.transactions.getD []).flatMap (·.userMessages)

namespace NodeEvent

def committed (events : List NodeEvent) : List Message :=
  events.flatMap fun
    | .decided chunk => chunk.userMessages
    | _ => []

def ownProposals (events : List NodeEvent) : List FullProposal :=
  events.filterMap fun
    | .proposed p => some p
    | _ => none

def proposals (events : List NodeEvent) : List FullProposal :=
  events.filterMap fun
    | .proposed p | .received p => some p
    | _ => none

theorem mem_ownProposals : p ∈ ownProposals events ↔ .proposed p ∈ events := by
  unfold ownProposals
  rw [List.mem_filterMap]
  constructor
  · rintro ⟨event, hevent, h⟩
    cases event <;> first | (cases h; exact hevent) | cases h
  · intro h
    exact ⟨_, h, rfl⟩

theorem mem_committed : m ∈ committed events ↔ ∃ chunk, .decided chunk ∈ events ∧ m ∈ chunk.userMessages := by
  unfold committed
  rw [List.mem_flatMap]
  constructor
  · rintro ⟨event, hevent, h⟩
    cases event with
    | decided chunk => exact ⟨chunk, hevent, h⟩
    | _ => cases h
  · rintro ⟨chunk, hchunk, h⟩
    exact ⟨_, hchunk, h⟩

theorem mem_proposals_of_own (h : p ∈ ownProposals events) :
    p ∈ proposals events := List.mem_filterMap.2 ⟨_, mem_ownProposals.1 h, rfl⟩

end NodeEvent

open NodeEvent

namespace ValidatorNode

variable [Platform] [ProstEncode] (self : ValidatorNode)

def InPool (m : Message) : Prop := .userMessage m ∈ (self.mempool.pool self.shardId).map (·.2)

/-- The message is in one of the proposals, and that is for the current height: it can still be decided. -/
def InProposal (proposals : List FullProposal) (m : Message) : Prop :=
  ∃ p ∈ proposals, p.height = some self.confirmedHeight.increment ∧ m ∈ p.userMessages

/-- **The node has not lost the message.** -/
def Holds (history : List NodeEvent) (m : Message) : Prop :=
  self.InPool m ∨ self.InProposal (proposals history) m

instance (m : Message) : Decidable (self.InPool m) := inferInstanceAs (Decidable (_ ∈ _))

instance (history : List NodeEvent) (m : Message) : Decidable (self.Holds history m) :=
  inferInstanceAs (Decidable (_ ∨ ∃ p ∈ _, _ ∧ _))

/-! ## When nothing is lost -/

/-- **What each step has to meet.** A pull is answered in time and is for the current height, and every user
    with a message in the pool has active storage then. A decided chunk has every message that the node has
    proposed for the current height, unless it is in the pool again. A chunk that reaches the mempool has no
    other message with the key of one in the pool. -/
def Safe (history : List NodeEvent) : NodeOp → Prop
  | .propose _ ambient height _ _ timely =>
    timely = true ∧ height = self.confirmedHeight.increment ∧ ∀ m, self.InPool m →
      ∀ pending : List OnChainEvent,
      (∀ event ∈ pending, .onchainEvent event ∈ (self.mempool.pool self.shardId).map (·.2) ∨
        .onchainEventForMigration event ∈ (self.mempool.pool self.shardId).map (·.2)) →
      ∃ slot, getStorageSlotForFid (self.proposer.engine.env ambient) m.fid true pending = .ok slot ∧
        slot.isActive ambient.now
  | .decide _ commits =>
    ∀ value p, commits.value = some value → self.proposer.getProposedValue value = some p →
      ∀ m, self.InProposal (ownProposals history) m → m ∈ p.userMessages ∨ self.InPool m
  | .observe => ∀ chunk ∈ self.decisions.head?, ∀ m, self.InPool m → ∀ m' ∈ chunk.userMessages,
      m'.mempoolKey = m.mempoolKey → m ∈ chunk.userMessages
  | _ => True

/-- Every step of the run meets it. -/
def SafeRun : List NodeEvent → ValidatorNode → List NodeOp → Prop
  | _, _, [] => True
  | history, node, op :: ops => node.Safe history op ∧
      ∀ events next, node.step op = some (events, next) → SafeRun (history ++ events) next ops

/-- **The invariant**: an admitted message that no chunk has and no pull has refused is in the pool or in a
    proposal of the node's own for the current height. -/
structure Kept (node : ValidatorNode) (history : List NodeEvent) : Prop where
  keyed : node.mempool.WellKeyed
  decided : ∀ chunk ∈ node.decisions, .decided chunk ∈ history
  held : ∀ m, .admitted m ∈ history → m ∉ committed history → .refused m ∉ history →
    node.InPool m ∨ node.InProposal (ownProposals history) m

section invariant
variable {self} {next : ValidatorNode} {history events : List NodeEvent} {message : MempoolMessage}
  {height : Height} {round : Int64}

omit [ProstEncode] in
/-- A step that admits nothing keeps the invariant if it keeps hold of what was held. -/
theorem Kept.carry (h : self.Kept history) (hkeyed : next.mempool.WellKeyed)
    (hdecided : ∀ chunk ∈ next.decisions, .decided chunk ∈ history ++ events)
    (hnone : ∀ m, .admitted m ∉ events)
    (hheld : ∀ m, self.InPool m ∨ self.InProposal (ownProposals history) m → m ∉ committed events →
      .refused m ∉ events → next.InPool m ∨ next.InProposal (ownProposals (history ++ events)) m) :
    next.Kept (history ++ events) := by
  refine ⟨hkeyed, hdecided, fun m hm hcommitted hrefused => ?_⟩
  have hm' := (List.mem_append.1 hm).resolve_right (hnone m)
  rw [committed, List.flatMap_append, List.mem_append, not_or] at hcommitted
  rw [List.mem_append, not_or] at hrefused
  exact hheld m (h.held m hm' hcommitted.1 hrefused.1) hcommitted.2 hrefused.2

omit [ProstEncode] in
theorem InProposal.carry (h : self.InProposal (ownProposals history) m)
    (hheight : next.confirmedHeight = self.confirmedHeight) :
    next.InProposal (ownProposals (history ++ events)) m := by
  obtain ⟨p, hp, hat, hm⟩ := h
  refine ⟨p, ?_, hheight ▸ hat, hm⟩
  rw [mem_ownProposals] at hp ⊢
  exact List.mem_append_left _ hp

omit [ProstEncode] in
theorem mem_admissions {reply : Except HubError Unit} :
    .admitted m ∈ self.admissions reply message env ↔
      reply = .ok () ∧ message = .userMessage m ∧ routeMessage m env.numShards = self.shardId := by
  unfold admissions
  split
  next m' =>
    split
    next hroute =>
      rw [List.mem_singleton, NodeEvent.admitted.injEq, MempoolMessage.userMessage.injEq]
      exact ⟨fun h => ⟨rfl, h.symm, h ▸ hroute⟩, fun h => h.2.1.symm⟩
    next hroute =>
      exact ⟨(fun h => nomatch h), fun ⟨_, h, h'⟩ => absurd (MempoolMessage.userMessage.inj h ▸ h') hroute⟩
  next hne => exact ⟨(fun h => nomatch h), fun ⟨h, h', _⟩ => absurd h' (fun h' => hne m h h')⟩

omit [Platform] [ProstEncode] in
theorem mem_refusals {dropped : List MempoolMessage} {event : NodeEvent} :
    event ∈ refusals dropped ↔ ∃ m, event = .refused m ∧ .userMessage m ∈ dropped := by
  unfold refusals
  rw [List.mem_filterMap]
  constructor
  · rintro ⟨message, hmessage, h⟩
    cases message with
    | userMessage m =>
      cases h
      exact ⟨m, rfl, hmessage⟩
    | _ => cases h
  · rintro ⟨m, rfl, hm⟩
    exact ⟨_, hm, rfl⟩

theorem insert_kept (h : self.Kept history) {limited : UInt32 → Bool}
    (hstep : self.step (.insert env message limited) = some (events, next)) :
    next.Kept (history ++ events) := by
  obtain ⟨⟨reply, mempool⟩, hinsert, hstep⟩ := Option.bind_eq_some_iff.1 hstep
  cases hstep
  unfold Mempool.insert at hinsert
  obtain ⟨shards, hshards, hinsert⟩ := Option.bind_eq_some_iff.1 hinsert
  obtain ⟨⟨errors, mempool'⟩, hpools, hinsert⟩ := Option.bind_eq_some_iff.1 hinsert
  cases hinsert
  obtain ⟨hmono, hkeyed, hin⟩ := Mempool.insertIntoShards_spec hpools
  refine ⟨hkeyed h.keyed, fun chunk hchunk => List.mem_append_left _ (h.decided chunk hchunk),
    fun m hm hc hr => ?_⟩
  rcases List.mem_append.1 hm with hm | hm
  · -- admitted before: the pools only grow
    rw [committed, List.flatMap_append, List.mem_append, not_or] at hc
    rw [List.mem_append, not_or] at hr
    refine (h.held m hm hc.1 hr.1).imp (fun hpool => ?_) fun hp => hp.carry rfl
    obtain ⟨e, he, hem⟩ := List.mem_map.1 hpool
    exact List.mem_map.2 ⟨e, hmono _ _ he, hem⟩
  · -- admitted now: no pool complained
    left
    obtain ⟨hreply, rfl, hroute⟩ := mem_admissions.1 hm
    have herrors : errors = [] := by
      cases errors with
      | nil => rfl
      | cons e errors => exact nomatch hreply
    have hshards' : some [routeMessage m env.numShards] = some shards := hshards
    cases hshards'
    obtain ⟨key, hkey⟩ := hin herrors self.shardId (List.mem_singleton.2 hroute.symm)
    exact List.mem_map.2 ⟨_, hkey, rfl⟩

theorem proposeValue_spec {proposer proposer' : ShardProposer ShardEngine} {messages : List MempoolMessage}
    (h : @ShardProposer.proposeValue _ (ShardEngine.api ambient) _ _ proposer height round messages =
      some (p, proposer')) :
    p.height = some height ∧ proposer'.shardId = proposer.shardId ∧ proposer.engine.SameDb proposer'.engine ∧
      ∃ change engine, proposer.engine.proposeStateChange ambient proposer.shardId messages none =
        some (change, engine) ∧
        p.userMessages = change.transactions.flatMap (·.userMessages) := by
  unfold ShardProposer.proposeValue at h
  obtain ⟨⟨change, engine⟩, hchange, h⟩ := Option.bind_eq_some_iff.1 h
  obtain ⟨proposed, -, h⟩ := Option.bind_eq_some_iff.1 h
  cases h
  exact ⟨rfl, rfl, ShardEngine.proposeStateChange_sameDb hchange, change, engine, hchange, rfl⟩

theorem propose_kept (h : self.Kept history) {maxMessages : UInt32} {timely : Bool}
    (hsafe : self.Safe history (.propose env ambient height round maxMessages timely))
    (hstep : self.step (.propose env ambient height round maxMessages timely) = some (events, next)) :
    next.Kept (history ++ events) := by
  obtain ⟨rfl, rfl, hactive⟩ := hsafe
  obtain ⟨⟨pulled, mempool⟩, hpull, hstep⟩ := Option.bind_eq_some_iff.1 hstep
  obtain ⟨⟨p, proposer⟩, hpropose, hstep⟩ := Option.bind_eq_some_iff.1 hstep
  cases hstep
  obtain ⟨⟨taken, htaken, hpulled, hdropped⟩, hkeyed⟩ := Mempool.pullMessages_spec hpull
  obtain ⟨hat, hshard, hsame, change, engine, hchange, hmessages⟩ := proposeValue_spec hpropose
  refine h.carry (hkeyed h.keyed) (fun chunk hchunk => List.mem_append_left _ (h.decided chunk hchunk)) ?_ ?_
  · intro m hm
    rcases List.mem_append.1 hm with hm | hm
    · obtain ⟨_, hm, -⟩ := mem_refusals.1 hm
      cases hm
    · cases List.mem_singleton.1 hm
  · rintro m (hpool | hp) - hrefused
    · have hin : .userMessage m ∈ (self.mempool.pool self.shardId).map (·.2) := hpool
      rw [htaken, List.map_append] at hin
      rcases List.mem_append.1 hin with hin | hleft
      swap
      · left
        show _ ∈ (mempool.pool proposer.shardId).map (·.2)
        rwa [hshard]
      cases hvalid : Mempool.isPullable (self.poolEnv env) self.shardId (.userMessage m) with
      | true =>
        -- pulled: the proposal has it
        refine .inr ⟨p, ?_, hat.trans (congrArg _ (congrArg _ hsame.confirmedHeight.symm)), ?_⟩
        · rw [mem_ownProposals]
          exact List.mem_append_right _ (List.mem_append_right _ (List.mem_singleton.2 rfl))
        · have hpool' (message : MempoolMessage) (h : message ∈ pulled.messages) :
              message ∈ (self.mempool.pool self.shardId).map (·.2) := by
            rw [htaken, List.map_append]
            exact List.mem_append_left _ (List.mem_of_mem_filter (hpulled ▸ h))
          rw [hmessages]
          refine ShardEngine.mem_proposeStateChange hchange (hpulled ▸ List.mem_filter.2 ⟨hin, hvalid⟩)
            fun pending hpending => ?_
          exact hactive m hpool pending fun event hevent => (hpending event hevent).imp (hpool' _) (hpool' _)
      | false =>
        have hdrop : MempoolMessage.userMessage m ∈ pulled.dropped := by
          rw [hdropped]
          exact List.mem_filter.2 ⟨hin, by rw [hvalid]; rfl⟩
        exact absurd (List.mem_append_left _ (mem_refusals.2 ⟨m, rfl, hdrop⟩)) hrefused
    · exact .inr (hp.carry hsame.confirmedHeight)

omit [ProstEncode] in
theorem addProposedValue_spec {proposer proposer' : ShardProposer ShardEngine} {validity : Validity}
    (h : @ShardProposer.addProposedValue _ (ShardEngine.api ambient) proposer p =
      some (validity, proposer')) :
    proposer'.shardId = proposer.shardId ∧ proposer.engine.SameDb proposer'.engine := by
  unfold ShardProposer.addProposedValue at h
  split at h
  next chunk _ =>
    obtain ⟨header, -, h⟩ := Option.bind_eq_some_iff.1 h
    obtain ⟨height, -, h⟩ := Option.bind_eq_some_iff.1 h
    obtain ⟨proposed, -, h⟩ := Option.bind_eq_some_iff.1 h
    dsimp only at h
    split at h
    · cases h
      exact ⟨rfl, rfl, rfl⟩
    · obtain ⟨⟨ok, engine⟩, hvalidate, h⟩ := Option.bind_eq_some_iff.1 h
      cases h
      exact ⟨rfl, ShardEngine.validateStateChange_sameDb hvalidate⟩
  next =>
    cases h
    exact ⟨rfl, rfl, rfl⟩

section
variable (h : self.Kept history)
include h

omit [ProstEncode] in
theorem Kept.proposer {proposer : ShardProposer ShardEngine}
    (hshard : proposer.shardId = self.proposer.shardId) (hsame : self.proposer.engine.SameDb proposer.engine)
    (hnone : ∀ m, .admitted m ∉ events) : ValidatorNode.Kept { self with proposer } (history ++ events) := by
  refine h.carry h.keyed (fun chunk hchunk => List.mem_append_left _ (h.decided chunk hchunk)) hnone
    fun m hm _ _ => ?_
  refine hm.imp (fun hpool => ?_) fun hp => hp.carry hsame.confirmedHeight
  show _ ∈ (self.mempool.pool proposer.shardId).map (·.2)
  rw [hshard]
  exact hpool

theorem decide_kept {commits : Commits} (hsafe : self.Safe history (.decide ambient commits))
    (hstep : self.step (.decide ambient commits) = some (events, next)) : next.Kept (history ++ events) := by
  obtain ⟨⟨chunk, proposer⟩, hdecide, hstep⟩ := Option.bind_eq_some_iff.1 hstep
  cases hstep
  unfold ShardProposer.decide at hdecide
  obtain ⟨value, hvalue, hdecide⟩ := Option.bind_eq_some_iff.1 hdecide
  obtain ⟨height, -, hdecide⟩ := Option.bind_eq_some_iff.1 hdecide
  obtain ⟨p, hp, hdecide⟩ := Option.bind_eq_some_iff.1 hdecide
  obtain ⟨chunk', hchunk, hdecide⟩ := Option.bind_eq_some_iff.1 hdecide
  obtain ⟨engine, -, hdecide⟩ := Option.bind_eq_some_iff.1 hdecide
  cases hdecide
  have hmessages : p.userMessages = chunk.userMessages := by
    rw [FullProposal.userMessages, FullProposal.transactions_of_shardChunk hchunk]
    rfl
  refine h.carry h.keyed ?_ (fun m hm => nomatch List.mem_singleton.1 hm) fun m hm hcommitted _ => ?_
  · intro c hc
    rcases List.mem_append.1 hc with hc | hc
    · exact List.mem_append_left _ (h.decided c hc)
    · rw [List.mem_singleton.1 hc]
      exact List.mem_append_right _ (List.mem_singleton.2 rfl)
  · -- a message of the node's own proposals is in the chunk, and so committed, or in the pool
    rcases hm with hpool | hown
    · exact .inl hpool
    · rcases hsafe value p hvalue hp m hown with hin | hpool
      · exact absurd (mem_committed.2 ⟨chunk, List.mem_singleton.2 rfl, hmessages ▸ hin⟩) hcommitted
      · exact .inl hpool

theorem observe_kept (hsafe : self.Safe history .observe) (hstep : self.step .observe = some (events, next)) :
    next.Kept (history ++ events) := by
  have hcarry {mempool : Mempool} {decisions : List ShardChunk} (hkeyed : mempool.WellKeyed)
      (hsub : ∀ chunk ∈ decisions, chunk ∈ self.decisions)
      (hpool : ∀ m, m ∉ committed history → self.InPool m →
        .userMessage m ∈ (mempool.pool self.shardId).map (·.2)) :
      ValidatorNode.Kept { self with mempool, decisions } (history ++ []) := by
    refine ⟨hkeyed, fun chunk hchunk => List.mem_append_left _ (h.decided chunk (hsub chunk hchunk)), ?_⟩
    rw [List.append_nil]
    intro m hm hc hr
    exact (h.held m hm hc hr).imp (hpool m hc) id
  cases hdecisions : self.decisions with
  | nil =>
    simp only [step, hdecisions] at hstep
    cases hstep
    exact hcarry h.keyed (fun _ h => h) fun _ _ h => h
  | cons chunk decisions =>
    simp only [step, hdecisions] at hstep
    obtain ⟨height, -, hstep⟩ := Option.bind_eq_some_iff.1 hstep
    obtain ⟨mempool, hremove, hstep⟩ := Option.bind_eq_some_iff.1 hstep
    cases hstep
    obtain ⟨hkeyed, hleft⟩ := Mempool.removeCommittedTxns_spec h.keyed hremove
    refine hcarry hkeyed (fun c hc => hdecisions ▸ List.mem_cons_of_mem _ hc) fun m hc hpool => ?_
    obtain ⟨⟨key, message⟩, he, hmessage⟩ := List.mem_map.1 hpool
    dsimp only at hmessage
    subst hmessage
    rcases hleft _ _ _ he with hin | ⟨m', hm', hkey⟩
    · exact List.mem_map.2 ⟨_, hin, rfl⟩
    · -- a message of the chunk has been decided
      have hin := hsafe chunk (by rw [hdecisions]; rfl) m hpool m' hm' hkey
      have hdecided := h.decided chunk (by rw [hdecisions]; exact List.mem_cons_self)
      exact absurd (mem_committed.2 ⟨chunk, hdecided, hin⟩) hc

/-- **Step**: every step that meets its condition keeps hold of the messages. -/
theorem step_kept {op : NodeOp} (hsafe : self.Safe history op) (hstep : self.step op = some (events, next)) :
    next.Kept (history ++ events) := by
  cases op with
  | insert env message limited => exact insert_kept h hstep
  | propose env ambient height round maxMessages timely => exact propose_kept h hsafe hstep
  | receive ambient p =>
    obtain ⟨⟨validity, proposer⟩, hadd, hstep⟩ := Option.bind_eq_some_iff.1 hstep
    cases hstep
    obtain ⟨hshard, hsame⟩ := addProposedValue_spec hadd
    exact h.proposer hshard hsame fun m hm => nomatch List.mem_singleton.1 hm
  | startRound ambient height =>
    cases hstep
    exact h.proposer rfl ⟨rfl, rfl⟩ fun m hm => nomatch hm
  | decide ambient commits => exact decide_kept h hsafe hstep
  | observe => exact observe_kept h hsafe hstep
  | lag =>
    cases hstep
    rw [List.append_nil]
    exact ⟨h.keyed, fun chunk hchunk => h.decided chunk (List.mem_of_mem_tail hchunk), h.held⟩

/-- **Run**: so does every run. -/
theorem run_kept {ops : List NodeOp} (hsafe : SafeRun history self ops)
    (hrun : self.run ops = some (events, next)) : next.Kept (history ++ events) := by
  induction ops generalizing self history events with
  | nil =>
    cases hrun
    rw [List.append_nil]
    exact h
  | cons op ops ih =>
    obtain ⟨⟨first, node⟩, hstep, hrun⟩ := Option.bind_eq_some_iff.1 hrun
    obtain ⟨⟨rest, last⟩, hrest, hrun⟩ := Option.bind_eq_some_iff.1 hrun
    cases hrun
    rw [← List.append_assoc]
    exact ih (step_kept h hsafe.1 hstep) (hsafe.2 first node hstep) hrest

end

end invariant

/-- **No admitted message is lost in a run whose steps meet their conditions.** It is in the pool or in a
    proposal that can still be decided, unless a decided chunk has it or a pull has found it invalid. -/
theorem admitted_message_held {node last : ValidatorNode} {ops : List NodeOp} {events : List NodeEvent}
    (hpool : node.mempool = .new) (hdecisions : node.decisions = []) (hsafe : SafeRun [] node ops)
    (hrun : node.run ops = some (events, last)) {m : Message} (hadmitted : .admitted m ∈ events)
    (hcommitted : m ∉ committed events) (hvalid : .refused m ∉ events) : last.Holds events m := by
  have hstart : node.Kept [] := ⟨hpool ▸ Mempool.wellKeyed_new, by simp [hdecisions], fun _ h => nomatch h⟩
  have hkept := run_kept hstart hsafe hrun
  rw [List.nil_append] at hkept
  refine (hkept.held m hadmitted hcommitted hvalid).imp id ?_
  rintro ⟨p, hp, hat, hm⟩
  exact ⟨p, mem_proposals_of_own hp, hat, hm⟩

end ValidatorNode

/-! ## Two rounds -/

namespace ValidatorNode

/-- The header of a chunk is encoded as its time. -/
@[reducible] def timeEncode : ProstEncode :=
  ⟨fun header => [header.timestamp.toUInt8], fun _ => [], fun _ => [], fun _ => [], fun _ => []⟩

/-- A validator of shard 1 with one user, with nothing in its mempool. -/
def sampleValidator : Option ValidatorNode := do
  let engine ← ShardEngine.new ⟨1, .mainnet, {}, none, {}⟩ (databaseOf (sampleUser 1))
  some ⟨.new, ⟨1, [], .new, engine⟩, []⟩

@[reducible] def samplePoolPlatform : Platform :=
  samplePlatform (scanOf (makeShardKey 1 :: (sampleUser 1).map (·.1)))

def samplePoolEnv : MempoolEnv := ⟨.mainnet, 1, 1700000100, fun _ => none⟩

/-- The empty chunk that another validator proposes for the first height. -/
def otherChunk : ShardChunk := ⟨some ⟨some ⟨1, 1⟩, 90540901, [0, 32], []⟩, List.replicate 32 101, [], none⟩

/-- The cast is admitted and proposed in round 0; in round 1 the proposal of another validator is decided. -/
def roundChange : List NodeOp :=
  [.insert samplePoolEnv (.userMessage sampleSignedCast) fun _ => false,
    .startRound (.at 1700000100) ⟨1, 1⟩,
    .propose samplePoolEnv (.at 1700000100) ⟨1, 1⟩ 0 100 true,
    .startRound (.at 1700000101) ⟨1, 1⟩,
    .receive (.at 1700000101) ⟨some ⟨1, 1⟩, 1, some (.shard otherChunk), [2]⟩,
    .decide (.at 1700000102) ⟨some ⟨1, 1⟩, 1, some ⟨1, otherChunk.hash⟩, []⟩,
    .observe]

def sampleOutcome (ops : List NodeOp) : Option (List NodeEvent × ValidatorNode) :=
  sampleValidator.bind fun node => @run samplePoolPlatform timeEncode node ops

theorem exists_sampleOutcome {ops : List NodeOp} {P : List NodeEvent × ValidatorNode → Prop} [DecidablePred P]
    (h : (sampleOutcome ops).any (fun r => decide (P r)) = true) :
    ∃ node r, sampleValidator = some node ∧ @run samplePoolPlatform timeEncode node ops = some r ∧ P r := by
  obtain ⟨r, houtcome, hr⟩ := (Option.any_eq_true _ _).1 h
  obtain ⟨node, hnode, hrun⟩ := Option.bind_eq_some_iff.1 houtcome
  exact ⟨node, r, hnode, hrun, of_decide_eq_true hr⟩

/-- **The cast is lost**: it was admitted, is in no decided chunk and valid as before, but neither in the pool
    nor in a proposal for the next height. -/
theorem admitted_message_lost :
    ∃ node r, sampleValidator = some node ∧ @run samplePoolPlatform timeEncode node roundChange = some r ∧
      .admitted sampleSignedCast ∈ r.1 ∧ sampleSignedCast ∉ committed r.1 ∧ .refused sampleSignedCast ∉ r.1 ∧
      @messageIsValid samplePoolPlatform (r.2.poolEnv samplePoolEnv) 1
        (.userMessage sampleSignedCast) false false = .ok () ∧
      ¬ @Holds samplePoolPlatform r.2 r.1 sampleSignedCast := by
  refine exists_sampleOutcome ?_
  decide +kernel

/-! ### A proposal that is decided -/

section check
variable [Platform] [ProstEncode]

/-- A test that is enough for `Safe` when nothing but user messages waits in the pool. -/
def checkStep (self : ValidatorNode) (history : List NodeEvent) : NodeOp → Bool
  | .propose _ ambient height _ _ timely =>
    timely && decide (height = self.confirmedHeight.increment) &&
      (self.mempool.pool self.shardId).all fun e => match e.2 with
        | .userMessage m =>
          (getStorageSlotForFid (self.proposer.engine.env ambient) m.fid true []).toOption.any
            (StorageSlot.isActive ambient.now)
        | _ => false
  | .decide _ commits => (commits.value.bind self.proposer.getProposedValue).all fun p =>
      (ownProposals history).all fun own => own.userMessages.all (p.userMessages.contains ·)
  | .observe =>
    self.decisions.head?.all fun chunk => (self.mempool.pool self.shardId).all fun e => match e.2 with
      | .userMessage m => chunk.userMessages.all fun m' => decide (m'.mempoolKey ≠ m.mempoolKey)
      | _ => true
  | _ => true

omit [ProstEncode] in
theorem safe_of_checkStep {self : ValidatorNode} {history : List NodeEvent} {op : NodeOp}
    (h : self.checkStep history op = true) : self.Safe history op := by
  cases op with
  | propose env ambient height round count timely =>
    simp only [checkStep, Bool.and_eq_true, decide_eq_true_eq, List.all_eq_true] at h
    obtain ⟨⟨htimely, hheight⟩, hpool⟩ := h
    refine ⟨htimely, hheight, fun m hm pending hpending => ?_⟩
    have hnone : pending = [] := by
      refine List.eq_nil_iff_forall_not_mem.2 fun event hevent => ?_
      rcases hpending event hevent with hin | hin
      all_goals
        obtain ⟨e, he, heq⟩ := List.mem_map.1 hin
        have := hpool e he
        rw [heq] at this
        cases this
    obtain ⟨e, he, heq⟩ := List.mem_map.1 hm
    have hslot := hpool e he
    rw [heq] at hslot
    obtain ⟨slot, hslot, hactive⟩ := (Option.any_eq_true _ _).1 hslot
    exact ⟨slot, hnone ▸ except_eq_ok_of_toOption hslot, hactive⟩
  | decide ambient commits =>
    rintro value p hvalue hp m ⟨own, hown, -, hm⟩
    have hall : (commits.value.bind self.proposer.getProposedValue).all _ = true := h
    rw [hvalue, Option.bind_some, hp, Option.all_some, List.all_eq_true] at hall
    exact .inl (List.contains_iff_mem.1 (List.all_eq_true.1 (hall own hown) m hm))
  | observe =>
    intro chunk hchunk m hm m' hm' hkey
    have hall : self.decisions.head?.all _ = true := h
    rw [Option.mem_def.1 hchunk, Option.all_some, List.all_eq_true] at hall
    obtain ⟨e, he, heq⟩ := List.mem_map.1 hm
    have hother := hall e he
    rw [heq] at hother
    exact absurd hkey (of_decide_eq_true (List.all_eq_true.1 hother m' hm'))
  | insert | receive | startRound | lag => trivial

def checkRun : List NodeEvent → ValidatorNode → List NodeOp → Bool
  | _, _, [] => true
  | history, node, op :: ops => node.checkStep history op &&
      (node.step op).all fun (events, next) => checkRun (history ++ events) next ops

theorem safeRun_of_checkRun {ops : List NodeOp} : ∀ {history : List NodeEvent} {node : ValidatorNode},
    checkRun history node ops = true → SafeRun history node ops := by
  induction ops with
  | nil => exact fun _ => trivial
  | cons op ops ih =>
    intro history node h
    obtain ⟨hstep, hrest⟩ := Bool.and_eq_true_iff.1 h
    refine ⟨safe_of_checkStep hstep, fun events next heq => ih ?_⟩
    rw [heq] at hrest
    exact hrest

end check

def sampleLaterCast : Message := sampleMessage .castAdd 11 (.castAddBody none [] ⟨[66], 0, [], [], []⟩)

/-- Two casts are admitted. The first one is proposed, and the node's own proposal is decided and reaches the
    mempool. -/
def ownRound : List NodeOp :=
  [.insert samplePoolEnv (.userMessage sampleSignedCast) fun _ => false,
    .insert samplePoolEnv (.userMessage sampleLaterCast) fun _ => false,
    .startRound (.at 1700000100) ⟨1, 1⟩,
    .propose samplePoolEnv (.at 1700000100) ⟨1, 1⟩ 0 1 true,
    .decide (.at 1700000101) ⟨some ⟨1, 1⟩, 0, some ⟨1, List.replicate 32 100⟩, []⟩,
    .observe]

/-- The first cast is committed, the other one waits in the pool. -/
theorem admitted_message_held_decided :
    ∃ node r, sampleValidator = some node ∧ @run samplePoolPlatform timeEncode node ownRound = some r ∧
      sampleSignedCast ∈ committed r.1 ∧ @Holds samplePoolPlatform r.2 r.1 sampleLaterCast := by
  let _ := samplePoolPlatform
  let _ := timeEncode
  have hfacts : ∃ node r, sampleValidator = some node ∧ run node ownRound = some r ∧
      sampleSignedCast ∈ committed r.1 ∧ .admitted sampleLaterCast ∈ r.1 ∧ sampleLaterCast ∉ committed r.1 ∧
      .refused sampleLaterCast ∉ r.1 := by
    refine exists_sampleOutcome ?_
    decide +kernel
  have hcheck : sampleValidator.all (checkRun [] · ownRound) = true := by decide +kernel
  obtain ⟨node, r, hnode, hrun, hfirst, hadmitted, hcommitted, hvalid⟩ := hfacts
  rw [hnode] at hcheck
  have hstart := hnode
  unfold sampleValidator at hstart
  obtain ⟨engine, -, hstart⟩ := Option.bind_eq_some_iff.1 hstart
  cases hstart
  exact ⟨_, r, hnode, hrun, hfirst,
    admitted_message_held rfl rfl (safeRun_of_checkRun hcheck) hrun hadmitted hcommitted hvalid⟩

end ValidatorNode

end Hypersnap
