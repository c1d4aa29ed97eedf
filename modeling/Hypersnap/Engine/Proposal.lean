import Mathlib.Data.List.ReduceOption
import Hypersnap.Engine.ShardEngine

/-!
# `Engine.Proposal` — what a proposal contains

The transactions of a proposal are those of the mempool's messages, one per user, without the messages of
users that have no active storage. Proposing and validating do not touch the database.
-/

namespace Hypersnap

open Overlay EState

variable {m : Message} {messages : List MempoolMessage} {change : ShardStateChange} {env : EngineEnv}
  {s : EngineState}

/-! ## Transactions from the mempool -/

namespace Transaction

theorem userMessages_foldl_push (messages : List MempoolMessage) (txn : Transaction) :
    m ∈ (messages.foldl push txn).userMessages ↔ m ∈ txn.userMessages ∨ .userMessage m ∈ messages := by
  induction messages generalizing txn with
  | nil => simp
  | cons first rest ih =>
    rw [List.foldl_cons, ih]
    cases first <;> simp [push, or_assoc]

theorem onChainEvent_foldl_push (messages : List MempoolMessage) (txn : Transaction) {event : OnChainEvent} :
    event ∈ (messages.foldl push txn).systemMessages.filterMap (·.onChainEvent) ↔
      event ∈ txn.systemMessages.filterMap (·.onChainEvent) ∨ .onchainEvent event ∈ messages ∨
        .onchainEventForMigration event ∈ messages := by
  induction messages generalizing txn with
  | nil => simp
  | cons first rest ih =>
    rw [List.foldl_cons, ih]
    cases first <;> simp [push, or_assoc, or_left_comm]

theorem fid_foldl_push (messages : List MempoolMessage) (txn : Transaction) :
    (messages.foldl push txn).fid = txn.fid := by
  induction messages generalizing txn with
  | nil => rfl
  | cons first rest ih =>
    rw [List.foldl_cons, ih]
    cases first <;> rfl

end Transaction

theorem exists_transaction {fids : List UInt64 → List UInt64} (hperm : ∀ l, (fids l).Perm l)
    {txns : List Transaction} (h : createTransactionsFromMempool fids messages = some txns)
    (hm : .userMessage m ∈ messages) :
    ∃ txn ∈ txns, m ∈ txn.userMessages ∧ txn.fid = m.fid ∧
    ∀ event ∈ txn.systemMessages.filterMap (·.onChainEvent),
      .onchainEvent event ∈ messages ∨ .onchainEventForMigration event ∈ messages := by
  unfold createTransactionsFromMempool at h
  obtain ⟨withFid, hwith, h⟩ := Option.bind_eq_some_iff.1 h
  cases h
  -- every message stands next to its user
  have hmem (fid : UInt64) (message : MempoolMessage) :
      (fid, message) ∈ withFid ↔ message ∈ messages ∧ message.fid = some fid := by
    rw [mem_of_mapM_eq_some hwith]
    constructor
    · rintro ⟨message', hmessage, hpair⟩
      obtain ⟨fid', hfid, hpair⟩ := Option.bind_eq_some_iff.1 hpair
      cases hpair
      exact ⟨hmessage, hfid⟩
    · rintro ⟨hmessage, hfid⟩
      exact ⟨message, hmessage, by simp [hfid]⟩
  have hown (message : MempoolMessage) :
      message ∈ (withFid.filter (·.1 == m.fid)).map (·.2) ↔
      message ∈ messages ∧ message.fid = some m.fid := by
    simp [← hmem]
  have hpair : (m.fid, .userMessage m) ∈ withFid := (hmem _ _).2 ⟨hm, rfl⟩
  have hfid : m.fid ∈ fids (withFid.map (·.1)).dedup := by
    rw [(hperm _).mem_iff, List.mem_dedup]
    exact List.mem_map_of_mem hpair
  refine ⟨_, List.mem_map_of_mem hfid, ?_, ?_, fun event hevent => ?_⟩
  · rw [Transaction.userMessages_foldl_push, hown]
    exact .inr ⟨hm, rfl⟩
  · exact Transaction.fid_foldl_push _ _
  · rw [Transaction.onChainEvent_foldl_push, hown, hown] at hevent
    exact (hevent.resolve_left List.not_mem_nil).imp And.left And.left

section proposal
variable [Platform] {version : EngineVersion} {timestamp : FarcasterTime} {s' : EngineState}
  {orders : Nat → SetOrder} {events : List HubEvent} {txns txns' : List Transaction}

theorem prepareTransactions_messages {lastSeqnum lastSeqnum' : UInt64}
    (h : prepareTransactions env orders version timestamp txns lastSeqnum s =
      .ok (txns', events, lastSeqnum') s') :
    txns'.map (·.userMessages) = txns.map (·.userMessages) := by
  induction txns generalizing orders lastSeqnum lastSeqnum' s s' txns' events with
  | nil =>
    obtain ⟨hr, -⟩ := pure_eq_ok.1 h
    cases hr
    rfl
  | cons txn rest ih =>
    obtain ⟨replayed, s₁, -, h⟩ := bind_eq_ok.1 h
    obtain ⟨⟨others, events', last⟩, s₂, hrest, h⟩ := bind_eq_ok.1 h
    obtain ⟨hr, -⟩ := pure_eq_ok.1 h
    cases hr
    simp [ih hrest]

theorem filterTransaction_active {txn : Transaction} {P : OnChainEvent → Prop}
    (hactive : ∀ pending : List OnChainEvent, (∀ event ∈ pending, P event) →
      ∃ slot, getStorageSlotForFid env txn.fid true pending = .ok slot ∧ slot.isActive env.now)
    (hpending : ∀ event ∈ txn.systemMessages.filterMap (·.onChainEvent), P event)
    (hm : m ∈ txn.userMessages) :
    filterTransaction env version txn = some (some txn) := by
  have hnonempty : txn.userMessages.isEmpty = false := List.isEmpty_eq_false_iff_exists_mem.2 ⟨m, hm⟩
  unfold filterTransaction
  by_cases hfeature : version.isEnabled .dependentMessagesInBulkSubmit
  · obtain ⟨slot, hslot, hon⟩ := hactive _ hpending
    simp [hfeature, hslot, hon, hnonempty]
  · obtain ⟨slot, hslot, hon⟩ := hactive [] (fun _ h => nomatch h)
    simp [hfeature, hslot, hon, hnonempty]

/-- **A proposal contains every pulled message of a user with active storage.** -/
theorem mem_prepareProposal {ambient : Ambient} {shardId : UInt32}
    (h : prepareProposal env ambient shardId messages timestamp s = .ok change s')
    (hm : .userMessage m ∈ messages) (hactive : ∀ pending : List OnChainEvent,
      (∀ event ∈ pending, .onchainEvent event ∈ messages ∨ .onchainEventForMigration event ∈ messages) →
        ∃ slot, getStorageSlotForFid env m.fid true pending = .ok slot ∧ slot.isActive env.now) :
    m ∈ change.transactions.flatMap (·.userMessages) := by
  unfold prepareProposal at h
  cases htxns : createTransactionsFromMempool ambient.fids messages with
  | none =>
    rw [htxns] at h
    exact absurd h throw_ne_ok
  | some txns =>
    rw [htxns] at h
    dsimp only at h
    cases hkept : txns.mapM (filterTransaction env (.versionFor timestamp env.network)) with
    | none =>
      rw [hkept] at h
      exact absurd h throw_ne_ok
    | some kept =>
      rw [hkept] at h
      obtain ⟨lastSeqnum, s₁, -, h⟩ := bind_eq_ok.1 h
      obtain ⟨⟨transactions, events, last⟩, s₂, hprep, h⟩ := bind_eq_ok.1 h
      obtain ⟨s₃, s₄, -, h⟩ := bind_eq_ok.1 h
      obtain ⟨root, s₅, -, h⟩ := bind_eq_ok.1 h
      obtain ⟨hchange, -⟩ := pure_eq_ok.1 h
      obtain ⟨txn, htxn, hmtxn, hfid, hpending⟩ := exists_transaction ambient.fids_perm htxns hm
      have hmem : txn ∈ kept.reduceOption := by
        rw [List.reduceOption_mem_iff, mem_of_mapM_eq_some hkept]
        exact ⟨txn, htxn, filterTransaction_active (hfid ▸ hactive) hpending hmtxn⟩
      rw [← hchange, List.flatMap_def]
      show m ∈ (transactions.map (·.userMessages)).flatten
      rw [prepareTransactions_messages hprep, ← List.flatMap_def, List.mem_flatMap]
      exact ⟨txn, hmem, hmtxn⟩

namespace ShardEngine

variable {self self' : ShardEngine} {ambient : Ambient} {shard : UInt32} {timestamp : Option FarcasterTime}

def SameDb (self self' : ShardEngine) : Prop := self'.db = self.db ∧ self'.config = self.config

theorem SameDb.confirmedHeight (h : SameDb self self') :
    self'.getConfirmedHeight = self.getConfirmedHeight := by
  rw [getConfirmedHeight, getConfirmedHeight, h.1, h.2]

omit [Platform] in
theorem finish_sameDb (h : self.finish s = some self') : SameDb self self' := by
  unfold finish at h
  split at h
  · cases h
    exact ⟨rfl, rfl⟩
  · cases h

theorem proposeStateChange_sameDb
    (h : self.proposeStateChange ambient shard messages timestamp = some (change, self')) :
    SameDb self self' := by
  unfold proposeStateChange at h
  dsimp only at h
  split at h
  · cases h
  · obtain ⟨engine, hfinish, h⟩ := Option.bind_eq_some_iff.1 h
    cases h
    have hsame := finish_sameDb hfinish
    exact ⟨hsame.1, hsame.2⟩

theorem validateStateChange_sameDb {height : Height} {ok : Bool}
    (h : self.validateStateChange ambient change height = some (ok, self')) : SameDb self self' := by
  unfold validateStateChange at h
  dsimp only at h
  split at h
  · cases h
  · obtain ⟨engine, hfinish, h⟩ := Option.bind_eq_some_iff.1 h
    cases h
    exact finish_sameDb hfinish
  · obtain ⟨engine, hfinish, h⟩ := Option.bind_eq_some_iff.1 h
    cases h
    have hsame := finish_sameDb hfinish
    exact ⟨hsame.1, hsame.2⟩

/-- **What an engine proposes** contains every message it was given of a user with active storage. -/
theorem mem_proposeStateChange (h : self.proposeStateChange ambient shard messages timestamp =
    some (change, self')) (hm : .userMessage m ∈ messages) (hactive : ∀ pending : List OnChainEvent,
      (∀ event ∈ pending, .onchainEvent event ∈ messages ∨ .onchainEventForMigration event ∈ messages) →
        ∃ slot, getStorageSlotForFid (self.env ambient) m.fid true pending = .ok slot ∧
        slot.isActive ambient.now) :
    m ∈ change.transactions.flatMap (·.userMessages) := by
  unfold proposeStateChange at h
  dsimp only at h
  split at h
  · cases h
  next change' s hprepare =>
    obtain ⟨engine, -, h⟩ := Option.bind_eq_some_iff.1 h
    cases h
    exact mem_prepareProposal hprepare hm hactive

end ShardEngine

end proposal

end Hypersnap
