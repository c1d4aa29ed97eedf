import Hypersnap.Engine.ShardEngine

/-!
# `Mempool.Mempool` — messages that wait for a chunk

One pool per shard, ordered by kind, time and identity of the messages. A message is **admitted** if its key
is not in the pool and it passes `messageIsValid`; a **pull** takes the first messages out of the pool, and
those that are still valid are the proposer's; a **decision** takes the messages of the decided chunk out.
What a pull has taken out does not come back.

The clock, the databases of the shards and the answers of the rate limiters are inputs of each call.
`Stop.panic` is a panic.
-/

namespace Hypersnap

open Overlay EState

/-! ## Keys -/

inductive MempoolMessageKind where
  | validatorMessage
  | userMessage
deriving DecidableEq, Repr

/-- The key of a message; the identity is a text. -/
structure MempoolKey where
  messageKind : MempoolMessageKind
  timestamp : UInt64
  identity : Bytes
deriving DecidableEq, Repr

def MempoolMessageKind.toNat : MempoolMessageKind → Nat
  | .validatorMessage => 1
  | .userMessage => 2

/-- The derived order: the fields one after the other. -/
def MempoolKey.le (a b : MempoolKey) : Bool :=
  ((compare a.messageKind.toNat b.messageKind.toNat).then
    ((compare a.timestamp b.timestamp).then (bytesCompare a.identity b.identity))).isLE

def decimal (n : Nat) : Bytes := (Nat.toDigits 10 n).map (·.toNat.toUInt8)

section keys
variable [Hex]

/-- The key of a user message; without data it is a `todo!()`. -/
def Message.mempoolKey (m : Message) : Option MempoolKey :=
  m.data.map fun data =>
    ⟨.userMessage, (⟨data.timestamp.toUInt64⟩ : FarcasterTime).toUnixSeconds, Hex.encode m.hash⟩

def ValidatorMessage.mempoolKey (m : ValidatorMessage) : Option MempoolKey :=
  match m.onChainEvent, m.fnameTransfer, m.blockEvent with
  | some event, _, _ =>
    some ⟨.validatorMessage, event.blockTimestamp,
      Hex.encode event.transactionHash ++ decimal event.logIndex.toNat⟩
  | none, some transfer, _ =>
    transfer.proof.map fun proof => ⟨.validatorMessage, proof.timestamp, decimal transfer.id.toNat⟩
  | none, none, some event =>
    event.data.map fun data => ⟨.validatorMessage, data.blockTimestamp, decimal data.seqnum.toNat⟩
  | none, none, none => some ⟨.validatorMessage, 0, "unknown".toUTF8.toList⟩

def MempoolMessage.mempoolKey : MempoolMessage → Option MempoolKey
  | .userMessage message => message.mempoolKey
  | .onchainEvent event | .onchainEventForMigration event =>
    ValidatorMessage.mempoolKey ⟨some event, none, none⟩
  | .fnameTransfer transfer => ValidatorMessage.mempoolKey ⟨none, some transfer, none⟩
  | .blockEvent _ event => ValidatorMessage.mempoolKey ⟨none, none, some event⟩

variable {key : MempoolKey}

theorem Message.mempoolKey_kind (m : Message) (h : m.mempoolKey = some key) :
    key.messageKind = .userMessage := by
  obtain ⟨data, -, rfl⟩ := Option.map_eq_some_iff.1 h
  rfl

theorem ValidatorMessage.mempoolKey_kind (m : ValidatorMessage) (h : m.mempoolKey = some key) :
    key.messageKind = .validatorMessage := by
  unfold mempoolKey at h
  split at h
  · cases h
    rfl
  · obtain ⟨proof, -, rfl⟩ := Option.map_eq_some_iff.1 h
    rfl
  · obtain ⟨data, -, rfl⟩ := Option.map_eq_some_iff.1 h
    rfl
  · cases h
    rfl

end keys

/-! ## What the mempool looks at -/

/-- What a mempool reads: the clock, and the databases of the shards (0 is the block store). -/
structure MempoolEnv where
  network : FarcasterNetwork
  numShards : UInt32
  now : UInt64
  shardStores : UInt32 → Option RocksDB

section checks
variable [Platform] (env : MempoolEnv)

/-- `EngineVersion::current`. -/
def MempoolEnv.currentVersion : EngineVersion := .versionFor ⟨env.now - farcasterEpoch / 1000⟩ env.network

/-- The shards whose pools take the message. -/
def routeMempoolMessage (message : MempoolMessage) : Option (List UInt32) := do
  let fidShard := routeFid (← message.fid) env.numShards
  match message with
  | .fnameTransfer _ =>
    if env.currentVersion.isEnabled .usernameShardRoutingFix then
      some ((List.range env.numShards.toNat).map fun i => (i + 1).toUInt32)
    else some [fidShard]
  | .onchainEventForMigration _ => some [0]
  | .onchainEvent _ => some [0, fidShard]
  | .blockEvent forShard _ => some [forShard]
  | .userMessage message => some [routeMessage message env.numShards]

/-- The message is stored in the shard; only user messages are looked up, and a hash that is no hash
    panics. -/
def messageAlreadyExists (shard : UInt32) (message : MempoolMessage) : Except (Stop HubError) Bool :=
  match env.shardStores shard, message with
  | some db, .userMessage message =>
    match message.data with
    | none => .ok false
    | some data =>
      match makeTsHash data.timestamp message.hash with
      | .error _ => .error .panic
      | .ok tsHash =>
        match typeToSetPostfix (.orDefault data.type) with
        | .error _ => .ok false
        | .ok set =>
          match getMessageByKey db Batch.empty
              (makeMessagePrimaryKey RootPrefix.user.toByte message.fid set.toByte tsHash) with
          | .ok (some _) => .ok true
          | _ => .ok false
  | _, _ => .ok false

/-- Key messages are admitted from some version on, by the clock. -/
def checkFeature (message : MempoolMessage) : Except (Stop HubError) Unit :=
  match message with
  | .userMessage message =>
    ensure (!message.msgType.isKeyMessage || env.currentVersion.isEnabled .gaslessSigners)
      (.err (.validationFailure "gasless signers not yet active"))
  | _ => .ok ()

/-- A block event is for a shard that has not merged it. -/
def checkBlockEvent (message : MempoolMessage) : Except (Stop HubError) Unit :=
  match message with
  | .blockEvent forShard event => do
    ensure (forShard != 0) (.err (.invalidInternalState "block event cannot be submitted to shard 0"))
    let some db := env.shardStores forShard | .error .panic
    match maxSeqnum db with
    | .error _ => .ok ()
    | .ok max =>
      let some seqnum := event.seqnum | .error .panic
      ensure (decide (max < seqnum)) (.err (.duplicate "block event has already been merged"))
  | _ => .ok ()

/-- The rate limiters look at user messages only. -/
def MempoolMessage.isUserMessage : MempoolMessage → Bool
  | .userMessage _ => true
  | _ => false

/-- `message_is_valid`. The rate limiters are asked at admission only (`limited` is their answer). -/
def messageIsValid (shard : UInt32) (message : MempoolMessage) (atAdmission limited : Bool) :
    Except (Stop HubError) Unit := do
  checkFeature env message
  checkBlockEvent env message
  if ← messageAlreadyExists env shard message then
    .error (.err (.duplicate "message has already been merged"))
  let some fid := message.fid | .error .panic
  ensure (!(atAdmission && message.isUserMessage && limited))
    (.err ⟨"bad_request.rate_limited", s!"rate limit exceeded for FID {fid}"⟩)

/-! ## The pools -/

abbrev ShardPool := List (MempoolKey × MempoolMessage)

/-- A pool for each shard that has had a message; each in key order. -/
structure Mempool where
  messages : UInt32 → Option ShardPool

namespace Mempool

def new : Mempool := ⟨fun _ => none⟩

def pool (self : Mempool) (shard : UInt32) : ShardPool := (self.messages shard).getD []

def setPool (self : Mempool) (shard : UInt32) (pool : ShardPool) : Mempool :=
  ⟨Function.update self.messages shard (some pool)⟩

/-- A message whose key is in the pool is a duplicate; for a shard without a pool the key is not even made. -/
def checkDuplicate (self : Mempool) (shard : UInt32) (message : MempoolMessage) :
    Except (Stop HubError) Unit :=
  match self.messages shard with
  | none => .ok ()
  | some pool => do
    let some key := message.mempoolKey | .error .panic
    ensure (!pool.any (·.1 == key)) (.err (.duplicate "message already in the mempool"))

def insertIntoShard (self : Mempool) (shard : UInt32) (message : MempoolMessage) (limited : Bool) :
    Except (Stop HubError) Mempool := do
  self.checkDuplicate shard message
  messageIsValid env shard message true limited
  let some key := message.mempoolKey | .error .panic
  .ok (self.setPool shard
    ((self.pool shard).orderedInsert (fun a b => MempoolKey.le a.1 b.1 = true) (key, message)))

/-- Offer the message to one pool after the other; the errors are collected. -/
def insertIntoShards (message : MempoolMessage) (limited : UInt32 → Bool) :
    List UInt32 → Mempool → Option (List HubError × Mempool)
  | [], self => some ([], self)
  | shard :: shards, self =>
    match self.insertIntoShard env shard message (limited shard) with
    | .error .panic => none
    | .error (.err e) => do
      let (errors, self) ← insertIntoShards message limited shards self
      some (e :: errors, self)
    | .ok self => insertIntoShards message limited shards self

/-- The reply is the first error, if any. -/
def insert (self : Mempool) (message : MempoolMessage) (limited : UInt32 → Bool) :
    Option (Except HubError Unit × Mempool) := do
  let shards ← routeMempoolMessage env message
  let (errors, self) ← insertIntoShards env message limited shards self
  some (errors.head?.elim (.ok ()) .error, self)

/-- What a pull makes of a pool: the messages for the proposer, those found invalid, and what is left. -/
structure Pulled where
  messages : List MempoolMessage
  dropped : List MempoolMessage
  left : ShardPool

/-- Take messages out of the pool until there are enough valid ones. -/
def pullFrom (shard : UInt32) : Nat → ShardPool → Option Pulled
  | _, [] => some ⟨[], [], []⟩
  | 0, pool => some ⟨[], [], pool⟩
  | room + 1, (_, message) :: rest =>
    match messageIsValid env shard message false false with
    | .error .panic => none
    | .error (.err _) => do
      let pulled ← pullFrom shard (room + 1) rest
      some { pulled with dropped := message :: pulled.dropped }
    | .ok () => do
      let pulled ← pullFrom shard room rest
      some { pulled with messages := message :: pulled.messages }

def pullMessages (self : Mempool) (shard : UInt32) (maxMessagesPerBlock : UInt32) :
    Option (Pulled × Mempool) :=
  match self.messages shard with
  | none => some (⟨[], [], []⟩, self)
  | some pool => do
    let pulled ← pullFrom env shard maxMessagesPerBlock.toNat pool
    some (pulled, self.setPool shard pulled.left)

def committedKeys (transactions : List Transaction) : Option (List MempoolKey) :=
  (transactions.flatMap fun txn =>
    txn.userMessages.map Message.mempoolKey ++ txn.systemMessages.map ValidatorMessage.mempoolKey).mapM id

/-- Take the messages of a decided chunk out of the pool of its shard. -/
def removeCommittedTxns (self : Mempool) (height : Height) (transactions : List Transaction) :
    Option Mempool :=
  match self.messages height.shardIndex with
  | none => some self
  | some pool => do
    let keys ← committedKeys transactions
    some (self.setPool height.shardIndex (pool.filter fun e => e.1 ∉ keys))

/-! ## What the operations do to a pool -/

variable {env} {self self' : Mempool} {shard : UInt32} {e : MempoolKey × MempoolMessage}
  {message : MempoolMessage} {pool : ShardPool} {limited : Bool} {pulled : Pulled}

omit [Platform] in
@[simp] theorem pool_setPool_self (pool : ShardPool) : (self.setPool shard pool).pool shard = pool := by
  simp [Mempool.pool, setPool]

omit [Platform] in
theorem pool_setPool_of_ne {other : UInt32} (h : other ≠ shard) (pool : ShardPool) :
    (self.setPool shard pool).pool other = self.pool other := by
  simp [Mempool.pool, setPool, h]

/-- Every message of the pools is under its own key. -/
def WellKeyed (self : Mempool) : Prop := ∀ shard, ∀ e ∈ self.pool shard, e.2.mempoolKey = some e.1

theorem wellKeyed_new : new.WellKeyed := fun _ _ h => nomatch h

theorem WellKeyed.setPool (h : self.WellKeyed) (hpool : ∀ e ∈ pool, e.2.mempoolKey = some e.1) :
    (self.setPool shard pool).WellKeyed := by
  intro other e he
  by_cases ho : other = shard
  · subst ho
    rw [pool_setPool_self] at he
    exact hpool e he
  · rw [pool_setPool_of_ne ho] at he
    exact h other e he

theorem insertIntoShard_cases (h : self.insertIntoShard env shard message limited = .ok self') :
    messageIsValid env shard message true limited = .ok () ∧ ∃ key, message.mempoolKey = some key ∧
      (∀ x ∈ self.pool shard, x.1 ≠ key) ∧ self' = self.setPool shard
        ((self.pool shard).orderedInsert (fun a b => MempoolKey.le a.1 b.1 = true) (key, message)) := by
  unfold insertIntoShard at h
  obtain ⟨_, hnew, h⟩ := except_bind_eq_ok.1 h
  obtain ⟨_, hvalid, h⟩ := except_bind_eq_ok.1 h
  cases hkey : message.mempoolKey with
  | none =>
    rw [hkey] at h
    cases h
  | some key =>
    rw [hkey] at h
    cases h
    refine ⟨hvalid, key, rfl, fun x hx heq => ?_, rfl⟩
    unfold checkDuplicate at hnew
    cases hpool : self.messages shard with
    | none => simp [Mempool.pool, hpool] at hx
    | some pool =>
      simp only [hpool, hkey, ensure_eq_ok, Bool.not_eq_true', List.any_eq_false] at hnew
      have hx : x ∈ pool := by simpa [Mempool.pool, hpool] using hx
      exact hnew x hx (beq_iff_eq.2 heq)

theorem mem_insertIntoShard (h : self.insertIntoShard env shard message limited = .ok self') :
    ∃ key, message.mempoolKey = some key ∧
      ∀ other e, e ∈ self'.pool other ↔ e ∈ self.pool other ∨ other = shard ∧ e = (key, message) := by
  obtain ⟨-, key, hkey, -, rfl⟩ := insertIntoShard_cases h
  refine ⟨key, hkey, fun other e => ?_⟩
  by_cases ho : other = shard
  · subst ho
    simp [or_comm]
  · simp [pool_setPool_of_ne ho, ho]

/-- Offering a message takes nothing out of any pool, and if no pool complains it is in all of them. -/
theorem insertIntoShards_spec {limited : UInt32 → Bool} {shards : List UInt32} {errors : List HubError}
    (h : insertIntoShards env message limited shards self = some (errors, self')) :
    (∀ other e, e ∈ self.pool other → e ∈ self'.pool other) ∧ (self.WellKeyed → self'.WellKeyed) ∧
      (errors = [] → ∀ shard ∈ shards, ∃ key, (key, message) ∈ self'.pool shard) := by
  induction shards generalizing self errors with
  | nil =>
    cases h
    exact ⟨fun _ _ h => h, id, fun _ _ h => nomatch h⟩
  | cons shard shards ih =>
    unfold insertIntoShards at h
    split at h
    · cases h
    · obtain ⟨⟨rest, self''⟩, hrest, h⟩ := Option.bind_eq_some_iff.1 h
      cases h
      obtain ⟨hmono, hkeyed, -⟩ := ih hrest
      exact ⟨hmono, hkeyed, fun h => nomatch h⟩
    next taken htaken =>
      obtain ⟨key, hkey, hmem⟩ := mem_insertIntoShard htaken
      obtain ⟨hmono, hkeyed, hin⟩ := ih h
      refine ⟨fun other e he => hmono _ _ ((hmem _ _).2 (.inl he)), fun hwell =>
        hkeyed fun other e he => ?_, ?_⟩
      · rcases (hmem _ _).1 he with he | ⟨-, rfl⟩
        · exact hwell other e he
        · exact hkey
      · rintro herrors other hother
        rcases List.mem_cons.1 hother with rfl | hother
        · exact ⟨key, hmono _ _ ((hmem _ _).2 (.inr ⟨rfl, rfl⟩))⟩
        · exact hin herrors other hother

variable (env) in
/-- The message is valid for a pull. -/
def isPullable (shard : UInt32) (message : MempoolMessage) : Bool :=
  match messageIsValid env shard message false false with
  | .ok () => true
  | .error _ => false

theorem pullFrom_spec {room : Nat} (h : pullFrom env shard room pool = some pulled) :
    ∃ taken, pool = taken ++ pulled.left ∧ pulled.messages = (taken.map (·.2)).filter (isPullable env shard) ∧
      pulled.dropped = (taken.map (·.2)).filter (!isPullable env shard ·) := by
  induction pool generalizing room pulled with
  | nil =>
    have hpulled : pulled = ⟨[], [], []⟩ := by
      cases room <;> (rw [pullFrom] at h; exact (Option.some.inj h).symm)
    subst hpulled
    exact ⟨[], rfl, rfl, rfl⟩
  | cons first rest ih =>
    cases room with
    | zero =>
      cases h
      exact ⟨[], rfl, rfl, rfl⟩
    | succ room =>
      unfold pullFrom at h
      split at h
      next => cases h
      all_goals
        rename_i hvalid
        obtain ⟨pulled', hpulled, h⟩ := Option.bind_eq_some_iff.1 h
        cases h
        obtain ⟨taken, htaken, hmessages, hdropped⟩ := ih hpulled
        refine ⟨first :: taken, congrArg _ htaken, ?_, ?_⟩ <;> simp [isPullable, hvalid, hmessages, hdropped]

theorem pullMessages_spec {maxMessages : UInt32}
    (h : self.pullMessages env shard maxMessages = some (pulled, self')) :
    (∃ taken, self.pool shard = taken ++ self'.pool shard ∧
      pulled.messages = (taken.map (·.2)).filter (isPullable env shard) ∧
      pulled.dropped = (taken.map (·.2)).filter (!isPullable env shard ·)) ∧
      (self.WellKeyed → self'.WellKeyed) := by
  unfold pullMessages at h
  cases hpool : self.messages shard with
  | none =>
    rw [hpool] at h
    cases h
    exact ⟨⟨[], rfl, rfl, rfl⟩, id⟩
  | some pool =>
    rw [hpool] at h
    obtain ⟨pulled', hpulled, h⟩ := Option.bind_eq_some_iff.1 h
    cases h
    obtain ⟨taken, htaken, htook⟩ := pullFrom_spec hpulled
    have hself : self.pool shard = pool := by rw [Mempool.pool, hpool, Option.getD_some]
    rw [hself, pool_setPool_self]
    refine ⟨⟨taken, htaken, htook⟩, fun hwell => hwell.setPool fun e he => hwell shard e ?_⟩
    rw [hself, htaken]
    exact List.mem_append_right _ he

/-- A decided chunk takes a user message out of the pool only if it has one with the same key. -/
theorem removeCommittedTxns_spec {height : Height} {transactions : List Transaction} (hwell : self.WellKeyed)
    (h : self.removeCommittedTxns height transactions = some self') :
    self'.WellKeyed ∧ ∀ shard key m, (key, .userMessage m) ∈ self.pool shard →
    (key, .userMessage m) ∈ self'.pool shard ∨
      ∃ m' ∈ transactions.flatMap (·.userMessages), m'.mempoolKey = m.mempoolKey := by
  unfold removeCommittedTxns at h
  cases hpool : self.messages height.shardIndex with
  | none =>
    rw [hpool] at h
    cases h
    exact ⟨hwell, fun _ _ _ h => .inl h⟩
  | some pool =>
    rw [hpool] at h
    obtain ⟨keys, hkeys, h⟩ := Option.bind_eq_some_iff.1 h
    cases h
    have hself : self.pool height.shardIndex = pool := by rw [Mempool.pool, hpool, Option.getD_some]
    refine ⟨hwell.setPool fun e he => hwell _ e (hself ▸ List.mem_of_mem_filter he), fun shard key m hm => ?_⟩
    by_cases hs : shard = height.shardIndex
    · subst hs
      have hkey : m.mempoolKey = some key := hwell _ _ hm
      rw [hself] at hm
      rw [pool_setPool_self, List.mem_filter]
      by_cases hin : key ∈ keys
      · obtain ⟨key', hkey', hid⟩ := (mem_of_mapM_eq_some hkeys).1 hin
        cases hid
        obtain ⟨txn, htxn, hin⟩ := List.mem_flatMap.1 hkey'
        rcases List.mem_append.1 hin with hin | hin
        · obtain ⟨m', hm', heq⟩ := List.mem_map.1 hin
          exact .inr ⟨m', List.mem_flatMap.2 ⟨txn, htxn, hm'⟩, by rw [heq, hkey]⟩
        · -- the key of a validator's message is of another kind
          obtain ⟨v, -, heq⟩ := List.mem_map.1 hin
          exact absurd (m.mempoolKey_kind hkey) (by rw [v.mempoolKey_kind heq]; decide)
      · exact .inl ⟨hm, by simpa using hin⟩
    · rw [pool_setPool_of_ne hs]
      exact .inl hm

end Mempool

end checks

end Hypersnap
