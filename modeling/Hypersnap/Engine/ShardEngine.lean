import Hypersnap.Consensus.Proposer
import Hypersnap.Engine.Replay

/-!
# `Engine.ShardEngine` — proposing, validating and committing chunks

The model of `ShardEngine`. Proposing and validating replay transactions into a batch that is kept as the
**pending** transaction; committing a chunk takes that batch if its root and the hashes of its block events
are those of the chunk, and replays the chunk otherwise. The pending transaction is dropped when a round
starts, and only then.

What differs from one machine and moment to the next is an argument of each call (`Ambient`). `none` is a
panic.
-/

namespace Hypersnap

open Overlay EState

/-! ## The engine -/

structure CachedTransaction where
  shardRoot : Bytes
  events : List HubEvent
  maxBlockEventSeqnum : UInt64
  blockEventsHash : Bytes
  txn : RocksDbTransactionBatch

structure ShardEngine where
  config : EngineConfig
  db : RocksDB
  trie : MerkleTrie
  generator : HubEventIdGenerator
  hyperGenerator : HubEventIdGenerator
  pendingTxn : Option CachedTransaction

/-- The clock of the machine, and the orders in which this call visits its hash sets and maps. -/
structure Ambient where
  now : UInt64
  orders : Nat → SetOrder
  fids : List UInt64 → List UInt64
  fids_perm : ∀ l, (fids l).Perm l

/-- A clock, with all sets visited in the order of insertion. -/
def Ambient.at (now : UInt64) : Ambient := ⟨now, fun _ => .ofInsertion, id, fun _ => .refl _⟩

namespace ShardEngine

def new (config : EngineConfig) (db : RocksDB) : Option ShardEngine :=
  match MerkleTrie.new.initializeTrie db with
  | (trie, db, .ok ()) => some ⟨config, db, trie, ⟨0, 0⟩, ⟨0, 0⟩, none⟩
  | (_, _, .error _) => none

variable (self : ShardEngine)

def env (ambient : Ambient) : EngineEnv := { self.config with db := self.db, now := ambient.now }

def start : EngineState := ⟨Batch.empty, self.generator, self.hyperGenerator, self.trie⟩

/-- The engine after a replay, with the trie read back from the database. -/
def finish (s : EngineState) : Option ShardEngine :=
  match s.trie.reload self.db with
  | (trie, .ok ()) => some { self with trie, generator := s.generator, hyperGenerator := s.hyperGenerator }
  | (_, .error _) => none

def versionFor (timestamp : FarcasterTime) : EngineVersion := .versionFor timestamp self.config.network

def setCurrentHeight (height : UInt64) : ShardEngine :=
  { self with generator := self.generator.setCurrentHeight height }

def startRound (height : Height) : ShardEngine :=
  { self.setCurrentHeight height.blockNumber with pendingTxn := none }

/-! ## Transactions from the mempool -/

end ShardEngine

def MempoolMessage.fid : MempoolMessage → Option UInt64
  | .userMessage message => some message.fid
  | .onchainEvent event | .onchainEventForMigration event => some event.fid
  | .fnameTransfer transfer => transfer.proof.map (·.fid)
  | .blockEvent _ event =>
    match event.data.bind (·.body) with
    | some (.mergeMessageEventBody message) => message.map (·.fid)
    | some .heartbeatEventBody | none => some 0

def Transaction.push (txn : Transaction) : MempoolMessage → Transaction
  | .userMessage message => { txn with userMessages := txn.userMessages ++ [message] }
  | .blockEvent _ event => { txn with systemMessages := txn.systemMessages ++ [⟨none, none, some event⟩] }
  | .fnameTransfer transfer =>
    { txn with systemMessages := txn.systemMessages ++ [⟨none, some transfer, none⟩] }
  | .onchainEvent event | .onchainEventForMigration event =>
    { txn with systemMessages := txn.systemMessages ++ [⟨some event, none, none⟩] }

/-- One transaction per user, with the messages in the order they came in. -/
def createTransactionsFromMempool (fids : List UInt64 → List UInt64) (messages : List MempoolMessage) :
    Option (List Transaction) := do
  let withFid ← messages.mapM fun m => do some (← m.fid, m)
  some <| (fids (withFid.map (·.1)).dedup).map fun fid =>
    ((withFid.filter (·.1 == fid)).map (·.2)).foldl Transaction.push ⟨fid, [], [], []⟩

section proposing
variable [Platform]

/-- A user without active storage has no messages merged; a user whose storage cannot be read has no
    transaction. -/
def filterTransaction (env : EngineEnv) (version : EngineVersion) (txn : Transaction) :
    Option (Option Transaction) :=
  let pending :=
    if version.isEnabled .dependentMessagesInBulkSubmit then
      txn.systemMessages.filterMap (·.onChainEvent) else []
  match getStorageSlotForFid env txn.fid true pending with
  | .error .panic => none
  | .error (.err _) => some none
  | .ok slot =>
    let txn := if slot.isActive env.now then txn else { txn with userMessages := [] }
    some (if txn.systemMessages.isEmpty && txn.userMessages.isEmpty then none else some txn)

/-- Replay the transactions of a proposal and fill in their account roots. -/
def prepareTransactions (env : EngineEnv) (orders : Nat → SetOrder) (version : EngineVersion)
    (timestamp : FarcasterTime) :
    List Transaction → UInt64 → EngineM EngineError (List Transaction × List HubEvent × UInt64)
  | [], lastSeqnum => pure ([], [], lastSeqnum)
  | txn :: rest, lastSeqnum => do
    let replayed ← replaySnapchainTxn env (orders 0) txn version timestamp lastSeqnum
    let (txns, events, lastSeqnum) ←
      prepareTransactions env (fun i => orders (i + 1)) version timestamp rest replayed.lastBlockEventSeqnum
    pure ({ txn with accountRoot := replayed.accountRoot } :: txns, replayed.events ++ events, lastSeqnum)

def prepareProposal (env : EngineEnv) (ambient : Ambient) (shardId : UInt32) (messages : List MempoolMessage)
    (timestamp : FarcasterTime) : EngineM EngineError ShardStateChange := do
  let version := EngineVersion.versionFor timestamp env.network
  let some txns := createTransactionsFromMempool ambient.fids messages | throw .panic
  let some txns := txns.mapM (filterTransaction env version) | throw .panic
  let lastSeqnum ← raise ((maxSeqnum env.db).mapError .blockEventStoreError)
  let (transactions, events, maxBlockEventSeqnum) ←
    prepareTransactions env ambient.orders version timestamp txns.reduceOption lastSeqnum
  let s ← get
  let newStateRoot ← read (s.trie.rootHash.mapError TrieError.toStop)
  pure { shardId, timestamp, newStateRoot, transactions, events, version, maxBlockEventSeqnum }

end proposing

/-- The hash of the hashes of all block events; nothing without any. -/
def computeBlockEventsHash [Blake3] (transactions : List Transaction) : Bytes :=
  let events := (transactions.flatMap (·.systemMessages)).filterMap (·.blockEvent)
  if events.isEmpty then [] else (Blake3.hash (events.flatMap (·.hash))).toList

namespace ShardEngine

variable [Platform] (self : ShardEngine) (ambient : Ambient)

/-! ## Proposing and validating -/

def proposeStateChange (shard : UInt32) (messages : List MempoolMessage) (timestamp : Option FarcasterTime) :
    Option (ShardStateChange × ShardEngine) := do
  let env := self.env ambient
  match prepareProposal env ambient shard messages (timestamp.getD env.currentTime) self.start with
  | .error _ _ => none
  | .ok change s => do
    let engine ← self.finish s
    let cached : CachedTransaction := ⟨change.newStateRoot, change.events, change.maxBlockEventSeqnum,
      computeBlockEventsHash change.transactions, s.txn⟩
    some (change, { engine with pendingTxn := some cached })

/-- A failed validation leaves the pending transaction as it was. -/
def validateStateChange (change : ShardStateChange) (height : Height) : Option (Bool × ShardEngine) := do
  let self := self.setCurrentHeight height.blockNumber
  match replayProposal (self.env ambient) ambient.orders change.transactions change.newStateRoot
      change.version change.timestamp self.start with
  | .error .panic _ => none
  | .error (.err _) s => do some (false, ← self.finish s)
  | .ok (events, maxBlockEventSeqnum) s => do
    let engine ← self.finish s
    let cached : CachedTransaction := ⟨change.newStateRoot, events, maxBlockEventSeqnum,
      computeBlockEventsHash change.transactions, s.txn⟩
    some (true, { engine with pendingTxn := some cached })

/-! ## Committing -/

/-- How many events there are of each type; the block-confirmed event is counted too. -/
def computeEventCountsByType (events : List HubEvent) : List (Int32 × UInt64) :=
  ([1, 2, 3, 6, 9, 10, 11] : List Int32).filterMap fun type =>
    if type = 11 then some (type, 1)
    else
      match events.countP fun e => e.body.type == type with
      | 0 => none
      | n => some (type, n.toUInt64)

def blockConfirmed (header : ShardHeader) (height : Height) (hash : Bytes) (events : List HubEvent)
    (maxBlockEventSeqnum : UInt64) : HubEvent :=
  .new (.blockConfirmedBody height.blockNumber height.shardIndex header.timestamp hash
    (events.length + 1).toUInt64 (computeEventCountsByType events) maxBlockEventSeqnum)

/-- Number the block-confirmed event, commit the batch, send the events, store the chunk. Returns what was
    sent. -/
def commitAndEmitEvents (chunk : ShardChunk) (events : List HubEvent) (maxBlockEventSeqnum : UInt64)
    (txn : RocksDbTransactionBatch) : Option (ShardEngine × List HubEvent) := do
  let header ← chunk.header
  let height ← header.height
  let confirmed := blockConfirmed header height chunk.hash events maxBlockEventSeqnum
  match commitTransaction false confirmed ⟨txn, self.generator⟩ with
  | .error _ _ => none
  | .ok confirmed s =>
    let db := commit self.db s.txn
    match self.trie.reload db with
    | (_, .error _) => none
    | (trie, .ok ()) =>
      let emitted := (confirmed :: events).map fun e => { e with timestamp := header.timestamp }
      some ({ self with db := putShardChunk db chunk, trie, generator := s.generator }, emitted)

def isCachedTxnValid (cached : CachedTransaction) (shardRoot : Bytes) (transactions : List Transaction) :
    Bool :=
  cached.shardRoot == shardRoot && computeBlockEventsHash transactions == cached.blockEventsHash

/-- The commit that does not look at the pending transaction: it replays the chunk. -/
def commitByReplay (chunk : ShardChunk) : Option (ShardEngine × List HubEvent) := do
  let header ← chunk.header
  let height ← header.height
  let self := self.setCurrentHeight height.blockNumber
  match replayProposal (self.env ambient) ambient.orders chunk.transactions header.shardRoot
      (self.versionFor ⟨header.timestamp⟩) ⟨header.timestamp⟩ self.start with
  | .error _ _ => none
  | .ok (events, maxBlockEventSeqnum) s =>
    commitAndEmitEvents
      { self with trie := s.trie, generator := s.generator, hyperGenerator := s.hyperGenerator }
      chunk events maxBlockEventSeqnum s.txn

/-- The pending transaction that a commit of this chunk would use. -/
def validCache (chunk : ShardChunk) (header : ShardHeader) : Option CachedTransaction :=
  self.pendingTxn.filter fun cached => isCachedTxnValid cached header.shardRoot chunk.transactions

def commitShardChunk (chunk : ShardChunk) : Option (ShardEngine × List HubEvent) := do
  let header ← chunk.header
  match self.validCache chunk header with
  | some cached => self.commitAndEmitEvents chunk cached.events cached.maxBlockEventSeqnum cached.txn
  | none => self.commitByReplay ambient chunk

/-! ## The engine in consensus -/

def getConfirmedHeight : Height := ⟨self.config.shardId, maxBlockNumber self.db⟩

/-- The engine as the proposer of a shard uses it. -/
@[reducible] def api : ShardEngineApi ShardEngine where
  network self := self.config.network
  getConfirmedHeight := getConfirmedHeight
  getLastShardChunk self := getLastShardChunk self.db
  startRound := startRound
  proposeStateChange self shard messages := self.proposeStateChange ambient shard messages none
  validateStateChange self change height := self.validateStateChange ambient change height
  commitShardChunk self chunk := (self.commitShardChunk ambient chunk).map (·.1)

end ShardEngine

/-! ## Samples -/

def databaseOf (entries : List (Bytes × DbValue)) : RocksDB := fun k => (entries.find? (·.1 == k)).map (·.2)

def sampleChainEvent (fid : UInt64) (type : OnChainEventType) (blockNumber : UInt32)
    (body : OnChainEventBody) : OnChainEvent where
  type := type.toI32
  chainId := 1
  blockNumber := blockNumber
  blockHash := []
  blockTimestamp := 1700000000
  transactionHash := [1]
  logIndex := 0
  fid := fid
  body := some body
  txIndex := 0
  version := 1

def sampleRegister (fid : UInt64) : OnChainEvent :=
  sampleChainEvent fid .eventTypeIdRegister 1 (.idRegisterEventBody ⟨[1], 1, [], []⟩)

def sampleSigner (fid : UInt64) : OnChainEvent :=
  sampleChainEvent fid .eventTypeSigner 2 (.signerEventBody ⟨[7], 1, SignerEventType.add.toI32, [], 1⟩)

def sampleRent (fid : UInt64) : OnChainEvent :=
  sampleChainEvent fid .eventTypeStorageRent 3 (.storageRentEventBody ⟨[], 1, 0⟩)

/-- What the events of a user with a key and one unit of storage leave in the database. -/
def sampleUser (fid : UInt64) : List (Bytes × DbValue) :=
  [(makeOnchainEventPrimaryKey (sampleRegister fid), .onChainEvent (sampleRegister fid)),
    (makeOnchainEventPrimaryKey (sampleSigner fid), .onChainEvent (sampleSigner fid)),
    (makeOnchainEventPrimaryKey (sampleRent fid), .onChainEvent (sampleRent fid)),
    (makeIdRegisterByFidKey fid, .bytes (makeOnchainEventPrimaryKey (sampleRegister fid))),
    (makeSignerOnchainEventBySignerKey fid [7], .bytes (makeOnchainEventPrimaryKey (sampleSigner fid)))]

/-- An iterator for databases with no keys but these. -/
@[reducible] def scanOf (keys : List Bytes) : DbIterator :=
  keyScan (keys.insertionSort fun a b => bytesLe a b = true)

def sampleMessage (type : MessageType) (timestamp : UInt32) (body : Body) : Message where
  data := some ⟨type.toI32, 1, timestamp, 1, some body⟩
  hash := List.replicate 20 timestamp.toUInt8
  hashScheme := blake3
  signature := [1]
  signatureScheme := ed25519
  signer := [7]
  dataBytes := none

def sampleSignedCast : Message := sampleMessage .castAdd 10 (.castAddBody none [] ⟨[65], 0, [], [], []⟩)

end Hypersnap
