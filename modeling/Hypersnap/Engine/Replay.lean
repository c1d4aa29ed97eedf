import Mathlib.Data.List.Dedup
import Hypersnap.Engine.Merge

/-!
# `Engine.Replay` — replaying the transactions of a chunk

The model of `replay_snapchain_txn` and `replay_proposal`. A transaction belongs to one user: first its system
messages (on-chain events, transfers of names, events of shard zero), then the revocation of removed keys,
then the user's messages, then pruning, and last the side effects of what was deleted. An error of a single
message is recorded or logged; only an error of the trie stops the replay.

The sequence number of the last block event is threaded through, and everything else lives in the engine's
state.
-/

namespace Hypersnap

open Overlay EState

variable [Platform] (env : EngineEnv)

/-! ## On-chain events -/

/-- Messages signed by a removed key were revoked by some versions only. -/
def shouldRevokeSigner (signerEvent : SignerEventBody) (version : EngineVersion) : Bool :=
  !(version.isEnabled .signerRevokeBug || version.isEnabled .stopRevokingExistingMessages) &&
    signerEvent.eventType == SignerEventType.remove.toI32

/-- The keys that an on-chain event asks to revoke. -/
def revokedBy (event : OnChainEvent) (version : EngineVersion) : List Bytes :=
  match event.body with
  | some (.signerEventBody body) => if shouldRevokeSigner body version then [body.key] else []
  | _ => []

def replayOnchainEvent (version : EngineVersion) (event : OnChainEvent) :
    EngineM EngineError (List HubEvent × List Bytes) := do
  match ← recover (inStores (mergeOnchainEvent env.storeOpts.conflictFree env.db event)) with
  | .ok hubEvent =>
    updateTrie env hubEvent
    pure ([hubEvent], revokedBy event version)
  | .error _ => pure ([], [])

/-! ## Transfers of names -/

/-- A user who gives a name away loses it in the profile too. -/
def revokeUsername (fromFid : UInt64) : EngineM EngineError (List HubEvent) := do
  let userDataStore := env.store .legacy userDataStoreDef
  match UserDataStore.getUserDataByFidAndType userDataStore env.db fromFid .username with
  | .error .panic => throw .panic
  | .error (.hub _) => pure []
  | .ok username =>
    match ← recover (inStores ((userDataStore.revoke username).toOp id)) with
    | .ok hubEvent =>
      updateTrie env hubEvent
      pure [hubEvent]
    | .error _ => pure []

def replayFnameTransfer (transfer : FnameTransfer) : EngineM EngineError (List HubEvent) := do
  match transfer.proof with
  | none => pure []
  | some proof =>
    match validateFnameTransfer proof env.network env.fnameSignerAddress with
    | .error _ => pure []
    | .ok () =>
      let merged ←
        match ← recover (inStores ((UserDataStore.mergeUsernameProof env.db proof).toOp id)) with
        | .ok hubEvent => do
          updateTrie env hubEvent
          pure [hubEvent]
        | .error _ => pure []
      let revoked ← if 0 < transfer.fromFid then revokeUsername env transfer.fromFid else pure []
      pure (merged ++ revoked)

/-! ## Events of shard zero -/

def handleBlockEvent (event : BlockEvent) : EngineM EngineError (List HubEvent) := do
  match event.data with
  | none => throw (.err (.engineMessageValidationError .noMessageData))
  | some data =>
    match data.body with
    | none => throw (.err (.engineMessageValidationError .blockEventMissingBody))
    | some .heartbeatEventBody => pure []
    | some (.mergeMessageEventBody none) =>
      throw (.err (.engineMessageValidationError .blockEventMissingBody))
    | some (.mergeMessageEventBody (some message)) =>
      let hubEvents ← mapErr .engineMessageValidationError (mergeMessage env message)
      mergeMessageHyper env message
      updateTrieAll env hubEvents
      pure hubEvents

/-- Only the next event in line is applied; its number counts even if the message in it cannot be merged. -/
def replayBlockEvent (version : EngineVersion) (event : BlockEvent) (lastSeqnum : UInt64) :
    EngineM EngineError (List HubEvent × UInt64) := do
  if version.isEnabled .readDataFromShardZero then
    match event.seqnum with
    | none => throw .panic
    | some seqnum =>
      if seqnum = lastSeqnum + 1 then
        let lastSeqnum ←
          match ← recover (inStores (putBlockEvent event)) with
          | .ok () => pure (lastSeqnum + 1)
          | .error _ => pure lastSeqnum
        if version.isEnabled .storageLending then
          match ← recover (handleBlockEvent env event) with
          | .ok hubEvents => pure (hubEvents, lastSeqnum)
          | .error _ => pure ([], lastSeqnum)
        else pure ([], lastSeqnum)
      else pure ([], lastSeqnum)
  else pure ([], lastSeqnum)

/-! ## System messages -/

/-- On-chain events come first, in the order of the chain; all else stays in place. -/
def systemMessageLe (a b : ValidatorMessage) : Bool :=
  match a.onChainEvent, b.onChainEvent with
  | some a, some b =>
    decide (a.blockNumber < b.blockNumber ∨ a.blockNumber = b.blockNumber ∧ a.logIndex ≤ b.logIndex)
  | some _, none => true
  | none, some _ => false
  | none, none => true

/-- The stable sort of the source. -/
def sortSystemMessages (messages : List ValidatorMessage) : List ValidatorMessage :=
  messages.insertionSort fun a b => systemMessageLe a b = true

/-- Purchases of a tier are skipped before the feature is on. -/
def skipsTierPurchase (version : EngineVersion) (message : ValidatorMessage) : Bool :=
  message.onChainEvent.any fun event =>
    event.eventType == .eventTypeTierPurchase && !version.isEnabled .farcasterPro

/-- What the system messages of a transaction leave behind: events, keys to revoke, the last block event. -/
structure SystemOutcome where
  events : List HubEvent
  revokedSigners : List Bytes
  lastSeqnum : UInt64

/-- The part of a system message that is an event on chain. -/
def replayChainPart (version : EngineVersion) (message : ValidatorMessage) :
    EngineM EngineError (List HubEvent × List Bytes) :=
  match message.onChainEvent with
  | some event => replayOnchainEvent env version event
  | none => pure ([], [])

/-- The part that is a transfer of a name. -/
def replayNamePart (message : ValidatorMessage) : EngineM EngineError (List HubEvent) :=
  match message.fnameTransfer with
  | some transfer => replayFnameTransfer env transfer
  | none => pure []

/-- The part that is an event of shard zero. -/
def replayBlockPart (version : EngineVersion) (message : ValidatorMessage) (lastSeqnum : UInt64) :
    EngineM EngineError (List HubEvent × UInt64) :=
  match message.blockEvent with
  | some event => replayBlockEvent env version event lastSeqnum
  | none => pure ([], lastSeqnum)

def replaySystemMessage (version : EngineVersion) (message : ValidatorMessage) (lastSeqnum : UInt64) :
    EngineM EngineError SystemOutcome :=
  if skipsTierPurchase version message then
    pure ⟨[], [], lastSeqnum⟩
  else do
    let chain ← replayChainPart env version message
    let names ← replayNamePart env message
    let blocks ← replayBlockPart env version message lastSeqnum
    pure ⟨chain.1 ++ names ++ blocks.1, chain.2, blocks.2⟩

def replaySystemMessages (version : EngineVersion) :
    List ValidatorMessage → UInt64 → EngineM EngineError SystemOutcome
  | [], lastSeqnum => pure ⟨[], [], lastSeqnum⟩
  | message :: rest, lastSeqnum => do
    let first ← replaySystemMessage env version message lastSeqnum
    let others ← replaySystemMessages version rest first.lastSeqnum
    pure ⟨first.events ++ others.events, first.revokedSigners ++ others.revokedSigners, others.lastSeqnum⟩

/-! ## Revoked keys -/

/-- Revoke what removed keys have signed, key by key. -/
def revokeSigners (fid : UInt64) : List Bytes → EngineM EngineError (List HubEvent)
  | [] => pure []
  | key :: keys => do
    let _ ← recover (inHyperStores (revokeMessages env .hyper fid key))
    let events ←
      match ← recover (inStores (revokeMessages env .legacy fid key)) with
      | .ok events => do
        updateTrieAll env events
        pure events
      | .error _ => pure []
    return events ++ (← revokeSigners fid keys)

/-! ## User messages -/

def isDependentUserData (m : Message) : Bool :=
  match m.data.bind (·.body) with
  | some (.userDataBody type _) =>
    let type := UserDataType.orDefault type
    type == .username || type == .userDataPrimaryAddressEthereum || type == .userDataPrimaryAddressSolana
  | _ => false

/-- What others depend on comes first. -/
def getMessagePriority (m : Message) : Nat :=
  match m.msgType with
  | .verificationAddEthAddress => 1
  | .usernameProof => 2
  | .userDataAdd => if isDependentUserData m then 3 else 4
  | _ => 5

def userMessageLe (a b : Message) : Bool :=
  decide (getMessagePriority a < getMessagePriority b) ||
    getMessagePriority a == getMessagePriority b && decide (a.timestamp ≤ b.timestamp)

/-- The stable sort of the source. To compare two messages of one priority it reads their data: a message
    without any has the last priority, and panics as soon as there is another one of that priority. -/
def sortUserMessages (messages : List Message) : Option (List Message) :=
  if messages.any (·.data.isNone) && decide (2 ≤ messages.countP fun m => getMessagePriority m == 5) then none
  else some (messages.insertionSort fun a b => userMessageLe a b = true)

/-- What the user messages of a transaction leave behind: events, errors, and the types that were merged. -/
structure UserOutcome where
  events : List HubEvent
  validationErrors : List MessageValidationError
  merged : List MessageType

/-- Record a failure; one that cannot be numbered is still reported. -/
def recordFailure (message : Message) (err : MessageValidationError) : EngineM EngineError UserOutcome := do
  let event := HubEvent.fromValidationError err message
  match ← recover (inStores ((commitTransaction false event).toOp id)) with
  | .ok event => pure ⟨[event], [err], []⟩
  | .error _ => pure ⟨[event], [err], []⟩

def replayUserMessage (version : EngineVersion) (timestamp : FarcasterTime) (message : Message) :
    EngineM EngineError UserOutcome := do
  match ← recover (validateUserMessage env message timestamp version) with
  | .error err => recordFailure message err
  | .ok () =>
    match ← recover (mergeMessage env message) with
    | .error err => recordFailure message err
    | .ok events =>
      mergeMessageHyper env message
      updateTrieAll env events
      pure ⟨events, [], [message.msgType]⟩

def replayUserMessages (version : EngineVersion) (timestamp : FarcasterTime) :
    List Message → EngineM EngineError UserOutcome
  | [] => pure ⟨[], [], []⟩
  | message :: rest => do
    let first ← replayUserMessage env version timestamp message
    let others ← replayUserMessages version timestamp rest
    pure ⟨first.events ++ others.events, first.validationErrors ++ others.validationErrors,
      first.merged ++ others.merged⟩

/-! ## Pruning -/

def pruneTypes (fid : UInt64) (version : EngineVersion) :
    List MessageType → EngineM EngineError (List HubEvent)
  | [] => pure []
  | type :: types => do
    let events ←
      match ← recover (pruneMessages env fid type version) with
      | .ok events => do
        updateTrieAll env events
        pure events
      | .error _ => pure []
    return events ++ (← pruneTypes fid version types)

def replaySideEffects (version : EngineVersion) (events : List HubEvent) :
    EngineM EngineError (List HubEvent) := do
  match ← recover (handleDeleteSideEffects env version events) with
  | .ok revoked => do
    updateTrieAll env revoked
    pure revoked
  | .error _ => pure []

/-! ## Transactions and chunks -/

structure ReplayedTransaction where
  accountRoot : Bytes
  events : List HubEvent
  validationErrors : List MessageValidationError
  lastBlockEventSeqnum : UInt64

def replaySnapchainTxn (order : SetOrder) (snapchainTxn : Transaction) (version : EngineVersion)
    (timestamp : FarcasterTime) (lastBlockEventSeqnum : UInt64) :
    EngineM EngineError ReplayedTransaction := do
  let fid := snapchainTxn.fid
  let system ← replaySystemMessages env version
    (sortSystemMessages snapchainTxn.systemMessages) lastBlockEventSeqnum
  let revoked ← revokeSigners env fid (order.keys system.revokedSigners.dedup)
  let some userMessages := sortUserMessages snapchainTxn.userMessages | throw .panic
  let user ← replayUserMessages env version timestamp userMessages
  let pruned ← pruneTypes env fid version (order.types user.merged.dedup)
  let events := system.events ++ revoked ++ user.events ++ pruned
  let effects ← replaySideEffects env version events
  let s ← get
  pure ⟨MerkleTrie.getHash env.db s.txn (TrieKey.forFid fid), events ++ effects, user.validationErrors,
    system.lastSeqnum⟩

/-- Replay transactions one after the other; each must end in the account root it states. -/
def replayTransactions (orders : Nat → SetOrder) (version : EngineVersion) (timestamp : FarcasterTime) :
    List Transaction → UInt64 → EngineM EngineError (List HubEvent × UInt64)
  | [], lastSeqnum => pure ([], lastSeqnum)
  | txn :: rest, lastSeqnum => do
    let replayed ← replaySnapchainTxn env (orders 0) txn version timestamp lastSeqnum
    if replayed.accountRoot ≠ txn.accountRoot then
      throw (.err .hashMismatch)
    else
      let (events, lastSeqnum) ←
        replayTransactions (fun i => orders (i + 1)) version timestamp rest replayed.lastBlockEventSeqnum
      pure (replayed.events ++ events, lastSeqnum)

/-- The root before the replay is only compared with the last chunk's; a stored chunk without a header
    panics. -/
def checkParentRoot : EngineM EngineError Unit := do
  let s ← get
  match getLastShardChunk env.db, s.trie.rootHash with
  | some chunk, .ok _ => if chunk.header.isNone then throw .panic
  | _, _ => pure ()

def replayProposal (orders : Nat → SetOrder) (transactions : List Transaction) (shardRoot : Bytes)
    (version : EngineVersion) (timestamp : FarcasterTime) : EngineM EngineError (List HubEvent × UInt64) := do
  let lastSeqnum ← raise ((maxSeqnum env.db).mapError .blockEventStoreError)
  checkParentRoot env
  let (events, lastSeqnum) ← replayTransactions env orders version timestamp transactions lastSeqnum
  let s ← get
  let root ← read (s.trie.rootHash.mapError TrieError.toStop)
  if root ≠ shardRoot then throw (.err .hashMismatch)
  pure (events, lastSeqnum)

end Hypersnap
