import Hypersnap.Store.Keys

/-!
# `Store.Store` — the store shared by all message types

A message store keeps, per user, a set of **adds** and a set of **removes**: each message under its primary
key, and one index entry per conflict key that holds the `tsHash` of the message that won there. `StoreDef` is
what the message types differ in (keys, type tests, order, secondary indices); `Store` is the code they share:
`merge`, `revoke`, `pruneMessages`, `revokeMessagesBySigner`.

Every operation stages its writes in the transaction batch and keeps what it has staged when it fails. Reads
of merges go through the batch; pruning, revocation and the compact-state merge enumerate the **database**.
-/

namespace Hypersnap

open Overlay EState

/-! ## Event ids -/

def heightBits : UInt64 := 50

def sequenceBits : UInt64 := 14

structure HubEventIdGenerator where
  currentHeight : UInt64
  currentSeq : UInt64
deriving DecidableEq, Repr

namespace HubEventIdGenerator

def setCurrentHeight (_ : HubEventIdGenerator) (height : UInt64) : HubEventIdGenerator := ⟨height, 0⟩

def makeEventId (height seq : UInt64) : UInt64 :=
  (height <<< sequenceBits) ||| (seq &&& ((1 <<< sequenceBits) - 1))

/-- The next id, and the generator after it: 0 within the block is kept for the block-confirmed event. -/
def generateId (g : HubEventIdGenerator) (event : HubEvent) : Except Failure (UInt64 × HubEventIdGenerator) :=
  if 1 <<< heightBits ≤ g.currentHeight then
    .error (.hub (.invalidParameter "height cannot fit in event id. Height > 50 bits"))
  else if 1 <<< sequenceBits ≤ g.currentSeq then
    .error (.hub (.invalidParameter "sequence cannot fit in event id. Seq> 14 bits"))
  else
    match event.body with
    | .blockConfirmedBody .. => .ok (makeEventId g.currentHeight 0, g)
    | _ =>
      let seq := if g.currentSeq = 0 then 1 else g.currentSeq
      .ok (makeEventId g.currentHeight seq, { g with currentSeq := seq + 1 })

/-- There is an id left. -/
def Ready (g : HubEventIdGenerator) : Prop :=
  g.currentHeight < 1 <<< heightBits ∧ g.currentSeq < 1 <<< sequenceBits

instance (g : HubEventIdGenerator) : Decidable g.Ready := inferInstanceAs (Decidable (_ ∧ _))

variable {g : HubEventIdGenerator}

theorem exists_generateId (h : g.Ready) (event : HubEvent) : ∃ r, g.generateId event = .ok r := by
  unfold generateId
  rw [if_neg (UInt64.not_le.2 h.1), if_neg (UInt64.not_le.2 h.2)]
  split <;> exact ⟨_, rfl⟩

theorem generateId_error (h : ¬ g.Ready) (event : HubEvent) : ∃ e, g.generateId event = .error (.hub e) := by
  unfold generateId
  by_cases hheight : 1 <<< heightBits ≤ g.currentHeight
  · exact ⟨_, if_pos hheight⟩
  · have hseq : 1 <<< sequenceBits ≤ g.currentSeq := by
      rw [← UInt64.not_lt]
      exact fun hlt => h ⟨UInt64.not_le.1 hheight, hlt⟩
    exact ⟨_, by rw [if_neg hheight, if_pos hseq]⟩

end HubEventIdGenerator

def makeEventKey (eventId : UInt64) : Bytes := RootPrefix.hubEvents.toByte :: toBeBytes64 eventId

/-! ## Staging writes -/

/-- What a store operation changes: the batch it stages its writes in, and the event ids it has used. -/
structure StoreState where
  txn : RocksDbTransactionBatch
  generator : HubEventIdGenerator

abbrev StoreM := EStateM Failure StoreState

def StoreState.put (s : StoreState) (key : Bytes) (value : DbValue) : StoreState :=
  { s with txn := s.txn.put key value }

def StoreState.delete (s : StoreState) (key : Bytes) : StoreState := { s with txn := s.txn.delete key }

def StoreState.putAll (s : StoreState) (entries : List (Bytes × DbValue)) : StoreState :=
  entries.foldl (fun s e => s.put e.1 e.2) s

def StoreState.deleteAll (s : StoreState) (keys : List Bytes) : StoreState := keys.foldl StoreState.delete s

def txnPut (key : Bytes) (value : DbValue) : StoreM Unit := modify (·.put key value)

def txnDelete (key : Bytes) : StoreM Unit := modify (·.delete key)

/-- `StoreEventHandler::commit_transaction`: number the event and stage it (the batch itself is committed
    elsewhere). A handler that does not persist only numbers. -/
def commitTransaction (noPersist : Bool) (event : HubEvent) : StoreM HubEvent := do
  let s ← get
  let (id, generator) ← fromExcept (s.generator.generateId event)
  set { s with generator }
  let event := { event with id }
  if !noPersist then txnPut (makeEventKey id) (.hubEvent event)
  pure event

/-- Run an operation whose error the caller only logs: its staged writes stay. -/
def attempt {α : Type} (x : StoreM α) : StoreM (Except HubError α) := fun s =>
  match x s with
  | .ok a s' => .ok (.ok a) s'
  | .error (.hub e) s' => .ok (.error e) s'
  | .error .panic s' => .error .panic s'

/-! ## What the stores differ in -/

/-- Default order of two messages on one conflict key: later timestamp, then remove over add, then the
    hash. -/
def defaultMessageCompare (addType removeType : UInt8) (aType : UInt8) (aTsHash : Bytes) (bType : UInt8)
    (bTsHash : Bytes) : Ordering :=
  match bytesCompare (aTsHash.take 4) (bTsHash.take 4) with
  | .eq =>
    if aType = removeType ∧ bType = addType then .gt
    else if aType = addType ∧ bType = removeType then .lt
    else bytesCompare ((aTsHash.drop 4).take 20) ((bTsHash.drop 4).take 20)
  | order => order

structure StoreDef where
  setPostfix : UInt8
  addMessageType : UInt8
  removeMessageType : UInt8
  compactStateMessageType : UInt8
  isAddType : Message → Bool
  isRemoveType : Message → Bool
  isCompactStateType : Message → Bool
  makeAddKey : Message → StateContext → Except Failure Bytes
  makeRemoveKey : Message → StateContext → Except Failure Bytes
  makeCompactStateAddKey : Message → StateContext → Except Failure Bytes
  /-- The entries `build_secondary_indices` puts. -/
  secondaryIndices : Bytes → Message → StateContext → Except Failure (List (Bytes × DbValue)) :=
    fun _ _ _ => .ok []
  /-- The keys `delete_secondary_indices` deletes. -/
  secondaryIndexKeys : Bytes → Message → StateContext → Except Failure (List Bytes) :=
    fun tsHash m ctx => (secondaryIndices tsHash m ctx).map (·.map Prod.fst)
  messageCompare : UInt8 → Bytes → UInt8 → Bytes → Ordering :=
    defaultMessageCompare addMessageType removeMessageType
  /-- A store's own `get_merge_conflicts`, where it has one. -/
  ownMergeConflicts : Option (RocksDB → RocksDbTransactionBatch → Message → Bytes → StateContext →
    Except Failure (List Message)) := none
  mergeEventArgs : Message → List Message → HubEventBody := .mergeMessageBody
  revokeEventArgs : Message → HubEventBody := .revokeMessageBody
  pruneEventArgs : Message → HubEventBody := .pruneMessageBody

namespace StoreDef

variable (self : StoreDef)

/-- `MessageType::None` as a remove type means that the store has no removes. -/
def removeTypeSupported : Bool := self.removeMessageType ≠ 0

def compactStateTypeSupported : Bool := self.compactStateMessageType ≠ 0

/-- An index entry as the order reads it: slicing a value shorter than 24 bytes panics. -/
def indexValue : DbValue → Except Failure Bytes
  | .bytes b => if tsHashLength ≤ b.length then .ok b else .error .panic
  | _ => .error .panic

/-- One half of `get_merge_conflicts`: the message the index entry at `key` points to, if it has to give way
    to the new one. -/
def conflictAt [Prost] (db : RocksDB) (txn : RocksDbTransactionBatch) (message : Message) (tsHash : Bytes)
    (ctx : StateContext) (key : Bytes) (existingType : UInt8) (kind : String) :
    Except Failure (List Message) :=
  match getFromDbOrTxn db txn key with
  | none => .ok []
  | some value => do
    let existing ← indexValue value
    let some data := message.data | .error .panic
    match self.messageCompare existingType existing (asU8 data.type) tsHash with
    | .gt => .error (.hub (.conflict ("message conflicts with a more recent " ++ kind)))
    | .eq => .error (.hub (.duplicate "message has already been merged"))
    | .lt =>
      let existingTsHash ← vecToU8_24 existing
      let found ← getMessage db txn (ctx.rootPrefix .user) data.fid self.setPostfix existingTsHash
      -- an entry without a message is only logged
      .ok found.toList

def getMergeConflicts [Prost] (db : RocksDB) (txn : RocksDbTransactionBatch) (message : Message)
    (tsHash : Bytes) (ctx : StateContext) : Except Failure (List Message) :=
  match self.ownMergeConflicts with
  | some own => own db txn message tsHash ctx
  | none => do
    let removes ←
      if self.removeTypeSupported then do
        let removeKey ← self.makeRemoveKey message ctx
        self.conflictAt db txn message tsHash ctx removeKey self.removeMessageType "remove"
      else .ok []
    let addKey ← self.makeAddKey message ctx
    let adds ← self.conflictAt db txn message tsHash ctx addKey self.addMessageType "add"
    .ok (removes ++ adds)

end StoreDef

/-! ## The store -/

/-- A store: its definition, its options and the event handler's mode. -/
structure Store where
  storeDef : StoreDef
  /-- Merge without looking for conflicts (used by replication). -/
  conflictFree : Bool := false
  saveHubEvents : Bool := true
  stateContext : StateContext := .legacy
  noPersist : Bool := false

namespace Store

variable (self : Store)

def userPrefix : UInt8 := self.stateContext.rootPrefix .user

def putMessageTransaction (message : Message) : StoreM Unit := do
  let primaryKey ← fromExcept (primaryKeyOf self.userPrefix message)
  txnPut primaryKey (messageEncode message)

def deleteMessageTransaction (message : Message) : StoreM Unit := do
  let primaryKey ← fromExcept (primaryKeyOf self.userPrefix message)
  txnDelete primaryKey

def buildSecondaryIndices (tsHash : Bytes) (message : Message) : StoreM Unit := do
  let entries ← fromExcept (self.storeDef.secondaryIndices tsHash message self.stateContext)
  modify (·.putAll entries)

def deleteSecondaryIndices (tsHash : Bytes) (message : Message) : StoreM Unit := do
  let keys ← fromExcept (self.storeDef.secondaryIndexKeys tsHash message self.stateContext)
  modify (·.deleteAll keys)

def putAddCompactStateTransaction (message : Message) : StoreM Unit := do
  unless self.storeDef.compactStateTypeSupported do
    throw (.hub (.validationFailure "compact state type not supported"))
  let key ← fromExcept (self.storeDef.makeCompactStateAddKey message self.stateContext)
  txnPut key (messageEncode message)

def deleteCompactStateTransaction (message : Message) : StoreM Unit := do
  unless self.storeDef.compactStateTypeSupported do
    throw (.hub (.validationFailure "compact state type not supported"))
  let key ← fromExcept (self.storeDef.makeCompactStateAddKey message self.stateContext)
  txnDelete key

def putAddTransaction (tsHash : Bytes) (message : Message) : StoreM Unit := do
  self.putMessageTransaction message
  let addsKey ← fromExcept (self.storeDef.makeAddKey message self.stateContext)
  txnPut addsKey (.bytes tsHash)
  self.buildSecondaryIndices tsHash message

def deleteAddTransaction (tsHash : Bytes) (message : Message) : StoreM Unit := do
  self.deleteSecondaryIndices tsHash message
  let addKey ← fromExcept (self.storeDef.makeAddKey message self.stateContext)
  txnDelete addKey
  self.deleteMessageTransaction message

def putRemoveTransaction (tsHash : Bytes) (message : Message) : StoreM Unit := do
  unless self.storeDef.removeTypeSupported do throw (.hub (.validationFailure "remove type not supported"))
  self.putMessageTransaction message
  let removesKey ← fromExcept (self.storeDef.makeRemoveKey message self.stateContext)
  txnPut removesKey (.bytes tsHash)

def deleteRemoveTransaction (message : Message) : StoreM Unit := do
  unless self.storeDef.removeTypeSupported do throw (.hub (.validationFailure "remove type not supported"))
  let removeKey ← fromExcept (self.storeDef.makeRemoveKey message self.stateContext)
  txnDelete removeKey
  self.deleteMessageTransaction message

/-- `make_ts_hash(message.data.unwrap().timestamp, message.hash)`. -/
def messageTsHash (message : Message) : Except Failure Bytes :=
  match message.data with
  | none => .error .panic
  | some data => makeTsHash data.timestamp message.hash

def deleteTransaction (message : Message) : StoreM Unit := do
  if self.storeDef.isCompactStateType message then
    self.deleteCompactStateTransaction message
  else if self.storeDef.isAddType message then
    let tsHash ← fromExcept (messageTsHash message)
    self.deleteAddTransaction tsHash message
  if self.storeDef.removeTypeSupported && self.storeDef.isRemoveType message then
    self.deleteRemoveTransaction message

def deleteManyTransaction : List Message → StoreM Unit
  | [] => pure ()
  | message :: messages => do
    self.deleteTransaction message
    deleteManyTransaction messages

/-! ### Reading -/

/-- The `tsHash` of an index entry, checked for its length. -/
def indexTsHash : DbValue → Except Failure Bytes
  | .bytes b => vecToU8_24 b
  | _ => .error (.hub ⟨"bad_request.internal_error", "message_ts_hash is not 24 bytes"⟩)

/-- The add that the index has for the conflict key of a message. -/
def getAdd [Prost] (db : RocksDB) (txn : RocksDbTransactionBatch) (partialMessage : Message) :
    Except Failure (Option Message) :=
  match partialMessage.data with
  | none => .error (.hub (.invalidParameter "fid is required"))
  | some data =>
    if data.fid = 0 then .error (.hub (.invalidParameter "fid is required"))
    else do
      let addsKey ← self.storeDef.makeAddKey partialMessage self.stateContext
      match getFromDbOrTxn db txn addsKey with
      | none => .ok none
      | some value => do
        let tsHash ← indexTsHash value
        getMessage db txn self.userPrefix data.fid self.storeDef.setPostfix tsHash

/-- The entries of the database with the user's primary keys in this store's set. -/
def scanUser [DbIterator] (db : RocksDB) (fid : UInt64) : List (Bytes × DbValue) :=
  let start := makeMessagePrimaryKey self.userPrefix fid self.storeDef.setPostfix []
  DbIterator.scan db start (incrementVecU8 start)

/-- The stored adds of a user that pass the filter. -/
def getAddsByFid [Prost] [DbIterator] (db : RocksDB) (fid : UInt64) (filter : Message → Bool) :
    Except Failure (List Message) := do
  let messages ← (self.scanUser db fid).mapM fun e => (messageDecode e.2).mapError Failure.hub
  .ok (messages.filter fun m => self.storeDef.isAddType m && filter m)

/-! ### Merging -/

/-- `read_compact_state_details`: fid, timestamp and targets of a compact-state message. -/
def readCompactStateDetails (message : Message) : Except Failure (UInt64 × UInt32 × List UInt64) :=
  match message.data with
  | none => .error (.hub (.validationFailure "Invalid compact state message: no data"))
  | some data =>
    match data.body with
    | some (.linkCompactStateBody _ targetFids) => .ok (data.fid, data.timestamp, targetFids)
    | _ => .error (.hub (.validationFailure "Invalid compact state message: No link compact state body"))

/-- The compact state stored for the link type of a message, with its timestamp and targets. -/
def storedCompactState [Prost] (db : RocksDB) (txn : RocksDbTransactionBatch) (message : Message) :
    Except Failure (Option (UInt32 × List UInt64)) := do
  let key ← self.storeDef.makeCompactStateAddKey message self.stateContext
  match getFromDbOrTxn db txn key with
  | none => .ok none
  | some value =>
    match messageDecode value with
    | .error e => .error (.hub e)
    | .ok compactState =>
      let (_, timestamp, targetFids) ← readCompactStateDetails compactState
      .ok (some (timestamp, targetFids))

/-- An add older than the compact state must be among its targets. -/
def checkCompactStateForAdd [Prost] (db : RocksDB) (txn : RocksDbTransactionBatch) (message : Message) :
    Except Failure Unit := do
  if self.storeDef.compactStateTypeSupported && !self.conflictFree then
    if let some (timestamp, targetFids) ← self.storedCompactState db txn message then
      let some data := message.data | .error .panic
      if let some (.linkBody _ (some targetFid)) := data.body then
        if data.timestamp < timestamp && !targetFids.contains targetFid then
          .error (.hub (.conflict s!"Target fid {targetFid} not in the compact state target fids"))

/-- A remove older than the compact state is never merged. -/
def checkCompactStateForRemove [Prost] (db : RocksDB) (txn : RocksDbTransactionBatch) (message : Message) :
    Except Failure Unit := do
  if self.storeDef.compactStateTypeSupported && !self.conflictFree then
    if let some (timestamp, _) ← self.storedCompactState db txn message then
      let some data := message.data | .error .panic
      if data.timestamp < timestamp then
        .error (.hub ⟨"bad_request.prunable",
          "Remove message earlier than the compact state message will be immediately pruned"⟩)

/-- Find the messages that give way to the new one and delete them. -/
def resolveConflicts [Prost] (db : RocksDB) (tsHash : Bytes) (message : Message) : StoreM (List Message) := do
  if self.conflictFree then
    pure []
  else
    let conflicts ← fromExcept
      (self.storeDef.getMergeConflicts db (← get).txn message tsHash self.stateContext)
    self.deleteManyTransaction conflicts
    pure conflicts

def mergeEvent (message : Message) (conflicts : List Message) : StoreM HubEvent := do
  let event := HubEvent.new (self.storeDef.mergeEventArgs message conflicts)
  if self.saveHubEvents then commitTransaction self.noPersist event else pure event

def mergeAdd [Prost] (db : RocksDB) (tsHash : Bytes) (message : Message) : StoreM HubEvent := do
  fromExcept (self.checkCompactStateForAdd db (← get).txn message)
  let conflicts ← self.resolveConflicts db tsHash message
  self.putAddTransaction tsHash message
  self.mergeEvent message conflicts

def mergeRemove [Prost] (db : RocksDB) (tsHash : Bytes) (message : Message) : StoreM HubEvent := do
  fromExcept (self.checkCompactStateForRemove db (← get).txn message)
  let conflicts ← self.resolveConflicts db tsHash message
  self.putRemoveTransaction tsHash message
  self.mergeEvent message conflicts

/-- The stored messages of a user that a compact state supersedes, in the order of the iteration: up to its
    timestamp, every remove and every add of a target it does not list. -/
def compactedBy [Prost] (compactTimestamp : UInt32) (targetFids : List UInt64) :
    List (Bytes × DbValue) → Except Failure (List Message)
  | [] => .ok []
  | (_, value) :: rest =>
    match messageDecode value with
    | .error e => .error (.hub e)
    | .ok message =>
      match message.data with
      | none => .error .panic
      | some data =>
        if compactTimestamp < data.timestamp then .ok []
        else if self.storeDef.isRemoveType message then do
          .ok (message :: (← compactedBy compactTimestamp targetFids rest))
        else if self.storeDef.isAddType message then
          match data.body with
          | some (.linkBody _ (some targetFid)) =>
            if targetFids.contains targetFid then compactedBy compactTimestamp targetFids rest
            else do .ok (message :: (← compactedBy compactTimestamp targetFids rest))
          | _ => compactedBy compactTimestamp targetFids rest
        else compactedBy compactTimestamp targetFids rest

/-- The compact state stored before, if the new one replaces it. An undecodable one is overwritten. -/
def supersededCompactState [Prost] (db : RocksDB) (txn : RocksDbTransactionBatch) (message : Message) :
    Except Failure (List Message) := do
  let key ← self.storeDef.makeCompactStateAddKey message self.stateContext
  match getFromDbOrTxn db txn key with
  | none => .ok []
  | some value =>
    if self.conflictFree then .ok []
    else
      match messageDecode value with
      | .error _ => .ok []
      | .ok existing =>
        let some existingData := existing.data | .error .panic
        let some data := message.data | .error .panic
        if existingData.timestamp < data.timestamp then .ok [existing]
        else .error (.hub (.conflict "A newer Compact State message is already merged"))

def mergeCompactState [Prost] [DbIterator] (db : RocksDB) (message : Message) : StoreM HubEvent := do
  let superseded ← fromExcept (self.supersededCompactState db (← get).txn message)
  let (fid, timestamp, targetFids) ← fromExcept (readCompactStateDetails message)
  let compacted ← fromExcept (self.compactedBy timestamp targetFids (self.scanUser db fid))
  let conflicts := superseded ++ compacted
  self.deleteManyTransaction conflicts
  self.putAddCompactStateTransaction message
  commitTransaction self.noPersist (HubEvent.new (self.storeDef.mergeEventArgs message conflicts))

def merge [Prost] [DbIterator] (db : RocksDB) (message : Message) : StoreM HubEvent := do
  if !self.storeDef.isAddType message
      && !(self.storeDef.removeTypeSupported && self.storeDef.isRemoveType message)
      && !(self.storeDef.compactStateTypeSupported && self.storeDef.isCompactStateType message) then
    throw (.hub (.validationFailure "invalid message type"))
  let tsHash ← fromExcept (messageTsHash message)
  if self.storeDef.isCompactStateType message then self.mergeCompactState db message
  else if self.storeDef.isAddType message then self.mergeAdd db tsHash message
  else self.mergeRemove db tsHash message

/-! ### Revoking and pruning -/

def revoke (message : Message) : StoreM HubEvent := do
  let tsHash ← fromExcept (messageTsHash message)
  if self.storeDef.isCompactStateType message then self.deleteCompactStateTransaction message
  else if self.storeDef.isAddType message then self.deleteAddTransaction tsHash message
  else if self.storeDef.removeTypeSupported && self.storeDef.isRemoveType message then
    self.deleteRemoveTransaction message
  else throw (.hub (.invalidParameter "invalid message type"))
  commitTransaction self.noPersist (HubEvent.new (self.storeDef.revokeEventArgs message))

def pruneMessage (message : Message) : StoreM (Option HubEvent) := do
  if self.storeDef.compactStateTypeSupported && self.storeDef.isCompactStateType message then
    pure none
  else
    if self.storeDef.isAddType message then
      let tsHash ← fromExcept (messageTsHash message)
      self.deleteAddTransaction tsHash message
    else if self.storeDef.removeTypeSupported && self.storeDef.isRemoveType message then
      self.deleteRemoveTransaction message
    some <$> commitTransaction self.noPersist (HubEvent.new (self.storeDef.pruneEventArgs message))

/-- Prune along the iteration until the count is down to the limit. -/
def pruneEntries [Prost] (maxCount : UInt32) : List (Bytes × DbValue) → UInt32 → StoreM (List HubEvent)
  | [], _ => pure []
  | (_, value) :: rest, count => do
    if count ≤ maxCount then
      pure []
    else
      let message ← fromExcept ((messageDecode value).mapError .hub)
      match ← self.pruneMessage message with
      | some event => return event :: (← pruneEntries maxCount rest (count - 1))
      | none => pruneEntries maxCount rest count

def pruneMessages [Prost] [DbIterator] (db : RocksDB) (fid : UInt64) (currentCount maxCount : UInt32) :
    StoreM (List HubEvent) :=
  if !self.stateContext.allowsPruning then pure []
  else self.pruneEntries maxCount (self.scanUser db fid) currentCount

/-- Revoke, along the iteration, what the signer signed; a message whose revocation fails is skipped. -/
def revokeEntries [Prost] (key : Bytes) : List (Bytes × DbValue) → StoreM (List HubEvent)
  | [] => pure []
  | (_, value) :: rest => do
    let message ← fromExcept ((messageDecode value).mapError .hub)
    if bytesCompare message.signer key = .eq then
      match ← attempt (self.revoke message) with
      | .ok event => return event :: (← revokeEntries key rest)
      | .error _ => revokeEntries key rest
    else revokeEntries key rest

def revokeMessagesBySigner [Prost] [DbIterator] (db : RocksDB) (fid : UInt64) (key : Bytes) :
    StoreM (List HubEvent) :=
  self.revokeEntries key (self.scanUser db fid)

end Store

end Hypersnap
