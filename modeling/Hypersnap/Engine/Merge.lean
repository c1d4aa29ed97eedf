import Hypersnap.Engine.Validate

/-!
# `Engine.Merge` — merging, pruning and what follows from deletions

A message goes to the store of its type; the shadow stores merge it too, and their errors are only logged.
After the messages of a transaction, each store that merged some is pruned to the user's limit. A deleted
verification takes the primary address with it.
-/

namespace Hypersnap

open EState

variable [Platform] (env : EngineEnv)

/-! ## Merging -/

/-- The store of a message type that is merged in the common way. -/
def storeDefOf : MessageType → Option StoreDef
  | .castAdd | .castRemove => some castStoreDef
  | .linkAdd | .linkRemove | .linkCompactState => some linkStoreDef
  | .reactionAdd | .reactionRemove => some reactionStoreDef
  | .userDataAdd => some userDataStoreDef
  | .verificationAddEthAddress | .verificationRemove => some verificationStoreDef
  | .usernameProof => some usernameProofStoreDef
  | .lendStorage | .keyAdd | .keyRemove | .frameAction | .none => none

/-- Merge into the store of a type and context, where it has one. -/
def mergeIntoStore (ctx : StateContext) (type : MessageType) (msg : Message) :
    Option (StoreM (List HubEvent)) :=
  match type with
  | .lendStorage => some (StorageLendStore.merge (env.store ctx storageLendStoreDef) env.db msg)
  | _ => (storeDefOf type).map fun storeDef => do return [← (env.store ctx storeDef).merge env.db msg]

/-- Keys are registered from some version on, by the time of the **message**. -/
def gaslessEnabled (data : MessageData) : Bool :=
  (EngineVersion.versionFor ⟨data.timestamp.toUInt64⟩ env.network).isEnabled .gaslessSigners

def mergeMessage (msg : Message) : EngineM MessageValidationError (List HubEvent) := do
  let some data := msg.data | throw (.err .noMessageData)
  let some type := MessageType.tryFrom data.type | throw (.err (.invalidMessageType data.type))
  match mergeIntoStore env .legacy type msg with
  | some merge => inStores (merge.toOp .storeError)
  | none =>
    match type with
    | .keyAdd =>
      if gaslessEnabled env data then return [← inStores (mergeKeyAdd env.db msg true)]
      else throw (.err (.invalidMessageType type.toI32))
    | .keyRemove =>
      if gaslessEnabled env data then return [← inStores (mergeKeyRemove env.db msg)]
      else throw (.err (.invalidMessageType type.toI32))
    | _ => throw (.err (.invalidMessageType type.toI32))

/-- The same message for the shadow stores; keys have none. -/
def mergeMessageHyper {ε : Type} (msg : Message) : EngineM ε Unit := do
  match (msg.data.bind fun data => MessageType.tryFrom data.type).bind fun type =>
    mergeIntoStore env .hyper type msg with
  | some merge => let _ ← recover (inHyperStores (merge.toOp id))
  | none => pure ()

/-! ## Pruning -/

def pruneMessages (fid : UInt64) (type : MessageType) (version : EngineVersion) :
    EngineM EngineError (List HubEvent) := do
  let s ← get
  let (currentCount, maxCount) ←
    read ((getUsage env s.txn fid type).mapError (Stop.map fun _ => .usageCountError))
  match storeDefOf type with
  | some storeDef =>
    -- proofs of names were not pruned at first
    if type = .usernameProof ∧ !version.isEnabled .ensValidation then pure []
    else
      inStores <|
        ((env.store .legacy storeDef).pruneMessages env.db fid currentCount maxCount).toOp .storeError
  | none =>
    match type with
    | .lendStorage => pure []
    | _ => throw (.err (.unsupportedMessageType type))

/-! ## Side effects of deletions -/

/-- The text of a verified address and the profile field that may hold it. -/
def primaryAddressOf (protocol : Int32) (address : Bytes) :
    Except (Stop MessageValidationError) (Bytes × UserDataType) :=
  if protocol = Protocol.ethereum.toI32 then
    -- `Address::from_slice` panics on any other length
    if address.length = 20 then .ok (TextRules.toChecksum address, .userDataPrimaryAddressEthereum)
      else .error .panic
  else if protocol = Protocol.solana.toI32 then
    .ok (TextRules.base58Encode address, .userDataPrimaryAddressSolana)
  else .error (.err .addressNotPartOfVerification)

def checkAndRevokePrimaryAddress (fid : UInt64) (address : Bytes) (protocol : Int32) :
    EngineM MessageValidationError (List HubEvent) := do
  let (parsedAddress, type) ← read (primaryAddressOf protocol address)
  let userDataStore := env.store .legacy userDataStoreDef
  match UserDataStore.getUserDataByFidAndType userDataStore env.db fid type with
  | .error .panic => throw .panic
  | .error (.hub _) => pure []
  | .ok userData =>
    match userData.data.bind (·.body) with
    | some (.userDataBody _ value) =>
      if value = parsedAddress then return [← inStores ((userDataStore.revoke userData).toOp .storeError)]
      else pure []
    | _ => pure []

/-- The side effects of deleted messages, in order; the first error ends them. -/
def sideEffectsOfDeleted : List Message → EngineM MessageValidationError (List HubEvent)
  | [] => pure []
  | message :: rest => do
    let some data := message.data | throw (.err .noMessageData)
    let events ←
      match data.body with
      | some (.verificationAddAddressBody address protocol _) =>
        checkAndRevokePrimaryAddress env message.fid address protocol
      | _ => pure []
    return events ++ (← sideEffectsOfDeleted rest)

/-- The messages that a merge deleted. -/
def HubEvent.deletedMessages (event : HubEvent) : List Message :=
  match event.body with
  | .mergeMessageBody _ deleted => deleted
  | _ => []

def handleDeleteSideEffects (version : EngineVersion) (events : List HubEvent) :
    EngineM EngineError (List HubEvent) :=
  if version.isEnabled .primaryAddresses then
    mapErr .engineMessageValidationError (sideEffectsOfDeleted env (events.flatMap (·.deletedMessages)))
  else pure []

end Hypersnap
