import Hypersnap.Engine.Stores

/-!
# `Engine.Validate` — the checks of a user message against the state

`validateUserMessage` first checks the message on its own, then looks up who may sign for the user, and what
the body claims about names and addresses. The only write is the time a gasless key was last used. All reads
of the state use the `data` field of the message.
-/

namespace Hypersnap

open Overlay EState

variable [Platform] (env : EngineEnv)

/-- Errors of the stores while a message is checked. -/
def Failure.toValidation : Failure → Stop MessageValidationError := Failure.toStop .storeError

/-! ## Names -/

/-- The proof of a name: of the name server, or of a name on chain. The latter is read through the batch if
    the version **by the clock** allows it. -/
def getProofOfName (name : Bytes) (txn : RocksDbTransactionBatch) :
    Except (Stop MessageValidationError) (Option UserNameProof) :=
  if dotEth.isSuffixOf name then do
    let txn := if env.currentVersion.isEnabled .dependentMessagesInBulkSubmit then txn else Batch.empty
    let message ← (UsernameProofStore.getUsernameProof
      (env.store .legacy usernameProofStoreDef) env.db txn name).mapError
      Failure.toValidation
    .ok (message.bind UsernameProofStoreDef.proofOf)
  else (getUsernameProof env.db txn name).mapError Failure.toValidation

def validateUsername (fid : UInt64) (name : Bytes) (txn : RocksDbTransactionBatch) :
    Except (Stop MessageValidationError) Unit :=
  if name.isEmpty then .ok ()
  else do
    match ← getProofOfName env name txn with
    | some proof => ensure (proof.fid == fid) (.err .missingFname)
    | none => .error (.err .missingFname)

/-! ## Addresses -/

/-- The message that carries only the key fields of a verification. -/
def partialVerification (fid : UInt64) (address : Bytes) : Message :=
  ⟨some ⟨MessageType.verificationAddEthAddress.toI32, fid, 0, 0,
    some (.verificationAddAddressBody address 0 ⟨[], [], 0, 0⟩)⟩, [], 0, [], 0, [], none⟩

def verifyFidOwnsAddress (fid : UInt64) (protocol : Protocol) (address : Bytes)
    (txn : RocksDbTransactionBatch) : Except (Stop MessageValidationError) Unit :=
  match (env.store .legacy verificationStoreDef).getAdd env.db txn (partialVerification fid address) with
  | .error .panic => .error .panic
  | .error (.hub _) =>
    .error (.err (.storeError (.invalidInternalState "Unable to get verifications by fid")))
  | .ok none => .error (.err .addressNotPartOfVerification)
  | .ok (some message) =>
    match message.data.bind (·.body) with
    | some (.verificationAddAddressBody _ p _) =>
      ensure (p == protocol.toI32) (.err .addressNotPartOfVerification)
    -- an `unwrap` or `unreachable!`
    | _ => .error .panic

def validateEthereumAddressOwnership (fid : UInt64) (address : Bytes) (txn : RocksDbTransactionBatch) :
    Except (Stop MessageValidationError) Unit :=
  if address.isEmpty then .ok ()
  else
    match TextRules.addressFromHex address with
    | none => .error (.err .invalidEthereumAddress)
    | some address => verifyFidOwnsAddress env fid .ethereum address txn

def validateSolanaAddressOwnership (fid : UInt64) (address : Bytes) (txn : RocksDbTransactionBatch) :
    Except (Stop MessageValidationError) Unit :=
  if address.isEmpty then .ok ()
  else
    match TextRules.base58Decode address with
    | none => .error (.err .invalidSolanaAddress)
    | some address =>
      if address.length = 32 then verifyFidOwnsAddress env fid .solana address txn
      else .error (.err .invalidSolanaAddress)

/-- What a profile field claims must be so in the state. -/
def validateUserData (fid : UInt64) (type : Int32) (value : Bytes) (txn : RocksDbTransactionBatch) :
    Except (Stop MessageValidationError) Unit := do
  if type = UserDataType.username.toI32 then validateUsername env fid value txn
  if type = UserDataType.userDataPrimaryAddressEthereum.toI32 then
    validateEthereumAddressOwnership env fid value txn
  if type = UserDataType.userDataPrimaryAddressSolana.toI32 then
    validateSolanaAddressOwnership env fid value txn

/-! ## Signers -/

def MessageType.isKeyMessage (type : MessageType) : Bool := type == .keyAdd || type == .keyRemove

/-- The key that signed must belong to the user and admit the type. Returns the time to live to enforce, if
    any. -/
def validateSigner (data : MessageData) (signer : Bytes) (version : EngineVersion)
    (txn : RocksDbTransactionBatch) :
    Except MessageValidationError (Option UInt32) :=
  let type := MessageType.orDefault data.type
  if type.isKeyMessage then
    if version.isEnabled .gaslessSigners then .ok none else .error (.invalidMessageType data.type)
  else
    match getActiveKey env.db txn data.fid signer with
    | .ok (some key) =>
      if key.admits type then
        match key with
        | .gasless _ ttl => .ok (if 0 < ttl then some ttl else none)
        | .onChain => .ok none
      else .error (.gaslessKeyOutOfScope data.type)
    | _ => .error .missingSigner

/-- The checks of `validate_user_message` up to its one write, on the batch that it reads. -/
def checkUserMessage (message : Message) (timestamp : FarcasterTime) (version : EngineVersion)
    (txn : RocksDbTransactionBatch) : Except (Stop MessageValidationError) (MessageData × Option UInt32) := do
  let some data := message.data | .error (.err .noMessageData)
  let isPro ← (isProUser env message.fid timestamp).mapError fun e =>
    .err (.storeError (.internalDbError e.display))
  (validateMessage message env.network isPro timestamp version).mapError fun e =>
    .err (.messageValidationError e)
  match getIdRegisterEventByFid env.db txn data.fid with
  | .ok (some _) =>
    let ttl ← (validateSigner env data message.signer version txn).mapError Stop.err
    -- storage is lent through shard zero only
    ensure (MessageType.orDefault data.type != .lendStorage) (.err (.invalidMessageType data.type))
    match data.body with
    | some (.userDataBody type value) => validateUserData env data.fid type value txn
    | _ => .ok ()
    .ok (data, ttl)
  | _ => .error (.err .missingFid)

/-- What is known of a message that passes the checks, on the batch that they read. -/
structure Checked (message : Message) (timestamp : FarcasterTime) (version : EngineVersion)
    (txn : RocksDbTransactionBatch) (data : MessageData) (ttl : Option UInt32) : Prop where
  data_eq : message.data = some data
  valid : ∃ isPro, isProUser env message.fid timestamp = .ok isPro ∧
    validateMessage message env.network isPro timestamp version = .ok ()
  registered : ∃ event, getIdRegisterEventByFid env.db txn data.fid = .ok (some event)
  signer : validateSigner env data message.signer version txn = .ok ttl
  not_lend : MessageType.orDefault data.type ≠ .lendStorage
  userData : ∀ {type value}, data.body = some (.userDataBody type value) →
    validateUserData env data.fid type value txn = .ok ()

theorem checked_of_ok {message : Message} {timestamp : FarcasterTime} {version : EngineVersion}
    {txn : RocksDbTransactionBatch} {data : MessageData} {ttl : Option UInt32}
    (h : checkUserMessage env message timestamp version txn = .ok (data, ttl)) :
    Checked env message timestamp version txn data ttl := by
  unfold checkUserMessage at h
  cases hdata : message.data with
  | none => simp [hdata] at h
  | some data' =>
    simp only [hdata] at h
    obtain ⟨isPro, hpro, h⟩ := except_bind_eq_ok.1 h
    obtain ⟨_, hvalid, h⟩ := except_bind_eq_ok.1 h
    cases hreg : getIdRegisterEventByFid env.db txn data'.fid with
    | error e => simp [hreg] at h
    | ok found =>
      cases found with
      | none => simp [hreg] at h
      | some event =>
        simp only [hreg] at h
        obtain ⟨ttl', hsigner, h⟩ := except_bind_eq_ok.1 h
        obtain ⟨_, hlend, h⟩ := except_bind_eq_ok.1 h
        have hbody : (∀ {type value}, data'.body = some (.userDataBody type value) →
            validateUserData env data'.fid type value txn = .ok ()) ∧ (data', ttl') = (data, ttl) := by
          split at h
          next type value huser =>
            obtain ⟨_, hval, h⟩ := except_bind_eq_ok.1 h
            refine ⟨fun {type' value'} h' => ?_, Except.ok.inj h⟩
            rw [huser] at h'
            cases h'
            exact hval
          next hother =>
            exact ⟨fun {type value} h' => absurd h' (hother type value), Except.ok.inj h⟩
        cases hbody.2
        refine ⟨hdata, ⟨isPro, except_mapError_eq_ok.1 hpro, except_mapError_eq_ok.1 hvalid⟩, ⟨event, hreg⟩,
          except_mapError_eq_ok.1 hsigner, ?_, ?_⟩
        · simpa using ensure_eq_ok.1 hlend
        · exact hbody.1

/-- Before a certain version, a message is checked against the committed state only. -/
def readTxn (version : EngineVersion) (txn : RocksDbTransactionBatch) : RocksDbTransactionBatch :=
  if version.isEnabled .dependentMessagesInBulkSubmit then txn else Batch.empty

def validateUserMessage (message : Message) (timestamp : FarcasterTime) (version : EngineVersion) :
    EngineM MessageValidationError Unit := do
  let s ← get
  let (data, ttl) ← read (checkUserMessage env message timestamp version (readTxn version s.txn))
  match ttl with
  | none => pure ()
  | some ttl =>
    inStores (checkAndBumpLastUsedAt env.db data.fid message.signer ttl data.timestamp timestamp.toU64)

end Hypersnap
