import Hypersnap.Store.OnChainEvents
import Hypersnap.Validation.Message

/-!
# `Store.GaslessKeys` — keys registered by messages instead of transactions

The registry keeps, in a table of its own: the record of a key by fid, the fid that owns a key, the time a key
was last used, the number of keys of a fid, and two nonces that make a signed request usable once.
`mergeKeyAdd` and `mergeKeyRemove` check a request and change all of them together. The events they return are
**not** numbered.
-/

namespace Hypersnap

open EState

/-! ## Keys of the registry -/

def makeGaslessKey (postfix' : UserPostfix) (rest : Bytes) : Bytes :=
  RootPrefix.gaslessKey.toByte :: postfix'.toByte :: rest

def makeUserNonceKey (fid : UInt64) : Bytes := makeGaslessKey .gaslessKeyUserNonce (makeFidKey fid)

def makeAppNonceKey (appFid : UInt64) : Bytes := makeGaslessKey .gaslessKeyAppNonce (makeFidKey appFid)

def makeGaslessKeyCountByFidKey (fid : UInt64) : Bytes :=
  makeGaslessKey .gaslessKeyCountByFid (makeFidKey fid)

/-- The keys that end in a public key; it must have 32 bytes. -/
def makePublicKeyKey (table : String) (postfix' : UserPostfix) (front publicKey : Bytes) :
    Except HubError Bytes :=
  if publicKey.length = ed25519PublicKeyLen then .ok (makeGaslessKey postfix' (front ++ publicKey))
  else .error (.validationFailure
    s!"{table}: expected {ed25519PublicKeyLen}-byte key, got {publicKey.length}")

def makeGaslessKeyByFidKey (fid : UInt64) (publicKey : Bytes) : Except HubError Bytes :=
  makePublicKeyKey "gasless-key store" .gaslessKeyByFid (makeFidKey fid) publicKey

def makeGaslessKeyByPublicKeyKey (publicKey : Bytes) : Except HubError Bytes :=
  makePublicKeyKey "gasless-key store" .gaslessKeyByPublicKey [] publicKey

def makeLastUsedAtKey (fid : UInt64) (publicKey : Bytes) : Except HubError Bytes :=
  makePublicKeyKey "gasless-key last_used_at" .gaslessKeyLastUsedAt (makeFidKey fid) publicKey

/-! ## Reading -/

/-- A number of four bytes; a value of another size is an error. -/
def readU32 (what : String) (value : DbValue) : Except HubError UInt32 :=
  match value with
  | .bytes b =>
    if b.length = 4 then .ok (fromBeBytes b).toUInt32
    else .error ⟨"internal_error", s!"corrupt gasless-key {what}: expected 4 bytes, got {b.length}"⟩
  | _ => .error ⟨"internal_error", s!"corrupt gasless-key {what}"⟩

variable (db : RocksDB) (txn : RocksDbTransactionBatch)

def getU32 (what : String) (key : Bytes) : Except HubError (Option UInt32) :=
  match getFromDbOrTxn db txn key with
  | none => .ok none
  | some value => do .ok (some (← readU32 what value))

def getNonce (key : Bytes) : Except HubError (Option UInt32) := getU32 db txn "nonce value" key

def getGaslessKeyRecord (fid : UInt64) (publicKey : Bytes) : Except HubError (Option GaslessKeyRecord) := do
  let key ← makeGaslessKeyByFidKey fid publicKey
  match getFromDbOrTxn db txn key with
  | none => .ok none
  | some (.gaslessKeyRecord record) => .ok (some record)
  | some _ => .error ⟨"internal_error", s!"corrupt GaslessKeyRecord at fid={fid}"⟩

def getGaslessKeyOwnerFid (publicKey : Bytes) : Except HubError (Option UInt64) := do
  let key ← makeGaslessKeyByPublicKeyKey publicKey
  let owner ← getU32 db txn "owner entry" key
  .ok (owner.map (·.toUInt64))

def getGaslessKeyCount (fid : UInt64) : Except HubError UInt32 := do
  let count ← getU32 db txn "count value" (makeGaslessKeyCountByFidKey fid)
  .ok (count.getD 0)

def getLastUsedAt (fid : UInt64) (publicKey : Bytes) : Except HubError (Option UInt32) := do
  let key ← makeLastUsedAtKey fid publicKey
  getU32 db txn "last_used_at value" key

/-! ## Which keys may sign -/

inductive ActiveKey where
  | onChain
  | gasless (scopesMask : UInt64) (ttlSeconds : UInt32)
deriving DecidableEq, Repr

/-- The bit of a message type; types beyond 63 have none. -/
def scopeBit (scope : Int32) : UInt64 :=
  if 0 ≤ scope ∧ scope < 64 then 1 <<< scope.toInt.toNat.toUInt64 else 0

def computeScopesMask (scopes : List Int32) : UInt64 :=
  scopes.foldl (fun mask scope => mask ||| scopeBit scope) 0

def ActiveKey.admits (key : ActiveKey) (msgType : MessageType) : Bool :=
  match key with
  | .onChain => true
  | .gasless scopesMask _ => (scopesMask &&& scopeBit msgType.toI32) != 0

/-- The scopes and time to live a record grants; one without a proper message grants nothing. -/
def extractScopeAndTtl (message : Option Message) : UInt64 × UInt32 :=
  match message.bind fun m => m.data.bind (·.body) with
  | some (.keyAddBody body) => (computeScopesMask body.scopes, body.ttl)
  | _ => (0, 0)

/-- The key of a signer: on chain first, then the registry. -/
def getActiveKey (fid : UInt64) (signer : Bytes) : Except OnchainEventStorageError (Option ActiveKey) := do
  match ← getActiveSigner db txn fid signer with
  | some _ => .ok (some .onChain)
  | none =>
    match getGaslessKeyRecord db txn fid signer with
    | .error e => .error (.hubError e)
    | .ok none => .ok none
    | .ok (some record) =>
      let (scopesMask, ttlSeconds) := extractScopeAndTtl record.message
      .ok (some (.gasless scopesMask ttlSeconds))

/-! ## Writing -/

/-- The operations of the registry fail with an error of the engine about the message. -/
abbrev KeyM := StoreOp MessageValidationError

def keyPut (key : Bytes) (value : DbValue) : KeyM Unit := modify (·.put key value)

def keyDelete (key : Bytes) : KeyM Unit := modify (·.delete key)

/-- An error of the registry's own reads and checks. -/
def registry {α : Type} (x : Except HubError α) : KeyM α := raise (x.mapError .storeError)

/-- An error of a check of the request. -/
def request {α : Type} (x : Except ValidationError α) : KeyM α := raise (x.mapError .messageValidationError)

/-- Accept a nonce that is greater than the stored one, and store it. -/
def checkAndSetNonce (key : Bytes) (newNonce : UInt32) : KeyM Unit := do
  let stored ← registry (getNonce db (← get).txn key)
  let stored := stored.getD 0
  if newNonce ≤ stored then
    throw (.err
      (.storeError (.conflict s!"gasless-key nonce {newNonce} is not greater than stored nonce {stored}")))
  keyPut key (.bytes (toBeBytes newNonce))

def slidingTtlThrottleSeconds : UInt64 := 300

/-- Reject a key that has not been used for its time to live; move its last use on, at most every five
    minutes. -/
def checkAndBumpLastUsedAt (fid : UInt64) (publicKey : Bytes) (ttl messageTimestamp : UInt32)
    (currentBlockTimestamp : UInt64) : KeyM Unit := do
  let key ← registry (makeLastUsedAtKey fid publicKey)
  let stored ← registry (getU32 db (← get).txn "last_used_at value" key)
  match stored with
  | none => throw (.err (.storeError ⟨"internal_error",
      s!"gasless-key last_used_at entry missing for fid={fid} (expected KEY_ADD to have initialized it)"⟩))
  | some stored =>
    let stored := stored.toUInt64
    if stored + ttl.toUInt64 < currentBlockTimestamp then
      throw (.err (.storeError (.validationFailure
        (s!"gasless-key last_used_at expired: stored={stored} + ttl={ttl} < " ++
          s!"current_block_timestamp={currentBlockTimestamp}"))))
    if stored + slidingTtlThrottleSeconds < messageTimestamp.toUInt64 then
      keyPut key (.bytes (toBeBytes messageTimestamp))

/-- Adding one to the largest number leaves it. -/
def incrementGaslessKeyCount (fid : UInt64) : KeyM Unit := do
  let current ← registry (getGaslessKeyCount db (← get).txn fid)
  let next := if current = 4294967295 then current else current + 1
  keyPut (makeGaslessKeyCountByFidKey fid) (.bytes (toBeBytes next))

/-- A count that falls to zero is deleted. -/
def decrementGaslessKeyCount (fid : UInt64) : KeyM Unit := do
  let current ← registry (getGaslessKeyCount db (← get).txn fid)
  let next := if current = 0 then 0 else current - 1
  if next = 0 then keyDelete (makeGaslessKeyCountByFidKey fid)
  else keyPut (makeGaslessKeyCountByFidKey fid) (.bytes (toBeBytes next))

/-! ## Adding and removing keys -/

def maxGaslessKeysPerFid : UInt32 := 1000

/-- The custody address of a fid, by its id-register event. -/
def custodyOf (fid : UInt64) : KeyM Bytes := do
  match getIdRegisterEventByFid db (← get).txn fid with
  | .ok (some event) =>
    match event.body with
    | some (.idRegisterEventBody body) => pure body.toAddress
    | _ => throw (.err .missingFid)
  | _ => throw (.err .missingFid)

/-- The fid that requests the key must own the address that signed the request. -/
def checkRequestCustody (verified : VerifiedSignedKeyRequest) : KeyM Unit := do
  match getIdRegisterEventByFid db (← get).txn verified.requestFid with
  | .error _ => throw (.err .missingFid)
  | .ok none => request (.error .invalidSignedKeyRequest)
  | .ok (some event) =>
    match event.body with
    | some (.idRegisterEventBody body) =>
      request (ensure (body.toAddress == verified.requestSigner) .signedKeyRequestCustodyMismatch)
    | _ => request (.error .invalidSignedKeyRequest)

/-- The record that the key has already, if it belongs to the fid and was requested by the same
    application. -/
def priorRecord (fid requestFid : UInt64) (key : Bytes) : KeyM (Option GaslessKeyRecord) := do
  match ← registry (getGaslessKeyOwnerFid db (← get).txn key) with
  | none => pure none
  | some ownerFid =>
    if ownerFid != fid then request (.error .keyClaimedByDifferentFid)
    else
      match ← registry (getGaslessKeyRecord db (← get).txn fid key) with
      | none => throw (.err (.storeError ⟨"internal_error",
          s!"gasless owner index has fid={fid} for key but primary record missing"⟩))
      | some record =>
        request (ensure (record.requestFid == requestFid) .keyRegisteredByDifferentRequestingFid)
        pure (some record)

variable [Crypto]

/-- Register a key. A replay of an event of shard zero does not look up who requested the key. -/
def mergeKeyAdd (msg : Message) (isReplay : Bool) : KeyM HubEvent := do
  let some data := msg.data | throw (.err .noMessageData)
  let some (.keyAddBody body) := data.body | throw (.err (.invalidMessageType data.type))
  let fid := data.fid
  let verified ← request
    (verifySignedKeyRequestMetadata body.metadataType body.metadata body.key data.timestamp.toUInt64)
  if !isReplay then checkRequestCustody db verified
  let recovered ← request (Crypto.recoverKeyAddCustodyAddress fid body)
  let custody ← custodyOf db fid
  request (ensure (custody == recovered) .invalidSignature)
  match getActiveSigner db (← get).txn fid body.key with
  | .error _ => throw (.err .missingSigner)
  | .ok (some _) => request (.error .keyAlreadyRegisteredOnchain)
  | .ok none =>
    let prior ← priorRecord db fid verified.requestFid body.key
    if prior.isNone then
      let count ← registry (getGaslessKeyCount db (← get).txn fid)
      request (ensure (decide (count < maxGaslessKeysPerFid)) (.activeKeyCapExceeded maxGaslessKeysPerFid))
    checkAndSetNonce db (makeUserNonceKey fid) body.nonce
    keyPut (← registry (makeGaslessKeyByFidKey fid body.key))
      (.gaslessKeyRecord ⟨some msg, verified.requestFid⟩)
    keyPut (← registry (makeGaslessKeyByPublicKeyKey body.key)) (.bytes (makeFidKey fid))
    keyPut (← registry (makeLastUsedAtKey fid body.key)) (.bytes (toBeBytes data.timestamp))
    if prior.isNone then incrementGaslessKeyCount db fid
    pure (.new (.mergeMessageBody msg (prior.bind (·.message)).toList))

/-- Remove a key, with the signature of the custody address or of the key itself. -/
def mergeKeyRemove (msg : Message) : KeyM HubEvent := do
  let some data := msg.data | throw (.err .noMessageData)
  let some (.keyRemoveBody body) := data.body | throw (.err (.invalidMessageType data.type))
  let fid := data.fid
  match ← registry (getGaslessKeyRecord db (← get).txn fid body.key) with
  | none => request (.error .keyNotRegistered)
  | some record =>
    match ← request (KeyRemoveSignatureType.tryFrom body.signatureType) with
    | .custody =>
      let recovered ← request (Crypto.recoverKeyRemoveCustodyAddress fid body)
      let custody ← custodyOf db fid
      request (ensure (custody == recovered) .invalidSignature)
      checkAndSetNonce db (makeUserNonceKey fid) body.nonce
    | .selfRevoke =>
      request (ensure (msg.signer == body.key) .invalidSignature)
      checkAndSetNonce db (makeAppNonceKey record.requestFid) body.nonce
    keyDelete (← registry (makeGaslessKeyByFidKey fid body.key))
    keyDelete (← registry (makeGaslessKeyByPublicKeyKey body.key))
    keyDelete (← registry (makeLastUsedAtKey fid body.key))
    decrementGaslessKeyCount db fid
    pure (.new (.mergeMessageBody msg record.message.toList))

end Hypersnap
