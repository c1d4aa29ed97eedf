import Hypersnap.Store.Keys
import Hypersnap.Validation.Error
import Hypersnap.Version.Version

/-!
# `Validation.Message` — the checks a message passes on its own

The model of `validations`: `validateMessage` decodes the message's raw bytes if it has any, checks size,
network, hash, signature and timestamp, and then the body by its kind. All checks read the **decoded** data;
the `data` field of a message that carries raw bytes is not looked at.

Checks that rest on other libraries (signatures, addresses, patterns of names) are the fields of `Crypto` and
`TextRules`.
-/

namespace Hypersnap

/-! ## What comes from other libraries -/

/-- The request of an application for a key; the two numbers are `none` if they need more than 64 bits. -/
structure SignedKeyRequestMetadata where
  requestFid : Option UInt64
  requestSigner : Bytes
  signature : Bytes
  deadline : Option UInt64

/-- Signatures and the addresses recovered from them. -/
class Crypto where
  /-- `Signature::from_slice` accepts the bytes. -/
  signatureFromSlice : Bytes → Bool
  /-- `VerifyingKey::try_from` accepts the bytes. -/
  verifyingKeyTryFrom : Bytes → Bool
  /-- `verify_strict`: key, signed bytes, signature. -/
  verifyStrict : Bytes → Bytes → Bytes → Bool
  /-- `verification::validate_add_address`: address, protocol, claim, fid, network. -/
  validateAddAddress : Bytes → Int32 → AddressClaim → UInt64 → FarcasterNetwork → Except ValidationError Unit
  /-- `recover_key_add_custody_address`: fid and body. -/
  recoverKeyAddCustodyAddress : UInt64 → KeyAddBody → Except ValidationError Bytes
  /-- `recover_key_remove_custody_address`: fid and body. -/
  recoverKeyRemoveCustodyAddress : UInt64 → KeyRemoveBody → Except ValidationError Bytes
  /-- `SignedKeyRequestMetadata::abi_decode`. -/
  decodeSignedKeyRequest : Bytes → Option SignedKeyRequestMetadata
  /-- The address that signed a key request: fid of the request, key, deadline, signature. -/
  recoverKeyRequestSigner : UInt64 → Bytes → UInt64 → Bytes → Option Bytes
  /-- The hash that the name server signs for a proof. -/
  fnameSigningHash : UserNameProof → Except ValidationError Bytes
  /-- `recover_address_from_prehash`: hash and signature of 65 bytes. -/
  recoverAddress : Bytes → Bytes → Option Bytes

/-- Text: what the names, addresses and places of a profile look like. -/
class TextRules where
  validateFname : Bytes → Except ValidationError Unit
  validateEnsName : Bytes → Except ValidationError Unit
  validateBaseName : Bytes → Except ValidationError Unit
  validateUserLocation : Bytes → Except ValidationError Unit
  validateTwitterUsername : Bytes → Except ValidationError Unit
  validateGithubUsername : Bytes → Except ValidationError Unit
  validateCaip19Format : Bytes → Except ValidationError Unit
  /-- `str::from_utf8` accepts the bytes. -/
  isUtf8 : Bytes → Bool
  /-- `Address::from_hex`. -/
  addressFromHex : Bytes → Option Bytes
  /-- `Address::to_checksum`. -/
  toChecksum : Bytes → Bytes
  /-- `bs58::decode`. -/
  base58Decode : Bytes → Option Bytes
  /-- `bs58::encode`. -/
  base58Encode : Bytes → Bytes

/-! ## Small checks -/

/-- Fail unless the condition holds. -/
def ensure {ε : Type} (condition : Bool) (e : ε) : Except ε Unit := if condition then .ok () else .error e

@[simp] theorem ensure_eq_ok {ε : Type} {b : Bool} {e : ε} {u : Unit} : ensure b e = .ok u ↔ b = true := by
  cases b <;> simp [ensure]

def maxDataBytes : Nat := 2048

def maxDataBytesFor10kCast : Nat := 16384

def maxDataBytesForLinkCompact : Nat := 65536

def maxDataBytesForUsernameProof : Nat := 16384

def embedsV1Cutoff : UInt32 := 73612800

def allowedClockSkewSeconds : UInt64 := 600

def validateFid (fid : UInt64) : Except ValidationError Unit := ensure (fid != 0) .fidIsMissing

def validateCastId (castId : CastId) : Except ValidationError Unit := do
  validateFid castId.fid
  ensure (castId.hash.length == 20) .hashIsMissing

def validateUrl (url : Bytes) : Except ValidationError Unit := do
  ensure (!url.isEmpty) .urlTooShort
  ensure (decide (url.length ≤ 256)) .urlTooLong

def validateCastOrUrl : CastOrUrl → Except ValidationError Unit
  | .castId id => validateCastId id
  | .url url => validateUrl url

def validateEthAddress (address : Bytes) : Except ValidationError Unit := do
  ensure (!address.isEmpty) .ethAddressMissing
  ensure (address.length == 20) .invalidEthAddressLength

def validateSolAddress (address : Bytes) : Except ValidationError Unit := do
  ensure (!address.isEmpty) .solAddressMissing
  ensure (address.length == 32) .invalidSolAddressLength

/-! ## Bodies -/

/-- The mentions with their positions, in order; `prev` is the position before. -/
def validateMentions (textLength : Nat) : Option UInt32 → List (UInt64 × UInt32) → Except ValidationError Unit
  | _, [] => .ok ()
  | prev, (fid, position) :: rest => do
    validateFid fid
    ensure (decide (position.toNat ≤ textLength)) .mentionsPositionsInvalid
    ensure (prev.all (· ≤ position)) .mentionsPositionsNotSorted
    validateMentions textLength (some position) rest

def validateCastType (type : Int32) (textLength : Nat) (isProUser : Bool) : Except ValidationError Unit :=
  match CastType.tryFrom type with
  | none => .error .invalidCastType
  | some .cast => ensure (decide (textLength ≤ 320)) .textTooLong
  | some .longCast => do
    ensure (decide (textLength ≤ 1024)) .textTooLongForLongCast
    ensure (decide (320 < textLength)) .textTooShortForLongCast
  | some .tenKCast => do
    ensure isProUser .proUserFeature
    -- the two errors are named the other way around in the source
    ensure (decide (textLength ≤ 10000)) .textTooShortFor10kCast
    ensure (decide (1024 < textLength)) .textTooLongFor10kCast

def validateEmbed : Option CastOrUrl → Except ValidationError Unit
  | some embed => validateCastOrUrl embed
  | none => .error .missingEmbed

def validateCastAddBody (parent : Option CastOrUrl) (mentions : List UInt64) (content : CastContent)
    (allowEmbedsDeprecated isProUser : Bool) : Except ValidationError Unit := do
  validateCastType content.type content.text.length isProUser
  ensure (decide (content.embeds.length ≤ if isProUser then 4 else 2)) .embedsExceedsLimit
  ensure (!(allowEmbedsDeprecated && decide (2 < content.embedsDeprecated.length))) .stringEmbedsExceedsLimit
  ensure (allowEmbedsDeprecated || content.embedsDeprecated.isEmpty) .stringEmbedsDeprecated
  ensure (decide (mentions.length ≤ 10)) .mentionsExceedsLimit
  ensure (mentions.length == content.mentionsPositions.length) .mentionsMismatch
  ensure (content.embeds.isEmpty || content.embedsDeprecated.isEmpty) .invalidEmbedsAndStringEmbeds
  ensure (!(content.text.isEmpty && content.embeds.isEmpty && content.embedsDeprecated.isEmpty &&
    mentions.isEmpty))
    .castIsEmpty
  content.embeds.forM validateEmbed
  content.embedsDeprecated.forM validateUrl
  validateMentions content.text.length none (mentions.zip content.mentionsPositions)
  parent.forM validateCastOrUrl

def validateCastRemoveBody (targetHash : Bytes) : Except ValidationError Unit :=
  ensure (targetHash.length == 20) .hashIsMissing

def validateReactionBody (type : Int32) (target : Option CastOrUrl) : Except ValidationError Unit := do
  ensure (ReactionType.tryFrom type).isSome .invalidReactionType
  match target with
  | some target => validateCastOrUrl target
  | none => .error .targetIsMissing

def validateLinkType (type : Bytes) : Except ValidationError Unit :=
  ensure (!type.isEmpty && decide (type.length ≤ 8)) .invalidLinkType

def validateLinkBody (type : Bytes) (targetFid : Option UInt64) : Except ValidationError Unit := do
  validateLinkType type
  match targetFid with
  | some fid => validateFid fid
  | none => .error .targetIsMissing

def validateLinkCompactStateBody (type : Bytes) (targetFids : List UInt64) : Except ValidationError Unit := do
  validateLinkType type
  ensure (!targetFids.isEmpty) .targetIsMissing
  targetFids.forM validateFid

def validateRemoveAddress (address : Bytes) (protocol : Int32) : Except ValidationError Unit :=
  if protocol = Protocol.ethereum.toI32 then validateEthAddress address
  else if protocol = Protocol.solana.toI32 then validateSolAddress address
  else .error .invalidData

def validateLendStorageBody (numUnits : UInt64) (unitType : Int32) : Except ValidationError Unit := do
  ensure (StorageUnitType.tryFrom unitType).isSome .invalidStorageUnitType
  ensure (decide (numUnits ≤ 5000)) .exceededMaxStorageUnits

def validateBytesAsString (bytes : Bytes) (maxLength : Nat) (required : Bool) :
    Except ValidationError Unit := do
  ensure (!(required && bytes.isEmpty)) .missingString
  ensure (decide (bytes.length ≤ maxLength)) .stringTooLong

def validateFrameActionBody (body : FrameActionBody) : Except ValidationError Unit := do
  ensure (decide (body.buttonIndex ≤ 5)) .invalidButtonIndex
  validateBytesAsString body.url 1024 true
  validateBytesAsString body.inputText 256 false
  validateBytesAsString body.state 4096 false
  validateBytesAsString body.transactionId 256 false
  validateBytesAsString body.address 64 false
  body.castId.forM validateCastId

/-! ### Keys -/

def ed25519PublicKeyLen : Nat := 32

def maxKeyTtlSeconds : UInt32 := 7776000

def maxKeyAddScopes : Nat := MessageType.all.length

def validateScope (scope : Int32) : Except ValidationError Unit :=
  match MessageType.tryFrom scope with
  | none | some .none | some .keyAdd | some .keyRemove => .error (.invalidScope scope)
  | some _ => .ok ()

def validateKeyAddBody (body : KeyAddBody) : Except ValidationError Unit := do
  ensure (body.key.length == ed25519PublicKeyLen) .invalidKeyLength
  ensure (body.keyType == 1) .invalidKeyType
  ensure (body.deadline != 0) .missingDeadline
  ensure (body.ttl != 0 && decide (body.ttl ≤ maxKeyTtlSeconds)) (.invalidTtl maxKeyTtlSeconds)
  ensure (body.metadataType == 1) .invalidMetadataType
  ensure (!body.metadata.isEmpty) .missingMetadata
  ensure (!body.scopes.isEmpty) .emptyScopes
  ensure (decide (body.scopes.length ≤ maxKeyAddScopes)) (.tooManyScopes maxKeyAddScopes)
  body.scopes.forM validateScope

/-- Who authorises the removal of a key. -/
inductive KeyRemoveSignatureType where
  | custody
  | selfRevoke
deriving DecidableEq, Repr

def KeyRemoveSignatureType.tryFrom (n : UInt32) : Except ValidationError KeyRemoveSignatureType :=
  if n = 1 then .ok .custody
  else if n = 2 then .ok .selfRevoke
  else .error .invalidSignatureType

def validateKeyRemoveBody (body : KeyRemoveBody) : Except ValidationError Unit := do
  ensure (body.key.length == ed25519PublicKeyLen) .invalidKeyLength
  let _ ← KeyRemoveSignatureType.tryFrom body.signatureType
  ensure (body.deadline != 0) .missingDeadline

/-! ### Profiles -/

section profiles
variable [TextRules]

def dotEth : Bytes := [46, 101, 116, 104]

def dotBaseEth : Bytes := [46, 98, 97, 115, 101] ++ dotEth

/-- The empty value unsets the address. -/
def validateUserDataPrimaryAddressEthereum (value : Bytes) : Except ValidationError Unit :=
  if value.isEmpty then .ok ()
  else do
    ensure ([48, 120].isPrefixOf value && value.length == 42) .invalidEthAddressLength
    match TextRules.addressFromHex value with
    | none => .error .invalidData
    | some address => do
      validateEthAddress address
      ensure (TextRules.toChecksum address == value) .invalidData

def validateUserDataPrimaryAddressSolana (value : Bytes) : Except ValidationError Unit :=
  if value.isEmpty then .ok ()
  else
    match TextRules.base58Decode value with
    | none => .error .invalidData
    | some address => validateSolAddress address

def validateUsernameValue (value : Bytes) : Except ValidationError Unit :=
  if value.isEmpty then .ok ()
  else if dotBaseEth.isSuffixOf value then TextRules.validateBaseName value
  else if dotEth.isSuffixOf value then TextRules.validateEnsName value
  else TextRules.validateFname value

def validateUserDataAddBody (type : Int32) (value : Bytes) (isProUser : Bool) (version : EngineVersion) :
    Except ValidationError Unit :=
  match UserDataType.tryFrom type with
  | none => .error .invalidData
  | some .none => .error .invalidUserDataType
  | some .pfp => ensure (decide (value.length ≤ 256)) .pfpValueTooLong
  | some .banner => do
    ensure isProUser .proUserFeature
    ensure (decide (value.length ≤ 256)) .bannerValueTooLong
  | some .display => ensure (decide (value.length ≤ 32)) .displayValueTooLong
  | some .bio => ensure (decide (value.length ≤ 256)) .bioValueTooLong
  | some .url => ensure (decide (value.length ≤ 256)) .urlValueTooLong
  | some .username => validateUsernameValue value
  | some .location => TextRules.validateUserLocation value
  | some .twitter => TextRules.validateTwitterUsername value
  | some .github => TextRules.validateGithubUsername value
  | some .userDataPrimaryAddressEthereum => do
    ensure (version.isEnabled .primaryAddresses) .unsupportedFeature
    validateUserDataPrimaryAddressEthereum value
  | some .userDataPrimaryAddressSolana => do
    ensure (version.isEnabled .primaryAddresses) .unsupportedFeature
    validateUserDataPrimaryAddressSolana value
  | some .profileToken => do
    ensure (version.isEnabled .userProfileToken) .unsupportedFeature
    TextRules.validateCaip19Format value

def validateUsernameProofBody (proof : UserNameProof) (version : EngineVersion) :
    Except ValidationError Unit :=
  match UserNameType.tryFrom proof.type with
  | some .usernameTypeEnsL1 =>
    if version.isEnabled .ensValidation then do
      ensure (TextRules.isUtf8 proof.name) .invalidData
      TextRules.validateEnsName proof.name
    else .ok ()
  | some .usernameTypeBasename =>
    if version.isEnabled .basenames then do
      ensure (TextRules.isUtf8 proof.name) .invalidData
      TextRules.validateBaseName proof.name
    else .error .unsupportedFeature
  | _ => .error .invalidUsernameType

end profiles

/-! ## The message -/

def FarcasterTime.decrBy (t : FarcasterTime) (secs : UInt64) : FarcasterTime := ⟨t.time - secs⟩

def validateTimestamp (messageTimestamp : UInt32) (blockTimestamp : FarcasterTime) (version : EngineVersion) :
    Except ValidationError Unit :=
  if version.isEnabled .futureTimestampValidation then
    ensure (decide (messageTimestamp.toNat ≤ blockTimestamp.toU64.toNat + allowedClockSkewSeconds.toNat))
      .timestampTooFarInFuture
  else .ok ()

def validateMessageHash [Blake3] (hashScheme : Int32) (dataBytes hash : Bytes) :
    Except ValidationError Unit := do
  ensure (hashScheme == blake3) .invalidHashScheme
  ensure (!dataBytes.isEmpty) .missingData
  ensure (bytesCompare (blake3_20 dataBytes) hash == .eq) .invalidHash

def validateSignature [Crypto] (signatureScheme : Int32) (signed signature signer : Bytes) :
    Except ValidationError Unit := do
  ensure (signatureScheme == ed25519) .invalidSignatureScheme
  ensure (!signature.isEmpty) .missingSignature
  ensure (Crypto.signatureFromSlice signature) .invalidSignature
  ensure (Crypto.verifyingKeyTryFrom signer) .missingOrInvalidSigner
  ensure (Crypto.verifyStrict signer signed signature) .invalidSignature

/-- The largest encoding a message may have. -/
def maxDataSize (type : MessageType) (isProUser : Bool) (version : EngineVersion) : Nat :=
  if version.isEnabled .messageLengthCheckFix then
    if type = .linkCompactState then maxDataBytesForLinkCompact
    else if isProUser ∧ type = .castAdd then maxDataBytesFor10kCast
    else if type = .usernameProof ∧ version.isEnabled .increaseUsernameProofSizeLimit then
      maxDataBytesForUsernameProof
    else maxDataBytes
  else maxDataBytes

/-- The encoder of the message data. -/
class MessageEncode where
  encodeMessageData : MessageData → Bytes

/-- The bytes of a message that are hashed and signed, with the data they stand for: the raw bytes if there
    are any, else the encoding of its data. -/
def signedData [Prost] [MessageEncode] (message : Message) : Except ValidationError (Bytes × MessageData) :=
  match message.dataBytes with
  | some dataBytes =>
    if dataBytes.isEmpty then .error .missingData
    else
      match Prost.decodeMessageData dataBytes with
      | some data => .ok (dataBytes, data)
      | none => .error .invalidData
  | none =>
    match message.data with
    | none => .error .missingData
    | some data => .ok (MessageEncode.encodeMessageData data, data)

def validateNetwork (network : Int32) (currentNetwork : FarcasterNetwork) :
    Except ValidationError FarcasterNetwork :=
  match FarcasterNetwork.tryFrom network with
  | none | some .none => .error .invalidNetwork
  | some network =>
    if currentNetwork = .mainnet ∧ network ≠ .mainnet then .error .invalidNetwork else .ok network

variable [Prost] [MessageEncode] [Blake3] [Crypto] [TextRules]

def validateBody (data : MessageData) (network : FarcasterNetwork) (isProUser : Bool)
    (blockTimestamp : FarcasterTime) (version : EngineVersion) : Except ValidationError Unit :=
  match data.body with
  | some (.userDataBody type value) => validateUserDataAddBody type value isProUser version
  | some (.usernameProofBody proof) => validateUsernameProofBody proof version
  | some (.verificationAddAddressBody address protocol claim) =>
    Crypto.validateAddAddress address protocol claim data.fid network
  | some (.linkCompactStateBody type targetFids) => validateLinkCompactStateBody type targetFids
  | some (.castAddBody parent mentions content) =>
    validateCastAddBody parent mentions content (decide (data.timestamp < embedsV1Cutoff)) isProUser
  | some (.castRemoveBody targetHash) => validateCastRemoveBody targetHash
  | some (.reactionBody type target) => validateReactionBody type target
  | some (.linkBody type targetFid) => validateLinkBody type targetFid
  | some (.verificationRemoveBody address protocol) => validateRemoveAddress address protocol
  | some (.frameActionBody body) => validateFrameActionBody body
  | some (.lendStorageBody _ numUnits unitType) => do
    ensure (decide ((blockTimestamp.decrBy 600).toU64.toUInt32 ≤ data.timestamp)) .timestampTooFarInThePast
    validateLendStorageBody numUnits unitType
  | some (.keyAddBody body) => validateKeyAddBody body
  | some (.keyRemoveBody body) => validateKeyRemoveBody body
  | none => .ok ()

def validateMessage (message : Message) (currentNetwork : FarcasterNetwork) (isProUser : Bool)
    (blockTimestamp : FarcasterTime) (version : EngineVersion) : Except ValidationError Unit := do
  let (dataBytes, data) ← signedData message
  let limit := maxDataSize (.orDefault data.type) isProUser version
  ensure (decide (dataBytes.length ≤ limit)) (.dataBytesTooLong limit.toUInt64)
  let network ← validateNetwork data.network currentNetwork
  validateMessageHash message.hashScheme dataBytes message.hash
  validateSignature message.signatureScheme message.hash message.signature message.signer
  validateTimestamp data.timestamp blockTimestamp version
  validateBody data network isProUser blockTimestamp version

/-! ## Requests and transfers -/

structure VerifiedSignedKeyRequest where
  requestFid : UInt64
  requestSigner : Bytes
  deadline : UInt64

def verifySignedKeyRequestMetadata (metadataType : UInt32) (metadata key : Bytes)
    (currentTimestamp : UInt64) :
    Except ValidationError VerifiedSignedKeyRequest := do
  ensure (metadataType == 1) .invalidMetadataType
  ensure (!metadata.isEmpty) .invalidSignedKeyRequest
  let some decoded := Crypto.decodeSignedKeyRequest metadata | .error .invalidSignedKeyRequest
  let some deadline := decoded.deadline | .error .invalidSignedKeyRequest
  ensure (decide (currentTimestamp ≤ deadline)) .signedKeyRequestExpired
  let some requestFid := decoded.requestFid | .error .invalidSignedKeyRequest
  ensure (Crypto.recoverKeyRequestSigner requestFid key deadline decoded.signature ==
    some decoded.requestSigner)
    .invalidSignedKeyRequest
  .ok ⟨requestFid, decoded.requestSigner, deadline⟩

def fnameSignerAddress : Bytes :=
  [0xBc, 0x52, 0x74, 0xeF, 0xc2, 0x66, 0x31, 0x10, 0x15, 0x79, 0x3d, 0x89, 0xE9, 0xB5, 0x91, 0xfa, 0x46,
    0x29, 0x47, 0x41]

/-- `validate_fname_transfer`, for the proof of the transfer. On the development network the signature is not
    checked. -/
def validateFnameTransfer (proof : UserNameProof) (network : FarcasterNetwork)
    (signerAddress : Option Bytes) : Except ValidationError Unit := do
  ensure (TextRules.isUtf8 proof.name) .invalidUsername
  let hash ← Crypto.fnameSigningHash proof
  if network = .devnet then .ok ()
  else do
    ensure (proof.signature.length == 65) .invalidSignature
    ensure (Crypto.recoverAddress hash proof.signature == some (signerAddress.getD fnameSignerAddress))
      .invalidSignature

end Hypersnap
