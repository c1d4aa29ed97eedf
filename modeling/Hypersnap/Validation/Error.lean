import Hypersnap.Proto.Enums

/-!
# `Validation.Error` — why a message is turned away

`ValidationError` is what the checks of a message alone report, `MessageValidationError` what the engine
reports when it checks the message against its state or merges it. The texts end up in the event that records
a failed merge.
-/

namespace Hypersnap

inductive ValidationError where
  | missingData
  | invalidHash
  | invalidHashScheme
  | invalidSignature
  | invalidData
  | unsupportedFeature
  | invalidSignatureScheme
  | missingOrInvalidSigner
  | missingSignature
  | invalidNetwork
  | invalidButtonIndex
  | proUserFeature
  | fnameExceedsLength (name : String)
  | fnameDoesntMatch (name pattern : String)
  | ensNameDoesntMatch (name pattern : String)
  | ensNameExceedsLength (name : String)
  | ensNameDoesntEndWith (name ending : String)
  | ensNameUnsupportedSubdomain (name : String)
  | ensNameNotValid (name : String)
  | textTooLongForLongCast
  | textTooShortForLongCast
  | textTooShortFor10kCast
  | textTooLongFor10kCast
  | invalidCastType
  | stringEmbedsExceedsLimit
  | urlTooShort
  | urlTooLong
  | castIsEmpty
  | textTooLong
  | embedsExceedsLimit
  | stringEmbedsDeprecated
  | invalidEmbedsAndStringEmbeds
  | fidIsMissing
  | fnameIsMissing
  | hashIsMissing
  | mentionsExceedsLimit
  | mentionsMismatch
  | mentionsPositionsInvalid
  | mentionsPositionsNotSorted
  | invalidReactionType
  | targetIsMissing
  | pfpValueTooLong
  | bannerValueTooLong
  | displayValueTooLong
  | bioValueTooLong
  | urlValueTooLong
  | latitudeOutOfRange
  | longitudeOutOfRange
  | invalidLocationString
  | usernameDoesntMatch (name pattern : String)
  | usernameExceedsLength (name : String) (length : UInt64)
  | invalidEthAddressLength
  | invalidSolAddressLength
  | ethAddressMissing
  | solAddressMissing
  | caip19TooLong
  | invalidBlockhashLength
  | blockHashMissing
  | invalidEthClaimSignatureLength
  | invalidSolClaimSignatureLength
  | invalidMessageType
  | invalidUserDataType
  | invalidUsernameType
  | invalidClaimSignature
  | invalidLinkType
  | invalidUsername
  | missingString
  | stringTooLong
  | dataBytesTooLong (limit : UInt64)
  | missingEmbed
  | timestampTooFarInFuture
  | timestampTooFarInThePast
  | hubError (e : HubError)
  | invalidStorageUnitType
  | exceededMaxStorageUnits
  | invalidMetadataType
  | invalidSignedKeyRequest
  | signedKeyRequestExpired
  | signedKeyRequestCustodyMismatch
  | invalidKeyLength
  | invalidKeyType
  | emptyScopes
  | tooManyScopes (limit : Nat)
  | invalidScope (scope : Int32)
  | invalidTtl (limit : UInt32)
  | missingDeadline
  | missingMetadata
  | invalidSignatureType
  | keyAlreadyRegisteredOnchain
  | keyClaimedByDifferentFid
  | keyRegisteredByDifferentRequestingFid
  | keyNotRegistered
  | activeKeyCapExceeded (limit : UInt32)
deriving DecidableEq, Repr

def HubError.display (e : HubError) : String := e.code ++ "/" ++ e.message

/-- A name as the texts quote it. -/
def quoted (name : String) : String := "\"" ++ name ++ "\""

def ValidationError.display : ValidationError → String
  | missingData => "data is missing"
  | invalidHash => "invalid hash"
  | invalidHashScheme => "invalid hashScheme"
  | invalidSignature => "invalid signature"
  | invalidData => "Message data invalid"
  | unsupportedFeature => "Protocol feature is not supported in this version"
  | invalidSignatureScheme => "invalid signatureScheme"
  | missingOrInvalidSigner => "signer is missing or invalid"
  | missingSignature => "signature is missing"
  | invalidNetwork => "invalid network"
  | invalidButtonIndex => "Invalid button index"
  | proUserFeature => "Pro subscription required"
  | fnameExceedsLength name => s!"fname {quoted name} > 16 characters"
  | fnameDoesntMatch name pattern => s!"fname {quoted name} doesn't match {pattern}"
  | ensNameDoesntMatch name pattern => s!"ensName {quoted name} doesn't match {pattern}"
  | ensNameExceedsLength name => s!"ensName {quoted name} > 20 characters"
  | ensNameDoesntEndWith name ending => s!"ensName {quoted name} doesn't end with {ending}"
  | ensNameUnsupportedSubdomain name => s!"ensName {quoted name} unsupported subdomain"
  | ensNameNotValid name => s!"ensName {quoted name} is not a valid ENS name"
  | textTooLongForLongCast => "text > 1024 bytes for long cast"
  | textTooShortForLongCast => "text too short for long cast"
  | textTooShortFor10kCast => "text too short for 10k cast"
  | textTooLongFor10kCast => "text > 10,000 bytes for 10k cast"
  | invalidCastType => "invalid cast type"
  | stringEmbedsExceedsLimit => "string embeds > 2"
  | urlTooShort => "url < 1 byte"
  | urlTooLong => "url > 256 bytes"
  | castIsEmpty => "cast is empty"
  | textTooLong => "text > 320 bytes"
  | embedsExceedsLimit => "embeds > 4"
  | stringEmbedsDeprecated => "string embeds have been deprecated"
  | invalidEmbedsAndStringEmbeds => "cannot use both embeds and string embeds"
  | fidIsMissing => "fid is missing"
  | fnameIsMissing => "fname is missing"
  | hashIsMissing => "hash is missing"
  | mentionsExceedsLimit => "mentions > 10"
  | mentionsMismatch => "mentions and mentionsPositions must match"
  | mentionsPositionsInvalid => "mentionsPositions must be a position in text"
  | mentionsPositionsNotSorted => "mentionsPositions must be sorted in ascending order"
  | invalidReactionType => "invalid reaction type"
  | targetIsMissing => "target is missing"
  | pfpValueTooLong => "pfp value > 256"
  | bannerValueTooLong => "banner value > 256"
  | displayValueTooLong => "display value > 32"
  | bioValueTooLong => "bio value > 256"
  | urlValueTooLong => "url value > 256"
  | latitudeOutOfRange => "Latitude value outside valid range"
  | longitudeOutOfRange => "Longitude value outside valid range"
  | invalidLocationString => "Invalid location string"
  | usernameDoesntMatch name pattern => s!"username {quoted name} doesn't match {pattern}"
  | usernameExceedsLength name length => s!"username {quoted name} > {length} characters"
  | invalidEthAddressLength => "invalid length for eth address"
  | invalidSolAddressLength => "invalid length for sol address"
  | ethAddressMissing => "ethereum address is missing"
  | solAddressMissing => "solana address is missing"
  | caip19TooLong => "CAIP-19 string too long"
  | invalidBlockhashLength => "blockHash must be 32 bytes"
  | blockHashMissing => "blockHash is missing"
  | invalidEthClaimSignatureLength => "claimSignature > 2048 bytes"
  | invalidSolClaimSignatureLength => "claimSignature != 64 bytes"
  | invalidMessageType => "invalid message type"
  | invalidUserDataType => "invalid user data type"
  | invalidUsernameType => "invalid username type"
  | invalidClaimSignature => "invalid claimSignature"
  | invalidLinkType => "type must be between 1-8 characters"
  | invalidUsername => "invalid username"
  | missingString => "value is missing"
  | stringTooLong => "value is too long"
  | dataBytesTooLong limit => s!"dataBytes > {limit} bytess"
  | missingEmbed => "embed is missing"
  | timestampTooFarInFuture => "timestamp more than 10 mins in the future"
  | timestampTooFarInThePast => "timestamp more than 10 mins in the past"
  | hubError e => e.display
  | invalidStorageUnitType => "invalid storage unit type"
  | exceededMaxStorageUnits => "num storage units too large"
  | invalidMetadataType => "invalid metadata type"
  | invalidSignedKeyRequest => "SignedKeyRequest metadata is malformed or signature does not verify"
  | signedKeyRequestExpired => "SignedKeyRequest deadline has expired"
  | signedKeyRequestCustodyMismatch => "requestSigner does not match custody address of requestFid"
  | invalidKeyLength => "key must be 32 bytes"
  | invalidKeyType => "invalid key type"
  | emptyScopes => "scopes must be non-empty"
  | tooManyScopes limit => s!"scopes list exceeds max of {limit} entries"
  | invalidScope scope => s!"scope {quoted (toString scope)} is not a valid MessageType"
  | invalidTtl limit => s!"ttl must be > 0 and <= {limit} seconds"
  | missingDeadline => "deadline is missing"
  | missingMetadata => "metadata is missing"
  | invalidSignatureType => "invalid signature type"
  | keyAlreadyRegisteredOnchain => "key is already registered onchain for this fid"
  | keyClaimedByDifferentFid => "key is already claimed by a different fid"
  | keyRegisteredByDifferentRequestingFid =>
    "key is already registered for this fid by a different requesting fid"
  | keyNotRegistered => "key is not registered for this fid"
  | activeKeyCapExceeded limit => s!"active-key cap exceeded: {limit} keys per FID"

inductive MessageValidationError where
  | noMessageData
  | missingFid
  | missingSigner
  | gaslessKeyOutOfScope (msgType : Int32)
  | messageValidationError (e : ValidationError)
  | invalidMessageType (msgType : Int32)
  | storeError (e : HubError)
  | missingFname
  | invalidEthereumAddress
  | invalidSolanaAddress
  | addressNotPartOfVerification
  | invalidSeqnumForBlockEvent
  | blockEventMissingBody
deriving DecidableEq, Repr

def MessageValidationError.display : MessageValidationError → String
  | noMessageData => "message has no data"
  | missingFid => "unknown fid"
  | missingSigner => "invalid signer"
  | gaslessKeyOutOfScope msgType => s!"message type {msgType} is not in the scope of the gasless signer"
  | messageValidationError e => e.display
  | invalidMessageType _ => "invalid message type"
  | storeError e => e.display
  | missingFname => "fname is not registered for fid"
  | invalidEthereumAddress => "invalid ethereum address"
  | invalidSolanaAddress => "invalid solana address"
  | addressNotPartOfVerification => "address is not part of any verification"
  | invalidSeqnumForBlockEvent => "invalid seqnum for block event"
  | blockEventMissingBody => "block event missing body"

/-- `HubEvent::from_validation_error`: the event that records why a message was not merged. -/
def HubEvent.fromValidationError (err : MessageValidationError) (message : Message) : HubEvent :=
  let mergeError : HubError :=
    match err with
    | .storeError e => e
    | _ => .validationFailure err.display
  .new (.mergeFailure message mergeError.code mergeError.message)

end Hypersnap
