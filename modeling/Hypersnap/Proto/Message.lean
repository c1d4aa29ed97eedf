import Hypersnap.Proto.OnChainEvent

/-!
# `Proto.Message` — messages, hub events and errors

The protobuf records the stores read and write, with the fields they use. Strings are their UTF-8 bytes.
Enumerations arrive from the wire as `i32`, so a record holds the number and `MessageType.tryFrom` is the
conversion that may fail.
-/

namespace Hypersnap

/-! ## Errors -/

structure HubError where
  code : String
  message : String
deriving DecidableEq, Repr

namespace HubError

def validationFailure (message : String) : HubError := ⟨"bad_request.validation_failure", message⟩

def invalidParameter (message : String) : HubError := ⟨"bad_request.invalid_param", message⟩

def duplicate (message : String) : HubError := ⟨"bad_request.duplicate", message⟩

def conflict (message : String) : HubError := ⟨"bad_request.conflict", message⟩

def notFound (message : String) : HubError := ⟨"not_found", message⟩

def internalDbError (message : String) : HubError := ⟨"db.internal_error", message⟩

def invalidInternalState (message : String) : HubError := ⟨"invalid_internal_state", message⟩

/-- `From<RocksdbError>` at `RocksdbError::DecodeError`. -/
def decodeError : HubError := ⟨"db.internal_error", "Unable to decode message"⟩

end HubError

/-- How a computation fails: with an error value that the caller sees, or with a panic (an `unwrap` of
    nothing, a slice out of range), which no caller handles. -/
inductive Failure where
  | hub (e : HubError)
  | panic
deriving DecidableEq, Repr

/-! ## Message types -/

inductive MessageType where
  | none
  | castAdd
  | castRemove
  | reactionAdd
  | reactionRemove
  | linkAdd
  | linkRemove
  | verificationAddEthAddress
  | verificationRemove
  | userDataAdd
  | usernameProof
  | frameAction
  | linkCompactState
  | lendStorage
  | keyAdd
  | keyRemove
deriving DecidableEq, Repr

namespace MessageType

def toI32 : MessageType → Int32
  | none => 0
  | castAdd => 1
  | castRemove => 2
  | reactionAdd => 3
  | reactionRemove => 4
  | linkAdd => 5
  | linkRemove => 6
  | verificationAddEthAddress => 7
  | verificationRemove => 8
  | userDataAdd => 11
  | usernameProof => 12
  | frameAction => 13
  | linkCompactState => 14
  | lendStorage => 15
  | keyAdd => 16
  | keyRemove => 17

def all : List MessageType :=
  [none, castAdd, castRemove, reactionAdd, reactionRemove, linkAdd, linkRemove, verificationAddEthAddress,
    verificationRemove, userDataAdd, usernameProof, frameAction, linkCompactState, lendStorage,
    keyAdd, keyRemove]

def tryFrom (n : Int32) : Option MessageType := all.find? fun t => t.toI32 == n

@[simp] theorem tryFrom_toI32 (t : MessageType) : tryFrom t.toI32 = some t := by
  cases t <;> rfl

/-- The name of the type in the protobuf definition. -/
def asStrName : MessageType → String
  | none => "MESSAGE_TYPE_NONE"
  | castAdd => "MESSAGE_TYPE_CAST_ADD"
  | castRemove => "MESSAGE_TYPE_CAST_REMOVE"
  | reactionAdd => "MESSAGE_TYPE_REACTION_ADD"
  | reactionRemove => "MESSAGE_TYPE_REACTION_REMOVE"
  | linkAdd => "MESSAGE_TYPE_LINK_ADD"
  | linkRemove => "MESSAGE_TYPE_LINK_REMOVE"
  | verificationAddEthAddress => "MESSAGE_TYPE_VERIFICATION_ADD_ETH_ADDRESS"
  | verificationRemove => "MESSAGE_TYPE_VERIFICATION_REMOVE"
  | userDataAdd => "MESSAGE_TYPE_USER_DATA_ADD"
  | usernameProof => "MESSAGE_TYPE_USERNAME_PROOF"
  | frameAction => "MESSAGE_TYPE_FRAME_ACTION"
  | linkCompactState => "MESSAGE_TYPE_LINK_COMPACT_STATE"
  | lendStorage => "MESSAGE_TYPE_LEND_STORAGE"
  | keyAdd => "MESSAGE_TYPE_KEY_ADD"
  | keyRemove => "MESSAGE_TYPE_KEY_REMOVE"

end MessageType

/-- `n as u8`: the low byte. -/
def asU8 (n : Int32) : UInt8 := n.toInt8.toUInt8

/-! ## Message bodies -/

structure CastId where
  fid : UInt64
  hash : Bytes
deriving DecidableEq, Repr

/-- The target of a reaction or the parent of a cast: another cast or a URL. -/
inductive CastOrUrl where
  | castId (id : CastId)
  | url (url : Bytes)
deriving DecidableEq, Repr

structure UserNameProof where
  timestamp : UInt64
  name : Bytes
  owner : Bytes
  signature : Bytes
  fid : UInt64
  type : Int32
deriving DecidableEq, Repr

/-- What a cast says, beside whom it answers and mentions. -/
structure CastContent where
  text : Bytes
  type : Int32
  mentionsPositions : List UInt32
  embeds : List (Option CastOrUrl)
  embedsDeprecated : List Bytes
deriving DecidableEq, Repr

/-- The proof that the owner of an address made a verification. -/
structure AddressClaim where
  claimSignature : Bytes
  blockHash : Bytes
  verificationType : UInt32
  chainId : UInt32
deriving DecidableEq, Repr

structure KeyAddBody where
  key : Bytes
  keyType : UInt32
  custodySignature : Bytes
  deadline : UInt32
  nonce : UInt32
  metadata : Bytes
  metadataType : UInt32
  scopes : List Int32
  ttl : UInt32
deriving DecidableEq, Repr

structure KeyRemoveBody where
  key : Bytes
  signature : Bytes
  signatureType : UInt32
  deadline : UInt32
  nonce : UInt32
deriving DecidableEq, Repr

structure FrameActionBody where
  url : Bytes
  buttonIndex : UInt32
  castId : Option CastId
  inputText : Bytes
  state : Bytes
  transactionId : Bytes
  address : Bytes
deriving DecidableEq, Repr

inductive Body where
  | castAddBody (parent : Option CastOrUrl) (mentions : List UInt64) (content : CastContent)
  | castRemoveBody (targetHash : Bytes)
  | reactionBody (type : Int32) (target : Option CastOrUrl)
  | verificationAddAddressBody (address : Bytes) (protocol : Int32) (claim : AddressClaim)
  | verificationRemoveBody (address : Bytes) (protocol : Int32)
  | userDataBody (type : Int32) (value : Bytes)
  | linkBody (type : Bytes) (targetFid : Option UInt64)
  | linkCompactStateBody (type : Bytes) (targetFids : List UInt64)
  | usernameProofBody (proof : UserNameProof)
  | lendStorageBody (toFid numUnits : UInt64) (unitType : Int32)
  | keyAddBody (body : KeyAddBody)
  | keyRemoveBody (body : KeyRemoveBody)
  | frameActionBody (body : FrameActionBody)
deriving DecidableEq, Repr

structure MessageData where
  type : Int32
  fid : UInt64
  timestamp : UInt32
  network : Int32
  body : Option Body
deriving DecidableEq, Repr

structure Message where
  data : Option MessageData
  hash : Bytes
  hashScheme : Int32
  signature : Bytes
  signatureScheme : Int32
  signer : Bytes
  dataBytes : Option Bytes
deriving DecidableEq, Repr

def blake3 : Int32 := 1

def ed25519 : Int32 := 1

def Message.fid (m : Message) : UInt64 := (m.data.map (·.fid)).getD 0

def Message.timestamp (m : Message) : UInt32 := (m.data.map (·.timestamp)).getD 0

/-! ## Hub events -/

inductive HubEventBody where
  | mergeMessageBody (message : Message) (deletedMessages : List Message)
  | pruneMessageBody (message : Message)
  | revokeMessageBody (message : Message)
  | mergeUsernameProofBody (usernameProof deletedUsernameProof : Option UserNameProof)
      (usernameProofMessage deletedUsernameProofMessage : Option Message)
  | mergeOnChainEventBody (onChainEvent : OnChainEvent)
  | mergeFailure (message : Message) (code reason : String)
  | blockConfirmedBody (blockNumber : UInt64) (shardIndex : UInt32) (timestamp : UInt64) (blockHash : Bytes)
      (totalEvents : UInt64) (eventCountsByType : List (Int32 × UInt64)) (maxBlockEventSeqnum : UInt64)
deriving DecidableEq, Repr

/-- The number of the event type that belongs to a body. -/
def HubEventBody.type : HubEventBody → Int32
  | .mergeMessageBody .. => 1
  | .pruneMessageBody .. => 2
  | .revokeMessageBody .. => 3
  | .mergeUsernameProofBody .. => 6
  | .mergeOnChainEventBody .. => 9
  | .mergeFailure .. => 10
  | .blockConfirmedBody .. => 11

/-- A hub event; its type is the kind of its body. -/
structure HubEvent where
  id : UInt64
  body : HubEventBody
  timestamp : UInt64
deriving DecidableEq, Repr

/-- `HubEvent::new_event`: the id is set when the event is committed, the timestamp when it is sent. -/
def HubEvent.new (body : HubEventBody) : HubEvent := ⟨0, body, 0⟩

end Hypersnap
