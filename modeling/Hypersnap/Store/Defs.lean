import Hypersnap.Store.Store

/-!
# `Store.Defs` — the cast, reaction, verification, user-data and link stores

What each message type adds to the shared store: the bytes of its conflict keys, the entries of its secondary
indices, and, for casts, an order of their own. Adds and removes of one type build their keys from the same
bytes under two postfixes.
-/

namespace Hypersnap

/-- The type test the stores share: signed with Ed25519, of the given type, with some body. -/
def Message.hasType (m : Message) (type : MessageType) : Bool :=
  match m.data with
  | none => false
  | some data => m.signatureScheme == ed25519 && data.type == type.toI32 && data.body.isSome

/-- `message.data.unwrap().body`, with the data it is part of. -/
def Message.bodyOf (m : Message) : Except Failure (MessageData × Body) :=
  match m.data with
  | none => .error .panic
  | some data =>
    match data.body with
    | none => .error .panic
    | some body => .ok (data, body)

/-- A key of the user table: one of the user's index sets, then the bytes of the conflict key. -/
def makeIndexKey (ctx : StateContext) (fid : UInt64) (set : UserPostfix) (slot : Bytes) : Bytes :=
  makeUserKey (ctx.rootPrefix .user) fid ++ set.toByte :: slot

/-- The end of a by-target key: `tsHash`, and the fid unless it is 0. -/
def targetKeyEnd (tsHash : Bytes) (fid : UInt64) : Bytes :=
  (if tsHash.length = tsHashLength then tsHash else []) ++ (if 0 < fid then makeFidKey fid else [])

/-- `TRUE_VALUE`, the value of an index entry that only records presence. -/
def trueValue : DbValue := .bytes [1]

/-! ## Casts -/

namespace CastStoreDef

def makeParentKey : CastOrUrl → Bytes
  | .url url => url
  | .castId id => makeCastIdKey id

/-- The hash a cast message is about: its own if it adds, its target's if it removes. -/
def targetHash (m : Message) (invalid : String) : Except Failure (MessageData × Bytes) :=
  match m.data with
  | none => .error .panic
  | some data =>
    match data.body with
    | some (.castAddBody _ _ _) => .ok (data, m.hash)
    | some (.castRemoveBody targetHash) => .ok (data, targetHash)
    | _ => .error (.hub (.validationFailure invalid))

/-- A hash in a key; one of another length is left out. -/
def hashSlot (hash : Bytes) : Bytes := if hash.length = hashLength then hash else []

def makeCastByParentKey (root : UInt8) (parent : CastOrUrl) (fid : UInt64) (tsHash : Bytes) : Bytes :=
  root :: (makeParentKey parent ++ targetKeyEnd tsHash fid)

def makeCastByMentionKey (root : UInt8) (mention fid : UInt64) (tsHash : Bytes) : Bytes :=
  root :: (makeFidKey mention ++ targetKeyEnd tsHash fid)

def makeAddKey (m : Message) (ctx : StateContext) : Except Failure Bytes := do
  let (data, hash) ← targetHash m "Invalid cast body for add key"
  .ok (makeIndexKey ctx data.fid .castAdds (hashSlot hash))

def makeRemoveKey (m : Message) (ctx : StateContext) : Except Failure Bytes := do
  let (data, hash) ← targetHash m "Invalid cast body for remove key"
  .ok (makeIndexKey ctx data.fid .castRemoves (hashSlot hash))

/-- One entry for the parent, one for each mention. A body that has neither has no entry, and that is no
    error. -/
def secondaryIndices (tsHash : Bytes) (m : Message) (ctx : StateContext) :
    Except Failure (List (Bytes × DbValue)) := do
  let (data, body) ← m.bodyOf
  match body with
  | .castAddBody parent mentions _ =>
    let byParent := parent.toList.map fun p =>
      makeCastByParentKey (ctx.rootPrefix .castsByParent) p data.fid tsHash
    let byMention := mentions.map fun f =>
      makeCastByMentionKey (ctx.rootPrefix .castsByMention) f data.fid tsHash
    .ok ((byParent ++ byMention).map fun key => (key, trueValue))
  | _ => .ok []

/-- Remove wins over add, then the later timestamp, then the hash. -/
def messageCompare (aType : UInt8) (aTsHash : Bytes) (bType : UInt8) (bTsHash : Bytes) : Ordering :=
  let add := asU8 MessageType.castAdd.toI32
  let remove := asU8 MessageType.castRemove.toI32
  if aType = remove ∧ bType = add then .gt
  else if aType = add ∧ bType = remove then .lt
  else
    match bytesCompare (aTsHash.take 4) (bTsHash.take 4) with
    | .eq => bytesCompare ((aTsHash.drop 4).take 20) ((bTsHash.drop 4).take 20)
    | order => order

end CastStoreDef

def castStoreDef : StoreDef where
  setPostfix := UserPostfix.castMessage.toByte
  addMessageType := asU8 MessageType.castAdd.toI32
  removeMessageType := asU8 MessageType.castRemove.toI32
  compactStateMessageType := asU8 MessageType.none.toI32
  isAddType m := m.hasType .castAdd
  isRemoveType m := m.hasType .castRemove
  isCompactStateType _ := false
  makeAddKey := CastStoreDef.makeAddKey
  makeRemoveKey := CastStoreDef.makeRemoveKey
  makeCompactStateAddKey _ _ := .error (.hub (.invalidParameter "Cast Store doesn't support compact state"))
  secondaryIndices := CastStoreDef.secondaryIndices
  messageCompare := CastStoreDef.messageCompare

/-! ## Reactions -/

namespace ReactionStoreDef

def makeTargetKey : CastOrUrl → Bytes
  | .url url => url
  | .castId id => makeCastIdKey id

/-- `type`, if positive, as one byte. -/
def typeSlot (type : Int32) : Bytes := if 0 < type then [asU8 type] else []

def reactionBody (m : Message) : Except Failure (MessageData × Int32 × Option CastOrUrl) := do
  match ← m.bodyOf with
  | (data, .reactionBody type target) => .ok (data, type, target)
  | _ => .error (.hub (.validationFailure "Invalid reaction body"))

/-- The two index keys of a reaction, by their set. -/
def makeReactionKey (set : UserPostfix) (m : Message) (ctx : StateContext) : Except Failure Bytes := do
  let (data, type, target) ← reactionBody m
  if target.isSome ∧ type = 0 then .error (.hub (.validationFailure "targetId provided without type"))
  else .ok (makeIndexKey ctx data.fid set (typeSlot type ++ (target.map makeTargetKey).getD []))

def makeAddKey : Message → StateContext → Except Failure Bytes := makeReactionKey .reactionAdds

def makeRemoveKey : Message → StateContext → Except Failure Bytes := makeReactionKey .reactionRemoves

def makeReactionsByTargetKey (root : UInt8) (target : CastOrUrl) (fid : UInt64) (tsHash : Bytes) : Bytes :=
  root :: (makeTargetKey target ++ targetKeyEnd tsHash fid)

def secondaryIndices (tsHash : Bytes) (m : Message) (ctx : StateContext) :
    Except Failure (List (Bytes × DbValue)) := do
  let (data, type, target) ← reactionBody m
  match target with
  | none => .error (.hub (.validationFailure "Invalid reaction body"))
  | some target =>
    .ok [(makeReactionsByTargetKey (ctx.rootPrefix .reactionsByTarget) target data.fid tsHash,
      .bytes [asU8 type])]

end ReactionStoreDef

def reactionStoreDef : StoreDef where
  setPostfix := UserPostfix.reactionMessage.toByte
  addMessageType := asU8 MessageType.reactionAdd.toI32
  removeMessageType := asU8 MessageType.reactionRemove.toI32
  compactStateMessageType := asU8 MessageType.none.toI32
  isAddType m := m.hasType .reactionAdd
  isRemoveType m := m.hasType .reactionRemove
  isCompactStateType _ := false
  makeAddKey := ReactionStoreDef.makeAddKey
  makeRemoveKey := ReactionStoreDef.makeRemoveKey
  makeCompactStateAddKey _ _ :=
    .error (.hub (.invalidParameter "Reaction Store doesn't support compact state"))
  secondaryIndices := ReactionStoreDef.secondaryIndices

/-! ## Verifications -/

namespace VerificationStoreDef

/-- `Protocol::Ethereum` or `Protocol::Solana`. -/
def knownProtocol (protocol : Int32) : Bool := protocol == 0 || protocol == 1

def isAddType (m : Message) : Bool :=
  m.hasType .verificationAddEthAddress &&
    match m.data.bind (·.body) with
    | some (.verificationAddAddressBody _ protocol _) => knownProtocol protocol
    | _ => false

def isRemoveType (m : Message) : Bool :=
  m.hasType .verificationRemove &&
    match m.data.bind (·.body) with
    | some (.verificationRemoveBody _ protocol) => knownProtocol protocol
    | _ => false

/-- The two index keys of a verification, by their set. -/
def makeVerificationKey (set : UserPostfix) (m : Message) (ctx : StateContext) : Except Failure Bytes := do
  match ← m.bodyOf with
  | (data, .verificationAddAddressBody address _ _) => .ok (makeIndexKey ctx data.fid set address)
  | (data, .verificationRemoveBody address _) => .ok (makeIndexKey ctx data.fid set address)
  | _ => .error (.hub (.validationFailure "Invalid verification body"))

def makeAddKey : Message → StateContext → Except Failure Bytes := makeVerificationKey .verificationAdds

def makeRemoveKey : Message → StateContext → Except Failure Bytes := makeVerificationKey .verificationRemoves

def makeVerificationByAddressKey (root : UInt8) (address : Bytes) : Bytes := root :: address

/-- The by-address entry: the address alone is the key, the verifying fid the value. -/
def secondaryIndices (_ : Bytes) (m : Message) (ctx : StateContext) :
    Except Failure (List (Bytes × DbValue)) := do
  match ← m.bodyOf with
  | (data, .verificationAddAddressBody address _ _) =>
    if address.isEmpty then .error (.hub (.invalidParameter "address empty"))
    else .ok [(makeVerificationByAddressKey (ctx.rootPrefix .verificationByAddress) address,
      .bytes (makeFidKey data.fid))]
  | _ => .error (.hub (.invalidParameter "address empty"))

end VerificationStoreDef

def verificationStoreDef : StoreDef where
  setPostfix := UserPostfix.verificationMessage.toByte
  addMessageType := asU8 MessageType.verificationAddEthAddress.toI32
  removeMessageType := asU8 MessageType.verificationRemove.toI32
  compactStateMessageType := asU8 MessageType.none.toI32
  isAddType := VerificationStoreDef.isAddType
  isRemoveType := VerificationStoreDef.isRemoveType
  isCompactStateType _ := false
  makeAddKey := VerificationStoreDef.makeAddKey
  makeRemoveKey := VerificationStoreDef.makeRemoveKey
  makeCompactStateAddKey _ _ :=
    .error (.hub (.invalidParameter "Verification Store doesn't support compact state"))
  secondaryIndices := VerificationStoreDef.secondaryIndices

/-! ## User data -/

namespace UserDataStoreDef

def makeAddKey (m : Message) (ctx : StateContext) : Except Failure Bytes := do
  match ← m.bodyOf with
  | (data, .userDataBody type _) =>
    .ok (makeIndexKey ctx data.fid .userDataAdds (if 0 < type then [asU8 type] else []))
  | _ => .error (.hub (.invalidParameter "UserDataAdd message missing body"))

end UserDataStoreDef

def userDataStoreDef : StoreDef where
  setPostfix := UserPostfix.userDataMessage.toByte
  addMessageType := asU8 MessageType.userDataAdd.toI32
  removeMessageType := asU8 MessageType.none.toI32
  compactStateMessageType := asU8 MessageType.none.toI32
  isAddType m := m.hasType .userDataAdd
  isRemoveType _ := false
  isCompactStateType _ := false
  makeAddKey := UserDataStoreDef.makeAddKey
  makeRemoveKey _ _ := .error (.hub (.invalidParameter "removes not supported"))
  makeCompactStateAddKey _ _ :=
    .error (.hub (.invalidParameter "UserDataStore doesn't support compact state"))

/-! ## Links -/

namespace LinkStore

def linkTypeByteSize : Nat := 8

/-- `Vec::resize(8, 0)`: pad with zero bytes, or cut. -/
def padType (type : Bytes) : Bytes :=
  (type ++ List.replicate (linkTypeByteSize - type.length) 0).take linkTypeByteSize

/-- The data and body of a message, with the errors of the link store. -/
def dataBody (m : Message) : Except Failure (MessageData × Body) :=
  match m.data with
  | none => .error (.hub (.invalidParameter "invalid message data"))
  | some data =>
    match data.body with
    | none => .error (.hub (.invalidParameter "invalid message data body"))
    | some body => .ok (data, body)

/-- The two index keys of a link, by their set; they differ in the text of one error. -/
def makeLinkKey (set : UserPostfix) (withoutType : String) (m : Message) (ctx : StateContext) :
    Except Failure Bytes := do
  match ← dataBody m with
  | (data, .linkBody type target) =>
    if target.isSome && type.isEmpty then .error (.hub (.validationFailure withoutType))
    else if !type.isEmpty && decide (linkTypeByteSize < type.length) then
      .error (.hub (.validationFailure "link type invalid - non-empty link type found with invalid length"))
    else .ok (makeIndexKey ctx data.fid set (padType type ++ (target.map makeFidKey).getD []))
  | _ => .error (.hub (.invalidParameter "link body not specified"))

def makeAddKey : Message → StateContext → Except Failure Bytes :=
  makeLinkKey .linkAdds "targetId provided without type"

def makeRemoveKey : Message → StateContext → Except Failure Bytes :=
  makeLinkKey .linkRemoves "targetID provided without type"

def makeCompactStateAddKey (m : Message) (ctx : StateContext) : Except Failure Bytes := do
  match ← dataBody m with
  | (data, .linkCompactStateBody type _) =>
    .ok (makeIndexKey ctx data.fid .linkCompactStateMessage (padType type))
  | (data, .linkBody type _) => .ok (makeIndexKey ctx data.fid .linkCompactStateMessage (padType type))
  | _ => .error (.hub (.invalidParameter "link_compact_body not specified"))

def linksByTargetKey (root : UInt8) (target fid : UInt64) (tsHash : Bytes) : Except Failure Bytes :=
  if fid = 0 then .error (.hub (.validationFailure "timestamp hash provided without fid"))
  else .ok (root :: (makeFidKey target ++ tsHash ++ makeFidKey fid))

def secondaryIndices (tsHash : Bytes) (m : Message) (ctx : StateContext) :
    Except Failure (List (Bytes × DbValue)) := do
  match ← dataBody m with
  | (data, .linkBody type target) =>
    match target with
    | none => .error (.hub (.invalidParameter "target ID not specified"))
    | some target =>
      let key ← linksByTargetKey (ctx.rootPrefix .linksByTarget) target data.fid tsHash
      .ok [(key, .bytes type)]
  | _ => .error (.hub (.invalidParameter "link body not specified"))

end LinkStore

def linkStoreDef : StoreDef where
  setPostfix := UserPostfix.linkMessage.toByte
  addMessageType := asU8 MessageType.linkAdd.toI32
  removeMessageType := asU8 MessageType.linkRemove.toI32
  compactStateMessageType := asU8 MessageType.linkCompactState.toI32
  isAddType m := m.hasType .linkAdd
  isRemoveType m := m.hasType .linkRemove
  isCompactStateType m := m.hasType .linkCompactState
  makeAddKey := LinkStore.makeAddKey
  makeRemoveKey := LinkStore.makeRemoveKey
  makeCompactStateAddKey := LinkStore.makeCompactStateAddKey
  secondaryIndices := LinkStore.secondaryIndices

end Hypersnap
