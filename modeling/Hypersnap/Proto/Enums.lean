import Hypersnap.Proto.Message

/-!
# `Proto.Enums` — the smaller enumerations of the wire format

A protobuf field holds the number; `tryFrom` is the conversion that may fail, `orDefault` the accessor of the
generated code, which reads an unknown number as the variant 0.
-/

namespace Hypersnap

/-! ## Profiles and names -/

inductive UserDataType where
  | none
  | pfp
  | display
  | bio
  | url
  | username
  | location
  | twitter
  | github
  | banner
  | userDataPrimaryAddressEthereum
  | userDataPrimaryAddressSolana
  | profileToken
deriving DecidableEq, Repr

namespace UserDataType

def toI32 : UserDataType → Int32
  | none => 0
  | pfp => 1
  | display => 2
  | bio => 3
  | url => 5
  | username => 6
  | location => 7
  | twitter => 8
  | github => 9
  | banner => 10
  | userDataPrimaryAddressEthereum => 11
  | userDataPrimaryAddressSolana => 12
  | profileToken => 13

def all : List UserDataType :=
  [none, pfp, display, bio, url, username, location, twitter, github, banner, userDataPrimaryAddressEthereum,
    userDataPrimaryAddressSolana, profileToken]

def tryFrom (n : Int32) : Option UserDataType := all.find? fun t => t.toI32 == n

def orDefault (n : Int32) : UserDataType := (tryFrom n).getD none

end UserDataType

inductive UserNameType where
  | usernameTypeNone
  | usernameTypeFname
  | usernameTypeEnsL1
  | usernameTypeBasename
deriving DecidableEq, Repr

namespace UserNameType

def toI32 : UserNameType → Int32
  | usernameTypeNone => 0
  | usernameTypeFname => 1
  | usernameTypeEnsL1 => 2
  | usernameTypeBasename => 3

def tryFrom (n : Int32) : Option UserNameType :=
  [usernameTypeNone, usernameTypeFname, usernameTypeEnsL1, usernameTypeBasename].find? fun t => t.toI32 == n

end UserNameType

/-! ## Casts, reactions, verifications -/

inductive CastType where
  | cast
  | longCast
  | tenKCast
deriving DecidableEq, Repr

namespace CastType

def toI32 : CastType → Int32
  | cast => 0
  | longCast => 1
  | tenKCast => 2

def tryFrom (n : Int32) : Option CastType := [cast, longCast, tenKCast].find? fun t => t.toI32 == n

end CastType

inductive ReactionType where
  | none
  | like
  | recast
deriving DecidableEq, Repr

namespace ReactionType

def toI32 : ReactionType → Int32
  | none => 0
  | like => 1
  | recast => 2

def tryFrom (n : Int32) : Option ReactionType := [none, like, recast].find? fun t => t.toI32 == n

end ReactionType

/-- Which chain a verified address belongs to. -/
inductive Protocol where
  | ethereum
  | solana
deriving DecidableEq, Repr

def Protocol.toI32 : Protocol → Int32
  | ethereum => 0
  | solana => 1

/-! ## Storage -/

/-- A unit of storage, by the time it was rented. -/
inductive StorageUnitType where
  | unitTypeLegacy
  | unitType2024
  | unitType2025
deriving DecidableEq, Repr

namespace StorageUnitType

def toI32 : StorageUnitType → Int32
  | unitTypeLegacy => 0
  | unitType2024 => 1
  | unitType2025 => 2

def tryFrom (n : Int32) : Option StorageUnitType :=
  [unitTypeLegacy, unitType2024, unitType2025].find? fun t => t.toI32 == n

def orDefault (n : Int32) : StorageUnitType := (tryFrom n).getD unitTypeLegacy

end StorageUnitType

/-! ## Registries on chain -/

inductive SignerEventType where
  | none
  | add
  | remove
  | adminReset
deriving DecidableEq, Repr

namespace SignerEventType

def toI32 : SignerEventType → Int32
  | none => 0
  | add => 1
  | remove => 2
  | adminReset => 3

def tryFrom (n : Int32) : Option SignerEventType :=
  [none, add, remove, adminReset].find? fun t => t.toI32 == n

def orDefault (n : Int32) : SignerEventType := (tryFrom n).getD none

end SignerEventType

inductive IdRegisterEventType where
  | none
  | register
  | transfer
  | changeRecovery
deriving DecidableEq, Repr

namespace IdRegisterEventType

def toI32 : IdRegisterEventType → Int32
  | none => 0
  | register => 1
  | transfer => 2
  | changeRecovery => 3

def tryFrom (n : Int32) : Option IdRegisterEventType :=
  [none, register, transfer, changeRecovery].find? fun t => t.toI32 == n

def orDefault (n : Int32) : IdRegisterEventType := (tryFrom n).getD none

end IdRegisterEventType

def tierPro : Int32 := 1

def OnChainEventType.orDefault (n : Int32) : OnChainEventType := (tryFrom n).getD eventTypeNone

/-- `MessageType::try_from(n).unwrap_or(MessageType::None)`. -/
def MessageType.orDefault (n : Int32) : MessageType := (tryFrom n).getD none

def Message.msgType (m : Message) : MessageType :=
  match m.data with
  | some data => .orDefault data.type
  | none => .none

end Hypersnap
