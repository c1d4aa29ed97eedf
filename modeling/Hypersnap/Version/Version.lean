import Hypersnap.Core.Bytes

/-!
# `Version.Version` — Farcaster time, engine versions and protocol features

Which rules apply to a block is decided by its timestamp alone: a schedule per network says from when each
engine version is active, and a feature is enabled from some version on.
-/

namespace Hypersnap

/-! ## Time -/

/-- Milliseconds from the Unix epoch to the Farcaster epoch. -/
def farcasterEpoch : UInt64 := 1609459200000

/-- Seconds since the Farcaster epoch. -/
structure FarcasterTime where
  time : UInt64
deriving DecidableEq, Repr

namespace FarcasterTime

def toU64 (t : FarcasterTime) : UInt64 := t.time

def toUnixSeconds (t : FarcasterTime) : UInt64 := t.time + farcasterEpoch / 1000

end FarcasterTime

/-! ## Networks -/

inductive FarcasterNetwork where
  | none
  | mainnet
  | testnet
  | devnet
deriving DecidableEq, Repr

namespace FarcasterNetwork

def toI32 : FarcasterNetwork → Int32
  | none => 0
  | mainnet => 1
  | testnet => 2
  | devnet => 3

def tryFrom (n : Int32) : Option FarcasterNetwork :=
  [none, mainnet, testnet, devnet].find? fun t => t.toI32 == n

end FarcasterNetwork

/-! ## Versions -/

inductive EngineVersion where
  | v0 | v1 | v2 | v3 | v4 | v5 | v6 | v7 | v8 | v9 | v10 | v11 | v12 | v13 | v14 | v15 | v16
deriving DecidableEq, Repr

inductive ProtocolFeature where
  | signerRevokeBug
  | farcasterPro
  | basenames
  | ensValidation
  | messageLengthCheckFix
  | primaryAddresses
  | usernameShardRoutingFix
  | futureTimestampValidation
  | dependentMessagesInBulkSubmit
  | decoupleShardZeroBlockProduction
  | writeDataToShardZero
  | readDataFromShardZero
  | userProfileToken
  | storageLending
  | eventIdBugFix
  | storageLendingLimitFix
  | stopRevokingExistingMessages
  | increaseUsernameProofSizeLimit
  | gaslessSigners
deriving DecidableEq, Repr

namespace EngineVersion

/-- The number of the version; versions are compared by it. -/
def toNat : EngineVersion → Nat
  | v0 => 0 | v1 => 1 | v2 => 2 | v3 => 3 | v4 => 4 | v5 => 5 | v6 => 6 | v7 => 7 | v8 => 8 | v9 => 9
  | v10 => 10 | v11 => 11 | v12 => 12 | v13 => 13 | v14 => 14 | v15 => 15 | v16 => 16

/-- When each version becomes active, in Unix seconds. -/
def scheduleMainnet : List (UInt64 × EngineVersion) :=
  [(0, v0), (1747333800, v1), (1747352400, v2), (1747356000, v3), (1747417200, v4), (1750093200, v5),
    (1752685200, v6),
    (1756141200, v7), (1756918800, v8), (1757523600, v9), (1758733200, v10), (1759942800, v11),
    (1759942800, v12),
    (1759942800, v13), (1761757200, v14), (1765386000, v15), (1778173200, v16)]

def scheduleTestnet : List (UInt64 × EngineVersion) :=
  [(0, v0), (1748970000, v5), (1752099060, v6), (1755291600, v7), (1755709200, v8), (1756918800, v9),
    (1757523600, v10),
    (1758733200, v11), (1758763200, v12), (1758906000, v13), (1761152400, v14), (1764783794, v15),
    (1777406400, v16)]

def scheduleDevnet : List (UInt64 × EngineVersion) := [(0, v16)]

def schedule : FarcasterNetwork → List (UInt64 × EngineVersion)
  | .mainnet => scheduleMainnet
  | .testnet => scheduleTestnet
  | _ => scheduleDevnet

/-- The last version of the schedule that is active. Every schedule starts at 0, so there is one. -/
def versionFor (time : FarcasterTime) (network : FarcasterNetwork) : EngineVersion :=
  match ((schedule network).filter fun s => decide (s.1 ≤ time.toUnixSeconds)).getLast? with
  | some s => s.2
  | none => v0

def isEnabled (version : EngineVersion) : ProtocolFeature → Bool
  | .signerRevokeBug => version == v1 || version == v3
  | .farcasterPro | .basenames | .ensValidation | .messageLengthCheckFix | .usernameShardRoutingFix
  | .primaryAddresses => decide (5 ≤ version.toNat)
  | .futureTimestampValidation => decide (6 ≤ version.toNat)
  | .dependentMessagesInBulkSubmit => decide (7 ≤ version.toNat)
  | .decoupleShardZeroBlockProduction => decide (8 ≤ version.toNat)
  | .writeDataToShardZero => decide (9 ≤ version.toNat)
  | .readDataFromShardZero | .userProfileToken => decide (10 ≤ version.toNat)
  | .storageLending => decide (11 ≤ version.toNat)
  | .eventIdBugFix => decide (12 ≤ version.toNat)
  | .storageLendingLimitFix => decide (13 ≤ version.toNat)
  | .stopRevokingExistingMessages => decide (14 ≤ version.toNat)
  | .increaseUsernameProofSizeLimit => decide (15 ≤ version.toNat)
  | .gaslessSigners => decide (16 ≤ version.toNat)

def protocolVersion : EngineVersion → UInt32
  | v0 | v1 | v2 | v3 | v4 => 1
  | v5 => 2
  | v6 => 3
  | v7 => 4
  | v8 => 5
  | v9 => 6
  | v10 => 7
  | v11 | v12 | v13 => 8
  | v14 => 9
  | v15 => 10
  | v16 => 11

end EngineVersion

end Hypersnap
