import Hypersnap.Lib.ByteMap
import Hypersnap.Lib.Overlay
import Hypersnap.Proto.Block

/-!
# `Storage.Db` — the database: byte-string keys, staged write batches, typed values

RocksDB as the stores and the trie use it: point lookups, ordered iteration, a write batch of puts and
deletes (`RocksDbTransactionBatch`), and an atomic commit. Keys are the real byte strings. Values are kept
**decoded**: a stored protobuf record is the record itself, so the prost encoding does not appear, and
reading a value of another kind is the decoding error of the source.
-/

namespace Hypersnap

/-! ## Tables -/

/-- First byte of every database key: which table the entry belongs to. -/
inductive RootPrefix where
  | block
  | shard
  | user
  | castsByParent
  | castsByMention
  | linksByTarget
  | reactionsByTarget
  | merkleTrieNode
  | hubEvents
  | fNameUserNameProof
  | onChainEvent
  | verificationByAddress
  | fNameUserNameProofByFid
  | userNameProofByName
  | blockIndex
  | blockEvent
  | lendStorageByRecipient
  | gaslessKey
  | hyperUser
  | hyperCastsByParent
  | hyperCastsByMention
  | hyperLinksByTarget
  | hyperReactionsByTarget
  | hyperVerificationByAddress
  | hyperUserNameProofByName
  | hyperLendStorageByRecipient
deriving DecidableEq, Repr

def RootPrefix.toByte : RootPrefix → UInt8
  | .block => 1
  | .shard => 2
  | .user => 3
  | .castsByParent => 4
  | .castsByMention => 5
  | .linksByTarget => 6
  | .reactionsByTarget => 7
  | .merkleTrieNode => 8
  | .hubEvents => 9
  | .fNameUserNameProof => 11
  | .onChainEvent => 12
  | .verificationByAddress => 14
  | .fNameUserNameProofByFid => 15
  | .userNameProofByName => 16
  | .blockIndex => 18
  | .blockEvent => 19
  | .lendStorageByRecipient => 22
  | .gaslessKey => 23
  | .hyperUser => 30
  | .hyperCastsByParent => 31
  | .hyperCastsByMention => 32
  | .hyperLinksByTarget => 33
  | .hyperReactionsByTarget => 34
  | .hyperVerificationByAddress => 35
  | .hyperUserNameProofByName => 36
  | .hyperLendStorageByRecipient => 37

/-- Which copy of the state a store writes: the pruned one, or the shadow copy that keeps every message. -/
inductive StateContext where
  | legacy
  | hyper
deriving DecidableEq, Repr

namespace StateContext

def allowsPruning : StateContext → Bool
  | .legacy => true
  | .hyper => false

/-- The table a store of this context uses in the place of a given one. -/
def rootPrefix : StateContext → RootPrefix → UInt8
  | .legacy, p => p.toByte
  | .hyper, .user => RootPrefix.hyperUser.toByte
  | .hyper, .castsByParent => RootPrefix.hyperCastsByParent.toByte
  | .hyper, .castsByMention => RootPrefix.hyperCastsByMention.toByte
  | .hyper, .linksByTarget => RootPrefix.hyperLinksByTarget.toByte
  | .hyper, .reactionsByTarget => RootPrefix.hyperReactionsByTarget.toByte
  | .hyper, .verificationByAddress => RootPrefix.hyperVerificationByAddress.toByte
  | .hyper, .userNameProofByName => RootPrefix.hyperUserNameProofByName.toByte
  | .hyper, .lendStorageByRecipient => RootPrefix.hyperLendStorageByRecipient.toByte
  | .hyper, p => p.toByte

end StateContext

/-- Sixth byte of a key in the user table: which set of the user's records the entry belongs to. In the table
    of gasless keys it is the second byte. -/
inductive UserPostfix where
  | castMessage
  | linkMessage
  | reactionMessage
  | verificationMessage
  | userDataMessage
  | usernameProofMessage
  | lendStorageMessage
  | castAdds
  | castRemoves
  | linkAdds
  | linkRemoves
  | reactionAdds
  | reactionRemoves
  | verificationAdds
  | verificationRemoves
  | userDataAdds
  | userNameProofAdds
  | linkCompactStateMessage
  | lendStorages
  | gaslessKeyUserNonce
  | gaslessKeyAppNonce
  | gaslessKeyLastUsedAt
  | gaslessKeyByFid
  | gaslessKeyByPublicKey
  | gaslessKeyCountByFid
deriving DecidableEq, Repr

def UserPostfix.toByte : UserPostfix → UInt8
  | .castMessage => 1
  | .linkMessage => 2
  | .reactionMessage => 3
  | .verificationMessage => 4
  | .userDataMessage => 6
  | .usernameProofMessage => 7
  | .lendStorageMessage => 8
  | .castAdds => 87
  | .castRemoves => 88
  | .linkAdds => 89
  | .linkRemoves => 90
  | .reactionAdds => 91
  | .reactionRemoves => 92
  | .verificationAdds => 93
  | .verificationRemoves => 94
  | .userDataAdds => 97
  | .userNameProofAdds => 99
  | .linkCompactStateMessage => 100
  | .lendStorages => 101
  | .gaslessKeyUserNonce => 102
  | .gaslessKeyAppNonce => 103
  | .gaslessKeyLastUsedAt => 104
  | .gaslessKeyByFid => 105
  | .gaslessKeyByPublicKey => 106
  | .gaslessKeyCountByFid => 107

/-- Second byte of a key in the table of on-chain events. -/
inductive OnChainEventPostfix where
  | onChainEvents
  | signerByFid
  | idRegisterByFid
deriving DecidableEq, Repr

def OnChainEventPostfix.toByte : OnChainEventPostfix → UInt8
  | .onChainEvents => 1
  | .signerByFid => 51
  | .idRegisterByFid => 52

/-! ## Values -/

/-- The protobuf record a trie node is stored as. -/
structure DbTrieNode where
  key : Bytes
  childChars : List UInt8
  items : UInt32
  childHashes : ByteMap Bytes

/-- A registered gasless key: the message that added it and the fid of the application that asked for it. -/
structure GaslessKeyRecord where
  message : Option Message
  requestFid : UInt64
deriving DecidableEq, Repr

/-- A stored value, by the kind of record it encodes. -/
inductive DbValue where
  | bytes (b : Bytes)
  | trieNode (n : DbTrieNode)
  | message (m : Message)
  | hubEvent (e : HubEvent)
  | onChainEvent (e : OnChainEvent)
  | userNameProof (p : UserNameProof)
  | blockEvent (e : BlockEvent)
  | gaslessKeyRecord (r : GaslessKeyRecord)
  | shardChunk (c : ShardChunk)
  | block (b : Block)

abbrev RocksDB := Overlay.KVMap Bytes DbValue

abbrev RocksDbTransactionBatch := Overlay.Batch Bytes DbValue

/-! ## Iteration -/

/-- `increment_vec_u8`: the string as a big-endian number, plus one. -/
def incrementVecU8 (v : Bytes) : Bytes :=
  let rec go : Bytes → Bytes × Bool
    | [] => ([], true)
    | b :: rest =>
      match go rest with
      | (rest', true) => if b = 255 then (0 :: rest', true) else ((b + 1) :: rest', false)
      | (rest', false) => (b :: rest', false)
  match go v with
  | (v', true) => 1 :: v'
  | (v', false) => v'

/-- RocksDB's iterator (`for_each_iterator_by_prefix`): the entries of the database with a key in
    `[start, stop)`, in whatever order; it reports only what is there. -/
class DbIterator where
  scan : RocksDB → Bytes → Bytes → List (Bytes × DbValue)
  sound : ∀ {db start stop k v}, (k, v) ∈ scan db start stop →
    bytesCompare start k ≠ .gt ∧ bytesCompare k stop = .lt ∧ db k = some v

end Hypersnap
