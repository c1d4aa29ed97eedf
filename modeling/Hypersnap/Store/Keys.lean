import Hypersnap.Lib.EState
import Hypersnap.Storage.Db

/-!
# `Store.Keys` — the keys messages are stored under, and how a message is stored

A stored message has one **primary key** `table · fid · set · timestamp · hash`. The fid takes four bytes
(the low 32 bits), the timestamp and hash together are the 24-byte `tsHash`, which is also the value of every
index entry. A message that carries its data as raw bytes is stored without the decoded data, and the data is
decoded again from these bytes when the message is read.
-/

namespace Hypersnap

open Overlay

/-- `prost`'s decoder of the message data; nothing is known about it. -/
class Prost where
  decodeMessageData : Bytes → Option MessageData

/-! ## Keys -/

def tsHashLength : Nat := 24

def hashLength : Nat := 20

/-- The set of primary keys a message type is stored in. -/
def typeToSetPostfix : MessageType → Except Failure UserPostfix
  | .castAdd | .castRemove => .ok .castMessage
  | .reactionAdd | .reactionRemove => .ok .reactionMessage
  | .verificationAddEthAddress | .verificationRemove => .ok .verificationMessage
  | .userDataAdd => .ok .userDataMessage
  | .linkAdd | .linkRemove => .ok .linkMessage
  | .usernameProof => .ok .usernameProofMessage
  | .lendStorage => .ok .lendStorageMessage
  | t => .error (.hub ⟨"internal_error", "unable to convert message type to set postfix: " ++ t.asStrName⟩)

def makeTsHash (timestamp : UInt32) (hash : Bytes) : Except Failure Bytes :=
  if hash.length = hashLength then .ok (toBeBytes timestamp ++ hash)
  else .error (.hub ⟨"internal_error", "hash length is not 20"⟩)

/-- The fid as a key holds it: its low 32 bits. -/
def makeFidKey (fid : UInt64) : Bytes := toBeBytes fid.toUInt32

/-- `read_fid_key`; a key that is too short panics. -/
def readFidKey (key : Bytes) (offset : Nat) : Except Failure UInt64 :=
  if offset + 4 ≤ key.length then .ok (fromBeBytes ((key.drop offset).take 4)).toUInt64 else .error .panic

def makeUserKey (root : UInt8) (fid : UInt64) : Bytes := root :: makeFidKey fid

def makeMessagePrimaryKey (root : UInt8) (fid : UInt64) (set : UInt8) (tsHash : Bytes) : Bytes :=
  makeUserKey root fid ++ set :: tsHash

def makeCastIdKey (castId : CastId) : Bytes := makeFidKey castId.fid ++ castId.hash

/-- A number as `{:x?}` prints it. -/
def hexByte (b : UInt8) : String := String.ofList (Nat.toDigits 16 b.toNat)

/-- `vec_to_u8_24`. -/
def vecToU8_24 (v : Bytes) : Except Failure Bytes :=
  if v.length = tsHashLength then .ok v
  else .error (.hub ⟨"bad_request.internal_error",
    "message_ts_hash is not 24 bytes: [" ++ ", ".intercalate (v.map hexByte) ++ "]"⟩)

@[simp] theorem length_makeFidKey (fid : UInt64) : (makeFidKey fid).length = 4 := rfl

theorem makeFidKey_readBack (fid : UInt64) :
    makeFidKey (fromBeBytes (makeFidKey fid)).toUInt64 = makeFidKey fid := by
  have hread : (fromBeBytes (makeFidKey fid)).toUInt64.toUInt32 = fid.toUInt32 := by
    rw [makeFidKey, fromBeBytes_toBeBytes]
    apply UInt32.toNat_inj.1
    have := fid.toUInt32.toNat_lt
    simp only [UInt64.toNat_toUInt32, Nat.toUInt64, UInt64.toNat_ofNat']
    omega
  rw [makeFidKey, hread]
  rfl

theorem readBack_eq_iff {fid : UInt64} :
    (fromBeBytes (makeFidKey fid)).toUInt64 = fid ↔ fid.toNat < 2 ^ 32 := by
  have hlt := fid.toNat_lt
  rw [makeFidKey, fromBeBytes_toBeBytes, ← UInt64.toNat_inj]
  simp only [Nat.toUInt64, UInt64.toNat_ofNat', UInt64.toNat_toUInt32]
  omega

theorem makeTsHash_ok_iff {timestamp : UInt32} {hash ts : Bytes} :
    makeTsHash timestamp hash = .ok ts ↔ hash.length = hashLength ∧ ts = toBeBytes timestamp ++ hash := by
  unfold makeTsHash
  split <;> simp_all [eq_comm]

/-! ## Stored messages -/

/-- What a lookup sees while a batch is pending: the staged value or deletion, else the database. -/
def getFromDbOrTxn (db : RocksDB) (txn : RocksDbTransactionBatch) (key : Bytes) : Option DbValue :=
  commit db txn key

/-- `message_bytes_decode`: the data of a message that carries raw bytes is what these bytes decode to. -/
def messageBytesDecode [Prost] (m : Message) : Message :=
  match m.dataBytes with
  | none | some [] => m
  | some (b :: bs) => { m with data := Prost.decodeMessageData (b :: bs) }

def messageEncode (m : Message) : DbValue :=
  match m.dataBytes with
  | none | some [] => .message m
  | some (_ :: _) => .message { m with data := none }

def messageDecode [Prost] : DbValue → Except HubError Message
  | .message m => .ok (messageBytesDecode m)
  | _ => .error .decodeError

/-- A message whose data is what its raw bytes, if any, decode to. Messages that come in by gossip or RPC have
    been through `message_bytes_decode`; those of a block that another node proposed have not. -/
def Message.Normal [Prost] (m : Message) : Prop := messageBytesDecode m = m

variable {m : Message}

theorem messageDecode_messageEncode [Prost] (h : m.Normal) : messageDecode (messageEncode m) = .ok m := by
  rw [Message.Normal] at h
  obtain ⟨data, hash, hashScheme, signature, scheme, signer, bytes⟩ := m
  match bytes with
  | none => simp [messageEncode, messageDecode, messageBytesDecode]
  | some [] => simp [messageEncode, messageDecode, messageBytesDecode]
  | some (b :: bs) => simpa [messageEncode, messageDecode, messageBytesDecode] using h

def getMessageByKey [Prost] (db : RocksDB) (txn : RocksDbTransactionBatch) (key : Bytes) :
    Except Failure (Option Message) :=
  match getFromDbOrTxn db txn key with
  | none => .ok none
  | some value =>
    match messageDecode value with
    | .ok m => .ok (some m)
    | .error e => .error (.hub e)

def getMessage [Prost] (db : RocksDB) (txn : RocksDbTransactionBatch) (root : UInt8) (fid : UInt64)
    (set : UInt8) (tsHash : Bytes) : Except Failure (Option Message) :=
  getMessageByKey db txn (makeMessagePrimaryKey root fid set tsHash)

/-- The primary key under which `put_message_transaction` and `delete_message_transaction` write. -/
def primaryKeyOf (root : UInt8) (m : Message) : Except Failure Bytes := do
  let some data := m.data | .error .panic
  let tsHash ← makeTsHash data.timestamp m.hash
  let some type := MessageType.tryFrom data.type | .error .panic
  let set ← typeToSetPostfix type
  .ok (makeMessagePrimaryKey root data.fid set.toByte tsHash)

theorem messageEncode_ne_bytes {bs : Bytes} : messageEncode m ≠ .bytes bs := by
  unfold messageEncode
  split <;> simp

theorem primaryKeyOf_root {root : UInt8} {key : Bytes} (h : primaryKeyOf root m = .ok key) :
    key[0]? = some root := by
  unfold primaryKeyOf at h
  cases hdata : m.data with
  | none => simp [hdata] at h
  | some data =>
    simp only [hdata] at h
    obtain ⟨ts, -, h⟩ := EState.except_bind_eq_ok.1 h
    cases htype : MessageType.tryFrom data.type with
    | none => simp [htype] at h
    | some type =>
      simp only [htype] at h
      obtain ⟨set, -, h⟩ := EState.except_bind_eq_ok.1 h
      rw [← Except.ok.inj h]
      rfl

end Hypersnap
