import Hypersnap.Trie.TrieKey

/-!
# `Trie.KeyCodec` — keys of the trie are read back

Three families of keys share the trie: messages, on-chain events and names. The byte after the fid keeps them
apart: events use 1 to 6, names 7, and messages their type times 8. An **entry** is what a key is built from;
on entries with fids of 32 bits, `decode` gives it back, so that different entries have different keys, and
the lengths are such that none is a proper prefix of another, which is what the trie needs.
-/

namespace Hypersnap

namespace TrieKey

structure DecodedTrieKey where
  virtualShard : UInt8
  fid : UInt64
  onchainMessageType : Option UInt8
  messageType : Option UInt8
  rest : Bytes
deriving DecidableEq, Repr

/-- The type byte below 8 is of an on-chain event or a name, else of a message. -/
def decode (key : Bytes) : Except TrieError DecodedTrieKey :=
  if key.length < uncompactedLength then .error .keyLengthTooShort
  else
    let messageTypePos := 1 + 4
    let virtualShard := key.getD 0 0
    match readFidKey key 1 with
    | .error _ => .error (.panic "range end index out of range for slice")
    | .ok fid =>
      let typeByte := key.getD messageTypePos 0
      let (onchainMessageType, messageType) :=
        if typeByte < (1 : UInt8) <<< 3 then (some typeByte, none) else (none, some (typeByte >>> 3))
      .ok ⟨virtualShard, fid, onchainMessageType, messageType, key.drop (messageTypePos + 1)⟩

end TrieKey

/-! ## Entries -/

/-- What a key is built from. -/
inductive TrieEntry where
  | message (fid : UInt64) (type : MessageType) (hash : Bytes)
  | onChainEvent (fid : UInt64) (type : Int32) (transactionHash : Bytes) (logIndex : UInt32)
  | fname (fid : UInt64) (name : Bytes)
deriving DecidableEq

/-- The users under which a message stands: its own, and the borrower of a lend. -/
def Message.trieFids (m : Message) : List UInt64 :=
  match m.data.bind (·.body) with
  | some (.lendStorageBody toFid _ _) => [m.fid, toFid]
  | _ => [m.fid]

namespace TrieEntry

open TrieKey

def fid : TrieEntry → UInt64
  | message fid .. | onChainEvent fid .. | fname fid _ => fid

/-- The kind and type that a key shows. -/
def typeByte : TrieEntry → UInt8
  | message _ type _ => asU8 type.toI32 <<< 3
  | onChainEvent _ type .. => asU8 type
  | fname .. => fnameMessageType

def onchainMessageType : TrieEntry → Option UInt8
  | message .. => none
  | onChainEvent _ type .. => some (asU8 type)
  | fname .. => some fnameMessageType

def messageType : TrieEntry → Option UInt8
  | message _ type _ => some (asU8 type.toI32)
  | onChainEvent .. | fname .. => none

/-- The bytes after the type. -/
def rest : TrieEntry → Bytes
  | message _ _ hash => hash
  | onChainEvent _ _ transactionHash logIndex => transactionHash ++ toBeBytes logIndex
  | fname _ name => name ++ List.replicate (usernameMaxLength - name.length) 0

/-- The entries that a node makes keys of, with fids of 32 bits. -/
structure Valid (e : TrieEntry) : Prop where
  fid_lt : e.fid.toNat < 2 ^ 32
  parts : match e with
    | message _ _ hash => hash.length = 20
    | onChainEvent _ type transactionHash _ => 1 ≤ type ∧ type ≤ 6 ∧ transactionHash.length = 32
    | fname _ name => name.length ≤ 20 ∧ 0 ∉ name

/-- Not a message without a type, which no store accepts. -/
def Typed : TrieEntry → Prop
  | message _ type _ => type ≠ .none
  | onChainEvent .. | fname .. => True

def key [Sha256] (e : TrieEntry) : Bytes := forFid e.fid ++ e.typeByte :: e.rest

/-- An entry and its key, as the program builds it. -/
inductive KeyOf [Sha256] : TrieEntry → Bytes → Prop
  | message {m : Message} {keys : List Bytes} {fid : UInt64} {key : Bytes} (hkeys : forMessage m = some keys)
      (hkey : (fid, key) ∈ m.trieFids.zip keys) (hfid : fid.toNat < 2 ^ 32) (hhash : m.hash.length = 20) :
      KeyOf (.message fid m.msgType m.hash) key
  | onChainEvent {event : OnChainEvent} (hfid : event.fid.toNat < 2 ^ 32)
    (htype : 1 ≤ event.type ∧ event.type ≤ 6) (hhash : event.transactionHash.length = 32) :
      KeyOf (.onChainEvent event.fid event.type event.transactionHash event.logIndex) (forOnchainEvent event)
  | fname {fid : UInt64} {name : Bytes} (hfid : fid.toNat < 2 ^ 32) (hlength : name.length ≤ 20)
    (hnul : 0 ∉ name) :
      KeyOf (.fname fid name) (forFname fid name)

section keys
variable [Sha256] {e e' : TrieEntry} {k : Bytes}

theorem forMessage_eq {m : Message} {keys : List Bytes} (h : forMessage m = some keys) :
    keys = m.trieFids.map fun fid => key (.message fid m.msgType m.hash) := by
  unfold forMessage at h
  cases hdata : m.data with
  | none =>
    rw [hdata] at h
    cases h
  | some data =>
    rw [hdata] at h
    cases hbody : data.body with
    | none =>
      simp only [hbody, Option.some.injEq] at h
      simp [← h, Message.trieFids, hdata, hbody, key, forMessageType, fid, typeByte, rest]
    | some body =>
      -- a lend has two keys, everything else one
      cases body <;> simp only [hbody, Option.some.injEq] at h <;>
        simp [← h, Message.trieFids, hdata, hbody, key, forMessageType, fid, typeByte, rest]

theorem KeyOf.eq (h : KeyOf e k) : e.Valid ∧ k = e.key := by
  cases h with
  | message hkeys hkey hfid hhash =>
    refine ⟨⟨hfid, hhash⟩, ?_⟩
    rw [forMessage_eq hkeys, ← List.map_prod_left_eq_zip] at hkey
    obtain ⟨fid, -, heq⟩ := List.mem_map.1 hkey
    cases heq
    rfl
  | onChainEvent hfid htype hhash =>
    exact ⟨⟨hfid, htype.1, htype.2, hhash⟩, by simp [forOnchainEvent, key, fid, typeByte, rest]⟩
  | fname hfid hlength hnul =>
    exact ⟨⟨hfid, hlength, hnul⟩, by simp [forFname, key, fid, typeByte, rest]⟩

end keys

/-! ## Reading a key back -/

theorem readFidKey_makeFidKey {fid : UInt64} (h : fid.toNat < 2 ^ 32) (shard : UInt8) (rest : Bytes) :
    readFidKey (shard :: makeFidKey fid ++ rest) 1 = .ok fid := by
  have hfid : fromBeBytes (makeFidKey fid) = fid.toNat := by
    rw [makeFidKey, fromBeBytes_toBeBytes, UInt64.toNat_toUInt32, Nat.mod_eq_of_lt h]
  have htake : ((shard :: makeFidKey fid ++ rest).drop 1).take 4 = makeFidKey fid := by
    rw [List.cons_append, List.drop_succ_cons, List.drop_zero, List.take_left' (length_makeFidKey fid)]
  unfold readFidKey
  rw [if_pos (by simp), htake, hfid]
  simp

theorem onChainType_cases {type : Int32} (h : 1 ≤ type ∧ type ≤ 6) :
    type = 1 ∨ type = 2 ∨ type = 3 ∨ type = 4 ∨ type = 5 ∨ type = 6 := by
  have hlow : (1 : Int) ≤ type.toInt := Int32.le_iff_toInt_le.1 h.1
  have hhigh : type.toInt ≤ 6 := Int32.le_iff_toInt_le.1 h.2
  have hint : ∀ n : Int32, type.toInt = n.toInt → type = n := fun n => Int32.toInt_inj.1
  have hcases : type.toInt = 1 ∨ type.toInt = 2 ∨ type.toInt = 3 ∨ type.toInt = 4 ∨ type.toInt = 5 ∨
      type.toInt = 6 := by
    omega
  exact hcases.imp (hint 1) (·.imp (hint 2) (·.imp (hint 3) (·.imp (hint 4) (·.imp (hint 5) (hint 6)))))

theorem messageType_byte {type : MessageType} (h : type ≠ .none) :
    ¬ asU8 type.toI32 <<< 3 < 8 ∧ (asU8 type.toI32 <<< 3) >>> 3 = asU8 type.toI32 := by
  cases type with
  | none => exact absurd rfl h
  | _ => decide

theorem messageType_low (type : MessageType) : (asU8 type.toI32 <<< 3) % 8 = 0 := by
  cases type <;> rfl

theorem messageType_byte_injective : Function.Injective fun type : MessageType => asU8 type.toI32 <<< 3 := by
  have hfind : ∀ type : MessageType,
      (MessageType.all.find? fun t => asU8 t.toI32 <<< 3 == asU8 type.toI32 <<< 3) = some type := by
    intro type
    cases type <;> rfl
  intro type type' h
  dsimp only at h
  exact Option.some.inj ((hfind type).symm.trans (h ▸ hfind type'))

theorem asU8_onChainType_inj {type type' : Int32} (h : 1 ≤ type ∧ type ≤ 6) (h' : 1 ≤ type' ∧ type' ≤ 6)
    (heq : asU8 type = asU8 type') : type = type' := by
  have hback : ∀ {t : Int32}, 1 ≤ t ∧ t ≤ 6 → (asU8 t).toNat.toInt32 = t := by
    intro t ht
    rcases onChainType_cases ht with rfl | rfl | rfl | rfl | rfl | rfl <;> rfl
  rw [← hback h, ← hback h', heq]

theorem takeWhile_padded {name : Bytes} (h : 0 ∉ name) (n : Nat) :
    (name ++ List.replicate n 0).takeWhile (· ≠ 0) = name := by
  have hall : ∀ b ∈ name, decide (b ≠ 0) = true :=
    fun b hb => decide_eq_true fun hzero : b = 0 => h (hzero ▸ hb)
  rw [List.takeWhile_append_of_pos hall]
  cases n <;> simp [List.replicate_succ]

section codec
variable [Sha256] {e e' : TrieEntry} {k k' : Bytes}

omit [Sha256] in
theorem Valid.length_rest (h : e.Valid) :
    e.rest.length = if 1 ≤ e.typeByte ∧ e.typeByte ≤ 6 then 36 else 20 := by
  have hparts := h.parts
  cases e with
  | message fid type hash =>
    have hbyte : ¬ ((1 : UInt8) ≤ asU8 type.toI32 <<< 3 ∧ asU8 type.toI32 <<< 3 ≤ 6) := by
      cases type <;> decide
    rw [typeByte, if_neg hbyte]
    exact hparts
  | onChainEvent fid type transactionHash logIndex =>
    obtain ⟨hlow, hhigh, hhash⟩ := hparts
    have htype : 1 ≤ asU8 type ∧ asU8 type ≤ 6 := by
      rcases onChainType_cases ⟨hlow, hhigh⟩ with rfl | rfl | rfl | rfl | rfl | rfl <;> decide
    rw [typeByte, if_pos htype, rest, List.length_append, hhash, length_toBeBytes]
  | fname fid name =>
    have hlength : name.length + (20 - name.length) = 20 := by have := hparts.1; omega
    rw [typeByte, if_neg (by decide)]
    simpa [rest, usernameMaxLength] using hlength

omit [Sha256] in
theorem Valid.type_eq (h : e.Valid) (htyped : e.Typed) :
    (if e.typeByte < 8 then (some e.typeByte, none) else (none, some (e.typeByte >>> 3))) =
      (e.onchainMessageType, e.messageType) := by
  have hparts := h.parts
  cases e with
  | message fid type hash =>
    obtain ⟨hge, hshift⟩ := messageType_byte htyped
    rw [typeByte, if_neg hge, hshift]
    rfl
  | onChainEvent fid type transactionHash logIndex =>
    have hlt : asU8 type < 8 := by
      rcases onChainType_cases ⟨hparts.1, hparts.2.1⟩ with rfl | rfl | rfl | rfl | rfl | rfl <;> decide
    rw [typeByte, if_pos hlt]
    rfl
  | fname fid name => rfl

/-- **A key is read back.** -/
theorem Valid.decode_key (h : e.Valid) (htyped : e.Typed) :
    decode e.key = .ok ⟨fidShard e.fid, e.fid, e.onchainMessageType, e.messageType, e.rest⟩ := by
  have hlength : ¬ e.key.length < uncompactedLength := by
    have hrest : 20 ≤ e.rest.length := by
      rw [h.length_rest]
      split <;> decide
    simp only [key, forFid, List.length_append, List.length_cons, length_makeFidKey, uncompactedLength]
    omega
  have hfid : readFidKey e.key 1 = .ok e.fid := readFidKey_makeFidKey h.fid_lt _ _
  have htype : e.key.getD (1 + 4) 0 = e.typeByte := rfl
  have hrest : e.key.drop (1 + 4 + 1) = e.rest := rfl
  have hshard : e.key.getD 0 0 = fidShard e.fid := rfl
  unfold decode
  rw [if_neg hlength, hfid]
  dsimp only
  rw [htype, hrest, hshard, show (1 : UInt8) <<< 3 = 8 from rfl, h.type_eq htyped]

omit [Sha256] in
theorem Valid.ext (h : e.Valid) (h' : e'.Valid) (hfid : e.fid = e'.fid) (htype : e.typeByte = e'.typeByte)
    (hrest : e.rest = e'.rest) : e = e' := by
  have hparts := h.parts
  have hparts' := h'.parts
  -- the low bits are set for events and names, and for these only
  have hlow : ∀ {t : Int32}, 1 ≤ t ∧ t ≤ 6 → asU8 t % 8 ≠ 0 ∧ asU8 t ≠ 7 := by
    intro t ht
    rcases onChainType_cases ht with rfl | rfl | rfl | rfl | rfl | rfl <;> decide
  have hmessage : ∀ {type : MessageType} {b : UInt8}, asU8 type.toI32 <<< 3 = b → b % 8 ≠ 0 → False :=
    fun heq hb => hb (heq ▸ messageType_low _)
  cases e with
  | message fid type hash =>
    cases e' with
    | message fid' type' hash' =>
      obtain rfl : type = type' := messageType_byte_injective htype
      cases hfid
      cases hrest
      rfl
    | onChainEvent => exact (hmessage htype (hlow ⟨hparts'.1, hparts'.2.1⟩).1).elim
    | fname => exact (hmessage (b := fnameMessageType) htype (by decide)).elim
  | onChainEvent fid type transactionHash logIndex =>
    have hrange := And.intro hparts.1 hparts.2.1
    cases e' with
    | message => exact (hmessage htype.symm (hlow hrange).1).elim
    | onChainEvent fid' type' transactionHash' logIndex' =>
      obtain rfl : type = type' := asU8_onChainType_inj hrange ⟨hparts'.1, hparts'.2.1⟩ htype
      obtain ⟨hhash, hlog⟩ := List.append_inj hrest (hparts.2.2.trans hparts'.2.2.symm)
      obtain rfl := toBeBytes_injective hlog
      cases hfid
      cases hhash
      rfl
    | fname => exact absurd htype (hlow hrange).2
  | fname fid name =>
    cases e' with
    | message => exact (hmessage (b := fnameMessageType) htype.symm (by decide)).elim
    | onChainEvent fid' type' => exact absurd htype.symm (hlow ⟨hparts'.1, hparts'.2.1⟩).2
    | fname fid' name' =>
      have hname := congrArg (List.takeWhile (· ≠ 0)) hrest
      rw [rest, rest, takeWhile_padded hparts.2, takeWhile_padded hparts'.2] at hname
      cases hfid
      cases hname
      rfl

theorem typeByte_eq_of_isPrefix (h : e.key <+: e'.key) :
    makeFidKey e.fid = makeFidKey e'.fid ∧ e.typeByte = e'.typeByte := by
  obtain ⟨tail, htail⟩ := h
  refine ⟨?_, Option.some.inj (congrArg (fun b : Bytes => b[5]?) htail)⟩
  exact congrArg (fun b : Bytes => (b.drop 1).take 4) htail

theorem Valid.key_inj (h : e.Valid) (h' : e'.Valid) (heq : e.key = e'.key) : e = e' := by
  obtain ⟨hfid, htype⟩ := typeByte_eq_of_isPrefix (heq ▸ List.prefix_rfl : e.key <+: e'.key)
  refine h.ext h' ?_ htype (congrArg (List.drop 6) heq)
  have hread := readFidKey_makeFidKey h.fid_lt 0 []
  rw [hfid] at hread
  exact Except.ok.inj (hread.symm.trans (readFidKey_makeFidKey h'.fid_lt 0 []))

theorem Valid.key_eq_of_isPrefix (h : e.Valid) (h' : e'.Valid) (hpre : e.key <+: e'.key) :
    e.key = e'.key := by
  refine hpre.eq_of_length ?_
  simp only [key, forFid, List.length_append, List.length_cons, length_makeFidKey]
  rw [h.length_rest, h'.length_rest, (typeByte_eq_of_isPrefix hpre).2]

/-- Keys of entries: different for different entries, none a proper prefix of another, and read back. -/
theorem trieKey_codec (h : KeyOf e k) (h' : KeyOf e' k') : (e ≠ e' → k ≠ k') ∧ (k <+: k' → k = k') ∧
      (e.Typed → decode k = .ok ⟨fidShard e.fid, e.fid, e.onchainMessageType, e.messageType, e.rest⟩) := by
  obtain ⟨hvalid, rfl⟩ := h.eq
  obtain ⟨hvalid', rfl⟩ := h'.eq
  exact ⟨fun hne heq => hne (hvalid.key_inj hvalid' heq), hvalid.key_eq_of_isPrefix hvalid',
    hvalid.decode_key⟩

end codec

end TrieEntry

@[reducible] def zeroSha : Sha256 := ⟨fun _ => Vector.replicate 32 0⟩

/-- A cast of fid 1 and the name `a` of fid 1. -/
theorem trieKey_codec_sample :
    let _ := zeroSha
    let cast : Message :=
      ⟨some ⟨MessageType.castAdd.toI32, 1, 0, 1, none⟩, List.replicate 20 9, 1, [], 1, [], none⟩
    TrieKey.forMessage cast ≠ some [TrieKey.forFname 1 [97]] ∧
      TrieKey.decode (TrieKey.forMessageType 1 1 ++ List.replicate 20 9) =
        .ok ⟨TrieKey.fidShard 1, 1, none, some 1, List.replicate 20 9⟩ := by
  intro _ cast
  have hcast : TrieEntry.KeyOf (.message 1 .castAdd (List.replicate 20 9))
      (TrieKey.forMessageType 1 1 ++ List.replicate 20 9) :=
    .message (m := cast) rfl (.head _) (by decide) rfl
  have hname : TrieEntry.KeyOf (.fname 1 [97]) (TrieKey.forFname 1 [97]) :=
    .fname (by decide) (by decide) (by decide)
  obtain ⟨hne, -, hdecode⟩ := TrieEntry.trieKey_codec hcast hname
  exact ⟨fun heq => hne (by simp) (List.cons.inj (Option.some.inj heq)).1, hdecode fun htype => nomatch htype⟩

end Hypersnap
