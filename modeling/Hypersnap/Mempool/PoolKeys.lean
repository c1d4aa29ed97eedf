import Hypersnap.Mempool.Mempool

/-!
# `Mempool.PoolKeys` — which messages the key of the mempool tells apart

A pool is a map from keys to messages. The key of a message is its kind, a time and a text: the hash of a user
message, the transaction hash with the log index of an event on chain, the number of a transfer of a name, the
number of a block event. The last two are both a plain decimal under the kind of validator messages. So a
transfer and a block event with one number and one time have the same key, and these are the only different
messages that have (`mempoolKey_identifies_iff`).
-/

namespace Hypersnap

/-! ## Texts -/

theorem map_ofNat_decimal (n : Nat) : (decimal n).map (fun b => Char.ofNat b.toNat) = Nat.toDigits 10 n := by
  rw [decimal, List.map_map]
  refine (List.map_congr_left fun c hc => ?_).trans (List.map_id _)
  have hdigit := (Char.isDigit_iff_toNat.1 (Nat.isDigit_of_mem_toDigits (by decide) (by decide) hc)).2
  have hnine : '9'.toNat = 57 := rfl
  have hbyte : c.toNat.toUInt8.toNat = c.toNat := by
    rw [Nat.toUInt8_eq, UInt8.toNat_ofNat', Nat.mod_eq_of_lt (by omega)]
  rw [Function.comp_apply, hbyte, Char.ofNat_toNat]
  rfl

theorem decimal_injective : Function.Injective decimal := by
  intro a b h
  have hdigits : Nat.toDigits 10 a = Nat.toDigits 10 b := by
    rw [← map_ofNat_decimal, ← map_ofNat_decimal, h]
  calc
    a = Nat.ofDigitChars 10 (Nat.toDigits 10 a) 0 := Nat.ofDigitChars_ten_toDigits.symm
    _ = Nat.ofDigitChars 10 (Nat.toDigits 10 b) 0 := by rw [hdigits]
    _ = b := Nat.ofDigitChars_ten_toDigits

theorem length_decimal_le (n : UInt64) : (decimal n.toNat).length ≤ 20 := by
  rw [decimal, List.length_map, Nat.length_toDigits_le_iff (by decide) (by decide)]
  have := n.toNat_lt
  omega

theorem number_inj {a b : UInt64} (h : decimal a.toNat = decimal b.toNat) : a = b :=
  UInt64.toNat_inj.1 (decimal_injective h)

/-! ## Identities -/

/-- What makes a message the one it is, by kind. -/
inductive MempoolIdentity where
  | userMessage (hash : Bytes)
  | onchainEvent (transactionHash : Bytes) (logIndex : UInt32)
  | fnameTransfer (id : UInt64)
  | blockEvent (seqnum : UInt64)
deriving DecidableEq, Repr

section
variable [Hex]

namespace MempoolIdentity

def kind : MempoolIdentity → MempoolMessageKind
  | userMessage _ => .userMessage
  | onchainEvent .. | fnameTransfer _ | blockEvent _ => .validatorMessage

def text : MempoolIdentity → Bytes
  | userMessage hash => Hex.encode hash
  | onchainEvent transactionHash logIndex => Hex.encode transactionHash ++ decimal logIndex.toNat
  | fnameTransfer id => decimal id.toNat
  | blockEvent seqnum => decimal seqnum.toNat

/-- Hashes of transactions have 32 bytes. -/
def WellSized : MempoolIdentity → Prop
  | onchainEvent transactionHash _ => transactionHash.length = 32
  | _ => True

/-- A transfer and a block event with one number. -/
def Confused : MempoolIdentity → MempoolIdentity → Prop
  | fnameTransfer id, blockEvent seqnum => id = seqnum
  | blockEvent seqnum, fnameTransfer id => id = seqnum
  | _, _ => False

theorem text_onchainEvent_ne {hash : Bytes} (hhash : hash.length = 32) (logIndex : UInt32) (n : UInt64) :
    (onchainEvent hash logIndex).text ≠ decimal n.toNat := by
  intro h
  have hlen := congrArg List.length h
  rw [text, List.length_append, Hex.length_encode, hhash] at hlen
  have := length_decimal_le n
  omega

/-- **What kind and text tell apart.** -/
theorem kind_text_eq_iff {a b : MempoolIdentity} (ha : a.WellSized) (hb : b.WellSized) :
    a.kind = b.kind ∧ a.text = b.text ↔ a = b ∨ a.Confused b := by
  constructor
  · rintro ⟨hkind, htext⟩
    cases a with
    | userMessage hash =>
      cases b with
      | userMessage hash' => exact .inl (congrArg _ (Hex.encode_injective htext))
      | onchainEvent | fnameTransfer | blockEvent => cases hkind
    | onchainEvent hash logIndex =>
      cases b with
      | userMessage => cases hkind
      | onchainEvent hash' logIndex' =>
        have hlen : (Hex.encode hash).length = (Hex.encode hash').length := by
          rw [Hex.length_encode, Hex.length_encode, show hash.length = 32
            from ha, show hash'.length = 32 from hb]
        obtain ⟨hhash, hindex⟩ := List.append_inj htext hlen
        rw [Hex.encode_injective hhash, UInt32.toNat_inj.1 (decimal_injective hindex)]
        exact .inl rfl
      | fnameTransfer id => exact absurd htext (text_onchainEvent_ne ha _ _)
      | blockEvent seqnum => exact absurd htext (text_onchainEvent_ne ha _ _)
    | fnameTransfer id =>
      cases b with
      | userMessage => cases hkind
      | onchainEvent hash logIndex => exact absurd htext.symm (text_onchainEvent_ne hb _ _)
      | fnameTransfer id' => exact .inl (congrArg _ (number_inj htext))
      | blockEvent seqnum => exact .inr (number_inj htext)
    | blockEvent seqnum =>
      cases b with
      | userMessage => cases hkind
      | onchainEvent hash logIndex => exact absurd htext.symm (text_onchainEvent_ne hb _ _)
      | fnameTransfer id => exact .inr (number_inj htext).symm
      | blockEvent seqnum' => exact .inl (congrArg _ (number_inj htext))
  · rintro (rfl | hconfused)
    · exact ⟨rfl, rfl⟩
    · cases a <;> cases b <;> first | exact hconfused.elim | (cases hconfused; exact ⟨rfl, rfl⟩)

omit [Hex] in
theorem Confused.ne {a b : MempoolIdentity} (h : a.Confused b) : a ≠ b := by
  rintro rfl
  cases a <;> exact h

end MempoolIdentity

def MempoolMessage.identity : MempoolMessage → Option MempoolIdentity
  | .userMessage message => some (.userMessage message.hash)
  | .onchainEvent event | .onchainEventForMigration event =>
    some (.onchainEvent event.transactionHash event.logIndex)
  | .fnameTransfer transfer => some (.fnameTransfer transfer.id)
  | .blockEvent _ event => event.seqnum.map .blockEvent

/-- A message that has a key has an identity, which makes up the key together with a time. -/
theorem MempoolMessage.identity_of_mempoolKey {m : MempoolMessage} {key : MempoolKey}
    (h : m.mempoolKey = some key) :
    ∃ identity, m.identity = some identity ∧ key.messageKind = identity.kind ∧
    key.identity = identity.text := by
  cases m with
  | userMessage message =>
    obtain ⟨data, -, rfl⟩ := Option.map_eq_some_iff.1 h
    exact ⟨_, rfl, rfl, rfl⟩
  | onchainEvent event | onchainEventForMigration event =>
    cases h
    exact ⟨_, rfl, rfl, rfl⟩
  | fnameTransfer transfer =>
    obtain ⟨proof, -, rfl⟩ := Option.map_eq_some_iff.1 h
    exact ⟨_, rfl, rfl, rfl⟩
  | blockEvent forShard event =>
    obtain ⟨data, hdata, rfl⟩ := Option.map_eq_some_iff.1 h
    refine ⟨.blockEvent data.seqnum, ?_, rfl, rfl⟩
    simp only [identity, BlockEvent.seqnum, hdata, Option.map_some]

/-- **What keys tell apart.** Messages with one key are of one kind and have the same identity, exactly if
    they are not a transfer of a name and a block event with one number and one time. -/
theorem mempoolKey_identifies_iff (a b : MempoolMessage) (key key' : MempoolKey)
    (identity identity' : MempoolIdentity) (ha : a.mempoolKey = some key) (hb : b.mempoolKey = some key')
    (hia : a.identity = some identity) (hib : b.identity = some identity') (hsize : identity.WellSized)
    (hsize' : identity'.WellSized) :
    (key = key' → identity = identity') ↔
      ¬ (identity.Confused identity' ∧ key.timestamp = key'.timestamp) := by
  obtain ⟨i, hi, hkind, htext⟩ := MempoolMessage.identity_of_mempoolKey ha
  obtain ⟨i', hi', hkind', htext'⟩ := MempoolMessage.identity_of_mempoolKey hb
  cases hia.symm.trans hi
  cases hib.symm.trans hi'
  obtain ⟨kind, time, text⟩ := key
  obtain ⟨kind', time', text'⟩ := key'
  cases hkind
  cases hkind'
  cases htext
  cases htext'
  simp only [MempoolKey.mk.injEq]
  constructor
  · rintro h ⟨hconfused, htime⟩
    obtain ⟨hkinds, htexts⟩ := (MempoolIdentity.kind_text_eq_iff hsize hsize').2 (.inr hconfused)
    exact hconfused.ne (h ⟨hkinds, htime, htexts⟩)
  · rintro h ⟨hkinds, htime, htexts⟩
    exact ((MempoolIdentity.kind_text_eq_iff hsize hsize').1 ⟨hkinds, htexts⟩).resolve_right
      fun hc => h ⟨hc, htime⟩

end

/-! ### A transfer and a block event -/

def sampleTransfer (id timestamp : UInt64) : MempoolMessage :=
  .fnameTransfer ⟨id, 1, some ⟨timestamp, [97], [], [], 2, 1⟩⟩

def sampleBlockEvent (seqnum timestamp : UInt64) : MempoolMessage :=
  .blockEvent 1 ⟨[], some ⟨seqnum, 0, 1, 0, timestamp, none⟩⟩

/-- Under two numbers they have two keys. -/
theorem mempoolKey_identifies_numbers :
    let _ := lowerHex
    (sampleTransfer 5 100).mempoolKey ≠ (sampleBlockEvent 6 100).mempoolKey := by
  intro _
  have hiff := mempoolKey_identifies_iff (sampleTransfer 5 100) (sampleBlockEvent 6 100)
    ⟨.validatorMessage, 100, decimal 5⟩
    ⟨.validatorMessage, 100, decimal 6⟩ (.fnameTransfer 5) (.blockEvent 6) rfl rfl rfl rfl trivial trivial
  have hkeys := hiff.2 fun h => absurd (show (5 : UInt64) = 6 from h.1) (by decide)
  exact fun h => nomatch hkeys (Option.some.inj h)

/-- Under one number they have the same key, and both are routed to the pool of shard 1. -/
theorem mempoolKey_confuses_number :
    let _ := samplePlatform (keyScan [])
    let env : MempoolEnv := ⟨.mainnet, 1, 0, fun _ => none⟩
    routeMempoolMessage env (sampleTransfer 5 100) = some [1] ∧
      routeMempoolMessage env (sampleBlockEvent 5 100) = some [1] ∧
      (sampleTransfer 5 100).mempoolKey = (sampleBlockEvent 5 100).mempoolKey ∧
      (sampleTransfer 5 100).mempoolKey.isSome = true ∧
      (sampleTransfer 5 100).identity ≠ (sampleBlockEvent 5 100).identity := by
  intro _ env
  exact ⟨by decide +kernel, rfl, rfl, rfl, by decide⟩

end Hypersnap
