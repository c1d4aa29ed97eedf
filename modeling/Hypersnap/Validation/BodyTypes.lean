import Hypersnap.Engine.State

/-!
# `Validation.BodyTypes` — the type of a message and the variant of its body

A message has a type field and a body, which is one of several variants. Validation goes by the **body**: each
variant is checked by its own rules. Routing and the stores go by the **type**. `validate_message` never
compares the two; the type only decides how long the data may be. So every pair of a type and a variant is
accepted, and the messages of a pair have the body of their type only where the pair is one of the right ones
(`body_matches_iff`).
-/

namespace Hypersnap

open EState

/-- The variants of a body. -/
inductive BodyVariant where
  | castAdd
  | castRemove
  | reaction
  | verificationAddAddress
  | verificationRemove
  | userData
  | link
  | linkCompactState
  | usernameProof
  | lendStorage
  | keyAdd
  | keyRemove
  | frameAction
deriving DecidableEq, Repr

def Body.variant : Body → BodyVariant
  | castAddBody .. => .castAdd
  | castRemoveBody .. => .castRemove
  | reactionBody .. => .reaction
  | verificationAddAddressBody .. => .verificationAddAddress
  | verificationRemoveBody .. => .verificationRemove
  | userDataBody .. => .userData
  | linkBody .. => .link
  | linkCompactStateBody .. => .linkCompactState
  | usernameProofBody .. => .usernameProof
  | lendStorageBody .. => .lendStorage
  | keyAddBody .. => .keyAdd
  | keyRemoveBody .. => .keyRemove
  | frameActionBody .. => .frameAction

/-- The types a variant belongs to. -/
def BodyVariant.belongsTo : BodyVariant → MessageType → Bool
  | castAdd, t => t = .castAdd
  | castRemove, t => t = .castRemove
  | reaction, t => t = .reactionAdd ∨ t = .reactionRemove
  | verificationAddAddress, t => t = .verificationAddEthAddress
  | verificationRemove, t => t = .verificationRemove
  | userData, t => t = .userDataAdd
  | link, t => t = .linkAdd ∨ t = .linkRemove
  | linkCompactState, t => t = .linkCompactState
  | usernameProof, t => t = .usernameProof
  | lendStorage, t => t = .lendStorage
  | keyAdd, t => t = .keyAdd
  | keyRemove, t => t = .keyRemove
  | frameAction, t => t = .frameAction

/-- The type is known, and the body is there and of a variant that belongs to it. -/
def RightPair (type : Int32) (variant : Option BodyVariant) : Prop :=
  ∃ t v, MessageType.tryFrom type = some t ∧ variant = some v ∧ v.belongsTo t = true

def MessageData.BodyMatches (data : MessageData) : Prop := RightPair data.type (data.body.map Body.variant)

/-! ## A message of every pair -/

/-- What a sender has: an ENS name, an address with the claim to it, and a key to sign with. -/
structure Sender where
  ensName : Bytes
  address : Bytes
  claim : AddressClaim
  sign : Bytes → Bytes
  signer : Bytes

namespace Sender

variable (sender : Sender)

def bodyOf : BodyVariant → Body
  | .castAdd => .castAddBody none [] ⟨[104], 0, [], [], []⟩
  | .castRemove => .castRemoveBody (List.replicate 20 7)
  | .reaction => .reactionBody 1 (some (.url [104]))
  | .verificationAddAddress => .verificationAddAddressBody sender.address 0 sender.claim
  | .verificationRemove => .verificationRemoveBody (List.replicate 20 7) 0
  | .userData => .userDataBody 2 [104]
  | .link => .linkBody [104] (some 6)
  | .linkCompactState => .linkCompactStateBody [104] [6]
  | .usernameProof => .usernameProofBody ⟨0, sender.ensName, [], [], 5, 2⟩
  | .lendStorage => .lendStorageBody 6 1 1
  | .keyAdd => .keyAddBody ⟨List.replicate 32 7, 1, [], 1, 0, [1], 1, [1], 1⟩
  | .keyRemove => .keyRemoveBody ⟨List.replicate 32 7, [], 1, 1, 0⟩
  | .frameAction => .frameActionBody ⟨[104], 1, none, [], [], [], []⟩

/-- Data of fid 5, on the main network. -/
def dataOf (type : Int32) (variant : Option BodyVariant) (timestamp : UInt32) : MessageData :=
  ⟨type, 5, timestamp, 1, variant.map sender.bodyOf⟩

theorem maxDataBytes_le (type : MessageType) (isProUser : Bool) (version : EngineVersion) :
    maxDataBytes ≤ maxDataSize type isProUser version := by
  unfold maxDataSize
  repeat' split
  all_goals decide

theorem validateTimestamp_early {blockTimestamp : FarcasterTime} (htime : 600 ≤ blockTimestamp.time)
    (version : EngineVersion) :
    validateTimestamp (blockTimestamp.decrBy 600).toU64.toUInt32 blockTimestamp version = .ok () := by
  unfold validateTimestamp
  split
  · rw [ensure_eq_ok, decide_eq_true_eq]
    have hsub : (blockTimestamp.decrBy 600).toU64.toNat = blockTimestamp.time.toNat - 600 :=
      UInt64.toNat_sub_of_le _ _ htime
    have hmod :
        ((blockTimestamp.decrBy 600).toU64.toUInt32).toNat = (blockTimestamp.time.toNat - 600) % 2 ^ 32 := by
      rw [UInt64.toNat_toUInt32, hsub]
    have hle := Nat.mod_le (blockTimestamp.time.toNat - 600) (2 ^ 32)
    change _ ≤ blockTimestamp.time.toNat + 600
    omega
  · rfl

section checks
variable [Prost] [MessageEncode] [Blake3] [Crypto] [TextRules]

/-- **What the sender has is accepted**: the name, the claim, every signature; and its data has a short
    encoding. -/
structure Equipped : Prop where
  isUtf8 : TextRules.isUtf8 sender.ensName = true
  name : TextRules.validateEnsName sender.ensName = .ok ()
  claim : Crypto.validateAddAddress sender.address 0 sender.claim 5 .mainnet = .ok ()
  signs : ∀ hash, validateSignature ed25519 hash (sender.sign hash) sender.signer = .ok ()
  encodes : ∀ type variant timestamp,
    let bytes := MessageEncode.encodeMessageData (sender.dataOf type variant timestamp)
    bytes ≠ [] ∧ bytes.length ≤ maxDataBytes

def messageOf (type : Int32) (variant : Option BodyVariant) (timestamp : UInt32) : Message :=
  let hash := blake3_20 (MessageEncode.encodeMessageData (sender.dataOf type variant timestamp))
  ⟨some (sender.dataOf type variant timestamp), hash, blake3, sender.sign hash, ed25519, sender.signer, none⟩

variable {sender} (h : sender.Equipped) (isProUser : Bool) (version : EngineVersion)
  {blockTimestamp : FarcasterTime} (htime : 600 ≤ blockTimestamp.time)

omit [Prost] [Blake3] in
include h in
theorem validateBody_dataOf (type : Int32) (variant : Option BodyVariant) :
    validateBody (sender.dataOf type variant (blockTimestamp.decrBy 600).toU64.toUInt32) .mainnet isProUser
      blockTimestamp version = .ok () := by
  cases variant with
  | none => rfl
  | some variant =>
    cases variant with
    | verificationAddAddress => exact h.claim
    | usernameProof =>
      change (if version.isEnabled .ensValidation then _ else _) = _
      split
      · rw [h.isUtf8]
        exact h.name
      · rfl
    | castAdd =>
      have hcast (allow : Bool) :
          validateCastAddBody none [] ⟨[104], 0, [], [], []⟩ allow isProUser = .ok () := by
        cases isProUser <;> cases allow <;> rfl
      exact hcast _
    | lendStorage => exact except_bind_eq_ok.2 ⟨(), ensure_eq_ok.2 (decide_eq_true (UInt32.le_refl _)), rfl⟩
    | _ => rfl

include h htime in
/-- **A message of every pair is accepted.** -/
theorem validateMessage_messageOf (currentNetwork : FarcasterNetwork) (type : Int32)
    (variant : Option BodyVariant) :
    validateMessage (sender.messageOf type variant (blockTimestamp.decrBy 600).toU64.toUInt32) currentNetwork
      isProUser blockTimestamp version = .ok () := by
  obtain ⟨hne, hshort⟩ := h.encodes type variant (blockTimestamp.decrBy 600).toU64.toUInt32
  have hhash := @bytesCompare_eq_iff (blake3_20 (MessageEncode.encodeMessageData
    (sender.dataOf type variant (blockTimestamp.decrBy 600).toU64.toUInt32))) _ |>.2 rfl
  have hnetwork : validateNetwork 1 currentNetwork = .ok .mainnet := by cases currentNetwork <;> rfl
  unfold validateMessage
  simp only [except_bind_eq_ok, ensure_eq_ok, decide_eq_true_eq, Prod.exists]
  refine ⟨_, _, rfl, (), hshort.trans (maxDataBytes_le _ isProUser version), _, hnetwork, (), ?_, (), h.signs
    _, (), validateTimestamp_early htime version, validateBody_dataOf h isProUser version type variant⟩
  unfold validateMessageHash
  simp only [except_bind_eq_ok, ensure_eq_ok]
  exact ⟨(), rfl, (), by simpa using hne, by simp [messageOf, hhash]⟩

end checks

end Sender

/-- **The body is the one of the type, pair by pair.** The messages of a type and a variant that are accepted
    have the body of their type exactly if the variant belongs to the type: a message of any other pair is
    accepted too. -/
theorem body_matches_iff [Prost] [MessageEncode] [Blake3] [Crypto] [TextRules] (sender : Sender)
    (h : sender.Equipped) (currentNetwork : FarcasterNetwork) (isProUser : Bool)
    (blockTimestamp : FarcasterTime) (htime : 600 ≤ blockTimestamp.time) (version : EngineVersion)
    (type : Int32) (variant : Option BodyVariant) :
    (∀ message bytes data, validateMessage message currentNetwork isProUser blockTimestamp version = .ok () →
        signedData message = .ok (bytes, data) → data.type = type → data.body.map Body.variant = variant →
        data.BodyMatches) ↔ RightPair type variant := by
  constructor
  · intro hall
    have hvariant : (variant.map sender.bodyOf).map Body.variant = variant := by
      rcases variant with _ | variant
      · rfl
      · cases variant <;> rfl
    have hmatches :=
      hall _ _ _ (Sender.validateMessage_messageOf h isProUser version htime currentNetwork type variant) rfl
      rfl hvariant
    rw [MessageData.BodyMatches, Sender.dataOf, hvariant] at hmatches
    exact hmatches
  · rintro hright message bytes data - - rfl rfl
    exact hright

def sampleSender : Sender :=
  ⟨[97, 46, 101, 116, 104], List.replicate 20 1, ⟨[1], List.replicate 32 1, 0, 0⟩, fun _ => [1], [7]⟩

/-- Casts with the body of a cast match, casts with the body of a removal do not. -/
theorem body_matches_casts :
    let _ := samplePlatform (keyScan [])
    let matching (variant : BodyVariant) : Prop := ∀ message bytes data,
      validateMessage message .mainnet false ⟨1000⟩ .v16 = .ok () → signedData message = .ok (bytes, data) →
        data.type = MessageType.castAdd.toI32 → data.body.map Body.variant = some variant → data.BodyMatches
    matching .castAdd ∧ ¬ matching .castRemove := by
  intro _ matching
  have hequipped : sampleSender.Equipped :=
    ⟨rfl, rfl, rfl, fun _ => rfl, fun _ _ _ => ⟨List.cons_ne_nil _ _, (by decide : 1 ≤ 2048)⟩⟩
  have hiff :=
    body_matches_iff sampleSender hequipped .mainnet false ⟨1000⟩ (by decide) .v16 MessageType.castAdd.toI32
  refine ⟨(hiff _).2 ⟨.castAdd, .castAdd, rfl, rfl, rfl⟩, fun hall => ?_⟩
  obtain ⟨t, v, ht, hv, hbelongs⟩ := (hiff _).1 hall
  cases ht
  cases hv
  exact absurd hbelongs (by decide)

/-! ### An add with the body of a removal -/

/-- A message of fid 5 with the type of a cast, made at second 1000. -/
def sampleTypedCast (body : Body) (hash : Bytes) : Message where
  data := some ⟨MessageType.castAdd.toI32, 5, 1000, 1, some body⟩
  hash := hash
  hashScheme := blake3
  signature := [1]
  signatureScheme := ed25519
  signer := List.replicate 32 1
  dataBytes := none

/-- A cast with the text `h`. -/
def samplePlainCast (hash : Bytes) : Message :=
  sampleTypedCast (.castAddBody none [] ⟨[104], 0, [], [], []⟩) hash

/-- The removal of a cast, sent with the type of a cast. -/
def sampleDisguisedRemove : Message :=
  sampleTypedCast (.castRemoveBody (List.replicate 20 7)) (List.replicate 20 (1000 : UInt32).toUInt8)

/-- **The store of casts receives an add with the body of a removal**: a message with the type of a cast that
    carries the removal of another cast is validated, the store takes it for an add, and its slot is the one
    of that other cast. -/
theorem disguised_remove_is_add :
    let _ := samplePlatform (keyScan [])
    validateMessage sampleDisguisedRemove .mainnet false ⟨1000⟩ .v16 = .ok () ∧
      (∀ bytes data, signedData sampleDisguisedRemove = .ok (bytes, data) → ¬ data.BodyMatches) ∧
      castStoreDef.isAddType sampleDisguisedRemove = true ∧
      castStoreDef.makeAddKey sampleDisguisedRemove .legacy =
        castStoreDef.makeAddKey (samplePlainCast (List.replicate 20 7)) .legacy := by
  intro _
  refine ⟨by decide +kernel, ?_, by decide, rfl⟩
  rintro bytes data hsigned ⟨type, variant, htype, hvariant, hbelongs⟩
  cases hsigned
  cases hvariant
  cases htype
  exact absurd hbelongs (by decide)

end Hypersnap
