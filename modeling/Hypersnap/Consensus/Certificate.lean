import Hypersnap.Proto.Block

/-!
# `Consensus.Certificate` — validator sets and the check of commit signatures

`verifySignatures` is what a read node checks of a decided value: that enough signers signed a precommit **for
the height and value the certificate names**. It says nothing about the block the certificate came with;
whoever commits the block has to compare the two.
-/

namespace Hypersnap

/-- Ed25519: public key, message, signature. -/
class Ed25519 where
  verify : Bytes → Bytes → Bytes → Bool

/-- What the check of a certificate takes from other libraries. Of the two functions of `malachite` and the
    one of `itertools`, only what their documentation says is known. -/
class VoteLibs extends Ed25519 where
  /-- `Round::from` of a number, as `Round::as_i64` gives it back. -/
  round : Int64 → Int64
  /-- `ThresholdParams::default().quorum.is_met`, of a weight and a total: more than two thirds. -/
  quorumIsMet : Nat → Nat → Bool
  quorumIsMet_iff : ∀ weight total, quorumIsMet weight total = true ↔ 2 * total < 3 * weight
  /-- `Itertools::contains`: whether the iterator has the element, and the iterator after the call. -/
  contains : Bytes → List Bytes → Bool × List Bytes
  /-- An element that is there is consumed, with all before it. -/
  contains_append : ∀ {key front} rest, key ∉ front → contains key (front ++ key :: rest) = (true, rest)
  contains_of_notMem : ∀ {key keys}, key ∉ keys → (contains key keys).1 = false

/-! ## Validator sets -/

/-- A validator; its address is the bytes of its public key. -/
structure SnapchainValidator where
  shardIndex : UInt32
  publicKey : Bytes
deriving DecidableEq, Repr

/-- The validators of a shard, no two with one key, in the same order on all nodes. -/
structure SnapchainValidatorSet where
  validators : List SnapchainValidator
  nodup : (validators.map (·.publicKey)).Nodup

namespace SnapchainValidatorSet

def empty : SnapchainValidatorSet := ⟨[], List.nodup_nil⟩

/-- `add`: refused if the key is there already or the shard is another one. -/
def add (set : SnapchainValidatorSet) (v : SnapchainValidator) : SnapchainValidatorSet :=
  if hmem : v.publicKey ∈ set.validators.map (·.publicKey) then set
  else if (set.validators.head?.map (·.shardIndex)).getD v.shardIndex = v.shardIndex then
    ⟨(set.validators ++ [v]).mergeSort fun a b => bytesCompare a.publicKey b.publicKey != .gt, by
      have hperm := (List.mergeSort_perm (set.validators ++ [v])
        fun a b => bytesCompare a.publicKey b.publicKey != .gt).map (·.publicKey)
      rw [hperm.nodup_iff, List.map_append, List.nodup_append]
      refine ⟨set.nodup, by simp, fun a ha b hb heq => hmem ?_⟩
      rw [List.map_singleton, List.mem_singleton] at hb
      rwa [← hb, ← heq]⟩
  else set

def new (validators : List SnapchainValidator) : SnapchainValidatorSet := validators.foldl add empty

end SnapchainValidatorSet

structure StoredValidatorSet where
  effectiveAt : UInt64
  validators : SnapchainValidatorSet
  shardIds : List UInt32

structure StoredValidatorSets where
  shardId : UInt32
  sets : List StoredValidatorSet

namespace StoredValidatorSets

/-- The set in force at a height: the first one, or a later one of the shard that has become effective. -/
def getValidatorSet (s : StoredValidatorSets) (height : UInt64) : Option SnapchainValidatorSet :=
  s.sets.head?.map fun first =>
    (s.sets.foldl (fun result config =>
      if s.shardId ∈ config.shardIds ∧ config.effectiveAt ≤ height ∧
        result.effectiveAt < config.effectiveAt then config
      else result) first).validators

end StoredValidatorSets

/-! ## Certificates -/

structure CommitCertificate where
  height : Height
  /-- The round, by its number. -/
  round : Int64
  valueId : ShardHash
  signatures : List CommitSignature

/-- `to_commit_certificate`; it panics on missing fields and on signers that are not 32 bytes. -/
def Commits.toCommitCertificate [VoteLibs] (c : Commits) : Option CommitCertificate := do
  let height ← c.height
  let value ← c.value
  if c.signatures.all fun s => s.signer.length == 32 then
    some ⟨height, VoteLibs.round c.round, value, c.signatures⟩
  else none

def CommitCertificate.toCommits (cert : CommitCertificate) : Commits :=
  ⟨some cert.height, cert.round, some cert.valueId, cert.signatures⟩

section verify
variable [VoteLibs] [ProstEncode] {expected : List Bytes}

/-- The vote a signature of the certificate has to be on. -/
def CommitCertificate.voteOf (cert : CommitCertificate) (address : Bytes) : Vote :=
  .newPrecommit cert.height cert.round (some cert.valueId) address

/-- The loop over the signatures, with the keys that are still expected. -/
def checkSignatures (cert : CommitCertificate) : List Bytes → List CommitSignature → Bool
  | _, [] => true
  | expected, s :: rest =>
    let (found, expected) := VoteLibs.contains s.signer expected
    found && Ed25519.verify s.signer (ProstEncode.encodeVote (cert.voteOf s.signer)) s.signature &&
      checkSignatures cert expected rest

def verifySignatures (commits : Commits) (validatorSets : StoredValidatorSets) : Option Bool := do
  let cert ← commits.toCommitCertificate
  let set ← validatorSets.getValidatorSet cert.height.blockNumber
  let expected := set.validators.map (·.publicKey)
  if VoteLibs.quorumIsMet cert.signatures.length expected.length then
    some (checkSignatures cert expected cert.signatures)
  else some false

/-! ## What a checked certificate shows -/

omit [ProstEncode] in
/-- What is left after a key was found: all that comes after it for the first time. -/
theorem contains_eq_true_iff {key : Bytes} {rest : List Bytes} :
    VoteLibs.contains key expected = (true, rest) ↔
      ∃ front, key ∉ front ∧ expected = front ++ key :: rest := by
  constructor
  · intro h
    have hmem : key ∈ expected := by
      by_contra hmem
      have hmissing := VoteLibs.contains_of_notMem hmem
      rw [h] at hmissing
      cases hmissing
    obtain ⟨front, after, rfl, hfront⟩ := List.eq_append_cons_of_mem hmem
    cases h.symm.trans (VoteLibs.contains_append after hfront)
    exact ⟨front, hfront, rfl⟩
  · rintro ⟨front, hfront, rfl⟩
    exact VoteLibs.contains_append rest hfront

/-- The signers are expected keys, no two the same, and each signed the vote of the certificate. -/
theorem checkSignatures_sound {cert : CommitCertificate} {signatures : List CommitSignature}
    (h : checkSignatures cert expected signatures = true) :
    (signatures.map (·.signer)).Sublist expected ∧ ∀ s ∈ signatures,
      Ed25519.verify s.signer (ProstEncode.encodeVote (cert.voteOf s.signer)) s.signature = true := by
  induction signatures generalizing expected with
  | nil => exact ⟨List.nil_sublist _, by simp⟩
  | cons s rest ih =>
    simp only [checkSignatures, Bool.and_eq_true] at h
    obtain ⟨⟨hfound, hverify⟩, hrest⟩ := h
    obtain ⟨front, -, hexpected⟩ := contains_eq_true_iff.1 (Prod.ext hfound rfl)
    obtain ⟨hsub, hver⟩ := ih hrest
    constructor
    · rw [hexpected]
      exact (hsub.cons_cons s.signer).trans (List.sublist_append_right _ _)
    · intro s' hs'
      rcases List.mem_cons.1 hs' with rfl | hs'
      · exact hverify
      · exact hver s' hs'

/-- **Certified**: more than two thirds of the validators in force at the height, each counted once, signed a
    precommit for the height and the hash. `signed key bytes` says that the holder of the key signed the
    bytes. -/
def Certified (signed : Bytes → Bytes → Prop) (validatorSets : StoredValidatorSets) (height : Height)
    (hash : Bytes) : Prop :=
  ∃ set signers round shardIndex, validatorSets.getValidatorSet height.blockNumber = some set ∧
    signers.Nodup ∧ signers ⊆ set.validators.map (·.publicKey) ∧
    2 * set.validators.length < 3 * signers.length ∧ ∀ a ∈ signers,
      signed a (ProstEncode.encodeVote (.newPrecommit height round (some ⟨shardIndex, hash⟩) a))

theorem certified_of_verifySignatures {signed : Bytes → Bytes → Prop}
    (hsigned : ∀ key msg sig, Ed25519.verify key msg sig = true → signed key msg) {commits : Commits}
    {validatorSets : StoredValidatorSets} (h : verifySignatures commits validatorSets = some true) :
    ∃ height value, commits.height = some height ∧ commits.value = some value ∧
      Certified signed validatorSets height value.hash := by
  unfold verifySignatures at h
  obtain ⟨cert, hcert, h⟩ := Option.bind_eq_some_iff.1 h
  obtain ⟨set, hset, h⟩ := Option.bind_eq_some_iff.1 h
  obtain ⟨height, hheight, hcert⟩ := Option.bind_eq_some_iff.1 hcert
  obtain ⟨value, hvalue, hcert⟩ := Option.bind_eq_some_iff.1 hcert
  split at hcert
  next =>
    cases hcert
    dsimp only at h
    split at h
    next hquorum =>
      obtain ⟨hsub, hver⟩ := checkSignatures_sound (Option.some.inj h)
      refine ⟨height, value, hheight, hvalue, set, commits.signatures.map (·.signer),
        VoteLibs.round commits.round, value.shardIndex, hset, hsub.nodup set.nodup, hsub.subset, ?_, ?_⟩
      · simpa using (VoteLibs.quorumIsMet_iff _ _).1 hquorum
      · intro a ha
        obtain ⟨s, hs, rfl⟩ := List.mem_map.1 ha
        exact hsigned _ _ _ (hver s hs)
    next => simp at h
  next => cases hcert

end verify

/-! ### Instances for examples -/

/-- Rounds as they are, the quorum and the search as documented, and any signature scheme. -/
@[reducible] def VoteLibs.ofEd25519 (scheme : Ed25519) : VoteLibs where
  toEd25519 := scheme
  round := id
  quorumIsMet weight total := decide (2 * total < 3 * weight)
  quorumIsMet_iff _ _ := decide_eq_true_iff
  contains key keys := (keys.contains key, (keys.dropWhile (· != key)).tail)
  contains_append rest hfront := by
    rw [List.dropWhile_append_of_pos fun x hx => by simpa using ne_of_mem_of_not_mem hx hfront]
    simp
  contains_of_notMem hkey := by simpa using hkey

/-- A signature is the byte `1`. -/
@[reducible] def sampleLibs : VoteLibs := .ofEd25519 ⟨fun _ _ sig => sig == [1]⟩

/-- A header is encoded by its root, a vote by the hash it is for. -/
@[reducible] def sampleEncode : ProstEncode :=
  ⟨(·.shardRoot), (·.stateRoot), fun _ => [], fun _ => [], fun v => (v.shardHash.map (·.hash)).getD []⟩

end Hypersnap
