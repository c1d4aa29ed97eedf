import Mathlib.Data.Finset.Card
import Mathlib.Data.List.Sort
import Hypersnap.Consensus.Certificate

/-!
# `Consensus.Quorum` — which set is in force, and which certificates pass

Three results about the check of a certificate. `getValidatorSet_inForce_iff`: the search for the set in force
starts from the first entry of the configuration, whatever shard that entry is for, and is right if this entry
is, or if it is passed on the way. `verifySignatures_sound`: the keys that are expected are an **iterator**
that each signature moves on, so no signer counts twice. `verifySignatures_complete_iff`: for the same reason
a certificate passes only if its signatures are in the order of the validators.
-/

namespace Hypersnap

/-! ## The set in force -/

namespace StoredValidatorSets

/-- The entry lists the shard and has taken effect. -/
def InForce (s : StoredValidatorSets) (height : UInt64) (config : StoredValidatorSet) : Prop :=
  config ∈ s.sets ∧ s.shardId ∈ config.shardIds ∧ config.effectiveAt ≤ height

/-- Of the entries that list the shard and have taken effect, it is one of the last. -/
def Latest (s : StoredValidatorSets) (height : UInt64) (config : StoredValidatorSet) : Prop :=
  s.InForce height config ∧ ∀ other, s.InForce height other → other.effectiveAt ≤ config.effectiveAt

/-- The entry that a search from `result` on ends with. -/
def latestFrom (s : StoredValidatorSets) (height : UInt64) (result : StoredValidatorSet)
    (configs : List StoredValidatorSet) : StoredValidatorSet :=
  configs.foldl (fun result config =>
    if s.shardId ∈ config.shardIds ∧ config.effectiveAt ≤ height ∧
      result.effectiveAt < config.effectiveAt then config
    else result) result

variable {s : StoredValidatorSets} {height : UInt64}

theorem latestFrom_cases (result : StoredValidatorSet) (configs : List StoredValidatorSet) :
    s.latestFrom height result configs = result ∨
      (s.latestFrom height result configs ∈ configs ∧
        s.shardId ∈ (s.latestFrom height result configs).shardIds ∧
        (s.latestFrom height result configs).effectiveAt ≤ height ∧
        result.effectiveAt < (s.latestFrom height result configs).effectiveAt) := by
  induction configs generalizing result with
  | nil => exact .inl rfl
  | cons config configs ih =>
    rw [latestFrom, List.foldl_cons, ← latestFrom]
    split
    next htaken =>
      obtain ⟨hshard, heffective, hlater⟩ := htaken
      rcases ih config with h | ⟨hmem, hshard', heffective', hlater'⟩
      · rw [h]
        exact .inr ⟨List.mem_cons_self, hshard, heffective, hlater⟩
      · exact .inr ⟨List.mem_cons_of_mem _ hmem, hshard', heffective', UInt64.lt_trans hlater hlater'⟩
    next =>
      rcases ih result with h | ⟨hmem, h⟩
      · exact .inl h
      · exact .inr ⟨List.mem_cons_of_mem _ hmem, h⟩

theorem le_latestFrom (result : StoredValidatorSet) (configs : List StoredValidatorSet) :
    result.effectiveAt ≤ (s.latestFrom height result configs).effectiveAt := by
  rcases @latestFrom_cases s height result configs with h | ⟨-, -, -, h⟩
  · rw [h]
    exact UInt64.le_refl _
  · exact UInt64.le_of_lt h

theorem le_latestFrom_of_mem {result config : StoredValidatorSet} {configs : List StoredValidatorSet}
    (hmem : config ∈ configs) (hshard : s.shardId ∈ config.shardIds)
    (heffective : config.effectiveAt ≤ height) :
    config.effectiveAt ≤ (s.latestFrom height result configs).effectiveAt := by
  induction configs generalizing result with
  | nil => cases hmem
  | cons first configs ih =>
    rw [latestFrom, List.foldl_cons, ← latestFrom]
    rcases List.mem_cons.1 hmem with rfl | hmem
    · split
      next => exact le_latestFrom _ _
      next hkept =>
        have hle : config.effectiveAt ≤ result.effectiveAt :=
          UInt64.not_lt.1 fun h => hkept ⟨hshard, heffective, h⟩
        exact UInt64.le_trans hle (le_latestFrom _ _)
    · exact ih hmem

theorem getValidatorSet_eq (shardId : UInt32) (first : StoredValidatorSet) (rest : List StoredValidatorSet) :
    getValidatorSet ⟨shardId, first :: rest⟩ height =
      some (latestFrom ⟨shardId, first :: rest⟩ height first (first :: rest)).validators := rfl

/-- **The set in force.** The validators for a height are those of the last entry of the shard that has taken
    effect, exactly if the first entry of the configuration is for the shard and in effect itself, or some
    entry of the shard took effect later than it, or it happens to have the same validators as the last
    one. -/
theorem getValidatorSet_inForce_iff (shardId : UInt32) (first : StoredValidatorSet)
    (rest : List StoredValidatorSet) (height : UInt64) :
    let s : StoredValidatorSets := ⟨shardId, first :: rest⟩
    (∃ config, s.Latest height config ∧ s.getValidatorSet height = some config.validators) ↔
      s.InForce height first ∨ (∃ config, s.InForce height config ∧ first.effectiveAt < config.effectiveAt) ∨
        ∃ config, s.Latest height config ∧ config.validators = first.validators := by
  intro s
  have hget : s.getValidatorSet height = some (s.latestFrom height first s.sets).validators :=
    getValidatorSet_eq shardId first rest
  rw [hget]
  have hlast (config : StoredValidatorSet) (h : s.InForce height config) :
      config.effectiveAt ≤ (s.latestFrom height first s.sets).effectiveAt :=
      le_latestFrom_of_mem h.1 h.2.1 h.2.2
  constructor
  · rintro ⟨config, hlatest, hvalidators⟩
    rcases @latestFrom_cases s height first s.sets with hsame | ⟨hmem, hshard, heffective, hlater⟩
    · -- the search never left the first entry
      rw [hsame] at hvalidators
      exact .inr (.inr ⟨config, hlatest, (Option.some.inj hvalidators).symm⟩)
    · exact .inr (.inl ⟨_, ⟨hmem, hshard, heffective⟩, hlater⟩)
  · intro hcond
    rcases @latestFrom_cases s height first s.sets with hsame | ⟨hmem, hshard, heffective, -⟩
    · rw [hsame] at hlast ⊢
      rcases hcond with hfirst | ⟨config, hconfig, hlater⟩ | ⟨config, hlatest, hvalidators⟩
      · exact ⟨first, ⟨hfirst, hlast⟩, rfl⟩
      · exact absurd hlater (UInt64.not_lt.2 (hlast config hconfig))
      · exact ⟨config, hlatest, by rw [hvalidators]⟩
    · exact ⟨_, ⟨⟨hmem, hshard, heffective⟩, hlast⟩, rfl⟩

def single (shardIndex : UInt32) (key : UInt8) : SnapchainValidatorSet :=
  ⟨[⟨shardIndex, List.replicate 32 key⟩], List.nodup_singleton _⟩

/-- Both shards have had their set from the start, and that of shard 2 comes first: it is also used for shard
    1. -/
theorem getValidatorSet_of_other_shard :
    let s : StoredValidatorSets := ⟨1, [⟨0, single 1 2, [2]⟩, ⟨0, single 1 1, [1]⟩]⟩
    (∃ config, s.InForce 5 config) ∧
      ¬ ∃ config, s.Latest 5 config ∧ s.getValidatorSet 5 = some config.validators := by
  intro s
  refine ⟨⟨⟨0, single 1 1, [1]⟩, List.mem_cons_of_mem _ List.mem_cons_self, List.mem_cons_self, by decide⟩,
    ?_⟩
  rintro ⟨config, ⟨⟨hmem, hshard, -⟩, -⟩, hget⟩
  rcases List.mem_cons.1 hmem with rfl | hmem
  · exact absurd hshard (by decide)
  · obtain rfl := List.mem_singleton.1 hmem
    have hvalidators := congrArg (Option.map (·.validators)) hget
    exact absurd hvalidators (by decide)

end StoredValidatorSets

/-! ## Certificates -/

theorem sublist_iff_pairwise_idxOf {α : Type} [BEq α] [LawfulBEq α] {l m : List α} (hl : l.Nodup)
    (hm : m.Nodup) (hsub : l ⊆ m) : l.Sublist m ↔ l.Pairwise fun a b => m.idxOf a ≤ m.idxOf b := by
  have hlt : m.Pairwise fun a b => m.idxOf a < m.idxOf b := by
    rw [List.pairwise_iff_getElem]
    intro i j hi hj hij
    rwa [hm.idxOf_getElem i hi, hm.idxOf_getElem j hj]
  constructor
  · intro h
    exact (hlt.sublist h).imp Nat.le_of_lt
  · intro h
    -- equal or strictly before is an antisymmetric order
    have hanti : Std.Antisymm fun a b : α => a = b ∨ m.idxOf a < m.idxOf b := by
      refine ⟨fun a b hab hba => ?_⟩
      rcases hab with hab | hab
      · exact hab
      · rcases hba with hba | hba
        · exact hba.symm
        · exact absurd hab (Nat.lt_asymm hba)
    have hpair : l.Pairwise fun a b => a = b ∨ m.idxOf a < m.idxOf b := by
      refine (h.and hl).imp_of_mem fun {a b} ha hb hab => .inr ?_
      refine Nat.lt_of_le_of_ne hab.1 fun heq => hab.2 ?_
      exact (List.idxOf_inj (hsub ha)).1 heq
    exact List.sublist_of_subperm_of_pairwise (List.subperm_of_subset hl hsub) hpair (hlt.imp .inr)

def SnapchainValidatorSet.position (set : SnapchainValidatorSet) (key : Bytes) : Nat :=
  (set.validators.map (·.publicKey)).idxOf key

section verify
variable [VoteLibs] [ProstEncode] {expected : List Bytes}

/-- The signature is the signer's, on a precommit for this height, round and value. -/
def CommitSignature.IsPrecommit (s : CommitSignature) (height : Height) (round : Int64) (value : ShardHash) :
    Prop :=
  Ed25519.verify s.signer (ProstEncode.encodeVote (.newPrecommit height round (some value) s.signer))
    s.signature = true

instance (s : CommitSignature) (height : Height) (round : Int64) (value : ShardHash) :
    Decidable (s.IsPrecommit height round value) := inferInstanceAs (Decidable (_ = true))

omit [ProstEncode] in
theorem exists_contains {key : Bytes} {keys : List Bytes} (h : (key :: keys).Sublist expected) :
    ∃ rest, VoteLibs.contains key expected = (true, rest) ∧ keys.Sublist rest := by
  obtain ⟨front, rest, rfl, hfront⟩ := List.eq_append_cons_of_mem (h.subset List.mem_cons_self)
  refine ⟨rest, VoteLibs.contains_append rest hfront, ?_⟩
  rcases List.sublist_append_iff.1 h with ⟨l₁, l₂, heq, hl₁, hl₂⟩
  cases l₁ with
  | nil =>
    rw [List.nil_append] at heq
    rw [← heq] at hl₂
    exact List.cons_sublist_cons.1 hl₂
  | cons x l₁ =>
    -- the key is not in the part before
    cases heq
    exact absurd (hl₁.subset List.mem_cons_self) hfront

/-- The signatures pass if their signers come in the expected order, and each is valid. -/
theorem checkSignatures_eq_true_iff {cert : CommitCertificate} {signatures : List CommitSignature} :
    checkSignatures cert expected signatures = true ↔ (signatures.map (·.signer)).Sublist expected ∧
        ∀ s ∈ signatures, s.IsPrecommit cert.height cert.round cert.valueId := by
  refine ⟨checkSignatures_sound, ?_⟩
  rintro ⟨hsub, hvalid⟩
  induction signatures generalizing expected with
  | nil => rfl
  | cons s rest ih =>
    obtain ⟨expected', hfound, hrest⟩ := exists_contains hsub
    have hfirst :
        Ed25519.verify s.signer (ProstEncode.encodeVote (cert.voteOf s.signer)) s.signature = true :=
      hvalid s List.mem_cons_self
    simp only [checkSignatures, hfound, hfirst, Bool.true_and]
    exact ih hrest fun s' hs' => hvalid s' (List.mem_cons_of_mem _ hs')

theorem verifySignatures_eq_true_iff {commits : Commits} {validatorSets : StoredValidatorSets} :
    verifySignatures commits validatorSets = some true ↔ ∃ cert set, commits.toCommitCertificate = some cert ∧
        validatorSets.getValidatorSet cert.height.blockNumber = some set ∧
        2 * set.validators.length < 3 * cert.signatures.length ∧
        (cert.signatures.map (·.signer)).Sublist (set.validators.map (·.publicKey)) ∧
        ∀ s ∈ cert.signatures, s.IsPrecommit cert.height cert.round cert.valueId := by
  unfold verifySignatures
  constructor
  · intro h
    obtain ⟨cert, hcert, h⟩ := Option.bind_eq_some_iff.1 h
    obtain ⟨set, hset, h⟩ := Option.bind_eq_some_iff.1 h
    dsimp only at h
    split at h
    next hquorum =>
      refine ⟨cert, set, hcert, hset, ?_, checkSignatures_eq_true_iff.1 (Option.some.inj h)⟩
      simpa using (VoteLibs.quorumIsMet_iff _ _).1 hquorum
    next => cases h
  · rintro ⟨cert, set, hcert, hset, hquorum, hsub, hvalid⟩
    refine Option.bind_eq_some_iff.2 ⟨cert, hcert, Option.bind_eq_some_iff.2 ⟨set, hset, ?_⟩⟩
    have hmet :
        VoteLibs.quorumIsMet cert.signatures.length (set.validators.map (·.publicKey)).length = true := by
      rw [VoteLibs.quorumIsMet_iff, List.length_map]
      exact hquorum
    simp only [hmet, if_true, checkSignatures_eq_true_iff.2 ⟨hsub, hvalid⟩]

/-- **Soundness.** A certificate that passes has signatures of more than two thirds of the validators in force
    at its height: the signers are validators, no two are the same, and each signature is one on a precommit
    for the height, the round and the value of the certificate. -/
theorem verifySignatures_sound (commits : Commits) (validatorSets : StoredValidatorSets)
    (h : verifySignatures commits validatorSets = some true) :
    ∃ cert set, commits.toCommitCertificate = some cert ∧
      validatorSets.getValidatorSet cert.height.blockNumber = some set ∧
      2 * set.validators.length < 3 * cert.signatures.length ∧ (cert.signatures.map (·.signer)).Nodup ∧
      ∀ s ∈ cert.signatures, s.signer ∈ set.validators.map (·.publicKey) ∧
        s.IsPrecommit cert.height cert.round cert.valueId := by
  obtain ⟨cert, set, hcert, hset, hquorum, hsub, hvalid⟩ := verifySignatures_eq_true_iff.1 h
  refine ⟨cert, set, hcert, hset, hquorum, hsub.nodup set.nodup, fun s hs => ⟨?_, hvalid s hs⟩⟩
  exact hsub.subset (List.mem_map_of_mem hs)

/-- **Completeness, up to order.** A certificate with valid signatures of distinct validators, more than two
    thirds of them, passes exactly if the signatures are listed in the order of the validators. -/
theorem verifySignatures_complete_iff (commits : Commits) (validatorSets : StoredValidatorSets)
    (cert : CommitCertificate) (set : SnapchainValidatorSet) (hcert : commits.toCommitCertificate = some cert)
    (hset : validatorSets.getValidatorSet cert.height.blockNumber = some set)
    (hdistinct : (cert.signatures.map (·.signer)).Nodup)
    (hmembers : ∀ s ∈ cert.signatures, s.signer ∈ set.validators.map (·.publicKey))
    (hvalid : ∀ s ∈ cert.signatures, s.IsPrecommit cert.height cert.round cert.valueId)
    (hquorum : 2 * set.validators.length < 3 * cert.signatures.length) :
    verifySignatures commits validatorSets = some true ↔
      cert.signatures.Pairwise fun a b => set.position a.signer ≤ set.position b.signer := by
  have hsubset : cert.signatures.map (·.signer) ⊆ set.validators.map (·.publicKey) := by
    intro key hkey
    obtain ⟨s, hs, rfl⟩ := List.mem_map.1 hkey
    exact hmembers s hs
  have horder := sublist_iff_pairwise_idxOf hdistinct set.nodup hsubset
  rw [List.pairwise_map] at horder
  rw [verifySignatures_eq_true_iff]
  refine Iff.trans ?_ horder
  constructor
  · rintro ⟨cert', set', hcert', hset', -, hsub, -⟩
    cases hcert.symm.trans hcert'
    cases hset.symm.trans hset'
    exact hsub
  · intro hsub
    exact ⟨cert, set, hcert, hset, hquorum, hsub, hvalid⟩

/-- **Certificates of one height overlap**: more than a third of the validators have signed for both. -/
theorem verifySignatures_overlap {sets : StoredValidatorSets} {a b : Commits} {x y : CommitCertificate}
    (hx : a.toCommitCertificate = some x) (hy : b.toCommitCertificate = some y)
    (hheight : y.height = x.height) (ha : verifySignatures a sets = some true)
    (hb : verifySignatures b sets = some true) :
    ∃ set, ∃ keys ⊆ (set.validators.map (·.publicKey)).toFinset,
      sets.getValidatorSet x.height.blockNumber = some set ∧ set.validators.length < 3 * keys.card ∧
      ∀ key ∈ keys, ∀ c ∈ [x, y], ∃ s ∈ c.signatures, s.signer = key ∧
      s.IsPrecommit x.height c.round c.valueId := by
  obtain ⟨_, set, heq, hset, hquorum, hsub, hvalid⟩ := verifySignatures_eq_true_iff.1 ha
  obtain ⟨_, set', heq', hset', hquorum', hsub', hvalid'⟩ := verifySignatures_eq_true_iff.1 hb
  cases hx.symm.trans heq
  cases hy.symm.trans heq'
  rw [hheight] at hset' hvalid'
  cases hset.symm.trans hset'
  have hunion : (x.signatures.map (·.signer)).toFinset ∪ (y.signatures.map (·.signer)).toFinset ⊆
      (set.validators.map (·.publicKey)).toFinset := by
    rw [← List.toFinset_append]
    exact Multiset.toFinset_subset.2 (List.append_subset.2 ⟨hsub.subset, hsub'.subset⟩)
  have hle := (Finset.card_le_card hunion).trans (List.toFinset_card_le _)
  have hcount := Finset.card_union_add_card_inter (x.signatures.map (·.signer)).toFinset
    (y.signatures.map (·.signer)).toFinset
  rw [List.toFinset_card_of_nodup (hsub.nodup set.nodup), List.toFinset_card_of_nodup (hsub'.nodup set.nodup)]
    at hcount
  simp only [List.length_map] at hle hcount
  refine ⟨set, _, Finset.inter_subset_union.trans hunion, hset, by omega, fun key hkey => ?_⟩
  simp only [Finset.mem_inter, List.mem_toFinset, List.mem_map] at hkey
  obtain ⟨⟨s, hs, rfl⟩, s', hs', hsigner⟩ := hkey
  simp only [List.forall_mem_cons]
  exact ⟨⟨s, hs, rfl, hvalid s hs⟩, ⟨s', hs', hsigner, hvalid' s' hs'⟩, List.forall_mem_nil _⟩

end verify

/-! ### Two validators -/

def sampleVotes : CommitCertificate :=
  ⟨⟨1, 5⟩, 0, ⟨1, List.replicate 32 9⟩, [⟨List.replicate 32 1, [1]⟩, ⟨List.replicate 32 2, [1]⟩]⟩

def samplePair : SnapchainValidatorSet := ⟨[⟨1, List.replicate 32 1⟩, ⟨1, List.replicate 32 2⟩], by decide⟩

def samplePairs : StoredValidatorSets := ⟨1, [⟨0, samplePair, [1]⟩]⟩

theorem verifySignatures_sound_pair :
    let _ := sampleLibs
    let _ := sampleEncode
    verifySignatures sampleVotes.toCommits samplePairs = some true ∧
      ∃ cert set, sampleVotes.toCommits.toCommitCertificate = some cert ∧
        samplePairs.getValidatorSet cert.height.blockNumber = some set ∧
        2 * set.validators.length < 3 * cert.signatures.length ∧ (cert.signatures.map (·.signer)).Nodup ∧
        ∀ s ∈ cert.signatures, s.signer ∈ set.validators.map (·.publicKey) ∧
          s.IsPrecommit cert.height cert.round cert.valueId := by
  intro _ _
  have hpass : verifySignatures sampleVotes.toCommits samplePairs = some true := by decide
  exact ⟨hpass, verifySignatures_sound sampleVotes.toCommits samplePairs hpass⟩

/-- Listed in the order of the validators, the signatures pass. -/
theorem verifySignatures_complete_pair :
    let _ := sampleLibs
    let _ := sampleEncode
    verifySignatures sampleVotes.toCommits samplePairs = some true := by
  intro _ _
  exact (verifySignatures_complete_iff sampleVotes.toCommits samplePairs sampleVotes samplePair rfl rfl
    (by decide) (by decide) (by decide) (by decide)).2 (by decide)

/-- Listed the other way around, they are rejected. -/
theorem verifySignatures_rejects_reversed :
    let _ := sampleLibs
    let _ := sampleEncode
    let cert := { sampleVotes with signatures := sampleVotes.signatures.reverse }
    cert.toCommits.toCommitCertificate = some cert ∧
      samplePairs.getValidatorSet cert.height.blockNumber = some samplePair ∧
      (cert.signatures.map (·.signer)).Nodup ∧
      (∀ s ∈ cert.signatures, s.signer ∈ samplePair.validators.map (·.publicKey)) ∧
      (∀ s ∈ cert.signatures, s.IsPrecommit cert.height cert.round cert.valueId) ∧
      2 * samplePair.validators.length < 3 * cert.signatures.length ∧
      verifySignatures cert.toCommits samplePairs = some false := by
  intro _ _ cert
  exact ⟨rfl, rfl, by decide, by decide, by decide, by decide, by decide⟩

/-- One validator at least has signed both times. -/
theorem verifySignatures_overlap_pair : let _ := sampleLibs
    let _ := sampleEncode
    ∃ set, ∃ keys ⊆ (set.validators.map (·.publicKey)).toFinset, samplePairs.getValidatorSet 5 = some set ∧
      set.validators.length < 3 * keys.card := by
  intro _ _
  have hpass : verifySignatures sampleVotes.toCommits samplePairs = some true := by decide
  obtain ⟨set, keys, hsub, hset, hcard, -⟩ :=
    @verifySignatures_overlap _ _ _ _ _ sampleVotes sampleVotes rfl rfl rfl hpass hpass
  exact ⟨set, keys, hsub, hset, hcard⟩

end Hypersnap
