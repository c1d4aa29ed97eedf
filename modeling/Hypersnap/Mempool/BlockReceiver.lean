import Hypersnap.Consensus.Quorum

/-!
# `Mempool.BlockReceiver` — events of shard zero on their way to the mempool of a shard

A shard reads the blocks of shard zero and puts their events into its own mempool. Before that the receiver
checks the hash of each event, the hash over all of them against the header, and the commits against the
validators. It does **not** check that the commits are for this header: the value they are for is compared
with nothing. So what a quorum has signed need not have anything to do with the events
(`submitBlock_certified_iff`).

`none` is a panic.
-/

namespace Hypersnap

section receiver
variable [Blake3] [VoteLibs] [ProstEncode]

/-! ## The receiver -/

structure BlockReceiver where
  shardId : UInt32
  validatorSets : StoredValidatorSets

/-- The event carries data, and the hash of it. -/
def BlockEvent.hashOk (event : BlockEvent) : Bool :=
  match event.data with
  | none => false
  | some data => event.hash == (Blake3.hash (ProstEncode.encodeBlockEventData data)).toList

/-- `events_hasher`: it is fed one hash after the other. -/
def eventsHash (events : List BlockEvent) : Bytes := (Blake3.hash (events.flatMap (·.hash))).toList

namespace BlockReceiver

def validateBlockEvents (self : BlockReceiver) (block : Block) : Option Bool :=
  if block.events.isEmpty then some true
  else if !block.events.all BlockEvent.hashOk then some false
  else do
    let header ← block.header
    if header.eventsHash ≠ eventsHash block.events then some false
    else do
      let commits ← block.commits
      verifySignatures commits self.validatorSets

/-- `submit_block`: what is sent to the mempool. -/
def submitBlock (self : BlockReceiver) (block : Block) : Option (List MempoolMessage) := do
  if ← self.validateBlockEvents block then some (block.events.map (.blockEvent self.shardId)) else some []

end BlockReceiver

/-! ## What a quorum has signed -/

/-- **The events are certified**: each has the hash of its data, and a quorum of the validators in force at
    the height of some header with the hash over them has signed the hash of this header. -/
def EventsCertified (signed : Bytes → Bytes → Prop) (validatorSets : StoredValidatorSets)
    (events : List BlockEvent) : Prop :=
  (∀ event ∈ events, event.hashOk = true) ∧
    ∃ header height, header.eventsHash = eventsHash events ∧ header.height = some height ∧
      Certified signed validatorSets height (Blake3.hash (ProstEncode.encodeBlockHeader header)).toList

/-- No signature of the certificate is forged: whose signature passes has signed the vote. -/
def CommitCertificate.Authentic (cert : CommitCertificate) (signed : Bytes → Bytes → Prop) : Prop :=
  ∀ s ∈ cert.signatures, s.IsPrecommit cert.height cert.round cert.valueId →
    signed s.signer (ProstEncode.encodeVote (cert.voteOf s.signer))

/-- No other vote has the bytes of one that the certificate is about. -/
def CommitCertificate.VotesDistinct (cert : CommitCertificate) : Prop :=
  ∀ vote, ProstEncode.encodeVote vote = ProstEncode.encodeVote (cert.voteOf vote.voter) →
    vote = cert.voteOf vote.voter

/-- **The missing check**: the certificate is for a header with the hash over the events, at the height of
    this header. -/
def CommitCertificate.IsFor (cert : CommitCertificate) (events : List BlockEvent) : Prop :=
  ∃ header, header.eventsHash = eventsHash events ∧ header.height = some cert.height ∧
    cert.valueId.hash = (Blake3.hash (ProstEncode.encodeBlockHeader header)).toList

namespace BlockReceiver

variable {self : BlockReceiver} {block : Block}

theorem submitBlock_cases {sent : List MempoolMessage} (h : self.submitBlock block = some sent)
    (hne : sent ≠ []) :
    (∀ event ∈ block.events, event.hashOk = true) ∧
      ∃ commits, block.commits = some commits ∧ verifySignatures commits self.validatorSets = some true := by
  obtain ⟨ok, hok, h⟩ := Option.bind_eq_some_iff.1 h
  cases ok with
  | false =>
    cases h
    exact absurd rfl hne
  | true =>
    unfold validateBlockEvents at hok
    split at hok
    next hempty =>
      -- without events nothing is sent
      have hevents : block.events = [] := List.isEmpty_iff.1 hempty
      rw [if_pos rfl, hevents] at h
      cases h
      exact absurd rfl hne
    next =>
      split at hok
      · cases hok
      next hall =>
        obtain ⟨header, -, hok⟩ := Option.bind_eq_some_iff.1 hok
        split at hok
        · cases hok
        · obtain ⟨commits, hcommits, hok⟩ := Option.bind_eq_some_iff.1 hok
          exact ⟨by simpa using hall, commits, hcommits, hok⟩

end BlockReceiver

omit [Blake3] in
/-- What the certificate shows, if its signatures are not forged. -/
theorem certified_of_authentic {commits : Commits} {cert : CommitCertificate}
    {validatorSets : StoredValidatorSets} {signed : Bytes → Bytes → Prop}
    (hpass : verifySignatures commits validatorSets = some true)
    (hcert : commits.toCommitCertificate = some cert) (hauthentic : cert.Authentic signed) :
    Certified signed validatorSets cert.height cert.valueId.hash := by
  obtain ⟨cert', set, hcert', hset, hquorum, hsub, hvalid⟩ := verifySignatures_eq_true_iff.1 hpass
  cases hcert.symm.trans hcert'
  refine ⟨set, cert.signatures.map (·.signer), cert.round, cert.valueId.shardIndex, hset,
    hsub.nodup set.nodup, hsub.subset, by simpa using hquorum, ?_⟩
  intro a ha
  obtain ⟨s, hs, rfl⟩ := List.mem_map.1 ha
  exact hauthentic s hs (hvalid s hs)

/-- **When sent events are certified.** Events that are sent to the mempool are certified, whatever else the
    validators have signed, exactly if the certificate of the block is for a header with the hash over these
    events. -/
theorem submitBlock_certified_iff (self : BlockReceiver) (block : Block) (sent : List MempoolMessage)
    (hsent : self.submitBlock block = some sent) (hne : sent ≠ []) (cert : CommitCertificate)
    (hcert : block.commits.bind (·.toCommitCertificate) = some cert) (hvotes : cert.VotesDistinct) :
    (∀ signed, cert.Authentic signed → EventsCertified signed self.validatorSets block.events) ↔
      cert.IsFor block.events := by
  obtain ⟨hhashes, commits, hcommits, hpass⟩ := BlockReceiver.submitBlock_cases hsent hne
  rw [hcommits, Option.bind_some] at hcert
  constructor
  · intro h
    -- a world in which nothing but these votes is signed
    let signed (key msg : Bytes) : Prop := msg = ProstEncode.encodeVote (cert.voteOf key)
    obtain ⟨-, header, height, hevents, hheight, set, signers, round, shardIndex, -, -, -, hquorum, hall⟩ :=
      h signed fun _ _ _ => rfl
    cases signers with
    | nil => simp at hquorum
    | cons a rest =>
      have hvote := hvotes _ (hall a List.mem_cons_self)
      obtain ⟨hheights, -, hvalues⟩ : height = cert.height ∧ round = cert.round ∧
          (⟨shardIndex, (Blake3.hash (ProstEncode.encodeBlockHeader header)).toList⟩ : ShardHash) =
          cert.valueId := by
        simpa [Vote.newPrecommit, CommitCertificate.voteOf] using hvote
      exact ⟨header, hevents, hheights ▸ hheight, by rw [← hvalues]⟩
  · rintro ⟨header, hevents, hheight, hvalue⟩ signed hauthentic
    refine ⟨hhashes, header, cert.height, hevents, hheight, ?_⟩
    rw [← hvalue]
    exact certified_of_authentic hpass hcert hauthentic

end receiver

/-! ### A certificate for another block -/

@[reducible] def headBlake3 : Blake3 := ⟨fun b => Vector.replicate 32 (b.headD 0)⟩

/-- A header is encoded by the hash over its events, a vote at height 5 by the hash it is for. -/
@[reducible] def eventsEncode : ProstEncode :=
  ⟨fun _ => [], (·.eventsHash), fun _ => [], fun _ => [], fun v =>
    match v.shardHash with
    | some value =>
      if v.voteType = .precommit ∧ v.height = ⟨1, 5⟩ ∧ v.round = 0 ∧ value.shardIndex = 1 then
        1 :: value.hash else []
    | none => []⟩

/-- The validators have voted for this hash, and for nothing else. -/
@[reducible] def votedFor (hash : Bytes) : VoteLibs :=
  .ofEd25519 ⟨fun _ msg sig => sig == [1] && msg == 1 :: hash⟩

def sampleCertificate (hash : Bytes) : CommitCertificate := { sampleVotes with valueId := ⟨1, hash⟩ }

/-- A block with one event, and a certificate for the hash. -/
def sampleEventBlock (hash : Bytes) : Block where
  header := some ⟨some ⟨1, 5⟩, 0, 0, 0, [], [], [], List.replicate 32 0⟩
  hash := []
  shardWitness := none
  commits := some (sampleCertificate hash).toCommits
  transactions := []
  events := [⟨List.replicate 32 0, some ⟨1, 0, 5, 0, 0, none⟩⟩]

theorem votesDistinct_sampleCertificate (hash : Bytes) :
    @CommitCertificate.VotesDistinct eventsEncode (sampleCertificate hash) := by
  intro vote hvote
  obtain ⟨type, height, round, value, voter⟩ := vote
  have hcert : eventsEncode.encodeVote ((sampleCertificate hash).voteOf voter) = 1 :: hash := rfl
  rw [hcert] at hvote
  cases value with
  | none => cases hvote
  | some value =>
    obtain ⟨shardIndex, hash'⟩ := value
    change (if type = .precommit ∧ height = ⟨1, 5⟩ ∧ round = 0 ∧ shardIndex = 1 then 1 :: hash' else []) = _
      at hvote
    split at hvote
    next h =>
      obtain ⟨rfl, rfl, rfl, rfl⟩ := h
      cases hvote
      rfl
    next => cases hvote

/-- The certificate is for the header of the block. -/
theorem submitBlock_certified_own :
    let _ := headBlake3
    let _ := eventsEncode
    let _ := votedFor (List.replicate 32 0)
    let block := sampleEventBlock (List.replicate 32 0)
    (∃ sent, BlockReceiver.submitBlock ⟨1, samplePairs⟩ block = some sent ∧ sent ≠ []) ∧
      EventsCertified (fun _ msg => msg = 1 :: List.replicate 32 0) samplePairs block.events := by
  intro _ _ _ block
  have hsent :
      BlockReceiver.submitBlock ⟨1, samplePairs⟩ block = some (block.events.map (.blockEvent 1)) := by decide
  have hiff := submitBlock_certified_iff ⟨1, samplePairs⟩ block _ hsent (by decide)
    (sampleCertificate (List.replicate 32 0)) rfl
    (votesDistinct_sampleCertificate _)
  refine ⟨⟨_, hsent, by decide⟩,
    hiff.2 ⟨⟨some ⟨1, 5⟩, 0, 0, 0, [], [], [], List.replicate 32 0⟩, by decide, rfl, by decide⟩ _ ?_⟩
  exact fun _ _ _ => rfl

/-- The certificate is for another header: the event is sent all the same, and nobody has signed a header with
    it. -/
theorem submitBlock_of_other_certificate :
    let _ := headBlake3
    let _ := eventsEncode
    let _ := votedFor (List.replicate 32 9)
    let signed : Bytes → Bytes → Prop := fun _ msg => msg = 1 :: List.replicate 32 9
    let block := sampleEventBlock (List.replicate 32 9)
    (∀ key msg sig, Ed25519.verify key msg sig = true → signed key msg) ∧
      (∃ sent, BlockReceiver.submitBlock ⟨1, samplePairs⟩ block = some sent ∧ sent ≠ []) ∧
      ¬ EventsCertified signed samplePairs block.events := by
  intro _ _ _ signed block
  refine ⟨fun key msg sig hverify => ?_, ⟨block.events.map (.blockEvent 1), by decide, by decide⟩, ?_⟩
  · have hmsg :=
      (Bool.and_eq_true _ _ ▸ hverify : (sig == [1]) = true ∧ (msg == 1 :: List.replicate 32 9) = true).2
    exact beq_iff_eq.1 hmsg
  · rintro ⟨-, header, height, hevents, hheight, set, signers, round, shardIndex, -, -, -, hquorum, hall⟩
    cases signers with
    | nil => simp at hquorum
    | cons a rest =>
      have hbytes := hall a List.mem_cons_self
      have hvote := votesDistinct_sampleCertificate (List.replicate 32 9) _ hbytes
      -- the header with the event has another hash
      have hhash : (Blake3.hash (ProstEncode.encodeBlockHeader header)).toList = List.replicate 32 9 :=
        congrArg (fun v => (v.shardHash.map (·.hash)).getD []) hvote
      have hevents' : header.eventsHash = List.replicate 32 0 := hevents.trans (by decide)
      have hzero : (Blake3.hash (ProstEncode.encodeBlockHeader header)).toList = List.replicate 32 0 := by
        change (Vector.replicate 32 (header.eventsHash.headD 0)).toList = _
        rw [hevents']
        decide
      rw [hzero] at hhash
      exact absurd hhash (by decide)

end Hypersnap
