import Hypersnap.Store.Fnames
import Hypersnap.Trie.Footprint
import Hypersnap.Trie.KeyCodec
import Hypersnap.Trie.Refinement

/-!
# `Trie.EventKeys` — events move a set of keys, and the names among them

The trie holds a set of keys that are never proper prefixes of one another; an event adds its keys to it and
then takes keys away. A proof of a name is an event that does both: the key of the new owner appears, the key
of the old one goes. Since the keys that go are taken last, a new proof of the **same** owner leaves the name
without a key.
-/

namespace Hypersnap

open Overlay EState

variable {proof : UserNameProof} {o : RocksDB} {existing : Option UserNameProof} {name : Bytes} {fid : UInt64}

/-! ## An event on the set of keys -/

/-- A set of keys that a trie can hold together. -/
structure KeySpace (U : Set Bytes) : Prop where
  length_le : ∀ key ∈ U, 6 ≤ key.length
  prefixFree : IsAntichain (· <+: ·) U

namespace MerkleTrie

variable [Blake3] {db : RocksDB} {t : MerkleTrie} {K : Finset Bytes} {root : TrieNode} {U : Set Bytes}

theorem HoldsInMemory.eachKey (on : Bytes → TrieOp) {op : MerkleTrie → RocksDbTransactionBatch → List Bytes →
      MerkleTrie × RocksDbTransactionBatch × Except TrieError (List Bool)}
    (hop : ∀ t txn key, op t txn [key] = (on key).apply t db txn) (hon : ∀ key, (on key).key = key)
    (hU : KeySpace U) {keys : List Bytes} (hkeys : ∀ key ∈ keys, key ∈ U) (h : HoldsInMemory t K root)
    (hK : (K : Set Bytes) ⊆ U) (txn : RocksDbTransactionBatch) :
    ∃ t' txn' root', MerkleTrie.eachKey op keys t txn = (t', txn', .ok ()) ∧
      HoldsInMemory t' (keys.foldl (fun K key => (on key).onSet K) K) root' := by
  induction keys generalizing t K root txn with
  | nil => exact ⟨t, txn, root, rfl, h⟩
  | cons key keys ih =>
    have hkey := hkeys key (.head _)
    have hboth : ((Insert.insert key K : Finset Bytes) : Set Bytes) ⊆ U := by
      rw [Finset.coe_insert]
      exact Set.insert_subset hkey hK
    obtain ⟨⟨root₁, h₁⟩, hok⟩ := h.apply (on key) db txn ((hon key).symm ▸ hU.length_le key hkey)
      ((hon key).symm ▸ hU.prefixFree.subset hboth)
    have hK₁ : (((on key).onSet K : Finset Bytes) : Set Bytes) ⊆ U := by
      refine subset_trans (Finset.coe_subset.2 ((on key).onSet_subset K)) ?_
      rwa [hon key]
    unfold MerkleTrie.eachKey
    rw [hop]
    generalize (on key).apply t db txn = r at h₁ hok ⊢
    obtain ⟨t₁, txn₁, out⟩ := r
    obtain rfl : out = _ := hok
    exact ih (fun k hk => hkeys k (.tail _ hk)) h₁ hK₁ txn₁

omit [Blake3] in
theorem foldl_insert_onSet (keys : List Bytes) (K : Finset Bytes) :
    keys.foldl (fun K key => (TrieOp.insert key).onSet K) K = K ∪ keys.toFinset := by
  induction keys generalizing K with
  | nil => simp
  | cons key keys ih =>
    rw [List.foldl_cons, ih, TrieOp.onSet, List.toFinset_cons, Finset.insert_union, Finset.union_insert]

omit [Blake3] in
theorem foldl_delete_onSet (keys : List Bytes) (K : Finset Bytes) :
    keys.foldl (fun K key => (TrieOp.delete key).onSet K) K = K \ keys.toFinset := by
  induction keys generalizing K with
  | nil => simp
  | cons key keys ih =>
    rw [List.foldl_cons, ih, TrieOp.onSet, List.toFinset_cons, Finset.sdiff_insert, Finset.erase_sdiff_comm]

/-- **An event adds its keys and then takes keys away.** -/
theorem HoldsInMemory.updateForEvent [Sha256] [TextRules] (h : HoldsInMemory t K root) (hU : KeySpace U)
    (hK : (K : Set Bytes) ⊆ U) {event : HubEvent} {inserts deletes : List Bytes}
    (hkeys : TrieKey.forHubEvent event = some (inserts, deletes)) (hinserts : ∀ key ∈ inserts, key ∈ U)
    (hdeletes : ∀ key ∈ deletes, key ∈ U) (txn : RocksDbTransactionBatch) :
    ∃ t' txn' root', t.updateForEvent db event txn = some (t', txn', .ok ()) ∧
      HoldsInMemory t' ((K ∪ inserts.toFinset) \ deletes.toFinset) root' := by
  obtain ⟨t₁, txn₁, root₁, heach₁, h₁⟩ := h.eachKey .insert (fun t txn key =>
    (rfl : t.insert db txn [key] = _)) (fun _ => rfl) hU hinserts hK txn
  rw [foldl_insert_onSet] at h₁
  have hK₁ : ((K ∪ inserts.toFinset : Finset Bytes) : Set Bytes) ⊆ U := by
    rw [Finset.coe_union]
    exact Set.union_subset hK fun key hkey => hinserts key (List.mem_toFinset.1 hkey)
  obtain ⟨t₂, txn₂, root₂, heach₂, h₂⟩ := h₁.eachKey .delete (fun t txn key =>
    (rfl : t.delete db txn [key] = _)) (fun _ => rfl) hU hdeletes hK₁ txn₁
  rw [foldl_delete_onSet] at h₂
  refine ⟨t₂, txn₂, root₂, ?_, h₂⟩
  unfold MerkleTrie.updateForEvent
  rw [hkeys]
  simp only [Option.bind_eq_bind, Option.bind_some, heach₁, heach₂]

end MerkleTrie

theorem TrieEntry.keySpace [Sha256] : KeySpace {key | ∃ e : TrieEntry, e.Valid ∧ key = e.key} := by
  constructor
  · rintro _ ⟨e, -, rfl⟩
    simp only [key, TrieKey.forFid, List.length_append, List.length_cons, length_makeFidKey]
    omega
  · rintro _ ⟨e, he, rfl⟩ _ ⟨e', he', rfl⟩ hne hpre
    exact hne (he.key_eq_of_isPrefix he' hpre)

/-! ## Names in the trie -/

/-- The tables of names, and the trie. -/
structure FnameTrie where
  db : RocksDB
  trie : MerkleTrie

/-- The owner and name that a key can hold. -/
structure FitsKey (fid : UInt64) (name : Bytes) : Prop where
  fid_lt : fid.toNat < 2 ^ 32
  length_le : name.length ≤ 20
  nul : 0 ∉ name

/-- A proof of the name server for a name that is a text, and that a key can hold. -/
structure IsFname [TextRules] (proof : UserNameProof) : Prop where
  type : proof.type = UserNameType.usernameTypeFname.toI32
  text : TextRules.isUtf8 proof.name = true
  fits : FitsKey proof.fid proof.name

/-- What stands under a name is such a proof of it. -/
def IsFnameTable [TextRules] (o : RocksDB) : Prop :=
  ∀ name value, o (makeFnameUsernameProofKey name) = some value →
    ∃ proof, value = .userNameProof proof ∧ proof.name = name ∧ IsFname proof

/-- A proof for a name that has an owner comes from somebody else. -/
def OwnerChanges (o : RocksDB) (proof : UserNameProof) : Prop :=
  ∀ existing, HasProof o proof.name existing → UserDataStore.usernameProofCompare existing proof = .lt →
    existing.fid ≠ 0 → existing.fid ≠ proof.fid

theorem FnameStep.congr {o' o'' : RocksDB} (h : FnameStep o o' proof existing)
    (heq : ∀ key, key[0]? ≠ some RootPrefix.merkleTrieNode.toByte → o'' key = o' key) :
    FnameStep o o'' proof existing where
  existing_iff := h.existing_iff
  newer := h.newer
  record name := (heq _ fun hroot => absurd (Option.some.inj hroot) (by decide)).trans (h.record name)
  index fid hzero hlt :=
    (heq _ fun hroot => absurd (Option.some.inj hroot) (by decide)).trans (h.index fid hzero hlt)

theorem IsFnameTable.isNameTable [TextRules] (h : IsFnameTable o) : IsNameTable o := by
  intro name value hvalue
  obtain ⟨proof, rfl, hname, hproof⟩ := h name value hvalue
  exact ⟨proof, rfl, hname, hproof.fits.fid_lt⟩

theorem IsFnameTable.hasProof [TextRules] (h : IsFnameTable o) (hproof : HasProof o name proof) :
    proof.name = name ∧ IsFname proof := by
  obtain ⟨_, heq, hname, hfname⟩ := h name _ hproof
  cases heq
  exact ⟨hname, hfname⟩

section names
variable [Blake3] [Sha256] [TextRules]

namespace FnameTrie

/-- Merge a proof and update the trie for its event, in one batch that is then committed. A proof that is
    refused changes nothing; `none` is a panic or an error of the trie. -/
def merge (self : FnameTrie) (call : FnameCall) : Option FnameTrie :=
  match UserDataStore.mergeUsernameProof self.db call.proof ⟨Batch.empty, call.generator⟩ with
  | .error _ _ => some self
  | .ok event s =>
    match self.trie.updateForEvent self.db event s.txn with
    | some (trie, txn, .ok ()) => some ⟨commit self.db txn, trie⟩
    | _ => none

def mergeAll (self : FnameTrie) (calls : List FnameCall) : Option FnameTrie := calls.foldlM merge self

/-- The trie has the key of a name for its owner, and for nobody else. -/
def NamesExact (self : FnameTrie) : Prop :=
  ∀ fid name, FitsKey fid name → ∃ b, (self.trie.existsKey self.db (TrieKey.forFname fid name)).2 = .ok b ∧
    (b = true ↔ Owns self.db fid name ∧ fid ≠ 0)

/-- The trie holds the keys `K`, among them those of the names and their owners. -/
structure Holds (s : FnameTrie) (K : Finset Bytes) (root : TrieNode) : Prop where
  memory : s.trie.HoldsInMemory K root
  entries : ∀ key ∈ K, ∃ e : TrieEntry, e.Valid ∧ key = e.key
  table : IsFnameTable s.db

end FnameTrie

omit [Blake3] [TextRules] in
theorem forFname_eq_key (fid : UInt64) (name : Bytes) :
    TrieKey.forFname fid name = (TrieEntry.fname fid name).key := by
  simp [TrieKey.forFname, TrieEntry.key, TrieEntry.fid, TrieEntry.typeByte, TrieEntry.rest]

omit [Blake3] [Sha256] [TextRules] in
theorem FitsKey.valid (h : FitsKey fid name) : (TrieEntry.fname fid name).Valid :=
  ⟨h.fid_lt, h.length_le, h.nul⟩

omit [Blake3] [TextRules] in
theorem FitsKey.forFname_inj {fid' : UInt64} {name' : Bytes} (h : FitsKey fid name)
    (h' : FitsKey fid' name') :
    TrieKey.forFname fid name = TrieKey.forFname fid' name' ↔ fid = fid' ∧ name = name' := by
  rw [forFname_eq_key, forFname_eq_key]
  constructor
  · intro heq
    exact TrieEntry.fname.inj (h.valid.key_inj h'.valid heq)
  · rintro ⟨rfl, rfl⟩
    rfl

omit [Blake3] in
theorem forUsernameProof_eq (h : IsFname proof) (counts : UserNameProof → Bool) :
    TrieKey.forUsernameProof (some proof) counts =
      some (if counts proof = true then [TrieKey.forFname proof.fid proof.name] else []) := by
  unfold TrieKey.forUsernameProof
  simp only [h.type, h.text, beq_self_eq_true, Bool.true_and, if_true]
  split <;> rfl

omit [Blake3] in
theorem forHubEvent_of_fname {event : HubEvent}
    (hbody : event.body = .mergeUsernameProofBody (some proof) existing none none) (hproof : IsFname proof)
    (hexisting : ∀ e ∈ existing, IsFname e) :
    TrieKey.forHubEvent event = some (if proof.fid ≠ 0 then [TrieKey.forFname proof.fid proof.name] else [],
      existing.toList.map fun e => TrieKey.forFname e.fid e.name) := by
  have hnew := forUsernameProof_eq hproof (·.fid != 0)
  have hold : TrieKey.forUsernameProof existing (fun _ => true) =
      some (existing.toList.map fun e => TrieKey.forFname e.fid e.name) := by
    cases existing with
    | none => rfl
    | some e => rw [forUsernameProof_eq (hexisting e rfl), if_pos rfl]; rfl
  have hnone : TrieKey.forMessages (Option.toList none) = some [] := rfl
  unfold TrieKey.forHubEvent
  simp only [hbody, hnone, hnew, hold, Option.bind_eq_bind, Option.bind_some, List.nil_append, bne_iff_ne]

/-! ## One proof -/

section step
variable {self : FnameTrie} {K : Finset Bytes} {root : TrieNode} {call : FnameCall}

theorem FnameTrie.Holds.merge (h : self.Holds K root) (hproof : IsFname call.proof)
    (hacc : call.Accepted self.db) :
    ∃ self' existing K' root', self.merge call = some self' ∧ FnameStep self.db self'.db call.proof existing ∧
      self'.Holds K' root' ∧ ∀ key, key ∈ K' ↔
        (key ∈ K ∨ call.proof.fid ≠ 0 ∧ key = TrieKey.forFname call.proof.fid call.proof.name) ∧
          ∀ e ∈ existing, key ≠ TrieKey.forFname e.fid call.proof.name := by
  obtain ⟨event, s, hok⟩ := hacc
  obtain ⟨existing, hread, -, hbody, -⟩ := UserDataStore.mergeUsernameProof_ok hok
  obtain ⟨existing', hstep⟩ := FnameCall.Accepted.step ⟨event, s, hok⟩ h.table.isNameTable hproof.fits.fid_lt
  obtain rfl : existing' = existing :=
    Option.ext fun e => (hstep.existing_iff e).symm.trans (getUsernameProof_eq_ok hread e)
  have hexisting : ∀ e ∈ existing', e.name = call.proof.name ∧ IsFname e :=
    fun e he => h.table.hasProof ((hstep.existing_iff e).2 he)
  have hkeys := forHubEvent_of_fname hbody hproof fun e he => (hexisting e he).2
  have hmem :
      ∀ {p : UserNameProof}, IsFname p → ∃ e : TrieEntry, e.Valid ∧ TrieKey.forFname p.fid p.name = e.key :=
    fun hp => ⟨_, hp.fits.valid, forFname_eq_key _ _⟩
  have hinserts :
      ∀ key ∈ (if call.proof.fid ≠ 0 then [TrieKey.forFname call.proof.fid call.proof.name] else []),
      ∃ e : TrieEntry, e.Valid ∧ key = e.key := by
    intro key hkey
    split at hkey
    · obtain rfl := List.mem_singleton.1 hkey
      exact hmem hproof
    · cases hkey
  have hdeletes : ∀ key ∈ existing'.toList.map (fun e => TrieKey.forFname e.fid e.name),
      ∃ e : TrieEntry, e.Valid ∧ key = e.key := by
    intro key hkey
    obtain ⟨e, he, rfl⟩ := List.mem_map.1 hkey
    exact hmem (hexisting e (Option.mem_toList.1 he)).2
  obtain ⟨trie, txn, root', hupdate, hmemory⟩ :=
    h.memory.updateForEvent TrieEntry.keySpace h.entries hkeys hinserts hdeletes s.txn
  have hview : ∀ key : Bytes, key[0]? ≠ some RootPrefix.merkleTrieNode.toByte →
      commit self.db txn key = mergeFname self.db call key := by
    intro key hroot
    unfold mergeFname
    rw [hok]
    unfold commit
    rw [MerkleTrie.updateForEvent_offTrie hupdate key hroot]
  have hstep' := hstep.congr hview
  refine ⟨⟨commit self.db txn, trie⟩, existing', _, root', ?_, hstep', ⟨hmemory, ?_, ?_⟩, ?_⟩
  · unfold FnameTrie.merge
    rw [hok]
    dsimp only
    rw [hupdate]
  · intro key hkey
    obtain hkey | hkey := Finset.mem_union.1 (Finset.mem_sdiff.1 hkey).1
    · exact h.entries key hkey
    · exact hinserts key (List.mem_toFinset.1 hkey)
  · intro name value hvalue
    have hvalue := (hstep'.record name).symm.trans hvalue
    split at hvalue
    next hname =>
      cases hvalue
      exact ⟨_, rfl, hname.symm, hproof⟩
    next => exact h.table name value hvalue
  · intro key
    rw [Finset.mem_sdiff, Finset.mem_union, List.mem_toFinset, List.mem_toFinset]
    refine and_congr (or_congr_right ?_) ?_
    · split
      next hzero => rw [List.mem_singleton, and_iff_right hzero]
      next hzero => exact ⟨(fun hkey => nomatch hkey), fun hkey => absurd hkey.1 hzero⟩
    · constructor
      · intro hkey e he heq
        refine hkey (List.mem_map.2 ⟨e, Option.mem_toList.2 he, ?_⟩)
        rw [heq, (hexisting e he).1]
      · intro hkey hmap
        obtain ⟨e, he, heq⟩ := List.mem_map.1 hmap
        have he := Option.mem_toList.1 he
        exact hkey e he (by rw [← heq, (hexisting e he).1])

/-- The keys of names among the keys of the trie. -/
def FnameTrie.KeysExact (s : FnameTrie) (K : Finset Bytes) : Prop :=
  ∀ fid name, FitsKey fid name → (TrieKey.forFname fid name ∈ K ↔ Owns s.db fid name ∧ fid ≠ 0)

theorem FnameTrie.Holds.namesExact_iff (h : self.Holds K root) : self.NamesExact ↔ self.KeysExact K := by
  refine forall_congr' fun fid => forall_congr' fun name => forall_congr' fun hfits => ?_
  have hexists :=
    (MerkleTrie.existsKey_spec h.memory.root_eq (h.memory.represents self.db) (TrieKey.forFname fid name)).1
  rw [if_neg (by simp [TrieKey.forFname, TrieKey.forFid])] at hexists
  rw [hexists]
  simp

omit [Blake3] in
/-- The names are exact after an accepted proof if, and only if, the owner changes. -/
theorem FnameTrie.keysExact_iff {s s' : FnameTrie} {K' : Finset Bytes}
    (hstep : FnameStep s.db s'.db proof existing) (htable : IsFnameTable s.db) (hproof : IsFname proof)
    (hK : s.KeysExact K) (hK' : ∀ key, key ∈ K' ↔
      (key ∈ K ∨ proof.fid ≠ 0 ∧ key = TrieKey.forFname proof.fid proof.name) ∧
        ∀ e ∈ existing, key ≠ TrieKey.forFname e.fid proof.name) :
    s'.KeysExact K' ↔ OwnerChanges s.db proof := by
  have hfits : ∀ {e}, existing = some e → FitsKey e.fid proof.name := by
    intro e he
    obtain ⟨hname, hfname⟩ := htable.hasProof ((hstep.existing_iff e).2 he)
    exact hname ▸ hfname.fits
  constructor
  · intro hexact e he hnewer hzero heq
    have hsome := (hstep.existing_iff e).1 he
    have howns : Owns s'.db e.fid proof.name := (hstep.owns_iff _ _).2 (by rw [if_pos rfl, heq])
    exact ((hK' _).1 ((hexact e.fid proof.name (hfits hsome)).2 ⟨howns, hzero⟩)).2 e hsome rfl
  · intro hchanges fid name hkey
    rw [hK', hstep.owns_iff, hK fid name hkey, hkey.forFname_inj hproof.fits]
    have hold : (∀ e ∈ existing, TrieKey.forFname fid name ≠ TrieKey.forFname e.fid proof.name) ↔
        ∀ e ∈ existing, ¬ (fid = e.fid ∧ name = proof.name) :=
      forall_congr' fun e => forall_congr' fun he => not_congr (hkey.forFname_inj (hfits he))
    rw [hold]
    by_cases hname : name = proof.name
    · subst hname
      rw [if_pos rfl]
      constructor
      · rintro ⟨⟨⟨e, he, rfl⟩, -⟩ | ⟨hzero, rfl, -⟩, hold⟩
        · exact absurd ⟨rfl, rfl⟩ (hold e ((hstep.existing_iff e).1 he))
        · exact ⟨rfl, hzero⟩
      · rintro ⟨rfl, hzero⟩
        refine ⟨.inr ⟨hzero, rfl, rfl⟩, fun e he heq => ?_⟩
        exact hchanges e ((hstep.existing_iff e).2 he) (hstep.newer e he) (heq.1 ▸ hzero) heq.1.symm
    · simp [hname]

end step

/-! ## Runs of proofs -/

/-- Before the first name: the tables and the trie are empty. -/
def FnameTrie.initial (db : RocksDB) : FnameTrie := ⟨db, MerkleTrie.fresh db⟩

theorem FnameTrie.merge_of_rejected {self : FnameTrie} {call : FnameCall} (h : ¬ call.Accepted self.db) :
    self.merge call = some self := by
  unfold FnameTrie.merge
  split
  next => rfl
  next event s hok => exact absurd ⟨event, s, hok⟩ h

theorem FnameTrie.mergeAll_append (self : FnameTrie) (calls : List FnameCall) (call : FnameCall) :
    self.mergeAll (calls ++ [call]) = (self.mergeAll calls).bind fun s => s.merge call := by
  simp only [FnameTrie.mergeAll, List.foldlM_append, List.foldlM_cons, List.foldlM_nil, bind_pure,
    Option.bind_eq_bind]

theorem FnameTrie.mergeAll_exact {db : RocksDB} {calls : List FnameCall} (hempty : NoNames db)
    (hfresh : db (TrieNode.nodeKey []) = none)
    (hcalls : ∀ pre call s, pre ++ [call] <+: calls → (initial db).mergeAll pre = some s →
      IsFname call.proof ∧ OwnerChanges s.db call.proof) :
    ∃ s K root, (initial db).mergeAll calls = some s ∧ s.Holds K root ∧ s.KeysExact K := by
  induction calls using List.reverseRecOn with
  | nil =>
    refine ⟨initial db, ∅, TrieNode.new, rfl, ⟨?_, ?_, ?_⟩, ?_⟩
    · exact ⟨congrArg MerkleTrie.root (MerkleTrie.fresh_eq hfresh), TrieNode.resident_new, fun _ => .empty⟩
    · exact fun key hkey => absurd hkey (Finset.notMem_empty key)
    · exact fun name value h => nomatch (hempty.records name).symm.trans h
    · refine fun fid name _ => ⟨fun hkey => absurd hkey (Finset.notMem_empty _), fun ⟨⟨_, h, _⟩, _⟩ => ?_⟩
      cases (hempty.records name).symm.trans h
  | append_singleton calls call ih =>
    obtain ⟨s, K, root, hrun, hholds, hexact⟩ :=
      ih fun pre c s hpre => hcalls pre c s (hpre.trans (List.prefix_append _ _))
    obtain ⟨hproof, hchanges⟩ := hcalls calls call s List.prefix_rfl hrun
    rw [mergeAll_append, hrun, Option.bind_some]
    by_cases hacc : call.Accepted s.db
    · obtain ⟨s', existing, K', root', hmerge, hstep, hholds', hK'⟩ := hholds.merge hproof hacc
      exact ⟨s', K', root', hmerge, hholds', (keysExact_iff hstep hholds.table hproof hexact hK').2 hchanges⟩
    · exact ⟨s, K, root, merge_of_rejected hacc, hholds, hexact⟩

/-- Proofs of names that a key can hold, each from a new owner: every run goes through, and the names in the
    trie are those of the tables at every point; after one more accepted proof they are if, and only if, the
    owner changes. -/
theorem fnamesInTrie_exact_iff {db : RocksDB} {calls : List FnameCall} (hempty : NoNames db)
    (hfresh : db (TrieNode.nodeKey []) = none)
    (hcalls : ∀ pre call s, pre ++ [call] <+: calls → (FnameTrie.initial db).mergeAll pre = some s →
      IsFname call.proof ∧ OwnerChanges s.db call.proof) :
    (∀ pre, pre <+: calls → ∃ s, (FnameTrie.initial db).mergeAll pre = some s ∧ s.NamesExact) ∧
      ∃ s, (FnameTrie.initial db).mergeAll calls = some s ∧ ∀ call : FnameCall, IsFname call.proof →
        call.Accepted s.db →
        ∃ s', s.merge call = some s' ∧ (s'.NamesExact ↔ OwnerChanges s.db call.proof) := by
  constructor
  · intro pre hpre
    obtain ⟨s, K, root, hrun, hholds, hexact⟩ :=
      FnameTrie.mergeAll_exact hempty hfresh fun p c s hp => hcalls p c s (hp.trans hpre)
    exact ⟨s, hrun, hholds.namesExact_iff.2 hexact⟩
  · obtain ⟨s, K, root, hrun, hholds, hexact⟩ := FnameTrie.mergeAll_exact hempty hfresh hcalls
    refine ⟨s, hrun, fun call hproof hacc => ?_⟩
    obtain ⟨s', existing, K', root', hmerge, hstep, hholds', hK'⟩ := hholds.merge hproof hacc
    refine ⟨s', hmerge, hholds'.namesExact_iff.trans ?_⟩
    exact FnameTrie.keysExact_iff hstep hholds.table hproof hexact hK'

end names

/-! ## Two runs -/

/-- Rules by which everything is fine. -/
@[reducible] def plainText : TextRules where
  validateFname _ := .ok ()
  validateEnsName _ := .ok ()
  validateBaseName _ := .ok ()
  validateUserLocation _ := .ok ()
  validateTwitterUsername _ := .ok ()
  validateGithubUsername _ := .ok ()
  validateCaip19Format _ := .ok ()
  isUtf8 _ := true
  addressFromHex _ := none
  toChecksum b := b
  base58Decode _ := none
  base58Encode b := b

/-- What is read of the letter `a`, in the tables and for the fid in the trie. -/
def FnameTrie.readSample [Blake3] [Sha256] (s : FnameTrie) (fid : UInt64) :
    Option (Option UserNameProof) × Option Bool :=
  ((getUsernameProof s.db Batch.empty [97]).toOption,
    (s.trie.existsKey s.db (TrieKey.forFname fid [97])).2.toOption)

theorem FnameTrie.hasProof_of_readSample [Blake3] [Sha256] {s : FnameTrie} {b : Bool}
    (h : s.readSample fid = (some (some proof), some b)) :
    (∀ e, HasProof s.db [97] e ↔ some proof = some e) ∧
    (s.trie.existsKey s.db (TrieKey.forFname fid [97])).2 = .ok b := by
  obtain ⟨hread, hexists⟩ := Prod.mk.inj h
  constructor
  · cases hok : getUsernameProof s.db Batch.empty [97] with
    | error e =>
      rw [hok] at hread
      cases hread
    | ok existing =>
      rw [hok] at hread
      cases hread
      exact getUsernameProof_eq_ok hok
  · generalize (s.trie.existsKey s.db (TrieKey.forFname fid [97])).2 = r at hexists ⊢
    cases r with
    | error e => cases hexists
    | ok b' =>
      cases hexists
      rfl

/-- The letter `a` is registered for fid 1, and goes to fid 2. -/
theorem fnamesInTrie_exact_transfer :
    let _ := MerkleTrie.constHash
    let _ := zeroSha
    let _ := plainText
    ∃ s, (FnameTrie.initial fun _ => none).mergeAll [sampleFname 1 97 1, sampleFname 2 97 2] = some s ∧
      s.NamesExact := by
  intro _ _ _
  refine (fnamesInTrie_exact_iff ⟨fun _ => rfl, fun _ => rfl⟩ rfl fun pre call s hpre hrun => ?_).1 _
    List.prefix_rfl
  have hfname : ∀ time fid : UInt64, fid.toNat < 2 ^ 32 → IsFname (sampleFname time 97 fid).proof :=
    fun _ _ hfid => ⟨rfl, rfl, hfid, by simp [sampleFname], by simp [sampleFname]⟩
  obtain _ | ⟨first, _ | ⟨second, pre⟩⟩ := pre
  · obtain rfl : call = sampleFname 1 97 1 := (List.cons_prefix_cons.1 hpre).1
    cases hrun
    exact ⟨hfname 1 1 (by decide), fun existing h => nomatch h⟩
  · obtain ⟨rfl, hrest⟩ := List.cons_prefix_cons.1 hpre
    obtain rfl : call = sampleFname 2 97 2 := (List.cons_prefix_cons.1 hrest).1
    refine ⟨hfname 2 2 (by decide), fun existing h _ _ => ?_⟩
    have hread : (((FnameTrie.initial fun _ => none).mergeAll [sampleFname 1 97 1]).all fun s =>
        s.readSample 1 = (some (some (sampleFname 1 97 1).proof), some true)) = true := by decide +kernel
    rw [hrun] at hread
    have hproof := FnameTrie.hasProof_of_readSample (of_decide_eq_true hread)
    obtain rfl := Option.some.inj ((hproof.1 existing).1 h)
    decide
  · have hlength := hpre.length_le
    simp at hlength

/-- A second proof of the same owner takes the key of the name away. -/
theorem fname_key_lost :
    let _ := MerkleTrie.constHash
    let _ := zeroSha
    let _ := plainText
    ∃ s, (FnameTrie.initial fun _ => none).mergeAll [sampleFname 1 97 1, sampleFname 2 97 1] = some s ∧
      Owns s.db 1 [97] ∧ (s.trie.existsKey s.db (TrieKey.forFname 1 [97])).2 = .ok false := by
  intro _ _ _
  have hread :
      (((FnameTrie.initial fun _ => none).mergeAll [sampleFname 1 97 1, sampleFname 2 97 1]).any fun s =>
      s.readSample 1 = (some (some (sampleFname 2 97 1).proof), some false)) = true := by decide +kernel
  obtain ⟨s, hrun, hread⟩ := (Option.any_eq_true _ _).1 hread
  obtain ⟨hproof, hexists⟩ := FnameTrie.hasProof_of_readSample (of_decide_eq_true hread)
  exact ⟨s, hrun, ⟨_, (hproof _).2 rfl, rfl⟩, hexists⟩

end Hypersnap
