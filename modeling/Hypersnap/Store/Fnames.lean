import Hypersnap.Store.Effects
import Hypersnap.Store.Names
import Mathlib.Data.List.Induction

/-!
# `Store.Fnames` — who owns a name

The names of the name server form a table of proofs by name, and an index by fid that should hold one name of
every fid that owns one, and nothing for the others. The merge writes the entry of the new owner **before** it
deletes the entry of the old one: a new proof of the same owner loses its entry. And it deletes the entry of
the old owner whatever other name that owner has. When neither happens the index stays exact; when one of them
does, it is wrong afterwards.
-/

namespace Hypersnap

open Overlay EState

variable {db o : RocksDB} {proof : UserNameProof} {existing : Option UserNameProof} {name : Bytes}

/-! ## Keys -/

theorem makeFnameUsernameProofKey_injective : Function.Injective makeFnameUsernameProofKey :=
  fun _ _ h => (List.cons.inj h).2

theorem makeFnameUsernameProofByFidKey_inj {fid fid' : UInt64} (h : fid.toNat < 2 ^ 32)
    (h' : fid'.toNat < 2 ^ 32)
    (heq : makeFnameUsernameProofByFidKey fid = makeFnameUsernameProofByFidKey fid') : fid = fid' := by
  have hlow : fid.toUInt32 = fid'.toUInt32 := toBeBytes_injective (List.cons.inj heq).2
  have hnat := congrArg UInt32.toNat hlow
  rw [UInt64.toNat_toUInt32, UInt64.toNat_toUInt32, Nat.mod_eq_of_lt h, Nat.mod_eq_of_lt h'] at hnat
  exact UInt64.toNat_inj.1 hnat

theorem nameKey_ne_byFidKey (name : Bytes) (fid : UInt64) :
    makeFnameUsernameProofKey name ≠ makeFnameUsernameProofByFidKey fid :=
  fun h => absurd (List.cons.inj h).1 (by decide)

/-! ## One merge -/

/-- The tables after a proof is accepted, with the fid of the proof it replaces. -/
def fnameWritten (o : RocksDB) (proof : UserNameProof) (existingFid : Option UInt64) : RocksDB :=
  let o := Function.update o (makeFnameUsernameProofKey proof.name) (some (.userNameProof proof))
  let o :=
    if proof.fid = 0 then o
    else Function.update o (makeFnameUsernameProofByFidKey proof.fid)
      (some (.bytes (makeFnameUsernameProofKey proof.name)))
  match existingFid with
  | none => o
  | some fid => Function.update o (makeFnameUsernameProofByFidKey fid) none

namespace UserDataStore

theorem writeUsernameProof_eq (proof : UserNameProof) (existingFid : Option UInt64) (s : StoreState) :
    ∃ s', (if proof.fid = 0 then deleteUsernameProofTransaction proof existingFid
        else putUsernameProofTransaction proof existingFid) s = .ok () s' ∧
      s'.generator = s.generator ∧ ∀ db, s'.view db = fnameWritten (s.view db) proof existingFid := by
  by_cases hzero : proof.fid = 0 <;> simp only [hzero, ↓reduceIte] <;> cases existingFid <;>
    exact ⟨_, rfl, rfl, fun db => by simp [fnameWritten, hzero]⟩

/-- The proof that a new one replaces, or why the new one is rejected. -/
def replacedProof (db : RocksDB) (txn : RocksDbTransactionBatch) (proof : UserNameProof) :
    Except Failure (Option UserNameProof) := do
  let existing ← getUsernameProof db txn proof.name
  checkUsernameProof existing proof
  .ok existing

theorem mergeUsernameProof_cases (db : RocksDB) (proof : UserNameProof) (s : StoreState) :
    (∃ e, replacedProof db s.txn proof = .error e ∧ mergeUsernameProof db proof s = .error e s) ∨
    ∃ existing s₁, replacedProof db s.txn proof = .ok existing ∧ s₁.generator = s.generator ∧
      s₁.view db = fnameWritten (s.view db) proof (existing.map (·.fid)) ∧ mergeUsernameProof db proof s =
        commitTransaction false (.new (.mergeUsernameProofBody (some proof) existing none none)) s₁ := by
  unfold mergeUsernameProof replacedProof
  rw [bind_of_ok (show (get : StoreM StoreState) s = .ok s s from rfl)]
  cases getUsernameProof db s.txn proof.name with
  | error e => exact .inl ⟨e, rfl, rfl⟩
  | ok existing =>
    rw [bind_of_ok (show (fromExcept (.ok existing) : StoreM _) s = .ok existing s from rfl)]
    cases hcheck : checkUsernameProof existing proof with
    | error e => exact .inl ⟨e, by simp [bind, Except.bind, hcheck], rfl⟩
    | ok =>
      obtain ⟨s₁, hwrite, hgenerator, hview⟩ := writeUsernameProof_eq proof (existing.map (·.fid)) s
      refine .inr ⟨existing, s₁, by simp [bind, Except.bind, hcheck], hgenerator, hview db, ?_⟩
      rw [bind_of_ok (show (fromExcept (.ok PUnit.unit) : StoreM _) s = .ok PUnit.unit s from rfl)]
      by_cases hzero : proof.fid = 0
      · rw [if_pos hzero] at hwrite
        simp only [hzero, if_true]
        exact bind_of_ok hwrite
      · rw [if_neg hzero] at hwrite
        simp only [hzero, if_false]
        exact bind_of_ok hwrite

theorem replacedProof_eq_ok {txn : RocksDbTransactionBatch} : replacedProof db txn proof = .ok existing ↔
      getUsernameProof db txn proof.name = .ok existing ∧ checkUsernameProof existing proof = .ok () := by
  unfold replacedProof
  constructor
  · intro h
    obtain ⟨found, hread, h⟩ := except_bind_eq_ok.1 h
    obtain ⟨_, hcheck, h⟩ := except_bind_eq_ok.1 h
    cases h
    exact ⟨hread, hcheck⟩
  · rintro ⟨hread, hcheck⟩
    exact except_bind_eq_ok.2 ⟨existing, hread, except_bind_eq_ok.2 ⟨(), hcheck, rfl⟩⟩

theorem mergeUsernameProof_ok {s s' : StoreState} {event : HubEvent}
    (h : mergeUsernameProof db proof s = .ok event s') :
    ∃ existing, getUsernameProof db s.txn proof.name = .ok existing ∧
    checkUsernameProof existing proof = .ok () ∧
      event.body = .mergeUsernameProofBody (some proof) existing none none ∧
      ∀ k, k[0]? ≠ some RootPrefix.hubEvents.toByte →
        s'.view db k = fnameWritten (s.view db) proof (existing.map (·.fid)) k := by
  obtain ⟨e, -, herr⟩ | ⟨existing, s₁, hreplaced, -, hview, hcommit⟩ := mergeUsernameProof_cases db proof s
  · cases herr.symm.trans h
  rw [hcommit] at h
  obtain ⟨hread, hcheck⟩ := replacedProof_eq_ok.1 hreplaced
  refine ⟨existing, hread, hcheck, ?_⟩
  obtain ⟨err, herr, -⟩ | ⟨ev, s₂, hok, hbody, -, hlog⟩ :=
    Store.commitTransaction_cases s₁ false (.new (.mergeUsernameProofBody (some proof) existing none none))
  · cases herr.symm.trans h
  · cases hok.symm.trans h
    exact ⟨hbody, fun k hk => by rw [hlog db k hk, hview]⟩

end UserDataStore

/-! ## Merges, one after the other -/

/-- A proof, and the event ids in use when it is merged. -/
structure FnameCall where
  proof : UserNameProof
  generator : HubEventIdGenerator

/-- `merge_username_proof` into an empty batch that is committed if the proof is accepted. -/
def mergeFname (db : RocksDB) (call : FnameCall) : RocksDB :=
  match UserDataStore.mergeUsernameProof db call.proof ⟨Batch.empty, call.generator⟩ with
  | .ok _ s => commit db s.txn
  | .error _ _ => db

def FnameCall.Accepted (db : RocksDB) (call : FnameCall) : Prop :=
  ∃ event s, UserDataStore.mergeUsernameProof db call.proof ⟨Batch.empty, call.generator⟩ = .ok event s

def mergeFnames (db : RocksDB) (calls : List FnameCall) : RocksDB := calls.foldl mergeFname db

/-- The record of a name. -/
def HasProof (o : RocksDB) (name : Bytes) (proof : UserNameProof) : Prop :=
  o (makeFnameUsernameProofKey name) = some (.userNameProof proof)

def Owns (o : RocksDB) (fid : UInt64) (name : Bytes) : Prop :=
  ∃ proof, HasProof o name proof ∧ proof.fid = fid

/-- A table of names: what stands under a name is a proof of it, for a fid of 32 bits. -/
def IsNameTable (o : RocksDB) : Prop :=
  ∀ name value, o (makeFnameUsernameProofKey name) = some value →
    ∃ proof, value = .userNameProof proof ∧ proof.name = name ∧ proof.fid.toNat < 2 ^ 32

/-- The index entry of a fid points to a name of the fid if it has one, and is absent if it has none. -/
structure IndexExact (o : RocksDB) (fid : UInt64) : Prop where
  present : (∃ name, Owns o fid name) →
    ∃ name, o (makeFnameUsernameProofByFidKey fid) = some (.bytes (makeFnameUsernameProofKey name)) ∧
    Owns o fid name
  absent : (∀ name, ¬ Owns o fid name) → o (makeFnameUsernameProofByFidKey fid) = none

/-- The index is exact, for all fids of 32 bits; fid 0 stands for nobody. -/
def FnameIndexExact (o : RocksDB) : Prop :=
  ∀ fid : UInt64, fid ≠ 0 → fid.toNat < 2 ^ 32 → IndexExact o fid

/-- A proof whose name has an owner at the moment comes from somebody else, and is for the only name of that
    owner. -/
def SafeTransfer (o : RocksDB) (proof : UserNameProof) : Prop :=
  ∀ existing, HasProof o proof.name existing → UserDataStore.usernameProofCompare existing proof = .lt →
    existing.fid ≠ 0 → existing.fid ≠ proof.fid ∧ ∀ name, Owns o existing.fid name → name = proof.name

/-! ## What an accepted proof changes -/

theorem HasProof.unique {proof' : UserNameProof} (h : HasProof o name proof) (h' : HasProof o name proof') :
    proof = proof' :=
      DbValue.userNameProof.inj (Option.some.inj (h.symm.trans h'))

/-- A proof replaces what stood under its name, and the index moves on: the entry of the old owner goes
    last. -/
structure FnameStep (o o' : RocksDB) (proof : UserNameProof) (existing : Option UserNameProof) : Prop where
  existing_iff : ∀ e, HasProof o proof.name e ↔ existing = some e
  newer : ∀ e ∈ existing, UserDataStore.usernameProofCompare e proof = .lt
  record : ∀ name, o' (makeFnameUsernameProofKey name) =
    if name = proof.name then some (.userNameProof proof) else o (makeFnameUsernameProofKey name)
  index : ∀ fid : UInt64, fid ≠ 0 → fid.toNat < 2 ^ 32 → o' (makeFnameUsernameProofByFidKey fid) =
    if existing.map (·.fid) = some fid then none
    else if fid = proof.fid then some (.bytes (makeFnameUsernameProofKey proof.name))
    else o (makeFnameUsernameProofByFidKey fid)

section written
variable {o : RocksDB} {proof : UserNameProof} {fid : UInt64}

theorem fnameWritten_record (existingFid : Option UInt64) (name : Bytes) :
    fnameWritten o proof existingFid (makeFnameUsernameProofKey name) =
      if name = proof.name then some (.userNameProof proof) else o (makeFnameUsernameProofKey name) := by
  cases existingFid <;> by_cases hzero : proof.fid = 0 <;>
    simp [fnameWritten, hzero, Function.update_apply, nameKey_ne_byFidKey,
      makeFnameUsernameProofKey_injective.eq_iff]

theorem fnameWritten_index {existingFid : Option UInt64} (hproof : proof.fid.toNat < 2 ^ 32)
    (hexisting : ∀ f ∈ existingFid, f.toNat < 2 ^ 32) (hfid : fid.toNat < 2 ^ 32) (hzero : fid ≠ 0) :
    fnameWritten o proof existingFid (makeFnameUsernameProofByFidKey fid) =
      if existingFid = some fid then none
      else if fid = proof.fid then some (.bytes (makeFnameUsernameProofKey proof.name))
      else o (makeFnameUsernameProofByFidKey fid) := by
  have hkey : ∀ {f : UInt64}, f.toNat < 2 ^ 32 →
      (makeFnameUsernameProofByFidKey fid = makeFnameUsernameProofByFidKey f ↔ fid = f) :=
    fun hf => ⟨makeFnameUsernameProofByFidKey_inj hfid hf, fun h => h ▸ rfl⟩
  have hput : fnameWritten o proof none (makeFnameUsernameProofByFidKey fid) =
      if fid = proof.fid then some (.bytes (makeFnameUsernameProofKey proof.name))
      else o (makeFnameUsernameProofByFidKey fid) := by
    by_cases hrelease : proof.fid = 0
    · simp [fnameWritten, hrelease, hzero, (nameKey_ne_byFidKey _ _).symm]
    · simp [fnameWritten, hrelease, hkey hproof, Function.update_apply, (nameKey_ne_byFidKey _ _).symm]
  cases existingFid with
  | none => exact hput
  | some f =>
    refine (Function.update_apply (fnameWritten o proof none) _ _ _).trans ?_
    rw [hput]
    simp only [hkey (hexisting f rfl), Option.some.injEq, eq_comm]

end written

theorem IsNameTable.hasProof (h : IsNameTable o) (hproof : HasProof o name proof) :
    proof.name = name ∧ proof.fid.toNat < 2 ^ 32 := by
  obtain ⟨_, heq, hname, hfid⟩ := h name _ hproof
  cases heq
  exact ⟨hname, hfid⟩

theorem getUsernameProof_eq_ok {txn : RocksDbTransactionBatch}
    (h : getUsernameProof db txn name = .ok existing) (e : UserNameProof) :
    HasProof (commit db txn) name e ↔ existing = some e := by
  unfold getUsernameProof getFromDbOrTxn at h
  unfold HasProof
  split at h
  next hnone =>
    cases h
    simp [hnone]
  next proof hproof =>
    cases h
    simp [hproof]
  next => cases h

theorem compare_of_check (h : UserDataStore.checkUsernameProof existing proof = .ok ()) :
    ∀ e ∈ existing, UserDataStore.usernameProofCompare e proof = .lt := by
  intro e he
  cases he
  unfold UserDataStore.checkUsernameProof at h
  dsimp only at h
  split at h
  · cases h
  · cases h
  · assumption

theorem FnameCall.Accepted.step {db : RocksDB} {call : FnameCall} (h : call.Accepted db)
    (htable : IsNameTable db) (hfid : call.proof.fid.toNat < 2 ^ 32) :
    ∃ existing, FnameStep db (mergeFname db call) call.proof existing := by
  obtain ⟨event, s, hok⟩ := h
  obtain ⟨existing, hread, hcheck, -, hview⟩ := UserDataStore.mergeUsernameProof_ok hok
  have hexisting := getUsernameProof_eq_ok hread
  rw [show commit db (⟨Batch.empty, call.generator⟩ : StoreState).txn = db from rfl] at hexisting
  have hmerge : mergeFname db call = s.view db := by
    unfold mergeFname
    rw [hok]
    rfl
  refine ⟨existing, hexisting, compare_of_check hcheck, fun name => ?_, fun fid hzero hlt => ?_⟩
  · rw [hmerge, hview _ fun h => absurd (Option.some.inj h) (by decide)]
    exact fnameWritten_record _ _
  · rw [hmerge, hview _ fun h => absurd (Option.some.inj h) (by decide)]
    refine fnameWritten_index hfid (fun f hf => ?_) hlt hzero
    obtain ⟨e, he, rfl⟩ := Option.map_eq_some_iff.1 hf
    exact (htable.hasProof ((hexisting e).2 he)).2

/-! ## The index -/

section step
variable {o o' : RocksDB} {proof : UserNameProof} {existing : Option UserNameProof}

section
variable (h : FnameStep o o' proof existing)
include h

theorem FnameStep.owns_iff (fid : UInt64) (name : Bytes) :
    Owns o' fid name ↔ if name = proof.name then proof.fid = fid else Owns o fid name := by
  unfold Owns HasProof
  rw [h.record]
  split
  · constructor
    · rintro ⟨p, hp, rfl⟩
      cases hp
      rfl
    · exact fun hfid => ⟨proof, rfl, hfid⟩
  · rfl

theorem FnameStep.isNameTable (htable : IsNameTable o) (hfid : proof.fid.toNat < 2 ^ 32) :
    IsNameTable o' := by
  intro name value hvalue
  rw [h.record] at hvalue
  split at hvalue
  next hname =>
    cases hvalue
    exact ⟨proof, rfl, hname.symm, hfid⟩
  next => exact htable name value hvalue

theorem FnameStep.exact_of_safe (hexact : FnameIndexExact o) (hsafe : SafeTransfer o proof) :
    FnameIndexExact o' := by
  intro fid hzero hlt
  have hold : ∀ {e}, existing = some e → HasProof o proof.name e := fun he => (h.existing_iff _).2 he
  have hindex := h.index fid hzero hlt
  by_cases hfrom : existing.map (·.fid) = some fid
  · -- the old owner: it has no other name
    rw [if_pos hfrom] at hindex
    obtain ⟨e, he, rfl⟩ := Option.map_eq_some_iff.1 hfrom
    obtain ⟨hne, honly⟩ := hsafe e (hold he) (h.newer e he) hzero
    refine ⟨fun ⟨name, hname⟩ => ?_, fun _ => hindex⟩
    rw [h.owns_iff] at hname
    split at hname
    · exact absurd hname.symm hne
    · exact absurd (honly name hname) (by assumption)
  · rw [if_neg hfrom] at hindex
    by_cases hto : fid = proof.fid
    · -- the new owner
      rw [if_pos hto] at hindex
      have howns : Owns o' fid proof.name := (h.owns_iff _ _).2 (by rw [if_pos rfl, hto])
      exact ⟨fun _ => ⟨proof.name, hindex, howns⟩, fun hnone => absurd howns (hnone _)⟩
    · rw [if_neg hto] at hindex
      have howns : ∀ name, Owns o' fid name ↔ Owns o fid name := by
        intro name
        rw [h.owns_iff]
        split
        next hname =>
          subst hname
          refine ⟨fun heq => absurd heq.symm hto, fun ⟨e, he, hfid⟩ => absurd ?_ hfrom⟩
          rw [(h.existing_iff e).1 he, Option.map_some, hfid]
        next => rfl
      constructor
      · simp only [howns, hindex]
        exact (hexact fid hzero hlt).present
      · simp only [howns, hindex]
        exact (hexact fid hzero hlt).absent

theorem FnameStep.safe_of_exact (htable : IsNameTable o) (hexact : FnameIndexExact o') :
    SafeTransfer o proof := by
  intro e he hnewer hzero
  have hlt := (htable.hasProof he).2
  -- the entry of the old owner is gone, so it must own nothing now
  have hindex := h.index e.fid hzero hlt
  rw [if_pos (by rw [(h.existing_iff e).1 he]; rfl)] at hindex
  have hnone : ∀ name, ¬ Owns o' e.fid name := by
    intro name hname
    obtain ⟨_, hsome, -⟩ := (hexact e.fid hzero hlt).present ⟨name, hname⟩
    cases hindex.symm.trans hsome
  constructor
  · intro heq
    exact hnone proof.name ((h.owns_iff _ _).2 (by rw [if_pos rfl, heq]))
  · intro name hname
    by_contra hne
    exact hnone name ((h.owns_iff _ _).2 (by rwa [if_neg hne]))

end

end step

/-! ## Runs -/

/-- No names yet. -/
structure NoNames (db : RocksDB) : Prop where
  records : ∀ name, db (makeFnameUsernameProofKey name) = none
  index : ∀ fid, db (makeFnameUsernameProofByFidKey fid) = none

theorem mergeFname_of_rejected {call : FnameCall} (h : ¬ call.Accepted db) : mergeFname db call = db := by
  unfold mergeFname
  split
  next event s hok => exact absurd ⟨event, s, hok⟩ h
  next => rfl

theorem mergeFnames_append (db : RocksDB) (calls : List FnameCall) (call : FnameCall) :
    mergeFnames db (calls ++ [call]) = mergeFname (mergeFnames db calls) call := by
  simp [mergeFnames]

theorem mergeFnames_exact {calls : List FnameCall} (hempty : NoNames db)
    (hcalls : ∀ pre call, pre ++ [call] <+: calls →
      call.proof.fid.toNat < 2 ^ 32 ∧ SafeTransfer (mergeFnames db pre) call.proof) :
    IsNameTable (mergeFnames db calls) ∧ FnameIndexExact (mergeFnames db calls) := by
  induction calls using List.reverseRecOn with
  | nil =>
    refine ⟨fun name value h => ?_, fun fid _ _ => ⟨fun ⟨name, _, h, _⟩ => ?_, fun _ => hempty.index fid⟩⟩
    · cases (hempty.records name).symm.trans h
    · cases (hempty.records name).symm.trans h
  | append_singleton calls call ih =>
    obtain ⟨htable, hexact⟩ := ih fun pre c hpre => hcalls pre c (hpre.trans (List.prefix_append _ _))
    obtain ⟨hfid, hsafe⟩ := hcalls calls call List.prefix_rfl
    rw [mergeFnames_append]
    by_cases hacc : call.Accepted (mergeFnames db calls)
    · obtain ⟨existing, hstep⟩ := hacc.step htable hfid
      exact ⟨hstep.isNameTable htable hfid, hstep.exact_of_safe hexact hsafe⟩
    · rw [mergeFname_of_rejected hacc]
      exact ⟨htable, hexact⟩

/-- After every run of safe merges, with fids of 32 bits, the index is exact; and one more accepted proof
    leaves it exact if, and only if, it is safe too. -/
theorem fnameIndex_exact_iff {db : RocksDB} {calls : List FnameCall} (hempty : NoNames db)
    (hcalls : ∀ pre call, pre ++ [call] <+: calls →
      call.proof.fid.toNat < 2 ^ 32 ∧ SafeTransfer (mergeFnames db pre) call.proof) :
    (∀ pre, pre <+: calls → FnameIndexExact (mergeFnames db pre)) ∧
      ∀ call : FnameCall, call.proof.fid.toNat < 2 ^ 32 → call.Accepted (mergeFnames db calls) →
        (FnameIndexExact (mergeFnames db (calls ++ [call])) ↔
          SafeTransfer (mergeFnames db calls) call.proof) := by
  refine ⟨fun pre hpre => (mergeFnames_exact hempty fun p c hp => hcalls p c (hp.trans hpre)).2,
    fun call hfid hacc => ?_⟩
  obtain ⟨htable, hexact⟩ := mergeFnames_exact hempty hcalls
  obtain ⟨existing, hstep⟩ := hacc.step htable hfid
  rw [mergeFnames_append]
  exact ⟨hstep.safe_of_exact htable, hstep.exact_of_safe hexact⟩

def sampleFname (timestamp : UInt64) (letter : UInt8) (fid : UInt64) : FnameCall where
  proof := ⟨timestamp, [letter], [], [], fid, UserNameType.usernameTypeFname.toI32⟩
  generator := ⟨1, 0⟩

/-- A name is registered, and goes to another fid. -/
theorem fnameIndex_exact_transfer :
    FnameIndexExact (mergeFnames (fun _ => none) [sampleFname 1 97 1, sampleFname 2 97 2]) := by
  refine (fnameIndex_exact_iff ⟨fun _ => rfl, fun _ => rfl⟩ fun pre call hpre => ?_).1 _ List.prefix_rfl
  obtain _ | ⟨first, _ | ⟨second, pre⟩⟩ := pre
  · obtain rfl : call = sampleFname 1 97 1 := (List.cons_prefix_cons.1 hpre).1
    exact ⟨by decide, fun existing h => nomatch h⟩
  · obtain ⟨rfl, hrest⟩ := List.cons_prefix_cons.1 hpre
    obtain rfl : call = sampleFname 2 97 2 := (List.cons_prefix_cons.1 hrest).1
    refine ⟨by decide, fun existing h _ _ => ?_⟩
    have hacc : (sampleFname 1 97 1).Accepted fun _ => none := ⟨_, _, rfl⟩
    obtain ⟨_, hstep⟩ := hacc.step (fun _ _ h => nomatch h) (by decide)
    obtain rfl : existing = (sampleFname 1 97 1).proof := h.unique (hstep.record [97])
    refine ⟨by decide, fun name hname => ?_⟩
    by_contra hne
    have hbefore := (hstep.owns_iff _ _).1 hname
    rw [if_neg (show ¬ name = (sampleFname 1 97 1).proof.name from hne)] at hbefore
    obtain ⟨_, hnone, -⟩ := hbefore
    cases hnone
  · have hlength := hpre.length_le
    simp at hlength

/-- A new proof of the owner, and the transfer of one of two names, lose the entry of a fid that owns a
    name. -/
theorem fnameIndex_lost :
    let reproved := mergeFnames (fun _ => none) [sampleFname 1 97 1, sampleFname 2 97 1]
    let transferred :=
      mergeFnames (fun _ => none) [sampleFname 1 97 1, sampleFname 1 98 1, sampleFname 2 97 2]
    (Owns reproved 1 [97] ∧ reproved (makeFnameUsernameProofByFidKey 1) = none) ∧
      Owns transferred 1 [98] ∧ transferred (makeFnameUsernameProofByFidKey 1) = none :=
  ⟨⟨⟨_, rfl, rfl⟩, rfl⟩, ⟨_, rfl, rfl⟩, rfl⟩

end Hypersnap
