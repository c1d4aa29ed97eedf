import Hypersnap.Store.Confluence

/-!
# `Store.AddressLookup` — the user behind a verified address

`get_fid_by_address` reads one fid per address. Every verification add of the address writes its own fid
there, and what takes away an add deletes the entry, whoever it names. So after a remove the lookup finds
nobody, even if other users have verified the address. `addressLookup_exact_iff`: along a run of merges the
lookup is exact in every state if and only if no step removes a verification of an address that another user
has verified as well, and the fids fit into four bytes.
-/

namespace Hypersnap

open Overlay EState Layout Lib

variable {r : Record} {address : Bytes}

namespace VerificationStore

/-- The store of the node. -/
abbrev verificationStore : Store := PlainStore.verification.store .legacy

def getFidByAddress (db : RocksDB) (address : Bytes) : Except Failure (Option UInt64) :=
  match db (VerificationStoreDef.makeVerificationByAddressKey RootPrefix.verificationByAddress.toByte address)
    with
  | some (.bytes value) => if 4 ≤ value.length then (readFidKey value 0).map some else .ok none
  | _ => .ok none

section exact
variable [Prost]

/-- The user has an active verification of the address: an add is stored. -/
def Active (db : RocksDB) (fid : UInt64) (address : Bytes) : Prop :=
  ∃ r, verificationLayout.Held .legacy db r ∧ r.isRemove = false ∧ r.fid = fid ∧ r.slot = address

/-- The lookup finds somebody if anybody has verified the address, and only somebody who has. -/
def ExactAt (db : RocksDB) (address : Bytes) : Prop :=
  ∃ found, getFidByAddress db address = .ok found ∧ (found.isSome ↔ ∃ fid, Active db fid address) ∧
    ∀ fid, found = some fid → Active db fid address

/-- **The lookup is exact.** -/
def ExactLookup (db : RocksDB) : Prop := ∀ address, ExactAt db address

/-- The merge of `r` is not stopped by what is stored. -/
def Accepted (db : RocksDB) (r : Record) : Prop :=
  verificationLayout.Admits .legacy r ∧ ∀ x, verificationLayout.Rival .legacy db r x →
    bytesCompare (verificationLayout.rankOf x) (verificationLayout.rankOf r) = .lt

/-- **A step that keeps the lookup exact**: an add has a fid that fits, and a remove that takes away an add
    does so when nobody else has verified the address. -/
def KeepsLookup (db : RocksDB) (m : Message) : Prop :=
  ∀ r, r.message = m → Accepted db r →
    (r.isRemove = false → r.fid.toNat < 2 ^ 32) ∧
    (r.isRemove = true → (∃ x, verificationLayout.Rival .legacy db r x ∧ x.isRemove = false) →
      ∀ y, verificationLayout.Held .legacy db y → y.isRemove = false → y.slot = r.slot →
      conflictKey y = conflictKey r)

end exact

/-! ## The entry of an address -/

def addressKey (address : Bytes) : Bytes := RootPrefix.verificationByAddress.toByte :: address

theorem verifiedAddress_of_add (hr : verificationLayout.Typed r) (hadd : r.isRemove = false) :
    r.message.verifiedAddress = some r.slot := by
  have htype : verificationStoreDef.isAddType r.message = true := by rw [hr.isAddType_eq, hadd]; rfl
  have hslot := hr.slot
  simp only [verificationStoreDef, VerificationStoreDef.isAddType, Bool.and_eq_true] at htype
  simp only [verificationLayout, verificationSlot] at hslot
  rw [Message.verifiedAddress]
  cases hbody : r.message.data.bind (·.body) with
  | none =>
    simp only [hbody] at htype
    cases htype.2
  | some body =>
    simp only [hbody] at htype hslot
    cases body with
    | verificationAddAddressBody address protocol claim => exact hslot
    | _ => cases htype.2

theorem mem_entries_of_add (hr : verificationLayout.Admits .legacy r) (hadd : r.isRemove = false) :
    (addressKey r.slot, .bytes (makeFidKey r.fid)) ∈ verificationLayout.entries .legacy r := by
  have hkey := Store.mem_verification_secondary hr (verifiedAddress_of_add hr.toTyped hadd)
  obtain ⟨⟨k, v⟩, hkv, hk⟩ := List.mem_map.1 hkey
  obtain ⟨-, rfl, -⟩ := Store.verification_secondary hr.toTyped hkv
  cases hk
  exact mem_entries.2 (.inr (.inr hkv))

theorem of_mem_entries (hr : verificationLayout.Typed r) {v : DbValue}
    (h : (addressKey address, v) ∈ verificationLayout.entries .legacy r) :
    r.isRemove = false ∧ r.slot = address ∧ v = .bytes (makeFidKey r.fid) := by
  have hroot : (addressKey address)[0]? = some RootPrefix.verificationByAddress.toByte := rfl
  rcases mem_entries.1 h with ⟨hk, -⟩ | ⟨hk, -⟩ | hsec
  · rw [hk] at hroot
    exact absurd (Option.some.inj hroot) (by decide)
  · rw [hk] at hroot
    exact absurd (Option.some.inj hroot) (by decide)
  · obtain ⟨hk, hv, -⟩ := Store.verification_secondary hr hsec
    exact ⟨(secondary_cases hsec).1, (List.cons.inj hk).2.symm, hv⟩

theorem addressKey_mem_keys_iff (hr : verificationLayout.Admits .legacy r) :
    addressKey address ∈ verificationLayout.keys .legacy r ↔ r.isRemove = false ∧ r.slot = address := by
  constructor
  · intro h
    obtain ⟨⟨k, v⟩, hkv, hk⟩ := List.mem_map.1 h
    cases hk
    exact ⟨(of_mem_entries hr.toTyped hkv).1, (of_mem_entries hr.toTyped hkv).2.1⟩
  · rintro ⟨hadd, rfl⟩
    exact List.mem_map_of_mem (mem_entries_of_add hr hadd)

variable {db : RocksDB}

theorem getFidByAddress_eq {fid : UInt64} (h : db (addressKey address) = some (.bytes (makeFidKey fid))) :
    getFidByAddress db address = .ok (some (fromBeBytes (makeFidKey fid)).toUInt64) := by
  have hkey :
      db (VerificationStoreDef.makeVerificationByAddressKey RootPrefix.verificationByAddress.toByte address) =
    some (.bytes (makeFidKey fid)) := h
  rw [getFidByAddress, hkey]
  rfl

theorem getFidByAddress_none (h : db (addressKey address) = none) :
    getFidByAddress db address = .ok none := by
  have hkey :
      db (VerificationStoreDef.makeVerificationByAddressKey RootPrefix.verificationByAddress.toByte address) =
    none := h
  rw [getFidByAddress, hkey]

/-! ## One step -/

section step
variable [Prost] {db db' : RocksDB} {address : Bytes} {r : Record}

theorem exactAt_congr (hentry : db' (addressKey address) = db (addressKey address))
    (hactive : ∀ fid, Active db' fid address ↔ Active db fid address) :
    ExactAt db' address ↔ ExactAt db address := by
  have hget : getFidByAddress db' address = getFidByAddress db address := by
    have hkey : db'
        (VerificationStoreDef.makeVerificationByAddressKey RootPrefix.verificationByAddress.toByte address) =
      db (VerificationStoreDef.makeVerificationByAddressKey RootPrefix.verificationByAddress.toByte
        address) := hentry
    rw [getFidByAddress, getFidByAddress, hkey]
  simp only [ExactAt, hget, hactive]

/-- What is held after the merge of `r`. -/
def Installs (db db' : RocksDB) (r : Record) : Prop :=
  ∀ w, verificationLayout.Held .legacy db' w ↔
    w = r ∨ verificationLayout.Held .legacy db w ∧ conflictKey w ≠ conflictKey r

/-- What the entries of the addresses are then: those of `r`, and the old ones that neither `r` nor a rival
    has. -/
def Reenters (db db' : RocksDB) (r : Record) : Prop :=
  ∀ address v, db' (addressKey address) = some v ↔
    (addressKey address, v) ∈ verificationLayout.entries .legacy r ∨
    addressKey address ∉ verificationLayout.keys .legacy r ∧
      (∀ x, verificationLayout.Rival .legacy db r x →
        addressKey address ∉ verificationLayout.keys .legacy x) ∧
      db (addressKey address) = some v

theorem exactAt_of_untouched (hheld : Installs db db' r) (hentry : Reenters db db' r)
    (hadmits : verificationLayout.Admits .legacy r)
    (hrivals : ∀ x, verificationLayout.Rival .legacy db r x → verificationLayout.Admits .legacy x)
    (hr : ¬ (r.isRemove = false ∧ r.slot = address))
    (hnone : ∀ x, verificationLayout.Rival .legacy db r x → ¬ (x.isRemove = false ∧ x.slot = address)) :
    ExactAt db' address ↔ ExactAt db address := by
  refine exactAt_congr
    (Option.ext fun v => (hentry address v).trans ⟨?_, fun h => .inr ⟨?_, fun x hx => ?_, h⟩⟩) fun fid => ?_
  · rintro (h | ⟨-, -, h⟩)
    · exact absurd ⟨(of_mem_entries hadmits.toTyped h).1, (of_mem_entries hadmits.toTyped h).2.1⟩ hr
    · exact h
  · rwa [addressKey_mem_keys_iff hadmits]
  · rw [addressKey_mem_keys_iff (hrivals x hx)]
    exact hnone x hx
  · constructor
    · rintro ⟨w, hw, hadd, hfid, hslot⟩
      rcases (hheld w).1 hw with rfl | ⟨hw, -⟩
      · exact absurd ⟨hadd, hslot⟩ hr
      · exact ⟨w, hw, hadd, hfid, hslot⟩
    · rintro ⟨w, hw, hadd, hfid, hslot⟩
      exact ⟨w, (hheld w).2 (.inr ⟨hw, fun hkey => hnone w ⟨hw, hkey⟩ ⟨hadd, hslot⟩⟩), hadd, hfid, hslot⟩

theorem exactAt_of_add (hheld : Installs db db' r) (hadd : r.isRemove = false)
    (hentry : db' (addressKey r.slot) = some (.bytes (makeFidKey r.fid))) :
    ExactAt db' r.slot ↔ r.fid.toNat < 2 ^ 32 := by
  have hself := (hheld r).2 (.inl rfl)
  have hactive : Active db' r.fid r.slot := ⟨r, hself, hadd, rfl, rfl⟩
  rw [← readBack_eq_iff]
  constructor
  · rintro ⟨found, hfound, -, honly⟩
    rw [getFidByAddress_eq hentry] at hfound
    cases hfound
    -- the fid that is read has the same key, so its verification is this one
    obtain ⟨w, hw, hwadd, hwfid, hwslot⟩ := honly _ rfl
    have hsame : w = r := by
      refine hw.eq_of_conflictKey hself (hwadd.trans hadd.symm) (Prod.ext ?_ hwslot)
      have hkey : makeFidKey (fromBeBytes (makeFidKey r.fid)).toUInt64 = makeFidKey r.fid :=
        makeFidKey_readBack r.fid
      simp only [conflictKey, hwfid, hkey]
    rw [← hwfid, hsame]
  · intro hread
    refine ⟨_, getFidByAddress_eq hentry, ⟨fun _ => ⟨_, hactive⟩, fun _ => rfl⟩, ?_⟩
    rintro fid ⟨⟩
    rw [hread]
    exact hactive

theorem exactAt_of_deleted (hheld : Installs db db' r) (hremove : r.isRemove = true)
    (hentry : db' (addressKey r.slot) = none) :
    ExactAt db' r.slot ↔ ∀ y, verificationLayout.Held .legacy db y → y.isRemove = false → y.slot = r.slot →
      conflictKey y = conflictKey r := by
  constructor
  · rintro ⟨found, hfound, hsome, -⟩ y hy hyadd hyslot
    rw [getFidByAddress_none hentry] at hfound
    cases hfound
    by_contra hkey
    have := hsome.2 ⟨y.fid, y, (hheld y).2 (.inr ⟨hy, hkey⟩), hyadd, rfl, hyslot⟩
    cases this
  · intro hnone
    refine ⟨none, getFidByAddress_none hentry, ⟨fun h => (by cases h), ?_⟩, fun fid h => (by cases h)⟩
    rintro ⟨fid, w, hw, hadd, -, hslot⟩
    rcases (hheld w).1 hw with rfl | ⟨hw, hkey⟩
    · rw [hremove] at hadd
      cases hadd
    · exact absurd (hnone w hw hadd hslot) hkey

end step

/-! ## Runs -/

section run
variable [Prost] [DbIterator] {msgs pre : List Message} {m : Message} {r : Record}
  {gen : Nat → HubEventIdGenerator} (hfit : Store.Fit verificationStore msgs) (hgen : ∀ i, (gen i).Ready)
  (hsub : pre ++ [m] ⊆ msgs)
include hfit hgen hsub

theorem installs_of_accepted (hm : r.message = m)
    (haccepted : Accepted (verificationStore.mergeAll gen pre) r) :
    Installs (verificationStore.mergeAll gen pre) (verificationStore.mergeAll gen (pre ++ [m])) r ∧
      Reenters (verificationStore.mergeAll gen pre) (verificationStore.mergeAll gen (pre ++ [m])) r := by
  subst hm
  have hpool := hfit.pool verificationLayout
  have hsim := Store.mergeAll_sim (PlainStore.verification.plain .legacy) hpool hgen pre
    fun x hx => hsub (List.mem_append_left _ hx)
  have hr : r ∈ @Store.records verificationStore verificationLayout msgs := ⟨hsub (by simp), haccepted.1⟩
  rcases hsim.mergeCommit_cases (PlainStore.verification.plain .legacy) hpool hr (hgen pre.length) with
    ⟨⟨x, hx, hcmp⟩, -⟩ | ⟨-, xs, hxs, hdb⟩
  · exact absurd (haccepted.2 x hx) hcmp
  · rw [Store.mergeAll_snoc]
    refine ⟨hsim.held_accept hpool hr hxs hdb, fun address v => ?_⟩
    have hroot : (addressKey address)[0]? ≠ some RootPrefix.hubEvents.toByte :=
      fun h => absurd (Option.some.inj h) (by decide)
    rw [hdb (addressKey address) hroot]
    refine (@Store.installed_eq_some verificationStore verificationLayout _ r xs
      (addressKey address) v).trans ?_
    simp only [hxs]
    exact Iff.rfl

theorem mergeAll_of_not_accepted
    (hnot : ∀ r, r.message = m → ¬Accepted (verificationStore.mergeAll gen pre) r) :
    verificationStore.mergeAll gen (pre ++ [m]) = verificationStore.mergeAll gen pre := by
  have hsim :=
    Store.mergeAll_sim (PlainStore.verification.plain .legacy) (hfit.pool verificationLayout) hgen pre
    fun x hx => hsub (List.mem_append_left _ hx)
  rw [Store.mergeAll_snoc]
  by_cases hr : ∃ r, r.message = m ∧ verificationLayout.Admits .legacy r
  · obtain ⟨r, rfl, hr⟩ := hr
    refine Store.mergeCommit_of_blocked (PlainStore.verification.plain .legacy) hsim.indexed hr.toTyped ?_
    by_contra hfree
    exact hnot r rfl ⟨hr, fun x hx => by_contra fun hcmp => hfree ⟨x, hx, hcmp⟩⟩
  · exact Store.mergeCommit_of_not_admits rfl hsim.indexed rfl hr

theorem admits_of_held {x : Record}
    (hx : verificationLayout.Held .legacy (verificationStore.mergeAll gen pre) x) :
    verificationLayout.Admits .legacy x := by
  have hsim :=
    Store.mergeAll_sim (PlainStore.verification.plain .legacy) (hfit.pool verificationLayout) hgen pre
    fun x hx => hsub (List.mem_append_left _ hx)
  exact (hsim.mem_all hx).2

/-- **One merge keeps the lookup exact** if and only if it meets the condition. -/
theorem exactLookup_step (hexact : ExactLookup (verificationStore.mergeAll gen pre)) :
    ExactLookup (verificationStore.mergeAll gen (pre ++ [m])) ↔
      KeepsLookup (verificationStore.mergeAll gen pre) m := by
  by_cases hacc : ∃ r, r.message = m ∧ Accepted (verificationStore.mergeAll gen pre) r
  swap
  · -- the state is left as it is, and the condition asks for nothing
    rw [mergeAll_of_not_accepted hfit hgen hsub fun r hr h => hacc ⟨r, hr, h⟩]
    exact ⟨fun _ r hr h => absurd ⟨r, hr, h⟩ hacc, fun _ => hexact⟩
  obtain ⟨r, hm, haccepted⟩ := hacc
  obtain ⟨hheld, hentry⟩ := installs_of_accepted hfit hgen hsub hm haccepted
  have hrivals : ∀ x, verificationLayout.Rival .legacy (verificationStore.mergeAll gen pre) r x →
      verificationLayout.Admits .legacy x := fun x hx => admits_of_held hfit hgen hsub hx.1
  have hadmits := haccepted.1
  -- the message has one record
  have hkeeps :
      KeepsLookup (verificationStore.mergeAll gen pre) m ↔ (r.isRemove = false → r.fid.toNat < 2 ^ 32) ∧
      (r.isRemove = true → (∃ x, verificationLayout.Rival .legacy (verificationStore.mergeAll gen pre) r x ∧
          x.isRemove = false) → ∀ y, verificationLayout.Held .legacy (verificationStore.mergeAll gen pre) y →
        y.isRemove = false → y.slot = r.slot → conflictKey y = conflictKey r) := by
    refine ⟨fun h => h r hm haccepted, fun h r' hm' haccepted' => ?_⟩
    obtain rfl := haccepted'.1.toTyped.eq_of_message hadmits.toTyped (hm'.trans hm.symm)
    exact h
  rw [hkeeps]
  generalize verificationStore.mergeAll gen (pre ++ [m]) = db' at hheld hentry
  generalize verificationStore.mergeAll gen pre = db at hexact hheld hentry hrivals
  have hslot {x : Record} (hx : verificationLayout.Rival .legacy db r x) : x.slot = r.slot :=
    congrArg Prod.snd hx.2
  -- only the address of the message matters
  have hhere : ExactLookup db' ↔ ExactAt db' r.slot := by
    refine ⟨fun h => h r.slot, fun h address => ?_⟩
    by_cases heq : r.slot = address
    · exact heq ▸ h
    · refine (exactAt_of_untouched hheld hentry hadmits hrivals (fun hr => heq hr.2)
        fun x hx hcov => heq ?_).2 (hexact address)
      exact (hslot hx).symm.trans hcov.2
  rw [hhere]
  cases hrem : r.isRemove with
  | false =>
    rw [exactAt_of_add hheld hrem ((hentry _ _).2 (.inl (mem_entries_of_add hadmits hrem)))]
    simp
  | true =>
    by_cases hadd : ∃ x, verificationLayout.Rival .legacy db r x ∧ x.isRemove = false
    · -- the entry went with the add
      have hnone : db' (addressKey r.slot) = none := by
        refine Option.eq_none_iff_forall_ne_some.2 fun v hv => ?_
        obtain ⟨x, hx, hxadd⟩ := hadd
        rcases (hentry _ _).1 hv with h | ⟨-, h, -⟩
        · rw [(of_mem_entries hadmits.toTyped h).1] at hrem
          cases hrem
        · exact h x hx ((addressKey_mem_keys_iff (hrivals x hx)).2 ⟨hxadd, hslot hx⟩)
      rw [exactAt_of_deleted hheld hrem hnone]
      simp [hadd]
    · -- nothing was taken away
      have hsame : ExactAt db' r.slot := by
        refine (exactAt_of_untouched hheld hentry hadmits hrivals (fun hr => ?_) fun x hx hcov => ?_).2
          (hexact r.slot)
        · rw [hr.1] at hrem
          cases hrem
        · exact hadd ⟨x, hx, hcov.1⟩
      simp [hsame, hadd]

end run

/-- **The lookup is exact in every state of a run** if and only if every step meets the condition. -/
theorem addressLookup_exact_iff [Prost] [DbIterator] {msgs order : List Message}
    {gen : Nat → HubEventIdGenerator} (hfit : Store.Fit verificationStore msgs) (hgen : ∀ i, (gen i).Ready)
    (hsub : order ⊆ msgs) :
    (∀ pre, pre <+: order → ExactLookup (verificationStore.mergeAll gen pre)) ↔
      ∀ pre m, pre ++ [m] <+: order → KeepsLookup (verificationStore.mergeAll gen pre) m := by
  constructor
  · intro hexact pre m hpre
    have hsub' : pre ++ [m] ⊆ msgs := fun x hx => hsub (hpre.subset hx)
    exact (exactLookup_step hfit hgen hsub' (hexact pre ((List.prefix_append _ _).trans hpre))).1
      (hexact _ hpre)
  · intro hkeeps pre
    -- induction on the merges made so far
    induction pre using List.reverseRecOn with
    | nil =>
      intro _ address
      refine ⟨none, getFidByAddress_none rfl, ⟨fun h => (by cases h), ?_⟩, fun fid h => (by cases h)⟩
      rintro ⟨fid, r, hr, -⟩
      cases hr.primary
    | append_singleton pre m ih =>
      intro hpre
      have hsub' : pre ++ [m] ⊆ msgs := fun x hx => hsub (hpre.subset hx)
      exact (exactLookup_step hfit hgen hsub' (ih ((List.prefix_append _ _).trans hpre))).2
        (hkeeps pre m hpre)

/-! ### Two users and one address -/

/-- One user verifies an address twice. -/
theorem addressLookup_exact_again :
    let _ := Store.noProst
    let _ := Store.noScan
    ExactLookup (verificationStore.mergeAll (fun _ => ⟨1, 0⟩)
      [Store.sampleVerification 1 10 1, Store.sampleVerification 1 20 2]) := by
  intro _ _
  have hfit :
      Store.Fit verificationStore [Store.sampleVerification 1 10 1, Store.sampleVerification 1 20 2] := by
    refine ⟨by decide, ?_, ?_⟩ <;> simp only [List.mem_cons, List.not_mem_nil, or_false]
    · rintro m (rfl | rfl) <;> rfl
    · rintro m (rfl | rfl) - <;> decide
  refine (addressLookup_exact_iff hfit (fun _ => by decide) fun x hx => hx).2 (fun pre m hpre r hm hr => ?_) _
    (List.prefix_refl _)
  -- every message is an add of user 1
  have hmem : m ∈ [Store.sampleVerification 1 10 1, Store.sampleVerification 1 20 2] := hpre.subset (by simp)
  obtain ⟨data, hdata, hfid, -⟩ := hr.1.data
  have hadd := hr.1.toTyped.isAddType_eq
  rw [hm] at hdata hadd
  simp only [List.mem_cons, List.not_mem_nil, or_false] at hmem
  have htype : verificationStoreDef.isAddType m = true := by rcases hmem with rfl | rfl <;> rfl
  rw [htype] at hadd
  refine ⟨fun _ => ?_, fun hrem => ?_⟩
  · rw [← hfid]
    rcases hmem with rfl | rfl <;> cases hdata <;> decide
  · rw [hrem] at hadd
    cases hadd

/-- The verification of the address `7`, removed by a user. -/
def sampleVerificationRemove (fid : UInt64) (timestamp : UInt32) (hash : UInt8) : Message where
  data := some ⟨MessageType.verificationRemove.toI32, fid, timestamp, 1, some (.verificationRemoveBody [7] 0)⟩
  hash := List.replicate 20 hash
  hashScheme := blake3
  signature := []
  signatureScheme := ed25519
  signer := []
  dataBytes := none

/-- **A remove by one user hides the other**: both verify an address, the second removes their verification,
    and the address is nobody's, although the first still has it. -/
theorem addressLookup_forgets_user :
    let _ := Store.noProst
    let _ := Store.noScan
    let db := verificationStore.mergeAll (fun _ => ⟨1, 0⟩)
      [Store.sampleVerification 1 10 1, Store.sampleVerification 2 20 2, sampleVerificationRemove 2 30 3]
    getFidByAddress db [7] = .ok none ∧ Active db 1 [7] := by
  intro _ _ db
  refine ⟨rfl, ⟨Store.sampleVerification 1 10 1, 1, toBeBytes 10 ++ List.replicate 20 1, [7], false⟩, ?_,
    rfl, rfl, rfl⟩
  exact ⟨⟨⟨_, rfl, rfl, rfl⟩, rfl, .inl ⟨rfl, rfl⟩⟩, rfl, rfl, rfl⟩

end VerificationStore

end Hypersnap
