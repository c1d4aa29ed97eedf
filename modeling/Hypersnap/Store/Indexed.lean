import Hypersnap.Store.Effects

/-!
# `Store.Indexed` — index entries and messages point at each other

`Held o r`: the view `o` has the message of `r` under its primary key and its `tsHash` under its index key.
`Indexed o`: every entry of the store's sets in `o` belongs to a held record. Under it the conflict lookup of
a merge finds exactly the held records with the new message's conflict key (`getMergeConflicts_cases`).
-/

namespace Hypersnap

open Overlay

namespace Layout

variable {d : StoreDef} (lay : Layout d) (ctx : StateContext) [Prost]

/-- The message is stored and its own index entry points to it. -/
structure Held (o : RocksDB) (r : Record) : Prop where
  typed : lay.Typed r
  normal : r.message.Normal
  primary : o (primaryKey d ctx r) = some (messageEncode r.message)
  index : o (lay.indexKey ctx r) = some (.bytes r.tsHash)

/-- **Index integrity**: the store's message set and index sets hold nothing but held records. -/
structure Indexed (o : RocksDB) : Prop where
  primary : ∀ {fid ts v}, o (makeMessagePrimaryKey (ctx.rootPrefix .user) fid d.setPostfix ts) = some v →
    ∃ r, lay.Held ctx o r ∧
    primaryKey d ctx r = makeMessagePrimaryKey (ctx.rootPrefix .user) fid d.setPostfix ts
  index : ∀ {fid b slot v}, o (makeIndexKey ctx fid (lay.indexSet b) slot) = some v →
    ∃ r, lay.Held ctx o r ∧ r.isRemove = b ∧ conflictKey r = (makeFidKey fid, slot)

variable {lay ctx} {o : RocksDB} {r x : Record}

/-! ## One record per key -/

omit [Prost] in
theorem messageEncode_inj [Prost] {m m' : Message} (hm : m.Normal) (hm' : m'.Normal)
    (h : messageEncode m = messageEncode m') : m = m' := by
  have hdec := messageDecode_messageEncode hm
  rw [h, messageDecode_messageEncode hm'] at hdec
  exact (Except.ok.inj hdec).symm

theorem Held.eq_of_primaryKey (h : lay.Held ctx o r) (h' : lay.Held ctx o x)
    (hkey : primaryKey d ctx r = primaryKey d ctx x) : r = x := by
  have hval := h.primary
  rw [hkey, h'.primary] at hval
  exact (h'.typed.eq_of_message h.typed
    (messageEncode_inj h'.normal h.normal (Option.some.inj hval))).symm

theorem Held.eq_of_conflictKey (h : lay.Held ctx o r) (h' : lay.Held ctx o x) (hrem : r.isRemove = x.isRemove)
    (hkey : conflictKey r = conflictKey x) : r = x := by
  have hval := h.index
  rw [indexKey_inj.2 ⟨hrem, hkey⟩, h'.index] at hval
  refine h.eq_of_primaryKey h' (primaryKey_inj.2 ⟨congrArg Prod.fst hkey, ?_⟩)
  simpa using hval.symm

theorem Indexed.exists_held (h : lay.Indexed ctx o) {b : Bool} {v : DbValue}
    (hv : o (lay.slotKey ctx b r) = some v) :
    ∃ x, lay.Held ctx o x ∧ x.isRemove = b ∧ conflictKey x = conflictKey r :=
  h.index hv

theorem held_congr {o' : RocksDB} (h : ∀ k : Bytes, k[0]? ≠ some RootPrefix.hubEvents.toByte → o k = o' k) :
    lay.Held ctx o r ↔ lay.Held ctx o' r := by
  have hprimary := h (primaryKey d ctx r) (user_ne_hubEvents rfl)
  have hindex := h (lay.indexKey ctx r) (user_ne_hubEvents rfl)
  exact ⟨fun hr => ⟨hr.typed, hr.normal, hprimary ▸ hr.primary, hindex ▸ hr.index⟩,
    fun hr => ⟨hr.typed, hr.normal, hprimary ▸ hr.primary, hindex ▸ hr.index⟩⟩

theorem Indexed.of_user_keys (h : ∀ {k v}, k[0]? = some (ctx.rootPrefix .user) → o k = some v →
    (∃ r, lay.Held ctx o r ∧ (k = primaryKey d ctx r ∨ k = lay.indexKey ctx r)) ∨
      k[5]? ≠ some d.setPostfix ∧ ∀ b, k[5]? ≠ some (lay.indexSet b).toByte) :
    lay.Indexed ctx o where
  primary {fid ts v} hv := by
    rcases h rfl hv with ⟨r, hr, hk | hk⟩ | hk
    · exact ⟨r, hr, hk.symm⟩
    · have hkey : primaryKey d ctx ⟨r.message, fid, ts, r.slot, false⟩ = lay.indexKey ctx r := hk
      exact absurd hkey.symm slotKey_ne_primaryKey
    · exact absurd rfl hk.1
  index {fid b slot v} hv := by
    rcases h rfl hv with ⟨r, hr, hk | hk⟩ | hk
    · exact absurd hk (slotKey_ne_primaryKey (r := ⟨r.message, fid, r.tsHash, slot, b⟩))
    · -- the key is the slot key of a record
      have hslot : lay.slotKey ctx b ⟨r.message, fid, r.tsHash, slot, b⟩ = lay.indexKey ctx r := hk
      have hb := slotKey_bool hslot
      subst hb
      exact ⟨r, hr, rfl, (slotKey_inj.1 hslot).symm⟩
    · exact absurd rfl (hk.2 b)

/-! ## Looking for conflicts -/

section conflicts
variable {db : RocksDB} {txn : RocksDbTransactionBatch}

theorem conflictAt_none {key : Bytes} {t : UInt8} {kind : String} (h : commit db txn key = none) :
    d.conflictAt db txn r.message r.tsHash ctx key t kind = .ok [] := by
  simp only [StoreDef.conflictAt, getFromDbOrTxn, h]

theorem conflictAt_held (hx : lay.Held ctx (commit db txn) x) (hr : lay.Typed r)
    (hkey : conflictKey x = conflictKey r) (kind : String) :
    (bytesCompare (lay.rankOf x) (lay.rankOf r) = .lt ∧
      d.conflictAt db txn r.message r.tsHash ctx (lay.slotKey ctx x.isRemove r) (d.typeOf x.isRemove) kind =
        .ok [x.message]) ∨ (bytesCompare (lay.rankOf x) (lay.rankOf r) ≠ .lt ∧ ∃ e,
      d.conflictAt db txn r.message r.tsHash ctx (lay.slotKey ctx x.isRemove r) (d.typeOf x.isRemove) kind =
        .error (.hub e)) := by
  have hslot : lay.slotKey ctx x.isRemove r = lay.indexKey ctx x := (slotKey_inj.2 hkey).symm
  have hlen := hx.typed.length_tsHash
  obtain ⟨data, hd, hfid, -⟩ := hr.data
  have hprim :
      makeMessagePrimaryKey (ctx.rootPrefix .user) data.fid d.setPostfix x.tsHash = primaryKey d ctx x := by
    rw [hfid]
    exact makeMessagePrimaryKey_inj.2 ⟨(congrArg Prod.fst hkey).symm, rfl⟩
  have hread :
      getMessage db txn (ctx.rootPrefix .user) data.fid d.setPostfix x.tsHash = .ok (some x.message) := by
    simp only [getMessage, getMessageByKey, getFromDbOrTxn, hprim, hx.primary,
      messageDecode_messageEncode hx.normal]
  have hcmp := hx.typed.compare_eq hr
  simp only [StoreDef.conflictAt, getFromDbOrTxn, hslot, hx.index, StoreDef.indexValue, hlen, le_refl,
    if_true, hd, hr.asU8_type hd, hcmp, vecToU8_24, hread, bind, Except.bind]
  cases bytesCompare (lay.rankOf x) (lay.rankOf r) with
  | lt => exact .inl ⟨rfl, rfl⟩
  | eq => exact .inr ⟨by decide, _, rfl⟩
  | gt => exact .inr ⟨by decide, _, rfl⟩

/-- A held record on the slot of `r`. -/
def Rival (lay : Layout d) (ctx : StateContext) (o : RocksDB) (r x : Record) : Prop :=
  lay.Held ctx o x ∧ conflictKey x = conflictKey r

theorem conflictAt_cases (h : lay.Indexed ctx (commit db txn)) (hr : lay.Typed r) (b : Bool) (kind : String) :
    (∃ x e, lay.Rival ctx (commit db txn) r x ∧ bytesCompare (lay.rankOf x) (lay.rankOf r) ≠ .lt ∧
      d.conflictAt db txn r.message r.tsHash ctx (lay.slotKey ctx b r) (d.typeOf b) kind = .error (.hub e)) ∨
    ∃ xs : List Record,
      d.conflictAt db txn r.message r.tsHash ctx (lay.slotKey ctx b r) (d.typeOf b) kind =
        .ok (xs.map (·.message)) ∧
      (∀ x, x ∈ xs ↔ lay.Rival ctx (commit db txn) r x ∧ x.isRemove = b) ∧
      ∀ x ∈ xs, bytesCompare (lay.rankOf x) (lay.rankOf r) = .lt := by
  cases hv : commit db txn (lay.slotKey ctx b r) with
  | none =>
    refine .inr ⟨[], conflictAt_none hv, fun x => ⟨fun hx => (List.not_mem_nil hx).elim, ?_⟩,
      fun x hx => (List.not_mem_nil hx).elim⟩
    rintro ⟨⟨hx, hkey⟩, rfl⟩
    have hidx := hx.index
    rw [indexKey, slotKey_inj.2 hkey, hv] at hidx
    cases hidx
  | some v =>
    obtain ⟨x, hx, rfl, hkey⟩ := h.exists_held hv
    rcases conflictAt_held hx hr hkey kind with ⟨hcmp, hat⟩ | ⟨hcmp, e, hat⟩
    · refine .inr ⟨[x], hat, fun y => ?_, fun y hy => by rwa [List.mem_singleton.1 hy]⟩
      rw [List.mem_singleton]
      constructor
      · rintro rfl
        exact ⟨⟨hx, hkey⟩, rfl⟩
      · rintro ⟨⟨hy, hykey⟩, hrem⟩
        exact hy.eq_of_conflictKey hx hrem (hykey.trans hkey.symm)
    · exact .inl ⟨x, e, ⟨hx, hkey⟩, hcmp, hat⟩

/-- **The conflicts of a merge.** A rival that is not below the new message stops the merge; otherwise the
    conflicts are all rivals, each below it. -/
theorem getMergeConflicts_cases (h : lay.Indexed ctx (commit db txn)) (hr : lay.Typed r) :
    (∃ x e, lay.Rival ctx (commit db txn) r x ∧ bytesCompare (lay.rankOf x) (lay.rankOf r) ≠ .lt ∧
      d.getMergeConflicts db txn r.message r.tsHash ctx = .error (.hub e)) ∨
    ∃ xs : List Record, d.getMergeConflicts db txn r.message r.tsHash ctx = .ok (xs.map (·.message)) ∧
      (∀ x, x ∈ xs ↔ lay.Rival ctx (commit db txn) r x) ∧
      ∀ x ∈ xs, bytesCompare (lay.rankOf x) (lay.rankOf r) = .lt := by
  have hremoveType : d.removeMessageType = d.typeOf true := rfl
  have haddType : d.addMessageType = d.typeOf false := rfl
  simp only [StoreDef.getMergeConflicts, lay.ownMergeConflicts_eq, hr.makeAddKey_eq ctx,
    hremoveType, haddType]
  have hadds := conflictAt_cases h hr false "add"
  by_cases hsup : d.removeTypeSupported = true
  · simp only [hsup, if_true, hr.makeRemoveKey_eq ctx hsup, bind, Except.bind]
    rcases conflictAt_cases h hr true "remove" with ⟨x, e, hx, hcmp, heq⟩ | ⟨xs, heq, hxs, hlt⟩
    · exact .inl ⟨x, e, hx, hcmp, by rw [heq]⟩
    · rcases hadds with ⟨x, e, hx, hcmp, heq'⟩ | ⟨ys, heq', hys, hlt'⟩
      · exact .inl ⟨x, e, hx, hcmp, by simp only [heq, heq']⟩
      · refine .inr ⟨xs ++ ys, by simp only [heq, heq', List.map_append], fun x => ?_, fun x hx => ?_⟩
        · rw [List.mem_append, hxs, hys]
          cases x.isRemove <;> simp
        · exact (List.mem_append.1 hx).elim (hlt x) (hlt' x)
  · -- without removes, no rival is one
    have hno : ∀ x, lay.Rival ctx (commit db txn) r x → x.isRemove = false := fun x hx => by
      rw [← Bool.not_eq_true]
      exact fun hrem => hsup (hx.1.typed.supported_of_isRemove hrem)
    simp only [hsup, Bool.false_eq_true, if_false, bind, Except.bind]
    rcases hadds with ⟨x, e, hx, hcmp, heq⟩ | ⟨ys, heq, hys, hlt⟩
    · exact .inl ⟨x, e, hx, hcmp, by rw [heq]⟩
    · refine .inr ⟨ys, by simp only [heq, List.nil_append], fun x => ?_, hlt⟩
      rw [hys]
      exact ⟨And.left, fun hx => ⟨hx, hno x hx⟩⟩

end conflicts

end Layout

end Hypersnap
