import Mathlib.Data.Set.Card
import Hypersnap.Store.KeyRequests

/-!
# `Store.KeyRegistry` — what the registry of keys is

To its users the registry is one map: a public key has at most one **entry**, which says whose key it is, the
record of its registration and when it was last used. The database spreads it over four kinds of keys and a
counter. `Represents` says that a database does so faithfully, and the operations of `Store.GaslessKeys`
refine the operations of the map (`mergeKeyAdd_refines`, `mergeKeyRemove_refines`,
`checkAndBumpLastUsedAt_refines`): an operation that succeeds is one step of the map, and one that fails has
written nothing. That the indices move together, that the counter counts, the cap and the growth of the nonces
are then facts about the map, in every state that any run reaches.
-/

namespace Hypersnap

open Overlay EState

/-! ## The abstract registry -/

abbrev PublicKey := {k : Bytes // k.length = ed25519PublicKeyLen}

instance : Finite PublicKey := by
  have hbyte : Finite UInt8 := Finite.of_injective (fun n : UInt8 => n.toFin) fun a b h => UInt8.toFin_inj.1 h
  refine Finite.of_injective (fun (k : PublicKey) (i : Fin ed25519PublicKeyLen) => k.1[i.1]?) fun a b h => ?_
  refine Subtype.ext (List.ext_getElem? fun i => ?_)
  by_cases hi : i < ed25519PublicKeyLen
  · exact congrFun h ⟨i, hi⟩
  · rw [List.getElem?_eq_none (by rw [a.2]; omega), List.getElem?_eq_none (by rw [b.2]; omega)]

structure KeyEntry where
  fid : UInt32
  record : GaslessKeyRecord
  lastUsedAt : UInt32

structure KeyRegistry where
  entries : PublicKey → Option KeyEntry
  userNonce : UInt32 → Option UInt32
  appNonce : UInt32 → Option UInt32

namespace KeyRegistry

def empty : KeyRegistry := ⟨fun _ => none, fun _ => none, fun _ => none⟩

variable (A : KeyRegistry)

def keysOf (fid : UInt32) : Set PublicKey := {k | ∃ e, A.entries k = some e ∧ e.fid = fid}

noncomputable def size (fid : UInt32) : Nat := (A.keysOf fid).ncard

def entryOf (fid : UInt32) (k : PublicKey) : Option KeyEntry := (A.entries k).filter fun e => e.fid == fid

def set (k : PublicKey) (e : Option KeyEntry) : KeyRegistry :=
  { A with entries := Function.update A.entries k e }

def setUserNonce (fid nonce : UInt32) : KeyRegistry :=
  { A with userNonce := Function.update A.userNonce fid (some nonce) }

def setAppNonce (fid nonce : UInt32) : KeyRegistry :=
  { A with appNonce := Function.update A.appNonce fid (some nonce) }

/-- No one but the fid has the key. -/
def Free (k : PublicKey) (fid : UInt32) : Prop := ∀ e, A.entries k = some e → e.fid = fid

/-- **What can happen to the registry.** -/
inductive Step (A : KeyRegistry) : KeyRegistry → Prop
  /-- A new key of a fid with less than 1000, or a new registration of a key that is its own. -/
  | add {k : PublicKey} {e : KeyEntry} {nonce : UInt32} : A.Free k e.fid →
      (A.entries k = none → A.size e.fid < maxGaslessKeysPerFid.toNat) → (A.userNonce e.fid).getD 0 < nonce →
      Step A ((A.setUserNonce e.fid nonce).set k (some e))
  | removeByUser {k : PublicKey} {e : KeyEntry} {nonce : UInt32} : A.entries k = some e →
      (A.userNonce e.fid).getD 0 < nonce → Step A ((A.setUserNonce e.fid nonce).set k none)
  | removeByApp {k : PublicKey} {e : KeyEntry} {app nonce : UInt32} : A.entries k = some e →
      (A.appNonce app).getD 0 < nonce → Step A ((A.setAppNonce app nonce).set k none)
  | use {k : PublicKey} {e : KeyEntry} {time : UInt32} : A.entries k = some e →
      Step A (A.set k (some { e with lastUsedAt := time }))

/-- No fid has more keys than it may. -/
def Capped : Prop := ∀ fid, A.size fid ≤ maxGaslessKeysPerFid.toNat

variable {A} {k k' : PublicKey} {e : KeyEntry} {fid fid' : UInt32} {A' : KeyRegistry}

theorem entryOf_eq_some : A.entryOf fid k = some e ↔ A.entries k = some e ∧ e.fid = fid := by
  simp [entryOf, Option.filter_eq_some_iff]

theorem free_of_eq_some (h : A.entries k = some e) : A.Free k e.fid := fun e' he' => by
  rw [h, Option.some_inj] at he'
  rw [he']

@[simp] theorem entries_set_self {e : Option KeyEntry} : (A.set k e).entries k = e := Function.update_self ..

theorem entries_set_of_ne (h : k' ≠ k) {e : Option KeyEntry} : (A.set k e).entries k' = A.entries k' :=
  Function.update_of_ne h ..

theorem entryOf_set_self {e : Option KeyEntry} :
    (A.set k e).entryOf fid k = e.filter fun e => e.fid == fid := by
  rw [entryOf, entries_set_self]

theorem entryOf_set_of_ne (h : k' ≠ k) {e : Option KeyEntry} :
    (A.set k e).entryOf fid k' = A.entryOf fid k' := by
  rw [entryOf, entries_set_of_ne h]
  rfl

theorem Free.entryOf_eq_none (h : A.Free k fid) (hf : fid' ≠ fid) : A.entryOf fid' k = none := by
  rw [entryOf, Option.filter_eq_none_iff]
  intro e he
  rw [h e he]
  simpa using Ne.symm hf

/-! ### Sizes -/

theorem mem_keysOf : k ∈ A.keysOf fid ↔ ∃ e, A.entryOf fid k = some e := by simp only [entryOf_eq_some]; rfl

theorem size_set_of_ne {e : Option KeyEntry} (hold : A.Free k fid) (hnew : (A.set k e).Free k fid)
    (hf : fid' ≠ fid) : (A.set k e).size fid' = A.size fid' := by
  have hkeys : (A.set k e).keysOf fid' = A.keysOf fid' := by
    ext k'
    rw [mem_keysOf, mem_keysOf]
    by_cases hk : k' = k
    · rw [hk, hold.entryOf_eq_none hf, hnew.entryOf_eq_none hf]
    · rw [entryOf_set_of_ne hk]
  rw [size, hkeys, size]

theorem keysOf_set_some : (A.set k (some e)).keysOf e.fid = insert k (A.keysOf e.fid) := by
  ext k'
  by_cases hk : k' = k
  · subst hk
    simp [keysOf]
  · simp [keysOf, entries_set_of_ne hk, hk]

theorem size_set_new (h : A.entries k = none) : (A.set k (some e)).size e.fid = A.size e.fid + 1 := by
  have hnot : k ∉ A.keysOf e.fid := fun ⟨e', he', _⟩ => by rw [h] at he'; cases he'
  rw [size, keysOf_set_some, Set.ncard_insert_of_notMem hnot (Set.toFinite _), size]

theorem size_set_again {e' : KeyEntry} (h : A.entries k = some e') (hf : e'.fid = e.fid) :
    (A.set k (some e)).size e.fid = A.size e.fid := by
  have hmem : k ∈ A.keysOf e.fid := ⟨e', h, hf⟩
  rw [size, keysOf_set_some, Set.insert_eq_of_mem hmem, size]

theorem size_set_none (h : A.entries k = some e) : (A.set k none).size e.fid + 1 = A.size e.fid := by
  have hmem : k ∈ A.keysOf e.fid := ⟨e, h, rfl⟩
  have hkeys : (A.set k none).keysOf e.fid = A.keysOf e.fid \ {k} := by
    ext k'
    by_cases hk : k' = k
    · subst hk
      simp [keysOf]
    · simp [keysOf, entries_set_of_ne hk, hk]
  rw [size, hkeys, Set.ncard_sdiff_singleton_add_one hmem (Set.toFinite _), size]

/-- **Every step keeps the cap.** A nonce is nothing to the sizes. -/
theorem Capped.set {e : Option KeyEntry} (hcap : A.Capped) (hold : A.Free k fid)
    (hnew : (A.set k e).Free k fid) (hroom : (A.set k e).size fid ≤ maxGaslessKeysPerFid.toNat) :
    (A.set k e).Capped := by
  intro fid'
  by_cases hf : fid' = fid
  · subst hf
    exact hroom
  · rw [size_set_of_ne hold hnew hf]
    exact hcap fid'

theorem free_set_some : (A.set k (some e)).Free k e.fid := free_of_eq_some entries_set_self

theorem free_set_none : (A.set k none).Free k fid := fun e he => by
  rw [entries_set_self] at he
  cases he

theorem Capped.set_none (hcap : A.Capped) (h : A.entries k = some e) : (A.set k none).Capped := by
  refine hcap.set (free_of_eq_some h) free_set_none ?_
  have hsize := size_set_none h
  have := hcap e.fid
  omega

theorem Step.capped (h : A.Step A') (hcap : A.Capped) : A'.Capped := by
  cases h with
  | @add k e nonce hfree hroom _ =>
    refine @Capped.set (A.setUserNonce e.fid nonce) k e.fid (some e) hcap hfree free_set_some ?_
    cases hk : A.entries k with
    | none => exact (@size_set_new (A.setUserNonce e.fid nonce) k e hk).trans_le (hroom hk)
    | some e' =>
      exact (@size_set_again (A.setUserNonce e.fid nonce) k e e' hk (hfree e' hk)).trans_le (hcap e.fid)
  | @removeByUser k e nonce hk _ => exact @Capped.set_none (A.setUserNonce e.fid nonce) k e hcap hk
  | @removeByApp k e app nonce hk _ => exact @Capped.set_none (A.setAppNonce app nonce) k e hcap hk
  | @use k e time hk =>
    refine @Capped.set A k e.fid (some _) hcap (free_of_eq_some hk) free_set_some ?_
    exact (@size_set_again A k { e with lastUsedAt := time } e hk rfl).trans_le (hcap e.fid)

/-- A nonce stays or grows. -/
def Grows (old new : Option UInt32) : Prop := new = old ∨ old.getD 0 < new.getD 0

/-- **Every step lets the nonces grow**: one that changes has become strictly greater. -/
theorem Step.nonces (h : A.Step A') (fid : UInt32) :
    Grows (A.userNonce fid) (A'.userNonce fid) ∧ Grows (A.appNonce fid) (A'.appNonce fid) := by
  have hupdate {f : UInt32 → Option UInt32} {fid' nonce : UInt32} (h : (f fid').getD 0 < nonce) :
      Grows (f fid) (Function.update f fid' (some nonce) fid) := by
    by_cases hf : fid = fid'
    · subst hf
      rw [Function.update_self]
      exact .inr h
    · rw [Function.update_of_ne hf]
      exact .inl rfl
  cases h with
  | add _ _ hnonce => exact ⟨hupdate hnonce, .inl rfl⟩
  | removeByUser _ hnonce => exact ⟨hupdate hnonce, .inl rfl⟩
  | removeByApp _ hnonce => exact ⟨.inl rfl, hupdate hnonce⟩
  | use _ => exact ⟨.inl rfl, .inl rfl⟩

end KeyRegistry

/-! ## How the database holds it -/

/-- The keys of the registry's table. -/
inductive RegistryKey where
  | userNonce (fid : UInt32)
  | appNonce (fid : UInt32)
  | lastUsedAt (fid : UInt32) (k : PublicKey)
  | byFid (fid : UInt32) (k : PublicKey)
  | byPublicKey (k : PublicKey)
  | countByFid (fid : UInt32)
deriving DecidableEq

def RegistryKey.encode : RegistryKey → Bytes
  | .userNonce fid => makeGaslessKey .gaslessKeyUserNonce (toBeBytes fid)
  | .appNonce fid => makeGaslessKey .gaslessKeyAppNonce (toBeBytes fid)
  | .lastUsedAt fid k => makeGaslessKey .gaslessKeyLastUsedAt (toBeBytes fid ++ k.1)
  | .byFid fid k => makeGaslessKey .gaslessKeyByFid (toBeBytes fid ++ k.1)
  | .byPublicKey k => makeGaslessKey .gaslessKeyByPublicKey ([] ++ k.1)
  | .countByFid fid => makeGaslessKey .gaslessKeyCountByFid (toBeBytes fid)

theorem RegistryKey.encode_injective : Function.Injective RegistryKey.encode := by
  intro a b h
  have hrest {p q : UserPostfix} {r r' : Bytes} (h : makeGaslessKey p r = makeGaslessKey q r') :
      p.toByte = q.toByte ∧ r = r' :=
      ⟨(List.cons.inj (List.cons.inj h).2).1, (List.cons.inj (List.cons.inj h).2).2⟩
  have hpair {f f' : UInt32} {k k' : PublicKey} (h : toBeBytes f ++ k.1 = toBeBytes f' ++ k'.1) :
      f = f' ∧ k = k' := by
    obtain ⟨hf, hk⟩ := List.append_inj h (by rw [length_toBeBytes, length_toBeBytes])
    exact ⟨toBeBytes_injective hf, Subtype.ext hk⟩
  -- keys of two kinds differ in the second byte
  cases a <;> cases b <;> obtain ⟨hbyte, hr⟩ := hrest h <;> first | exact absurd hbyte (by decide) | skip
  · rw [toBeBytes_injective hr]
  · rw [toBeBytes_injective hr]
  · obtain ⟨rfl, rfl⟩ := hpair hr
    rfl
  · obtain ⟨rfl, rfl⟩ := hpair hr
    rfl
  · rw [Subtype.ext hr]
  · rw [toBeBytes_injective hr]

namespace KeyRegistry

open Function (update)

/-- The counter of a fid; a fid without keys has none. -/
noncomputable def count (A : KeyRegistry) (fid : UInt32) : Option UInt32 :=
  if A.size fid = 0 then none else some (A.size fid).toUInt32

theorem getD_count (A : KeyRegistry) (fid : UInt32) : (A.count fid).getD 0 = (A.size fid).toUInt32 := by
  unfold count
  split
  next h => rw [h]; rfl
  next => rfl

/-- What the database has at a key of the table. -/
noncomputable def value (A : KeyRegistry) : RegistryKey → Option DbValue
  | .userNonce fid => (A.userNonce fid).map numberValue
  | .appNonce fid => (A.appNonce fid).map numberValue
  | .lastUsedAt fid k => (A.entryOf fid k).map fun e => numberValue e.lastUsedAt
  | .byFid fid k => (A.entryOf fid k).map fun e => .gaslessKeyRecord e.record
  | .byPublicKey k => (A.entries k).map fun e => numberValue e.fid
  | .countByFid fid => (A.count fid).map numberValue

/-! ### What each change of the registry writes -/

variable {A : KeyRegistry} {k : PublicKey} {e : KeyEntry} {fid : UInt32}

theorem toNat_size (h : A.Capped) : (A.size fid).toUInt32.toNat = A.size fid := by
  have hle : A.size fid ≤ 1000 := h fid
  exact UInt32.toNat_ofNat_of_lt' (Nat.lt_of_le_of_lt hle (by decide))

theorem count_set_new (h : A.entries k = none) :
    (A.set k (some e)).count e.fid = some ((A.count e.fid).getD 0 + 1) := by
  rw [getD_count, count, size_set_new h, if_neg (Nat.succ_ne_zero _)]
  exact congrArg _ (UInt32.ofNat_add _ _)

theorem count_set_again {e' : KeyEntry} (h : A.entries k = some e') (hf : e'.fid = e.fid) :
    (A.set k (some e)).count e.fid = A.count e.fid := by rw [count, size_set_again h hf, count]

theorem count_set_none (hcap : A.Capped) (h : A.entries k = some e) :
    (A.set k none).count e.fid =
      if (A.count e.fid).getD 0 - 1 = 0 then none else some ((A.count e.fid).getD 0 - 1) := by
  have hsize := size_set_none h
  have hpred : (A.size e.fid).toUInt32 - 1 = ((A.set k none).size e.fid).toUInt32 := by
    rw [← hsize]
    show UInt32.ofNat _ - 1 = _
    rw [UInt32.ofNat_add]
    exact UInt32.add_sub_cancel _ _
  have hzero : ((A.set k none).size e.fid).toUInt32 = 0 ↔ (A.set k none).size e.fid = 0 := by
    rw [← UInt32.toNat_inj, toNat_size (hcap.set_none h)]
    rfl
  rw [getD_count, hpred, count]
  simp only [hzero]

theorem value_setUserNonce (nonce : UInt32) :
    (A.setUserNonce fid nonce).value = update A.value (.userNonce fid) (some (numberValue nonce)) := by
  funext key
  cases key with
  | userNonce fid' =>
    by_cases h : fid' = fid
    · subst h
      simp [value, setUserNonce]
    · simp [value, setUserNonce, h]
  | _ => rfl

theorem value_setAppNonce (nonce : UInt32) :
    (A.setAppNonce fid nonce).value = update A.value (.appNonce fid) (some (numberValue nonce)) := by
  funext key
  cases key with
  | appNonce fid' =>
    by_cases h : fid' = fid
    · subst h
      simp [value, setAppNonce]
    · simp [value, setAppNonce, h]
  | _ => rfl

/-- Two entries of a key under its fid, one in the index of owners, and the counter. -/
theorem value_set {e : Option KeyEntry} (hold : A.Free k fid) (hnew : (A.set k e).Free k fid) :
    (A.set k e).value =
      update (update (update (update A.value (.byFid fid k) (e.map fun e => .gaslessKeyRecord e.record))
        (.byPublicKey k) (e.map fun _ => numberValue fid)) (.lastUsedAt fid k)
        (e.map fun e => numberValue e.lastUsedAt))
        (.countByFid fid) (((A.set k e).count fid).map numberValue) := by
  -- the entry of the key under a fid, after the change
  have hentry (fid' : UInt32) : (A.set k e).entryOf fid' k = if fid' = fid then e else A.entryOf fid' k := by
    by_cases hf : fid' = fid
    · rw [if_pos hf, entryOf_set_self]
      cases e with
      | none => rfl
      | some e => simp [Option.filter, hf, hnew e entries_set_self]
    · rw [if_neg hf, hold.entryOf_eq_none hf, hnew.entryOf_eq_none hf]
  funext key
  cases key with
  | userNonce fid' => rfl
  | appNonce fid' => rfl
  | lastUsedAt fid' k' =>
    by_cases hk : k' = k
    · subst hk
      by_cases hf : fid' = fid <;> simp [value, hentry, hf]
    · simp [value, hk, entryOf_set_of_ne hk]
  | byFid fid' k' =>
    by_cases hk : k' = k
    · subst hk
      by_cases hf : fid' = fid <;> simp [value, hentry, hf]
    · simp [value, hk, entryOf_set_of_ne hk]
  | byPublicKey k' =>
    by_cases hk : k' = k
    · subst hk
      cases e with
      | none => simp [value]
      | some e => simp [value, hnew e entries_set_self]
    · simp [value, hk, entries_set_of_ne hk]
  | countByFid fid' =>
    by_cases hf : fid' = fid
    · subst hf
      rw [Function.update_self]
      rfl
    · simp [value, hf, count, size_set_of_ne hold hnew hf]

theorem value_set_lastUsedAt (hk : A.entries k = some e) (time : UInt32) :
    (A.set k (some { e with lastUsedAt := time })).value =
      update A.value (.lastUsedAt e.fid k) (some (numberValue time)) := by
  have hentry : A.entryOf e.fid k = some e := entryOf_eq_some.2 ⟨hk, rfl⟩
  have hrecord : update A.value (.byFid e.fid k) (some (.gaslessKeyRecord e.record)) = A.value :=
    Function.update_eq_self_iff.2 (by simp [value, hentry])
  have howner : update A.value (.byPublicKey k) (some (numberValue e.fid)) = A.value :=
    Function.update_eq_self_iff.2 (by simp [value, hk])
  have hcount : (A.set k (some { e with lastUsedAt := time })).count e.fid = A.count e.fid :=
    @count_set_again A k { e with lastUsedAt := time } e hk rfl
  have hvalue := @value_set A k e.fid (some { e with lastUsedAt := time }) (free_of_eq_some hk) free_set_some
  rw [hvalue, hcount]
  simp only [Option.map_some, hrecord, howner]
  refine Function.update_eq_self_iff.2 ?_
  rfl

end KeyRegistry

/-! ## States that hold a registry -/

/-- The table of the registry as lookups see it. -/
def StoreState.registryView (s : StoreState) (db : RocksDB) : RegistryKey → Option DbValue :=
  s.view db ∘ RegistryKey.encode

section view
variable (s : StoreState) (db : RocksDB) (key : RegistryKey)

@[simp] theorem registryView_put (v : DbValue) :
    (s.put key.encode v).registryView db = Function.update (s.registryView db) key (some v) := by
  rw [StoreState.registryView, StoreState.view_put]
  exact Function.update_comp_eq_of_injective _ RegistryKey.encode_injective _ _

@[simp] theorem registryView_delete :
    (s.delete key.encode).registryView db = Function.update (s.registryView db) key none := by
  rw [StoreState.registryView, StoreState.view_delete]
  exact Function.update_comp_eq_of_injective _ RegistryKey.encode_injective _ _

end view

/-- The database and its batch hold the registry. -/
structure Represents (db : RocksDB) (s : StoreState) (A : KeyRegistry) : Prop where
  reads : s.registryView db = A.value
  capped : A.Capped

/-! ### Reading -/

section reading
variable {db : RocksDB} {s : StoreState} {A : KeyRegistry}

theorem getU32_eq (what : String) {key : RegistryKey} {x : Option UInt32}
    (h : s.registryView db key = x.map numberValue) :
    getU32 db s.txn what key.encode = .ok x := by
  have hread : getFromDbOrTxn db s.txn key.encode = x.map numberValue := h
  unfold getU32
  rw [hread]
  cases x with
  | none => rfl
  | some n =>
    have hn : readU32 what (numberValue n) = .ok n := by
      rw [numberValue, readU32, if_pos (length_toBeBytes n), fromBeBytes_toBeBytes]
      exact congrArg _ UInt32.ofNat_toNat
    simp only [Option.map_some, hn]
    rfl

theorem getGaslessKeyCount_of_view (fid : UInt64) {x : Option UInt32}
    (h : s.registryView db (.countByFid fid.toUInt32) = x.map numberValue) :
    getGaslessKeyCount db s.txn fid = .ok (x.getD 0) := by
  have hread : getU32 db s.txn "count value" (makeGaslessKeyCountByFidKey fid) = .ok x :=
    getU32_eq "count value" h
  unfold getGaslessKeyCount
  rw [hread]
  rfl

namespace Represents

variable (h : Represents db s A) (fid : UInt64) (k : PublicKey) {key : Bytes}

include h

theorem getU32_value (what : String) {key : RegistryKey} {x : Option UInt32}
    (hx : A.value key = x.map numberValue) :
    getU32 db s.txn what key.encode = .ok x := getU32_eq what (by rw [h.reads, hx])

theorem getGaslessKeyOwnerFid_eq :
    getGaslessKeyOwnerFid db s.txn k.1 = .ok ((A.entries k).map fun e => e.fid.toUInt64) := by
  have hx : A.value (.byPublicKey k) =
      ((A.entries k).map KeyEntry.fid).map numberValue := by rw [Option.map_map]; rfl
  have hkey : makeGaslessKeyByPublicKeyKey k.1 = .ok (RegistryKey.byPublicKey k).encode := if_pos k.2
  unfold getGaslessKeyOwnerFid
  simp only [hkey, bind, Except.bind, h.getU32_value "owner entry" hx, Option.map_map]
  rfl

theorem getGaslessKeyRecord_eq :
    getGaslessKeyRecord db s.txn fid k.1 = .ok ((A.entryOf fid.toUInt32 k).map KeyEntry.record) := by
  have hkey : makeGaslessKeyByFidKey fid k.1 = .ok (RegistryKey.byFid fid.toUInt32 k).encode := if_pos k.2
  have hread : getFromDbOrTxn db s.txn (RegistryKey.byFid fid.toUInt32 k).encode =
      (A.entryOf fid.toUInt32 k).map fun e => .gaslessKeyRecord e.record :=
      congrFun h.reads (.byFid fid.toUInt32 k)
  unfold getGaslessKeyRecord
  simp only [hkey, bind, Except.bind, hread]
  cases A.entryOf fid.toUInt32 k <;> rfl

theorem getLastUsedAt_eq :
    getLastUsedAt db s.txn fid k.1 = .ok ((A.entryOf fid.toUInt32 k).map KeyEntry.lastUsedAt) := by
  have hkey : makeLastUsedAtKey fid k.1 = .ok (RegistryKey.lastUsedAt fid.toUInt32 k).encode := if_pos k.2
  have hx : A.value (.lastUsedAt fid.toUInt32 k) =
      ((A.entryOf fid.toUInt32 k).map KeyEntry.lastUsedAt).map numberValue := by rw [Option.map_map]; rfl
  unfold getLastUsedAt
  rw [hkey]
  exact h.getU32_value "last_used_at value" hx

theorem getGaslessKeyCount_eq : getGaslessKeyCount db s.txn fid = .ok (A.size fid.toUInt32).toUInt32 := by
  rw [← A.getD_count]
  exact getGaslessKeyCount_of_view fid (congrFun h.reads _)

theorem exists_record_iff :
    (∃ record, getGaslessKeyRecord db s.txn fid key = .ok (some record)) ↔
      ∃ k ∈ A.keysOf fid.toUInt32, k.1 = key := by
  constructor
  · rintro ⟨record, hrecord⟩
    obtain ⟨_, hpath, -⟩ := except_bind_eq_ok.1 hrecord
    have hlen := length_of_makePublicKeyKey hpath
    rw [h.getGaslessKeyRecord_eq fid ⟨key, hlen⟩, Except.ok.injEq, Option.map_eq_some_iff] at hrecord
    obtain ⟨e, he, -⟩ := hrecord
    exact ⟨⟨key, hlen⟩, KeyRegistry.mem_keysOf.2 ⟨e, he⟩, rfl⟩
  · rintro ⟨k, hk, rfl⟩
    obtain ⟨e, he⟩ := KeyRegistry.mem_keysOf.1 hk
    exact ⟨e.record, by rw [h.getGaslessKeyRecord_eq fid k, he]; rfl⟩

theorem exists_lastUsedAt_iff :
    (∃ time, getLastUsedAt db s.txn fid key = .ok (some time)) ↔ ∃ k ∈ A.keysOf fid.toUInt32, k.1 = key := by
  constructor
  · rintro ⟨time, htime⟩
    obtain ⟨_, hpath, -⟩ := except_bind_eq_ok.1 htime
    have hlen := length_of_makePublicKeyKey hpath
    rw [h.getLastUsedAt_eq fid ⟨key, hlen⟩, Except.ok.injEq, Option.map_eq_some_iff] at htime
    obtain ⟨e, he, -⟩ := htime
    exact ⟨⟨key, hlen⟩, KeyRegistry.mem_keysOf.2 ⟨e, he⟩, rfl⟩
  · rintro ⟨k, hk, rfl⟩
    obtain ⟨e, he⟩ := KeyRegistry.mem_keysOf.1 hk
    exact ⟨e.lastUsedAt, by rw [h.getLastUsedAt_eq fid k, he]; rfl⟩

theorem owner_iff {fid : UInt64} (hfid : fid < 4294967296) :
    getGaslessKeyOwnerFid db s.txn key = .ok (some fid) ↔ ∃ k ∈ A.keysOf fid.toUInt32, k.1 = key := by
  have hback : fid.toUInt32.toUInt64 = fid := by
    rw [← UInt64.toNat_inj, UInt32.toNat_toUInt64, UInt64.toNat_toUInt32]
    exact Nat.mod_eq_of_lt (UInt64.lt_iff_toNat_lt.1 hfid)
  constructor
  · intro howner
    obtain ⟨_, hpath, -⟩ := except_bind_eq_ok.1 howner
    have hlen := length_of_makePublicKeyKey hpath
    rw [h.getGaslessKeyOwnerFid_eq ⟨key, hlen⟩, Except.ok.injEq, Option.map_eq_some_iff] at howner
    obtain ⟨e, he, hf⟩ := howner
    exact ⟨⟨key, hlen⟩, ⟨e, he, by rw [← hf, UInt32.toUInt32_toUInt64]⟩, rfl⟩
  · rintro ⟨k, ⟨e, he, hf⟩, rfl⟩
    rw [h.getGaslessKeyOwnerFid_eq k, he, Option.map_some, hf, hback]

theorem count_eq_ncard :
    ∃ count, getGaslessKeyCount db s.txn fid = .ok count ∧ count ≤ maxGaslessKeysPerFid ∧
      count.toNat = {key | ∃ record, getGaslessKeyRecord db s.txn fid key = .ok (some record)}.ncard := by
  refine ⟨_, h.getGaslessKeyCount_eq fid, ?_, ?_⟩
  · rw [UInt32.le_iff_toNat_le, KeyRegistry.toNat_size h.capped]
    exact h.capped _
  · have hkeys : {key | ∃ record, getGaslessKeyRecord db s.txn fid key = .ok (some record)} =
        Subtype.val '' A.keysOf fid.toUInt32 := by
      ext key
      exact h.exists_record_iff fid
    rw [KeyRegistry.toNat_size h.capped, hkeys, Set.ncard_image_of_injective _ Subtype.val_injective]
    rfl

end Represents

end reading

/-! ### Writing -/

section writing
variable (s : StoreState) (db : RocksDB) (fid : UInt64) (k : PublicKey)

open Function (update)

theorem registryView_registerKey (nonce timestamp : UInt32) (record : GaslessKeyRecord) :
    (s.registerKey fid k.1 nonce timestamp record).registryView db =
      update (update (update (update (s.registryView db) (.userNonce fid.toUInt32) (some (numberValue nonce)))
        (.byFid fid.toUInt32 k) (some (.gaslessKeyRecord record))) (.byPublicKey k)
        (some (numberValue fid.toUInt32)))
        (.lastUsedAt fid.toUInt32 k) (some (numberValue timestamp)) := by
  rw [← registryView_put, ← registryView_put, ← registryView_put, ← registryView_put]
  rfl

theorem registryView_releaseKey (nonceKey : RegistryKey) (nonce : UInt32) :
    (s.releaseKey fid k.1 nonceKey.encode nonce).registryView db =
      update (update (update (update (s.registryView db) nonceKey (some (numberValue nonce)))
        (.byFid fid.toUInt32 k) none) (.byPublicKey k) none) (.lastUsedAt fid.toUInt32 k) none := by
  rw [← registryView_put, ← registryView_delete, ← registryView_delete, ← registryView_delete]
  rfl

theorem registryView_lowerKeyCount {count : UInt32} (hpos : count ≠ 0) :
    (s.lowerKeyCount fid count).registryView db = update (s.registryView db) (.countByFid fid.toUInt32)
      ((if count - 1 = 0 then none else some (count - 1)).map numberValue) := by
  rw [StoreState.lowerKeyCount, if_neg hpos]
  by_cases hone : count - 1 = 0
  · rw [if_pos hone, if_pos hone]
    exact registryView_delete s db (.countByFid fid.toUInt32)
  · rw [if_neg hone, if_neg hone]
    exact registryView_put s db (.countByFid fid.toUInt32) _

end writing

/-! ## The operations refine the steps of the registry -/

section operations
variable {db : RocksDB} {s s' : StoreState} {A : KeyRegistry} {data : MessageData}

section

variable (h : Represents db s A)
include h

theorem Represents.lt_of_fresh (key : RegistryKey) {x : Option UInt32} {nonce : UInt32}
    (hfresh : FreshNonce db s key.encode nonce) (hx : A.value key = x.map numberValue) :
    x.getD 0 < nonce := by
  obtain ⟨stored, hstored, hlt⟩ := hfresh
  rw [getNonce, h.getU32_value "nonce value" hx, Except.ok.injEq] at hstored
  exact hstored ▸ hlt

theorem Represents.keyAdded {body : KeyAddBody} (hadded : KeyAdded db s data body s') :
    ∃ A', A.Step A' ∧ Represents db s' A' := by
  cases hadded with
  | @new record count hlen hfresh howner hcount hroom =>
    let k : PublicKey := ⟨body.key, hlen⟩
    let e : KeyEntry := ⟨data.fid.toUInt32, record, data.timestamp⟩
    have hgrows := h.lt_of_fresh (.userNonce e.fid) hfresh rfl
    have hnone : A.entries k = none := by
      rw [h.getGaslessKeyOwnerFid_eq k, Except.ok.injEq, Option.map_eq_none_iff] at howner
      exact howner
    have hfree : A.Free k e.fid := fun e' he' => nomatch hnone.symm.trans he'
    rw [h.getGaslessKeyCount_eq, Except.ok.injEq] at hcount
    have hstep : A.Step ((A.setUserNonce e.fid body.nonce).set k (some e)) := by
      refine .add hfree (fun _ => ?_) hgrows
      rw [← hcount, UInt32.lt_iff_toNat_lt, KeyRegistry.toNat_size h.capped] at hroom
      exact hroom
    refine ⟨_, hstep, ?_, hstep.capped h.capped⟩
    have hvalue := @KeyRegistry.value_set (A.setUserNonce e.fid body.nonce) k e.fid
      (some e) hfree KeyRegistry.free_set_some
    have hview :=
      registryView_put (s.registerKey data.fid k.1 body.nonce data.timestamp record) db (.countByFid e.fid)
      (numberValue (count + 1))
    rw [registryView_registerKey, h.reads, ← hcount, ← A.getD_count] at hview
    rw [hvalue, @KeyRegistry.count_set_new (A.setUserNonce e.fid body.nonce) k e hnone,
      KeyRegistry.value_setUserNonce]
    rw [← hcount, ← A.getD_count]
    exact hview
  | @again record hlen hfresh howner =>
    let k : PublicKey := ⟨body.key, hlen⟩
    let e : KeyEntry := ⟨data.fid.toUInt32, record, data.timestamp⟩
    have hgrows := h.lt_of_fresh (.userNonce e.fid) hfresh rfl
    rw [h.getGaslessKeyOwnerFid_eq k, Except.ok.injEq, Option.map_eq_some_iff] at howner
    obtain ⟨e', he', hfid⟩ := howner
    have hfid' : e'.fid = e.fid := by rw [← UInt32.toUInt32_toUInt64 e'.fid, hfid]
    have hfree : A.Free k e.fid := hfid' ▸ KeyRegistry.free_of_eq_some he'
    have hstep : A.Step ((A.setUserNonce e.fid body.nonce).set k (some e)) :=
      .add hfree (fun hnone => nomatch hnone.symm.trans he') hgrows
    refine ⟨_, hstep, ?_, hstep.capped h.capped⟩
    have hvalue := @KeyRegistry.value_set (A.setUserNonce e.fid body.nonce) k e.fid
      (some e) hfree KeyRegistry.free_set_some
    rw [hvalue, @KeyRegistry.count_set_again (A.setUserNonce e.fid body.nonce) k e e' he' hfid',
      KeyRegistry.value_setUserNonce]
    refine ((registryView_registerKey s db data.fid k ..).trans (by rw [h.reads])).trans (Eq.symm ?_)
    refine Function.update_eq_self_iff.2 ?_
    rfl

theorem Represents.released {A' : KeyRegistry} {k : PublicKey} {e : KeyEntry} {fid : UInt64}
    {nonceKey : RegistryKey} {nonce count : UInt32} (hcap : A'.Capped)
    (hvalue : A'.value = Function.update A.value nonceKey (some (numberValue nonce)))
    (hk : A'.entries k = some e) (hfid : e.fid = fid.toUInt32) (hcount : count = (A'.size e.fid).toUInt32) :
    ((s.releaseKey fid k.1 nonceKey.encode nonce).lowerKeyCount fid count).registryView db =
      (A'.set k none).value := by
  have hpos : count ≠ 0 := by
    rw [hcount, ne_eq, ← UInt32.toNat_inj, KeyRegistry.toNat_size hcap, ← KeyRegistry.size_set_none hk]
    exact Nat.succ_ne_zero _
  rw [registryView_lowerKeyCount _ _ _ hpos, registryView_releaseKey, h.reads, ← hvalue,
    KeyRegistry.value_set (KeyRegistry.free_of_eq_some hk) KeyRegistry.free_set_none,
    KeyRegistry.count_set_none hcap hk,
    A'.getD_count, ← hcount, hfid]
  rfl

theorem Represents.keyRemoved {body : KeyRemoveBody} (hremoved : KeyRemoved db s data body s') :
    ∃ A', A.Step A' ∧ Represents db s' A' := by
  obtain ⟨hlen, hrecord, hkey, hfresh, hcount⟩ := hremoved
  rename_i nonceKey record count
  let k : PublicKey := ⟨body.key, hlen⟩
  rw [h.getGaslessKeyRecord_eq data.fid k, Except.ok.injEq, Option.map_eq_some_iff] at hrecord
  obtain ⟨e, hentry, rfl⟩ := hrecord
  obtain ⟨hk, hfid⟩ := KeyRegistry.entryOf_eq_some.1 hentry
  rw [h.getGaslessKeyCount_eq, Except.ok.injEq, ← hfid] at hcount
  rcases hkey with rfl | rfl
  · have hgrows := h.lt_of_fresh (.userNonce data.fid.toUInt32) hfresh rfl
    have hstep : A.Step ((A.setUserNonce e.fid body.nonce).set k none) := .removeByUser hk (hfid ▸ hgrows)
    refine ⟨_, hstep, ?_, hstep.capped h.capped⟩
    exact @Represents.released _ _ _ h (A.setUserNonce e.fid body.nonce) k e data.fid
      (.userNonce data.fid.toUInt32) _ _
      h.capped (by rw [KeyRegistry.value_setUserNonce, hfid]) hk hfid hcount.symm
  · have hgrows := h.lt_of_fresh (.appNonce e.record.requestFid.toUInt32) hfresh rfl
    have hstep : A.Step ((A.setAppNonce e.record.requestFid.toUInt32 body.nonce).set k none) :=
      .removeByApp hk hgrows
    refine ⟨_, hstep, ?_, hstep.capped h.capped⟩
    exact @Represents.released _ _ _ h (A.setAppNonce e.record.requestFid.toUInt32 body.nonce) k e data.fid
      (.appNonce e.record.requestFid.toUInt32) _ _ h.capped
        (KeyRegistry.value_setAppNonce _) hk hfid hcount.symm

end

variable [Crypto]

/-- **Registering a key refines the registry**: it is one step of it, or has written nothing. -/
theorem mergeKeyAdd_refines (h : Represents db s A) (msg : Message) (isReplay : Bool) :
    Ends (mergeKeyAdd db msg isReplay) s (fun _ s' => ∃ A', A.Step A' ∧ Represents db s' A')
      fun _ s' => s' = s := by
  refine (mergeKeyAdd_ends msg isReplay).mono ?_ fun _ _ h => h
  rintro _ s' ⟨data, body, -, -, hadded⟩
  exact h.keyAdded hadded

/-- **Removing a key refines the registry**, whose counters can be read. -/
theorem mergeKeyRemove_refines (h : Represents db s A) (msg : Message) :
    Ends (mergeKeyRemove db msg) s (fun _ s' => ∃ A', A.Step A' ∧ Represents db s' A')
      fun _ s' => s' = s := by
  refine (mergeKeyRemove_ends msg).mono ?_ fun _ s' hfail => hfail.resolve_right ?_
  · rintro _ s' ⟨data, body, -, -, hremoved⟩
    exact h.keyRemoved hremoved
  · rintro ⟨fid, hfid⟩
    exact hfid ⟨_, h.getGaslessKeyCount_eq fid⟩

omit [Crypto] in
/-- **Using a key refines the registry**: its time moves on, or nothing is written. -/
theorem checkAndBumpLastUsedAt_refines (h : Represents db s A) (fid : UInt64) (publicKey : Bytes)
    (ttl messageTimestamp : UInt32) (currentBlockTimestamp : UInt64) :
    Ends (checkAndBumpLastUsedAt db fid publicKey ttl messageTimestamp currentBlockTimestamp) s
      (fun _ s' => s' = s ∨ ∃ A', A.Step A' ∧ Represents db s' A') fun _ s' => s' = s := by
  refine (checkAndBumpLastUsedAt_ends fid publicKey ttl messageTimestamp currentBlockTimestamp).mono ?_
    fun _ _ h => h.1
  rintro _ s' ⟨stored, hstored, -, rfl⟩
  split
  swap
  · exact .inl rfl
  have hlen : publicKey.length = ed25519PublicKeyLen := by
    obtain ⟨_, hpath, -⟩ := except_bind_eq_ok.1 hstored
    exact length_of_makePublicKeyKey hpath
  rw [h.getLastUsedAt_eq fid ⟨publicKey, hlen⟩, Except.ok.injEq, Option.map_eq_some_iff] at hstored
  obtain ⟨e, hentry, rfl⟩ := hstored
  obtain ⟨hk, hfid⟩ := KeyRegistry.entryOf_eq_some.1 hentry
  have hstep : A.Step (A.set ⟨publicKey, hlen⟩ (some { e with lastUsedAt := messageTimestamp })) := .use hk
  refine .inr ⟨_, hstep, ?_, hstep.capped h.capped⟩
  rw [KeyRegistry.value_set_lastUsedAt hk, ← h.reads, hfid]
  exact registryView_put s db (.lastUsedAt fid.toUInt32 ⟨publicKey, hlen⟩) _

end operations

/-! ## Runs -/

/-- One operation on the registry, with whatever the signature checks answer this time. -/
inductive KeyOp where
  | add (crypto : Crypto) (msg : Message) (isReplay : Bool)
  | remove (crypto : Crypto) (msg : Message)
  | bump (fid : UInt64) (publicKey : Bytes) (ttl messageTimestamp : UInt32) (currentBlockTimestamp : UInt64)

/-- What the operation leaves staged, whether it succeeds or not. -/
def KeyOp.run (op : KeyOp) (db : RocksDB) (s : StoreState) : StoreState :=
  match op with
  | .add crypto msg isReplay => stateOf (@mergeKeyAdd db crypto msg isReplay s)
  | .remove crypto msg => stateOf (@mergeKeyRemove db crypto msg s)
  | .bump fid publicKey ttl messageTimestamp currentBlockTimestamp =>
    stateOf (checkAndBumpLastUsedAt db fid publicKey ttl messageTimestamp currentBlockTimestamp s)

/-- A key of the registry's table. -/
def InRegistry (key : Bytes) : Prop := key.head? = some RootPrefix.gaslessKey.toByte

instance (key : Bytes) : Decidable (InRegistry key) := inferInstanceAs (Decidable (_ = _))

/-- **What happens to the registry**: an operation, a commit of the batch, or anything at all in other
    tables. -/
inductive RegistryStep : RocksDB × StoreState → RocksDB × StoreState → Prop
  | op {db : RocksDB} {s : StoreState} (o : KeyOp) : RegistryStep (db, s) (db, o.run db s)
  | commit {db : RocksDB} {s : StoreState} : RegistryStep (db, s) (s.view db, { s with txn := Batch.empty })
  | elsewhere {db db' : RocksDB} {s s' : StoreState} :
      (∀ key, InRegistry key → db' key = db key ∧ s'.txn key = s.txn key) → RegistryStep (db, s) (db', s')

variable {db : RocksDB} {s : StoreState} {A : KeyRegistry}

/-- **An operation is a step of the registry, or none.** -/
theorem KeyOp.run_refines (h : Represents db s A) (op : KeyOp) :
    op.run db s = s ∨ ∃ A', A.Step A' ∧ Represents db (op.run db s) A' := by
  cases op with
  | add crypto msg isReplay => exact (@mergeKeyAdd_refines db s A crypto h msg isReplay).stateOf
  | remove crypto msg => exact (@mergeKeyRemove_refines db s A crypto h msg).stateOf
  | bump fid publicKey ttl messageTimestamp currentBlockTimestamp =>
    exact (checkAndBumpLastUsedAt_refines h fid publicKey ttl messageTimestamp
      currentBlockTimestamp).stateOf.elim
      .inl id

/-- **A step of the stores is a step of the registry, or none.** -/
theorem RegistryStep.refines {db' : RocksDB} {s' : StoreState} (hstep : RegistryStep (db, s) (db', s'))
    (h : Represents db s A) : ∃ A', (A' = A ∨ A.Step A') ∧ Represents db' s' A' := by
  cases hstep with
  | op o =>
    rcases o.run_refines h with hsame | ⟨A', hstep, h'⟩
    · exact ⟨A, .inl rfl, hsame.symm ▸ h⟩
    · exact ⟨A', .inr hstep, h'⟩
  | commit => exact ⟨A, .inl rfl, h.reads, h.capped⟩
  | elsewhere hframe =>
    refine ⟨A, .inl rfl, ?_, h.capped⟩
    rw [← h.reads]
    funext key
    have hkey : InRegistry key.encode := by cases key <;> rfl
    obtain ⟨hdb, htxn⟩ := hframe key.encode hkey
    show (s'.txn key.encode).getD (db' key.encode) = (s.txn key.encode).getD (db key.encode)
    rw [hdb, htxn]

theorem represents_empty (h : ∀ key, InRegistry key → s.view db key = none) : Represents db s .empty := by
  have hsize (fid : UInt32) : KeyRegistry.empty.size fid = 0 := by
    have hkeys : KeyRegistry.empty.keysOf fid = ∅ := by
      ext k
      exact ⟨(fun ⟨_, he, _⟩ => nomatch he), fun hk => absurd hk (Set.notMem_empty k)⟩
    rw [KeyRegistry.size, hkeys, Set.ncard_empty]
  refine ⟨?_, fun fid => by rw [hsize]; exact Nat.zero_le _⟩
  funext key
  refine (h key.encode (by cases key <;> rfl)).trans ?_
  cases key with
  | countByFid fid => simp [KeyRegistry.value, KeyRegistry.count, hsize]
  | _ => rfl

/-- **Every run of the stores from an empty table holds a registry.** -/
theorem represents_of_run {start last : RocksDB × StoreState}
    (hempty : ∀ key, InRegistry key → start.2.view start.1 key = none)
    (hrun : Relation.ReflTransGen RegistryStep start last) : ∃ A, Represents last.1 last.2 A := by
  induction hrun with
  | refl => exact ⟨_, represents_empty hempty⟩
  | tail _ hstep ih =>
    obtain ⟨A, hA⟩ := ih
    obtain ⟨A', -, hA'⟩ := hstep.refines hA
    exact ⟨A', hA'⟩

/-- **The registry is consistent in every state of every run.** The owner of a key, its record and its time of
    last use come and go together; the counter of a fid is the number of its records, at most 1000; and
    whatever happens next, a nonce stays as it is or becomes strictly greater. -/
theorem gasless_registry_invariant {start last : RocksDB × StoreState}
    (hempty : ∀ key, InRegistry key → start.2.view start.1 key = none)
    (hrun : Relation.ReflTransGen RegistryStep start last) :
    (∀ fid : UInt64, fid < 4294967296 →
      (∀ key, (getGaslessKeyOwnerFid last.1 last.2.txn key = .ok (some fid) ↔
          ∃ record, getGaslessKeyRecord last.1 last.2.txn fid key = .ok (some record)) ∧
        ((∃ record, getGaslessKeyRecord last.1 last.2.txn fid key = .ok (some record)) ↔
          ∃ time, getLastUsedAt last.1 last.2.txn fid key = .ok (some time))) ∧
      ∃ count, getGaslessKeyCount last.1 last.2.txn fid = .ok count ∧ count ≤ maxGaslessKeysPerFid ∧
        count.toNat =
          {key | ∃ record, getGaslessKeyRecord last.1 last.2.txn fid key = .ok (some record)}.ncard) ∧
    ∀ next, RegistryStep last next → ∀ fid : UInt64, fid < 4294967296 →
      ∀ nonceKey ∈ [makeUserNonceKey fid, makeAppNonceKey fid], ∃ old new : Option UInt32,
        getNonce last.1 last.2.txn nonceKey = .ok old ∧ getNonce next.1 next.2.txn nonceKey = .ok new ∧
          (new = old ∨ old.getD 0 < new.getD 0) := by
  obtain ⟨A, hA⟩ := represents_of_run hempty hrun
  refine ⟨fun fid hfid => ⟨fun key => ⟨?_, ?_⟩, hA.count_eq_ncard fid⟩,
    fun next hnext fid _ nonceKey hkey => ?_⟩
  · exact (hA.owner_iff hfid).trans (hA.exists_record_iff fid).symm
  · exact (hA.exists_record_iff fid).trans (hA.exists_lastUsedAt_iff fid).symm
  · obtain ⟨A', hstep, hA'⟩ := RegistryStep.refines hnext hA
    have hgrows : KeyRegistry.Grows (A.userNonce fid.toUInt32) (A'.userNonce fid.toUInt32) ∧
        KeyRegistry.Grows (A.appNonce fid.toUInt32) (A'.appNonce fid.toUInt32) := by
      rcases hstep with rfl | hstep
      · exact ⟨.inl rfl, .inl rfl⟩
      · exact hstep.nonces _
    simp only [List.mem_cons, List.not_mem_nil, or_false] at hkey
    rcases hkey with rfl | rfl
    · exact ⟨_, _, @Represents.getU32_value _ _ _ hA "nonce value" (.userNonce fid.toUInt32) _ rfl,
        @Represents.getU32_value _ _ _ hA' "nonce value" (.userNonce fid.toUInt32) _ rfl, hgrows.1⟩
    · exact ⟨_, _, @Represents.getU32_value _ _ _ hA "nonce value" (.appNonce fid.toUInt32) _ rfl,
        @Represents.getU32_value _ _ _ hA' "nonce value" (.appNonce fid.toUInt32) _ rfl, hgrows.2⟩

/-! ### A registration -/

/-- Every signature is good, and by the owner of fid 5. -/
@[reducible] def sampleKeyCrypto : Crypto where
  signatureFromSlice _ := true
  verifyingKeyTryFrom _ := true
  verifyStrict _ _ _ := true
  validateAddAddress _ _ _ _ _ := .ok ()
  recoverKeyAddCustodyAddress _ _ := .ok [1]
  recoverKeyRemoveCustodyAddress _ _ := .ok [1]
  decodeSignedKeyRequest _ := some ⟨some 5, [1], [], some 1000⟩
  recoverKeyRequestSigner _ _ _ _ := some [1]
  fnameSigningHash _ := .ok []
  recoverAddress _ _ := none

def sampleGaslessKey : Bytes := List.replicate 32 7

def sampleKeyAdd : Message where
  data := some ⟨MessageType.keyAdd.toI32, 5, 10, 1,
    some (.keyAddBody ⟨sampleGaslessKey, 1, [], 1000, 1, [1], 1, [], 0⟩)⟩
  hash := List.replicate 20 10
  hashScheme := blake3
  signature := []
  signatureScheme := ed25519
  signer := []
  dataBytes := none

def sampleIdRegister (toAddress : Bytes) : OnChainEvent where
  type := OnChainEventType.eventTypeIdRegister.toI32
  chainId := 1
  blockNumber := 1
  blockHash := []
  blockTimestamp := 0
  transactionHash := toAddress
  logIndex := 0
  fid := 5
  body := some (.idRegisterEventBody ⟨toAddress, 1, [], []⟩)
  txIndex := 0
  version := 1

def sampleKeyDb : RocksDB := fun k =>
  if k = makeIdRegisterByFidKey 5 then some (.bytes (makeOnchainEventPrimaryKey (sampleIdRegister [1])))
  else if k = makeOnchainEventPrimaryKey (sampleIdRegister [1]) then
    some (.onChainEvent (sampleIdRegister [1]))
  else none

theorem sampleKeyDb_noKeys (key : Bytes) (hkey : InRegistry key) :
    StoreState.view ⟨Batch.empty, ⟨1, 0⟩⟩ sampleKeyDb key = none := by
  have hother {key' : Bytes} (h : ¬ InRegistry key') : key ≠ key' := fun he => h (he ▸ hkey)
  exact (if_neg (hother (by decide))).trans (if_neg (hother (by decide)))

theorem gasless_registry_after_add :
    let s := (KeyOp.add sampleKeyCrypto sampleKeyAdd false).run sampleKeyDb ⟨Batch.empty, ⟨1, 0⟩⟩
    getGaslessKeyOwnerFid sampleKeyDb s.txn sampleGaslessKey = .ok (some 5) ∧
      ∃ record, getGaslessKeyRecord sampleKeyDb s.txn 5 sampleGaslessKey = .ok (some record) := by
  intro s
  have howner : getGaslessKeyOwnerFid sampleKeyDb s.txn sampleGaslessKey = .ok (some 5) := by rfl
  have hinv :=
    @gasless_registry_invariant (sampleKeyDb, ⟨Batch.empty, ⟨1, 0⟩⟩) (sampleKeyDb, s) sampleKeyDb_noKeys
    (.single (.op (.add sampleKeyCrypto sampleKeyAdd false)))
  exact ⟨howner, (((hinv.1 5 (by decide)).1 sampleGaslessKey).1).1 howner⟩

end Hypersnap
