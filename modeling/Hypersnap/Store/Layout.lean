import Hypersnap.Store.Defs

/-!
# `Store.Layout` — what the stores have in common, as laws

A `Layout` of a store definition states how its keys are made and ordered: adds and removes are indexed under
the same **slot** (the bytes of the conflict key) in two sets of the user table; the order of two messages on
a slot is the byte order of a **rank**; secondary entries live in tables of their own. A `Record` is a message
with everything the store derives from it, and `Layout.Admits` says that the derivation succeeds. The results
about merging, pruning and revoking are proved once, for any layout; the five stores are instances at the end.
-/

namespace Hypersnap

open Overlay

/-! ## The shape of the keys -/

@[simp] theorem makeIndexKey_set (ctx : StateContext) (fid : UInt64) (set : UserPostfix) (slot : Bytes) :
    (makeIndexKey ctx fid set slot)[5]? = some set.toByte := rfl

@[simp] theorem makeMessagePrimaryKey_set (root : UInt8) (fid : UInt64) (set : UInt8) (tsHash : Bytes) :
    (makeMessagePrimaryKey root fid set tsHash)[5]? = some set := rfl

theorem makeMessagePrimaryKey_inj {root set : UInt8} {fid fid' : UInt64} {ts ts' : Bytes} :
    makeMessagePrimaryKey root fid set ts = makeMessagePrimaryKey root fid' set ts' ↔
      makeFidKey fid = makeFidKey fid' ∧ ts = ts' := by
  constructor
  · intro h
    obtain ⟨hu, hts⟩ := List.append_inj h rfl
    exact ⟨(List.cons.inj hu).2, (List.cons.inj hts).2⟩
  · rintro ⟨hfid, rfl⟩
    simp only [makeMessagePrimaryKey, makeUserKey, hfid]

variable {ctx : StateContext} {p : RootPrefix}

theorem makeIndexKey_inj {set : UserPostfix} {fid fid' : UInt64} {slot slot' : Bytes} :
    makeIndexKey ctx fid set slot = makeIndexKey ctx fid' set slot' ↔
      makeFidKey fid = makeFidKey fid' ∧ slot = slot' :=
  makeMessagePrimaryKey_inj

/-- The tables of the secondary indices. -/
def RootPrefix.isSecondary : RootPrefix → Bool
  | .castsByParent | .castsByMention | .linksByTarget | .reactionsByTarget | .verificationByAddress
  | .userNameProofByName | .lendStorageByRecipient => true
  | _ => false

theorem rootPrefix_ne_user (h : p.isSecondary) (ctx : StateContext) :
    ctx.rootPrefix p ≠ ctx.rootPrefix .user := by
  cases ctx <;> cases p <;> first | exact absurd h (by decide) | decide

theorem rootPrefix_ne_hubEvents (h : p.isSecondary ∨ p = .user) (ctx : StateContext) :
    ctx.rootPrefix p ≠ RootPrefix.hubEvents.toByte := by
  cases ctx <;> cases p <;> first | exact absurd h (by decide) | decide

theorem user_ne_hubEvents {k : Bytes} (h : k[0]? = some (ctx.rootPrefix .user)) :
    k[0]? ≠ some RootPrefix.hubEvents.toByte := by
  rw [h]
  exact fun heq => rootPrefix_ne_hubEvents (.inr rfl) ctx (Option.some.inj heq)

/-! ## Layouts -/

/-- The type under which a message on a slot is compared. -/
def StoreDef.typeOf (d : StoreDef) (isRemove : Bool) : UInt8 :=
  if isRemove then d.removeMessageType else d.addMessageType

/-- The message has data of a type that is stored in the store's set, and its type byte is `t`. -/
def StoreDef.OfType (d : StoreDef) (m : Message) (t : UInt8) : Prop :=
  ∃ data type set, m.data = some data ∧ MessageType.tryFrom data.type = some type ∧
    typeToSetPostfix type = .ok set ∧ set.toByte = d.setPostfix ∧ asU8 data.type = t

structure Layout (d : StoreDef) where
  addSet : UserPostfix
  removeSet : UserPostfix
  /-- The bytes of the conflict key. -/
  slot : Message → Option Bytes
  /-- The place of a message in the order of its slot. -/
  rank : Bool → Bytes → Bytes
  makeAddKey_iff : ∀ {m data ctx k}, m.data = some data →
    (d.makeAddKey m ctx = .ok k ↔ ∃ s, slot m = some s ∧ k = makeIndexKey ctx data.fid addSet s)
  makeRemoveKey_iff : ∀ {m data ctx k}, d.removeTypeSupported = true → m.data = some data →
    (d.makeRemoveKey m ctx = .ok k ↔ ∃ s, slot m = some s ∧ k = makeIndexKey ctx data.fid removeSet s)
  ofType_add : ∀ {m}, d.isAddType m = true → d.OfType m d.addMessageType
  ofType_remove : ∀ {m}, d.isRemoveType m = true → d.OfType m d.removeMessageType
  types_ne : d.addMessageType ≠ d.removeMessageType := by decide
  not_compact : ∀ {m}, d.isAddType m = true ∨ d.isRemoveType m = true → d.isCompactStateType m = false := by
    exact fun _ => rfl
  addSet_ne : addSet.toByte ≠ d.setPostfix := by decide
  removeSet_ne : removeSet.toByte ≠ d.setPostfix := by decide
  sets_ne : addSet.toByte ≠ removeSet.toByte := by decide
  ownMergeConflicts_eq : d.ownMergeConflicts = none := by rfl
  compare_eq : ∀ {a b} (rem rem'), a.length = tsHashLength → b.length = tsHashLength →
    d.messageCompare (d.typeOf rem) a (d.typeOf rem') b = bytesCompare (rank rem a) (rank rem' b)
  rank_inj : ∀ {a b rem rem'}, a.length = tsHashLength → b.length = tsHashLength →
    rank rem a = rank rem' b → rem = rem' ∧ a = b
  secondaryIndexKeys_eq : ∀ ts m ctx, d.secondaryIndexKeys ts m ctx =
    (d.secondaryIndices ts m ctx).map (·.map Prod.fst) := by exact fun _ _ _ => rfl
  secondary_root : ∀ {ts m ctx es e}, d.secondaryIndices ts m ctx = .ok es → e ∈ es →
    ∃ p rest, RootPrefix.isSecondary p = true ∧ e.1 = ctx.rootPrefix p :: rest
  secondary_uniq :
    ∀ {ts m ctx es k v w}, d.secondaryIndices ts m ctx = .ok es → (k, v) ∈ es → (k, w) ∈ es → w = v

/-- A message with what the store derives from it. -/
structure Record where
  message : Message
  fid : UInt64
  tsHash : Bytes
  slot : Bytes
  isRemove : Bool

namespace Layout

variable {d : StoreDef} (lay : Layout d) (ctx : StateContext)

/-- **A message of the store**: typed as an add or a remove, with a hash of the right length and a conflict
    key. -/
structure Typed (r : Record) : Prop where
  data : ∃ data, r.message.data = some data ∧ data.fid = r.fid ∧
    makeTsHash data.timestamp r.message.hash = .ok r.tsHash
  slot : lay.slot r.message = some r.slot
  kind : (r.isRemove = false ∧ d.isAddType r.message = true) ∨
    (r.isRemove = true ∧ d.removeTypeSupported = true ∧ d.isRemoveType r.message = true)

def primaryKey (d : StoreDef) (ctx : StateContext) (r : Record) : Bytes :=
  makeMessagePrimaryKey (ctx.rootPrefix .user) r.fid d.setPostfix r.tsHash

def indexSet (isRemove : Bool) : UserPostfix := if isRemove then lay.removeSet else lay.addSet

/-- The key of the slot's entry in the set of adds or removes. -/
def slotKey (isRemove : Bool) (r : Record) : Bytes := makeIndexKey ctx r.fid (lay.indexSet isRemove) r.slot

/-- The key of the message's own index entry. -/
def indexKey (r : Record) : Bytes := lay.slotKey ctx r.isRemove r

/-- The secondary entries of a message: those of an add, none for a remove. -/
def secondaryOf (d : StoreDef) (ctx : StateContext) (r : Record) : Except Failure (List (Bytes × DbValue)) :=
  if r.isRemove then .ok [] else d.secondaryIndices r.tsHash r.message ctx

def secondary (d : StoreDef) (ctx : StateContext) (r : Record) : List (Bytes × DbValue) :=
  match secondaryOf d ctx r with
  | .ok es => es
  | .error _ => []

/-- A message that can be merged: its secondary entries can be built as well. -/
structure Admits (r : Record) : Prop extends lay.Typed r where
  secondary_ok : secondaryOf d ctx r = .ok (secondary d ctx r)

/-- What the store writes for a message. -/
def entries (r : Record) : List (Bytes × DbValue) :=
  (primaryKey d ctx r, messageEncode r.message) :: (lay.indexKey ctx r, .bytes r.tsHash) :: secondary d ctx r

def keys (r : Record) : List Bytes := (lay.entries ctx r).map Prod.fst

/-- The conflict key: two messages compete if they agree on it. -/
def conflictKey (r : Record) : Bytes × Bytes := (makeFidKey r.fid, r.slot)

def rankOf (r : Record) : Bytes := lay.rank r.isRemove r.tsHash

variable {lay ctx} {r r' : Record} {b : Bool} {k : Bytes} {v : DbValue}

/-! ### Keys of different records -/

theorem primaryKey_inj :
    primaryKey d ctx r = primaryKey d ctx r' ↔ makeFidKey r.fid = makeFidKey r'.fid ∧ r.tsHash = r'.tsHash :=
  makeMessagePrimaryKey_inj

theorem slotKey_inj : lay.slotKey ctx b r = lay.slotKey ctx b r' ↔ conflictKey r = conflictKey r' := by
  simp [slotKey, makeIndexKey_inj, conflictKey]

theorem indexSet_ne : (lay.indexSet b).toByte ≠ d.setPostfix := by
  cases b
  · exact lay.addSet_ne
  · exact lay.removeSet_ne

theorem slotKey_ne_primaryKey : lay.slotKey ctx b r ≠ primaryKey d ctx r' := by
  intro h
  have hset : (lay.slotKey ctx b r)[5]? = (primaryKey d ctx r')[5]? := by rw [h]
  simp only [slotKey, primaryKey, makeIndexKey_set, makeMessagePrimaryKey_set, Option.some.injEq] at hset
  exact lay.indexSet_ne hset

theorem slotKey_bool {b' : Bool} (h : lay.slotKey ctx b r = lay.slotKey ctx b' r') : b = b' := by
  have hset : (lay.slotKey ctx b r)[5]? = (lay.slotKey ctx b' r')[5]? := by rw [h]
  simp only [slotKey, makeIndexKey_set, Option.some.injEq] at hset
  cases b <;> cases b'
  · rfl
  · exact absurd hset lay.sets_ne
  · exact absurd hset.symm lay.sets_ne
  · rfl

theorem indexKey_inj :
    lay.indexKey ctx r = lay.indexKey ctx r' ↔ r.isRemove = r'.isRemove ∧ conflictKey r = conflictKey r' := by
  constructor
  · intro h
    have hb := slotKey_bool h
    rw [indexKey, indexKey, hb] at h
    exact ⟨hb, slotKey_inj.1 h⟩
  · rintro ⟨hb, hkey⟩
    rw [indexKey, indexKey, hb]
    exact slotKey_inj.2 hkey

theorem mem_keys : k ∈ lay.keys ctx r ↔
    k = primaryKey d ctx r ∨ k = lay.indexKey ctx r ∨ k ∈ (secondary d ctx r).map Prod.fst := by
  simp only [keys, entries, List.map_cons, List.mem_cons]

theorem mem_entries : (k, v) ∈ lay.entries ctx r ↔ (k = primaryKey d ctx r ∧ v = messageEncode r.message) ∨
      (k = lay.indexKey ctx r ∧ v = .bytes r.tsHash) ∨ (k, v) ∈ secondary d ctx r := by
  simp only [entries, List.mem_cons, Prod.mk.injEq]

theorem secondary_cases {e : Bytes × DbValue} (he : e ∈ secondary d ctx r) :
    r.isRemove = false ∧ d.secondaryIndices r.tsHash r.message ctx = .ok (secondary d ctx r) := by
  unfold secondary secondaryOf at *
  cases hrem : r.isRemove with
  | true => simp [hrem] at he
  | false =>
    simp only [hrem, Bool.false_eq_true, if_false] at he ⊢
    cases hs : d.secondaryIndices r.tsHash r.message ctx with
    | error e => simp [hs] at he
    | ok es => simp

theorem secondary_ne_user (hk : k ∈ (secondary d ctx r).map Prod.fst) (lay : Layout d) :
    k[0]? ≠ some (ctx.rootPrefix .user) := by
  obtain ⟨e, he, rfl⟩ := List.mem_map.1 hk
  obtain ⟨p, rest, hp, heq⟩ := lay.secondary_root (secondary_cases he).2 he
  rw [heq]
  exact fun hroot => rootPrefix_ne_user hp ctx (Option.some.inj hroot)

theorem secondary_ne_hubEvents (lay : Layout d) (hkv : (k, v) ∈ secondary d ctx r) :
    k[0]? ≠ some RootPrefix.hubEvents.toByte := by
  obtain ⟨p, rest, hp, heq⟩ := lay.secondary_root (secondary_cases hkv).2 hkv
  rw [show k = _ from heq]
  exact fun h => rootPrefix_ne_hubEvents (.inl hp) ctx (Option.some.inj h)

theorem not_isRemoveType (lay : Layout d) {m : Message} (hadd : d.isAddType m = true) :
    d.isRemoveType m = false := by
  refine Bool.eq_false_iff.2 fun hremove => ?_
  obtain ⟨data, -, -, hd, -, -, -, htype⟩ := lay.ofType_add hadd
  obtain ⟨data', -, -, hd', -, -, -, htype'⟩ := lay.ofType_remove hremove
  cases hd.symm.trans hd'
  exact lay.types_ne (htype.symm.trans htype')

/-! ### What a typed message derives -/

namespace Typed

variable (h : lay.Typed r)
include h

theorem length_tsHash : r.tsHash.length = tsHashLength := by
  obtain ⟨data, -, -, hts⟩ := h.data
  obtain ⟨hlen, hts⟩ := makeTsHash_ok_iff.1 hts
  simp [hts, hlen, hashLength, tsHashLength]

theorem messageTsHash_eq : Store.messageTsHash r.message = .ok r.tsHash := by
  obtain ⟨data, hd, -, hts⟩ := h.data
  simp only [Store.messageTsHash, hd, hts]

theorem ofType : d.OfType r.message (d.typeOf r.isRemove) := by
  rcases h.kind with ⟨hrem, hadd⟩ | ⟨hrem, -, hremove⟩
  · simpa [hrem, StoreDef.typeOf] using lay.ofType_add hadd
  · simpa [hrem, StoreDef.typeOf] using lay.ofType_remove hremove

theorem asU8_type {data : MessageData} (hd : r.message.data = some data) :
    asU8 data.type = d.typeOf r.isRemove := by
  obtain ⟨data', type, set, hd', -, -, -, htype⟩ := h.ofType
  cases hd.symm.trans hd'
  exact htype

theorem primaryKeyOf_eq (ctx : StateContext) :
    primaryKeyOf (ctx.rootPrefix .user) r.message = .ok (primaryKey d ctx r) := by
  obtain ⟨data, hd, hfid, hts⟩ := h.data
  obtain ⟨data', type, set, hd', htype, hset, hbyte, -⟩ := h.ofType
  cases hd.symm.trans hd'
  simp only [primaryKeyOf, hd, hts, htype, hset, bind, Except.bind, hbyte, hfid, primaryKey]

theorem makeAddKey_eq (ctx : StateContext) : d.makeAddKey r.message ctx = .ok (lay.slotKey ctx false r) := by
  obtain ⟨data, hd, hfid, -⟩ := h.data
  exact (lay.makeAddKey_iff hd).2 ⟨r.slot, h.slot, by simp [slotKey, indexSet, hfid]⟩

theorem makeRemoveKey_eq (ctx : StateContext) (hsup : d.removeTypeSupported = true) :
    d.makeRemoveKey r.message ctx = .ok (lay.slotKey ctx true r) := by
  obtain ⟨data, hd, hfid, -⟩ := h.data
  exact (lay.makeRemoveKey_iff hsup hd).2 ⟨r.slot, h.slot, by simp [slotKey, indexSet, hfid]⟩

theorem not_compact : d.isCompactStateType r.message = false := by
  rcases h.kind with ⟨-, hadd⟩ | ⟨-, -, hremove⟩
  · exact lay.not_compact (.inl hadd)
  · exact lay.not_compact (.inr hremove)

theorem isAddType_eq : d.isAddType r.message = !r.isRemove := by
  rcases h.kind with ⟨hrem, hadd⟩ | ⟨hrem, -, hremove⟩
  · simp [hrem, hadd]
  · rw [hrem]
    exact Bool.eq_false_iff.2 fun hadd => nomatch hremove.symm.trans (lay.not_isRemoveType hadd)

theorem isRemoveType_eq : (d.removeTypeSupported && d.isRemoveType r.message) = r.isRemove := by
  rcases h.kind with ⟨hrem, hadd⟩ | ⟨hrem, hsup, hremove⟩
  · rw [lay.not_isRemoveType hadd, Bool.and_false, hrem]
  · simp [hrem, hsup, hremove]

theorem supported_of_isRemove (hrem : r.isRemove = true) : d.removeTypeSupported = true := by
  rcases h.kind with ⟨hrem', -⟩ | ⟨-, hsup, -⟩
  · simp [hrem] at hrem'
  · exact hsup

theorem compare_eq (h' : lay.Typed r') :
    d.messageCompare (d.typeOf r.isRemove) r.tsHash (d.typeOf r'.isRemove) r'.tsHash =
      bytesCompare (lay.rankOf r) (lay.rankOf r') :=
  lay.compare_eq _ _ h.length_tsHash h'.length_tsHash

theorem eq_of_message (h' : lay.Typed r') (hm : r.message = r'.message) : r = r' := by
  obtain ⟨data, hd, hfid, hts⟩ := h.data
  obtain ⟨data', hd', hfid', hts'⟩ := h'.data
  rw [hm] at hd hts
  cases hd.symm.trans hd'
  have hts : r.tsHash = r'.tsHash := Except.ok.inj (hts.symm.trans hts')
  have hslot : r.slot = r'.slot := by
    have := h.slot
    rw [hm, h'.slot] at this
    exact (Option.some.inj this).symm
  have hrem : r.isRemove = r'.isRemove := by
    have hadd := h.isAddType_eq
    rw [hm, h'.isAddType_eq] at hadd
    simpa using hadd.symm
  obtain ⟨_, _, _, _, _⟩ := r
  obtain ⟨_, _, _, _, _⟩ := r'
  simp_all

end Typed

theorem entries_uniq {w : DbValue} (hv : (k, v) ∈ lay.entries ctx r) (hw : (k, w) ∈ lay.entries ctx r) :
    w = v := by
  have hne : ∀ {k v}, (k, v) ∈ secondary d ctx r → k ≠ primaryKey d ctx r ∧ k ≠ lay.indexKey ctx r :=
    fun hkv =>
    ⟨fun heq => secondary_ne_user (List.mem_map_of_mem hkv) lay (by rw [heq]; rfl),
      fun heq => secondary_ne_user (List.mem_map_of_mem hkv) lay (by rw [heq]; rfl)⟩
  have hidx : lay.indexKey ctx r ≠ primaryKey d ctx r := slotKey_ne_primaryKey
  rcases mem_entries.1 hv with ⟨rfl, rfl⟩ | ⟨rfl, rfl⟩ | hv
  · rcases mem_entries.1 hw with ⟨-, rfl⟩ | ⟨heq, -⟩ | hw
    · rfl
    · exact absurd heq.symm hidx
    · exact absurd rfl (hne hw).1
  · rcases mem_entries.1 hw with ⟨heq, -⟩ | ⟨-, rfl⟩ | hw
    · exact absurd heq hidx
    · rfl
    · exact absurd rfl (hne hw).2
  · rcases mem_entries.1 hw with ⟨heq, -⟩ | ⟨heq, -⟩ | hw
    · exact absurd heq (hne hv).1
    · exact absurd heq (hne hv).2
    · exact lay.secondary_uniq (secondary_cases hv).2 hv hw

end Layout

end Hypersnap
