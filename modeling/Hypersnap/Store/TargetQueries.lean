import Hypersnap.Store.MessagePages
import Hypersnap.Store.Scan

/-!
# `Store.TargetQueries` — casts by parent and reactions by target

The by-target tables append the 24 bytes of the `tsHash` and the fid to a target of any length, without a
separator. A query scans the keys that start with the target and reads `tsHash` and fid at the offsets that
follow from **its own** target. An entry of a longer target that starts with it is scanned too and read at the
wrong offsets, and the message lookup fails the whole query. The queries are exact if and only if every entry
they read is that of a stored add with the queried target (`targetQueries_exact_iff`).
-/

namespace Hypersnap

open Overlay EState Layout Cursor

/-! ## The queries -/

/-- `read_ts_hash`; a key that is too short panics. -/
def readTsHash (key : Bytes) (offset : Nat) : Except Failure Bytes :=
  if offset + tsHashLength ≤ key.length then .ok ((key.drop offset).take tsHashLength) else .error .panic

/-- The primary key an index entry stands for, read at an offset. -/
def readPrimaryKey (set : UInt8) (offset : Nat) (key : Bytes) : Except Failure Bytes := do
  let fid ← readFidKey key (offset + tsHashLength)
  let tsHash ← readTsHash key offset
  .ok (makeMessagePrimaryKey RootPrefix.user.toByte fid set tsHash)

section query
variable [Prost]

/-- One message of `get_many_messages`. -/
def getMessageAt (db : RocksDB) (key : Bytes) : Except Failure Message :=
  match db key with
  | some value => (messageDecode value).mapError .hub
  | none => .error (.hub (.notFound ("could not get message with key: [" ++
      ", ".intercalate (key.map fun b => toString b.toNat) ++ "]")))

def getManyMessages (db : RocksDB) (primaryKeys : List Bytes) : Except Failure (List Message) :=
  primaryKeys.mapM (getMessageAt db)

/-- What the queries do with an entry of the index. -/
def selectPrimaryKey (set : UInt8) (offset : Nat) (accepts : DbValue → Bool) (e : Bytes × DbValue) :
    Except Failure (Option Bytes) :=
  if accepts e.2 then (readPrimaryKey set offset e.1).map some else .ok none

/-- **A page of an index query**: the primary keys of the accepted entries under `start`, then their
    messages. -/
def getMessagesByIndex [DbIterator] (db : RocksDB) (set : UInt8) (start : Bytes) (accepts : DbValue → Bool)
    (pageOptions : PageOptions) : Except Failure MessagesPage :=
  match pageByPrefix db start (incrementVecU8 start) pageOptions
    (selectPrimaryKey set start.length accepts) with
  | .error e => .error e
  | .ok (keys, token) => (getManyMessages db keys).map (·, token)

def getCastsByParent [DbIterator] (db : RocksDB) (parent : CastOrUrl) (pageOptions : PageOptions) :
    Except Failure MessagesPage :=
  getMessagesByIndex db castStoreDef.setPostfix
    (CastStoreDef.makeCastByParentKey RootPrefix.castsByParent.toByte parent 0 []) (fun _ => true) pageOptions

/-- The value of an entry is the type of the reaction. -/
def acceptsReaction (reactionType : Int32) (value : DbValue) : Bool :=
  reactionType == 0 ||
    match value with
    | .bytes [b] => b == asU8 reactionType
    | _ => false

def getReactionsByTarget [DbIterator] (db : RocksDB) (target : CastOrUrl) (reactionType : Int32)
    (pageOptions : PageOptions) : Except Failure MessagesPage :=
  getMessagesByIndex db reactionStoreDef.setPostfix
    (ReactionStoreDef.makeReactionsByTargetKey RootPrefix.reactionsByTarget.toByte target 0 [])
      (acceptsReaction reactionType)
    pageOptions

end query

/-! ## By-target indices -/

/-- **What the two indices have in common**: the table, the bytes of a target, and the entry of an add. -/
structure TargetIndex {d : StoreDef} (lay : Layout d) where
  table : RootPrefix
  targetKey : CastOrUrl → Bytes
  /-- The target of a message, if it has one. -/
  targetOf : Message → Option CastOrUrl
  /-- The value of its entry. -/
  value : Message → DbValue
  table_ne : table.toByte ≠ 255
  mem_secondary : ∀ {r t}, lay.Typed r → r.isRemove = false → targetOf r.message = some t →
    (table.toByte :: (targetKey t ++ targetKeyEnd r.tsHash r.fid), value r.message) ∈ secondary d .legacy r

/-- The parent of a cast. -/
def Message.castParent (m : Message) : Option CastOrUrl :=
  match m.data.bind (·.body) with
  | some (.castAddBody parent _ _) => parent
  | _ => none

/-- The type and target of a reaction. -/
def Message.reaction (m : Message) : Option (Int32 × CastOrUrl) :=
  match m.data.bind (·.body) with
  | some (.reactionBody type target) => target.map (type, ·)
  | _ => none

def parentIndex : TargetIndex castLayout where
  table := .castsByParent
  targetKey := CastStoreDef.makeParentKey
  targetOf := Message.castParent
  value _ := trueValue
  table_ne := by decide
  mem_secondary {r t} hr hrem ht := by
    obtain ⟨data, hdata, hfid, -⟩ := hr.data
    unfold Message.castParent at ht
    rw [hdata, Option.bind_some] at ht
    split at ht
    next parent mentions content hbody =>
      subst ht
      simp [secondary, secondaryOf, hrem, castStoreDef, CastStoreDef.secondaryIndices, Message.bodyOf, hdata,
        hbody, bind, Except.bind, CastStoreDef.makeCastByParentKey, StateContext.rootPrefix, hfid]
    next => cases ht

def reactionIndex : TargetIndex reactionLayout where
  table := .reactionsByTarget
  targetKey := ReactionStoreDef.makeTargetKey
  targetOf m := m.reaction.map Prod.snd
  value m := .bytes [asU8 ((m.reaction.map Prod.fst).getD 0)]
  table_ne := by decide
  mem_secondary {r t} hr hrem ht := by
    obtain ⟨data, hdata, hfid, -⟩ := hr.data
    unfold Message.reaction at ht ⊢
    rw [hdata, Option.bind_some] at ht ⊢
    split at ht
    next type target hbody =>
      cases target with
      | none => cases ht
      | some target =>
        cases ht
        simp [secondary, secondaryOf, hrem, reactionStoreDef, ReactionStoreDef.secondaryIndices,
          Message.bodyOf, hdata, hbody, ReactionStoreDef.reactionBody, bind, Except.bind,
          ReactionStoreDef.makeReactionsByTargetKey, StateContext.rootPrefix, hfid]
    next => cases ht

/-! ## What an entry is read as -/

section read
variable {d : StoreDef} {lay : Layout d} (idx : TargetIndex lay) {db : RocksDB} {t : CastOrUrl}
  {r r' : Record} {ts : Bytes} {set : UInt8}

namespace TargetIndex

def start (t : CastOrUrl) : Bytes := idx.table.toByte :: idx.targetKey t

/-- The entry of an add with this target. -/
def entryOf (t : CastOrUrl) (r : Record) : Bytes × DbValue :=
  (idx.start t ++ targetKeyEnd r.tsHash r.fid, idx.value r.message)

end TargetIndex

theorem targetKeyEnd_length (hts : ts.length = tsHashLength) (fid : UInt64) :
    targetKeyEnd ts fid = ts ++ if 0 < fid then makeFidKey fid else [] := by
  rw [targetKeyEnd, if_pos hts]

theorem readPrimaryKey_of_fid {start : Bytes} {fid : UInt64} (hts : ts.length = tsHashLength)
    (hfid : fid ≠ 0) : readPrimaryKey set start.length (start ++ targetKeyEnd ts fid) =
      .ok (makeMessagePrimaryKey RootPrefix.user.toByte fid set ts) := by
  rw [targetKeyEnd_eq hts hfid]
  have hfidKey :
      ((start ++ (ts ++ makeFidKey fid)).drop (start.length + tsHashLength)).take 4 = makeFidKey fid := by
    rw [← List.append_assoc, ← hts, ← List.length_append, List.drop_left]
    rfl
  have hread : readFidKey (start ++ (ts ++ makeFidKey fid)) (start.length + tsHashLength) =
      .ok (fromBeBytes (makeFidKey fid)).toUInt64 := by
    rw [readFidKey, if_pos (by simp [hts, Nat.add_assoc]), hfidKey]
  have hreadTs : readTsHash (start ++ (ts ++ makeFidKey fid)) start.length = .ok ts := by
    rw [readTsHash, if_pos (by simp [hts]), List.drop_left, ← hts, List.take_left]
  simp only [readPrimaryKey, hread, hreadTs, bind, Except.bind, makeMessagePrimaryKey, makeUserKey,
    makeFidKey_readBack]

theorem readPrimaryKey_of_no_fid {start : Bytes} (hts : ts.length = tsHashLength) :
    readPrimaryKey set start.length (start ++ targetKeyEnd ts 0) = .error .panic := by
  have hread : readFidKey (start ++ targetKeyEnd ts 0) (start.length + tsHashLength) = .error .panic := by
    rw [readFidKey, if_neg (by simp [targetKeyEnd_length hts, hts])]
  rw [readPrimaryKey, hread]
  rfl

variable [Prost]

/-- The message an entry is read as. -/
def readEntry (db : RocksDB) (set : UInt8) (offset : Nat) (e : Bytes × DbValue) : Except Failure Message := do
  let key ← readPrimaryKey set offset e.1
  getMessageAt db key

/-- **A stored add with the target** that is wanted. -/
structure TargetIndex.Wanted (db : RocksDB) (t : CastOrUrl) (wanted : Message → Prop) (r : Record) :
    Prop where
  held : lay.Held .legacy db r
  add : r.isRemove = false
  target : idx.targetOf r.message = some t
  wanted : wanted r.message

variable {idx} {wanted : Message → Prop}

section
variable (h : idx.Wanted db t wanted r)
include h

theorem TargetIndex.Wanted.readEntry_eq (hfid : r.fid ≠ 0) :
    readEntry db d.setPostfix (idx.start t).length (idx.entryOf t r) = .ok r.message := by
  have hprim : db (makeMessagePrimaryKey RootPrefix.user.toByte r.fid d.setPostfix r.tsHash) =
      some (messageEncode r.message) := h.held.primary
  simp only [readEntry, TargetIndex.entryOf, readPrimaryKey_of_fid h.held.typed.length_tsHash hfid, bind,
    Except.bind, getMessageAt, hprim, messageDecode_messageEncode h.held.normal]
  rfl

theorem TargetIndex.Wanted.fid_ne {m : Message}
    (hread : readEntry db d.setPostfix (idx.start t).length (idx.entryOf t r) = .ok m) : r.fid ≠ 0 := by
  intro hfid
  rw [readEntry, TargetIndex.entryOf, hfid, readPrimaryKey_of_no_fid h.held.typed.length_tsHash] at hread
  cases hread

theorem TargetIndex.Wanted.eq_of_entryOf (h' : idx.Wanted db t wanted r')
    (heq : idx.entryOf t r = idx.entryOf t r') : r = r' := by
  have hend := List.append_cancel_left (congrArg Prod.fst heq)
  rw [targetKeyEnd_length h.held.typed.length_tsHash, targetKeyEnd_length h'.held.typed.length_tsHash] at hend
  obtain ⟨hts, hfid⟩ :=
    List.append_inj hend (h.held.typed.length_tsHash.trans h'.held.typed.length_tsHash.symm)
  refine h.held.eq_of_primaryKey h'.held (primaryKey_inj.2 ⟨?_, hts⟩)
  -- both fids are in the keys, or both are 0
  by_cases hpos : 0 < r.fid <;> by_cases hpos' : 0 < r'.fid
  · simpa [hpos, hpos'] using hfid
  · simp [hpos, hpos', makeFidKey, toBeBytes] at hfid
  · simp [hpos, hpos', makeFidKey, toBeBytes] at hfid
  · have hzero {f : UInt64} (h : ¬0 < f) : f = 0 :=
      Classical.byContradiction fun hne => h (UInt64.pos_iff_ne_zero.2 hne)
    rw [hzero hpos, hzero hpos']

end

end read

/-! ## Exactness -/

section exact
variable [Prost] {d : StoreDef} {lay : Layout d} (idx : TargetIndex lay)

/-- Every stored add has its secondary entries. -/
def IndexesAdds (lay : Layout d) (db : RocksDB) : Prop :=
  ∀ r, lay.Held .legacy db r → r.isRemove = false → ∀ e ∈ secondary d .legacy r, db e.1 = some e.2

/-- Every run of merges of casts or of reactions leaves them indexed. -/
theorem indexesAdds_mergeAll [DbIterator] {p : PlainStore} (hp : p = .cast ∨ p = .reaction)
    {msgs order : List Message} (hfit : Store.Fit (p.store .legacy) msgs) {gen : Nat → HubEventIdGenerator}
    (hgen : ∀ i, (gen i).Ready) (hsub : order ⊆ msgs) :
    IndexesAdds p.layout ((p.store .legacy).mergeAll gen order) := by
  intro r hr _ e he
  have hsim := Store.mergeAll_sim (p.plain .legacy) (hfit.pool p.layout) hgen order hsub
  refine hsim.complete (fun r₁ h₁ r₂ h₂ hk₁ hk₂ => ?_) hr he
  exact congrArg conflictKey (Store.eq_of_secondary hp hfit h₂ h₁ hk₂ hk₁)

/-- **The stored adds with the target**, each once. -/
def TargetIndex.Lists (db : RocksDB) (t : CastOrUrl) (wanted : Message → Prop) (messages : List Message) :
    Prop :=
  messages.Nodup ∧ ∀ m, m ∈ messages ↔ ∃ r, idx.Wanted db t wanted r ∧ r.message = m

/-- **Every entry the query reads is that of a stored add with its target**, of a user with a fid. -/
def TargetIndex.OwnEntries (db : RocksDB) (t : CastOrUrl) (accepts : DbValue → Bool)
    (wanted : Message → Prop) : Prop :=
  ∀ k v, db k = some v → InRange (idx.start t) (incrementVecU8 (idx.start t)) k → accepts v = true →
    ∃ r, idx.Wanted db t wanted r ∧ r.fid ≠ 0 ∧ (k, v) = idx.entryOf t r

variable {idx} {db : RocksDB} {t : CastOrUrl} {accepts : DbValue → Bool} {wanted : Message → Prop}
  {pageOptions : PageOptions} {l : List Message}

theorem exists_selectAll_mapM_iff {set : UInt8} {offset : Nat} {entries : List (Bytes × DbValue)} :
    (∃ keys, selectAll (selectPrimaryKey set offset accepts) entries = .ok keys ∧
      keys.mapM (getMessageAt db) = .ok l) ↔
      List.Forall₂ (fun e m => readEntry db set offset e = .ok m)
      (entries.filter fun e => accepts e.2) l := by
  induction entries generalizing l with
  | nil =>
    constructor
    · rintro ⟨keys, hkeys, hl⟩
      cases hkeys
      cases hl
      exact .nil
    · intro h
      cases h
      exact ⟨[], rfl, rfl⟩
  | cons e entries ih =>
    cases hacc : accepts e.2 with
    | false =>
      have hskip : selectAll (selectPrimaryKey set offset accepts) (e :: entries) =
          selectAll (selectPrimaryKey set offset accepts) entries := by
        simp only [selectAll, selectPrimaryKey, hacc, Bool.false_eq_true, if_false]
        cases selectAll (selectPrimaryKey set offset accepts) entries <;> rfl
      rw [hskip, ih, List.filter_cons_of_neg (by simp [hacc])]
    | true =>
      rw [List.filter_cons_of_pos (by simpa using hacc)]
      cases hkey : readPrimaryKey set offset e.1 with
      | error err =>
        constructor
        · rintro ⟨keys, hkeys, -⟩
          simp [selectAll, selectPrimaryKey, hacc, hkey, Except.map] at hkeys
        · intro h
          cases h with
          | cons hread _ => simp [readEntry, hkey, bind, Except.bind] at hread
      | ok key =>
        have hread (m : Message) : readEntry db set offset e = .ok m ↔ getMessageAt db key = .ok m := by
          simp only [readEntry, hkey, bind, Except.bind]
        have hcons {keys : List Bytes} :
            selectAll (selectPrimaryKey set offset accepts) (e :: entries) = .ok keys ↔
            ∃ keys', selectAll (selectPrimaryKey set offset accepts) entries = .ok keys' ∧
            keys = key :: keys' := by
          simp only [selectAll, selectPrimaryKey, hacc, hkey, Except.map, if_true]
          cases selectAll (selectPrimaryKey set offset accepts) entries <;> simp [eq_comm]
        constructor
        · rintro ⟨keys, hkeys, hl⟩
          obtain ⟨keys', hkeys', rfl⟩ := hcons.1 hkeys
          cases mapM_eq_ok_iff_forall₂.1 hl with
          | cons hm hrest =>
            exact .cons ((hread _).2 hm) (ih.1 ⟨keys', hkeys', mapM_eq_ok_iff_forall₂.2 hrest⟩)
        · intro h
          cases h with
          | cons hm hrest =>
            obtain ⟨keys', hkeys', hl⟩ := ih.2 hrest
            exact ⟨key :: keys', hcons.2 ⟨keys', hkeys', rfl⟩,
              mapM_eq_ok_iff_forall₂.2 (.cons ((hread _).1 hm) (mapM_eq_ok_iff_forall₂.1 hl))⟩

/-- The entries a query accepts, in its direction. -/
def acceptedEntries [DbIterator] (db : RocksDB) (start : Bytes) (accepts : DbValue → Bool) (reverse : Bool) :
    List (Bytes × DbValue) :=
  (queryEntries db start (incrementVecU8 start) reverse none).filter fun e => accepts e.2

variable [DbIterator] [DbIterator.Exact]

/-- **The pages of an index query** are the messages the accepted entries are read as. -/
theorem walk_messagesByIndex_iff {set b : UInt8} {rest : Bytes}
    (hfin : (occupied db (b :: rest) (incrementVecU8 (b :: rest))).Finite) :
    Walk (fun token => getMessagesByIndex db set (b :: rest) accepts { pageOptions with pageToken := token })
      none l ↔
      List.Forall₂ (fun e m => readEntry db set (b :: rest).length e = .ok m)
        (acceptedEntries db (b :: rest) accepts pageOptions.reverse) l := by
  have hpages :
      (fun token => getMessagesByIndex db set (b :: rest) accepts { pageOptions with pageToken := token }) =
      mapPage (fun token =>
        pageByPrefix db (b :: rest) (incrementVecU8 (b :: rest)) { pageOptions with pageToken := token }
        (selectPrimaryKey set (b :: rest).length accepts)) (getMessageAt db) := by
    funext token
    simp only [getMessagesByIndex, mapPage, getManyMessages]
    cases pageByPrefix db (b :: rest) (incrementVecU8 (b :: rest)) { pageOptions with pageToken := token }
      (selectPrimaryKey set (b :: rest).length accepts) <;> rfl
  rw [hpages, walk_mapPage_iff]
  simp only [walk_pageByPrefix_iff hfin (List.cons_ne_nil b rest)]
  exact exists_selectAll_mapM_iff

omit [Prost] in
theorem mem_acceptedEntries {start : Bytes} (hfin : (occupied db start (incrementVecU8 start)).Finite)
    {reverse : Bool} {k : Bytes} {v : DbValue} :
    (k, v) ∈ acceptedEntries db start accepts reverse ↔
      (InRange start (incrementVecU8 start) k ∧ db k = some v) ∧ accepts v = true := by
  rw [acceptedEntries, List.mem_filter, mem_queryEntries hfin]

omit [Prost] in
theorem nodup_acceptedEntries (start : Bytes) (reverse : Bool) :
    (acceptedEntries db start accepts reverse).Nodup := by
  have hscan : (DbIterator.scan db start (incrementVecU8 start)).Nodup := by
    refine (DbIterator.Exact.sorted db start (incrementVecU8 start)).imp fun {a b} hlt hab => ?_
    rw [hab, bytesCompare_eq_iff.2 rfl] at hlt
    cases hlt
  refine List.Nodup.filter _ ?_
  cases reverse
  · exact hscan
  · exact List.nodup_reverse.2 hscan

theorem TargetIndex.Wanted.mem_acceptedEntries {r : Record} (h : idx.Wanted db t wanted r)
    (hadds : IndexesAdds lay db) (haccepts : ∀ m, wanted m → idx.targetOf m = some t → accepts (idx.value m) =
      true) (hfin : (occupied db (idx.start t) (incrementVecU8 (idx.start t))).Finite) (reverse : Bool) :
    idx.entryOf t r ∈ acceptedEntries db (idx.start t) accepts reverse := by
  refine (Hypersnap.mem_acceptedEntries hfin).2 ⟨⟨?_, ?_⟩, haccepts _ h.wanted h.target⟩
  · exact inRange_of_isPrefix idx.table_ne (List.prefix_append _ _)
  · exact hadds r h.held h.add _ (idx.mem_secondary h.held.typed h.add h.target)

/-- **An index query is exact** if and only if every entry it reads is its own. -/
theorem indexQuery_exact_iff (hdb : {k | (db k).isSome}.Finite) (hadds : IndexesAdds lay db)
    (haccepts : ∀ m, wanted m → idx.targetOf m = some t → accepts (idx.value m) = true) :
    (∃ messages, Walk (fun token => getMessagesByIndex db d.setPostfix (idx.start t) accepts
        { pageOptions with pageToken := token }) none messages ∧ idx.Lists db t wanted messages) ↔
      idx.OwnEntries db t accepts wanted := by
  have hfin : (occupied db (idx.start t) (incrementVecU8 (idx.start t))).Finite := hdb.subset fun k hk => hk.2
  have hmem {k : Bytes} {v : DbValue} :=
    @mem_acceptedEntries db accepts _ _ (idx.start t) hfin pageOptions.reverse k v
  have hnodup := @nodup_acceptedEntries db accepts _ _ (idx.start t) pageOptions.reverse
  simp only [TargetIndex.start] at hfin ⊢
  simp only [walk_messagesByIndex_iff hfin]
  constructor
  · rintro ⟨messages, hread, hmessages, hlists⟩ k v hv hrange hacc
    -- as many entries as messages, and every wanted add has one of them: there is no other
    obtain ⟨rs, rfl, hrs⟩ := exists_map_eq fun m hm => (hlists m).1 hm
    have hsub : rs.map (idx.entryOf t) ⊆ acceptedEntries db (idx.start t) accepts pageOptions.reverse := by
      intro e he
      obtain ⟨r, hr, rfl⟩ := List.mem_map.1 he
      exact (hrs r hr).mem_acceptedEntries hadds haccepts hfin _
    have hinj : (rs.map (idx.entryOf t)).Nodup :=
      (List.Nodup.of_map _ hmessages).map_on fun r hr r' hr' => (hrs r hr).eq_of_entryOf (hrs r' hr')
    have hlen : (acceptedEntries db (idx.start t) accepts pageOptions.reverse).length ≤
        (rs.map (idx.entryOf t)).length := by
      have := hread.length_eq
      rw [List.length_map] at this ⊢
      exact this.le
    have hperm := (List.subperm_of_subset hinj hsub).perm_of_length_le hlen
    obtain ⟨r, hr, heq⟩ := List.mem_map.1 (hperm.mem_iff.2 (hmem.2 ⟨⟨hrange, hv⟩, hacc⟩))
    obtain ⟨m, -, hm⟩ := exists_left_of_forall₂ hread.flip (hsub (List.mem_map_of_mem hr))
    exact ⟨r, hrs r hr, (hrs r hr).fid_ne hm, heq.symm⟩
  · intro hown
    -- the accepted entries are those of some adds
    obtain ⟨rs, hentries, hrs⟩ : ∃ rs : List Record,
        rs.map (idx.entryOf t) = acceptedEntries db (idx.start t) accepts pageOptions.reverse ∧
          ∀ r ∈ rs, idx.Wanted db t wanted r ∧ r.fid ≠ 0 := by
      refine exists_map_eq fun e he => ?_
      obtain ⟨⟨hrange, hv⟩, hacc⟩ := hmem.1 he
      obtain ⟨r, hr, hfid, heq⟩ := hown e.1 e.2 hv hrange hacc
      exact ⟨r, ⟨hr, hfid⟩, heq.symm⟩
    refine ⟨rs.map (·.message), ?_, ?_, fun m => ?_⟩
    · refine hentries ▸ List.forall₂_map_left_iff.2
        (List.forall₂_map_right_iff.2 (List.forall₂_same.2 fun r hr => ?_))
      exact (hrs r hr).1.readEntry_eq (hrs r hr).2
    · rw [← hentries] at hnodup
      refine hnodup.of_map.map_on fun r hr r' hr' heq => ?_
      exact (hrs r hr).1.held.typed.eq_of_message (hrs r' hr').1.held.typed heq
    · constructor
      · intro hm
        obtain ⟨r, hr, rfl⟩ := List.mem_map.1 hm
        exact ⟨r, (hrs r hr).1, rfl⟩
      · rintro ⟨r, hr, rfl⟩
        have he := hr.mem_acceptedEntries hadds haccepts hfin pageOptions.reverse
        rw [← hentries] at he
        obtain ⟨r', hr', heq⟩ := List.mem_map.1 he
        rw [hr.eq_of_entryOf (hrs r' hr').1 heq.symm]
        exact List.mem_map_of_mem hr'

/-- A reaction of the type, or of any if none is asked for. -/
def OfReactionType (reactionType : Int32) (m : Message) : Prop :=
  reactionType = 0 ∨ m.reaction.map Prod.fst = some reactionType

/-- **Target queries are exact** if and only if every entry they read is that of a stored add with the
    target. -/
theorem targetQueries_exact_iff (db : RocksDB) (hdb : {k | (db k).isSome}.Finite) :
    (IndexesAdds castLayout db → ∀ (parent : CastOrUrl) (pageOptions : PageOptions),
      ((∃ messages,
        Walk (fun token => getCastsByParent db parent { pageOptions with pageToken := token }) none messages ∧
          parentIndex.Lists db parent (fun _ => True) messages) ↔
        parentIndex.OwnEntries db parent (fun _ => true) fun _ => True)) ∧
    (IndexesAdds reactionLayout db →
      ∀ (target : CastOrUrl) (reactionType : Int32) (pageOptions : PageOptions),
      ((∃ messages, Walk
        (fun token => getReactionsByTarget db target reactionType { pageOptions with pageToken := token })
            none messages ∧ reactionIndex.Lists db target (OfReactionType reactionType) messages) ↔
        reactionIndex.OwnEntries db target (acceptsReaction reactionType)
        (OfReactionType reactionType))) := by
  constructor
  · intro hadds parent pageOptions
    have hstart : CastStoreDef.makeCastByParentKey RootPrefix.castsByParent.toByte parent 0 [] =
        parentIndex.start parent := by
      simp [CastStoreDef.makeCastByParentKey, targetKeyEnd, tsHashLength, TargetIndex.start, parentIndex]
    simp only [getCastsByParent, hstart]
    exact indexQuery_exact_iff hdb hadds fun _ _ _ => rfl
  · intro hadds target reactionType pageOptions
    have hstart : ReactionStoreDef.makeReactionsByTargetKey RootPrefix.reactionsByTarget.toByte target 0 [] =
        reactionIndex.start target := by
      simp [ReactionStoreDef.makeReactionsByTargetKey, targetKeyEnd, tsHashLength, TargetIndex.start,
        reactionIndex]
    simp only [getReactionsByTarget, hstart]
    refine indexQuery_exact_iff hdb hadds fun m hm _ => ?_
    rcases hm with rfl | hm
    · rfl
    · simp [acceptsReaction, reactionIndex, hm]

end exact

/-! ### One URL that extends another -/

/-- A cast with a URL as parent. -/
def sampleReply (fid : UInt64) (url : Bytes) : Message where
  data := some ⟨MessageType.castAdd.toI32, fid, 10, 1,
    some (.castAddBody (some (.url url)) [] ⟨[65], 0, [], [], []⟩)⟩
  hash := List.replicate 20 1
  hashScheme := blake3
  signature := []
  signatureScheme := ed25519
  signer := []
  dataBytes := none

def sampleReplyRecord (fid : UInt64) (url : Bytes) : Record :=
  ⟨sampleReply fid url, fid, toBeBytes 10 ++ List.replicate 20 1, List.replicate 20 1, false⟩

/-- The database after the cast was merged, without the event. -/
def sampleReplyDb (fid : UInt64) (url : Bytes) : RocksDB :=
  putAll (fun _ => none) (castLayout.entries .legacy (sampleReplyRecord fid url))

def sampleReplyKeys (fid : UInt64) (url : Bytes) : List Bytes :=
  castLayout.keys .legacy (sampleReplyRecord fid url)

theorem sampleReply_held (fid : UInt64) (url : Bytes) : let _ := Store.noProst
    castLayout.Held .legacy (sampleReplyDb fid url) (sampleReplyRecord fid url) := by
  intro _
  refine ⟨⟨⟨_, rfl, rfl, rfl⟩, rfl, .inl ⟨rfl, rfl⟩⟩, rfl, ?_, ?_⟩
  · refine putAll_of_mem (mem_entries.2 (.inl ⟨rfl, rfl⟩)) fun w hw => ?_
    exact entries_uniq (mem_entries.2 (.inl ⟨rfl, rfl⟩)) hw
  · refine putAll_of_mem (mem_entries.2 (.inr (.inl ⟨rfl, rfl⟩))) fun w hw => ?_
    exact entries_uniq (mem_entries.2 (.inr (.inl ⟨rfl, rfl⟩))) hw

theorem sampleReply_secondary (fid : UInt64) (url : Bytes) :
    secondary castStoreDef .legacy (sampleReplyRecord fid url) =
    [parentIndex.entryOf (.url url) (sampleReplyRecord fid url)] := rfl

theorem mem_of_sampleReplyDb {fid : UInt64} {url k : Bytes} {v : DbValue}
    (h : sampleReplyDb fid url k = some v) :
    (k, v) ∈ castLayout.entries .legacy (sampleReplyRecord fid url) := by
  by_cases hk : k ∈ sampleReplyKeys fid url
  · obtain ⟨⟨_, w⟩, hw, rfl⟩ := List.mem_map.1 hk
    have hput : sampleReplyDb fid url _ = some w := putAll_of_mem hw fun _ hw' => entries_uniq hw hw'
    rw [hput] at h
    exact Option.some.inj h ▸ hw
  · have hnone : sampleReplyDb fid url k = none := putAll_of_not_mem hk
    rw [hnone] at h
    cases h

/-- A reply to a URL is found under it, backwards and in pages of one. -/
theorem targetQueries_exact_reply :
    let _ := Store.noProst
    let _ := sortedScan
    ∃ messages, Walk
      (fun token => getCastsByParent (sampleReplyDb 1 [97, 98]) (.url [97, 98]) ⟨some 1, token, true⟩) none
        messages ∧
      parentIndex.Lists (sampleReplyDb 1 [97, 98]) (.url [97, 98]) (fun _ => True) messages := by
  intro _ _
  have := sortedScan_exact
  have hheld := sampleReply_held 1 [97, 98]
  have hdb : {k | (sampleReplyDb 1 [97, 98] k).isSome}.Finite := by
    refine (sampleReplyKeys 1 [97, 98]).finite_toSet.subset fun k hk => ?_
    obtain ⟨v, hv⟩ := Option.isSome_iff_exists.1 hk
    exact List.mem_map.2 ⟨_, mem_of_sampleReplyDb hv, rfl⟩
  refine ((targetQueries_exact_iff _ hdb).1 ?_ (.url [97, 98]) ⟨some 1, none, true⟩).2 ?_
  · rintro r hr - e he
    obtain rfl : r = sampleReplyRecord 1 [97, 98] := by
      rcases mem_entries.1 (mem_of_sampleReplyDb hr.primary) with ⟨hk, -⟩ | ⟨-, hv⟩ | hsec
      · exact hr.eq_of_primaryKey hheld hk
      · exact absurd hv messageEncode_ne_bytes
      · rw [sampleReply_secondary, List.mem_singleton] at hsec
        exact absurd (congrArg Prod.snd hsec) messageEncode_ne_bytes
    rw [sampleReply_secondary, List.mem_singleton] at he
    subst he
    rfl
  · intro k v hv hrange _
    have hstart : parentIndex.start (.url [97, 98]) = [4, 97] ++ [98] := rfl
    rw [hstart, inRange_iff_isPrefix (by decide)] at hrange
    rcases mem_entries.1 (mem_of_sampleReplyDb hv) with ⟨rfl, -⟩ | ⟨rfl, -⟩ | hsec
    · exact absurd hrange (by decide)
    · exact absurd hrange (by decide)
    · rw [sampleReply_secondary, List.mem_singleton] at hsec
      exact ⟨_, ⟨hheld, rfl, rfl, trivial⟩, by decide, hsec⟩

/-- **A reply to `ab` makes the replies to `a` unreadable**: its entry is read one byte too early, and the
    lookup fails. -/
theorem repliesToUrl_fail :
    ¬∃ messages, Walk (fun token => @getCastsByParent Store.noProst (keyScan (sampleReplyKeys 1 [97, 98]))
        (sampleReplyDb 1 [97, 98]) (.url [97]) ⟨some 1, token, false⟩) none messages := by
  rintro ⟨messages, hwalk⟩
  have hpage :
      (match @getCastsByParent Store.noProst (keyScan (sampleReplyKeys 1 [97, 98])) (sampleReplyDb 1 [97, 98])
      (.url [97]) ⟨some 1, none, false⟩ with
    | .ok _ => false
    | .error _ => true) = true := by decide +kernel
  split at hpage
  · cases hpage
  next e herror => exact not_walk_of_error herror hwalk

end Hypersnap
