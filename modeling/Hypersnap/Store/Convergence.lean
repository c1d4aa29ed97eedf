import Hypersnap.Lib.Champions
import Hypersnap.Store.Instances
import Hypersnap.Store.MergeSpec

/-!
# `Store.Convergence` — the order of merging

Messages are merged one batch at a time, each batch committed if the merge succeeds and dropped if it fails.
The held records are then the best of each conflict key (`Sim`, an instance of `Lib.Champions`), whatever the
order. The user table follows from them. A **secondary** entry follows only if no message of another conflict
key writes it too: `Sim.complete` needs the entry to be `Sole`, and without it there are two orders that end
differently (`exists_diverging`).
-/

namespace Hypersnap

open Overlay EState Layout Lib

/-! ## Runs of merges -/

namespace Store

section run
variable [Prost] [DbIterator] (store : Store)

/-- One merge in a batch of its own: committed if it succeeds, dropped otherwise. -/
def mergeCommit (generator : HubEventIdGenerator) (db : RocksDB) (m : Message) : RocksDB :=
  match store.merge db m ⟨Batch.empty, generator⟩ with
  | .ok _ s => commit db s.txn
  | .error _ _ => db

/-- The messages merged in this order into an empty database, the `i`-th with the event ids of `gen i`. -/
def mergeAll (gen : Nat → HubEventIdGenerator) (order : List Message) : RocksDB :=
  order.zipIdx.foldl (fun db e => store.mergeCommit (gen e.2) db e.1) fun _ => none

theorem mergeAll_snoc (gen : Nat → HubEventIdGenerator) (order : List Message) (m : Message) :
    store.mergeAll gen (order ++ [m]) =
      store.mergeCommit (gen order.length) (store.mergeAll gen order) m := by
  simp [mergeAll, List.zipIdx_append]

end run

/-- A store that looks for conflicts and has no compact states. -/
structure Plain (store : Store) : Prop where
  conflictFree : store.conflictFree = false
  compact : store.storeDef.compactStateTypeSupported = false
  isCompactStateType : ∀ m, store.storeDef.isCompactStateType m = false

variable {store : Store} (lay : Layout store.storeDef)

/-- The database after the rivals `xs` were deleted and the message was stored. -/
def installed (db : RocksDB) (xs : List Record) (r : Record) : RocksDB :=
  putAll (eraseAll db (xs.flatMap (erased store.storeDef lay store.stateContext)))
    (lay.entries store.stateContext r)

theorem view_replaced (db : RocksDB) (s : StoreState) (xs : List Record) (r : Record) :
    ((replaced lay s xs r).putAll (secondary store.storeDef store.stateContext r)).view db =
      installed lay (s.view db) xs r := by
  simp only [replaced, StoreState.view_putAll, StoreState.view_put, StoreState.view_deleteAll]
  rfl

variable {lay} {db : RocksDB} {g : HubEventIdGenerator} {r : Record} [Prost] [DbIterator]

/-! ## One merge -/

theorem mergeCommit_of_blocked (hplain : Plain store) (hidx : lay.Indexed store.stateContext db)
    (hr : lay.Typed r)
    (hblock : ∃ x, lay.Rival store.stateContext db r x ∧ bytesCompare (lay.rankOf x) (lay.rankOf r) ≠ .lt) :
    store.mergeCommit g db r.message = db := by
  have hout := merge_outcome db ⟨Batch.empty, g⟩ hplain.conflictFree hr hidx
  unfold mergeCommit
  generalize store.merge db r.message ⟨Batch.empty, g⟩ = res at hout
  cases hout with
  | stored hxs hlt =>
    obtain ⟨x, hx, hcmp⟩ := hblock
    exact absurd (hlt x ((hxs x).2 hx)) hcmp
  | _ => rfl

/-- **One merge** of a message that can be merged: it is stopped by a compact state or a rival that is not
    below it, or it takes the place of its rivals. -/
theorem mergeCommit_outcome (hopt : store.conflictFree = false) (hidx : lay.Indexed store.stateContext db)
    (hheld : ∀ x, lay.Held store.stateContext db x → lay.Admits store.stateContext x)
    (hr : lay.Admits store.stateContext r) (hg : g.Ready) : ((store.compactCheck db Batch.empty r ≠ .ok () ∨
        ∃ x, lay.Rival store.stateContext db r x ∧ bytesCompare (lay.rankOf x) (lay.rankOf r) ≠ .lt) ∧
      store.mergeCommit g db r.message = db) ∨ (store.compactCheck db Batch.empty r = .ok () ∧
      (∀ x, lay.Rival store.stateContext db r x → bytesCompare (lay.rankOf x) (lay.rankOf r) = .lt) ∧
      ∃ xs, (∀ x, x ∈ xs ↔ lay.Rival store.stateContext db r x) ∧ ∀ k,
        k[0]? ≠ some RootPrefix.hubEvents.toByte →
        store.mergeCommit g db r.message k = installed lay db xs r k) := by
  unfold mergeCommit
  rcases merge_cases db ⟨Batch.empty, g⟩ hopt hr.toTyped hidx
    with ⟨hstop, e, heq⟩ | ⟨hcheck, xs, hxs, hlt, heq⟩
  · refine .inl ⟨hstop, ?_⟩
    rw [heq]
  · refine .inr ⟨hcheck, fun x hx => hlt x ((hxs x).2 hx), xs, hxs, fun k hk => ?_⟩
    rw [heq]
    rcases deleteManyTransaction_cases lay (fun x hx => ((hxs x).1 hx).1.typed) ⟨Batch.empty, g⟩ with
      ⟨-, hdel⟩ | ⟨ys, z, e, hz, -, hze, -⟩
    · have hput := putTransaction_eq hr.toTyped
        (StoreState.deleteAll ⟨Batch.empty, g⟩ (xs.flatMap (erased store.storeDef lay store.stateContext)))
      rw [hr.secondary_ok] at hput
      rw [bind_of_ok hdel, bind_of_ok hput]
      rcases mergeEvent_cases
        ((replaced lay ⟨Batch.empty, g⟩ xs r).putAll (secondary store.storeDef store.stateContext r))
        store r.message (xs.map (·.message)) with ⟨e, -, hready⟩ | ⟨ev, s', hev, -, hview⟩
      · refine absurd hg ?_
        simpa [replaced, StoreState.put] using hready
      · rw [replaced] at hev
        rw [hev]
        exact (hview db k hk).trans (congrFun (view_replaced lay db _ xs r) k)
    · exact absurd ((hheld z ((hxs z).1 hz).1).secondary_ok.symm.trans hze) (by simp)

theorem mergeCommit_of_not_admits (hopt : store.conflictFree = false)
    (hidx : lay.Indexed store.stateContext db) {m : Message}
    (hcompact : store.storeDef.isCompactStateType m = false)
    (hm : ¬ ∃ r, r.message = m ∧ lay.Admits store.stateContext r) : store.mergeCommit g db m = db := by
  unfold mergeCommit
  cases hres : store.merge db m ⟨Batch.empty, g⟩ with
  | error e s => rfl
  | ok ev s =>
    obtain ⟨r, rfl, hr⟩ := typed_of_merge_eq_ok lay hopt hcompact hres
    have hout := merge_outcome db ⟨Batch.empty, g⟩ hopt hr hidx
    rw [hres] at hout
    cases hout with
    | stored _ _ hsec => exact absurd ⟨r, rfl, hr, hsec⟩ hm

/-! ## What a merge that succeeds leaves -/

section installed
omit [DbIterator]
variable {xs : List Record} {k : Bytes} {v : DbValue}

omit [Prost] in
theorem mem_flatMap_erased : k ∈ xs.flatMap (erased store.storeDef lay store.stateContext) ↔
    ∃ x ∈ xs, k ∈ lay.keys store.stateContext x := by
  simp only [List.mem_flatMap, mem_erased]

omit [Prost] in
theorem installed_eq_some : installed lay db xs r k = some v ↔ (k, v) ∈ lay.entries store.stateContext r ∨
    k ∉ lay.keys store.stateContext r ∧ (∀ x ∈ xs, k ∉ lay.keys store.stateContext x) ∧ db k = some v := by
  by_cases hk : k ∈ lay.keys store.stateContext r
  · obtain ⟨⟨_, w⟩, hw, rfl⟩ := List.mem_map.1 hk
    have hput : installed lay db xs r _ = some w := putAll_of_mem hw fun _ hw' => entries_uniq hw hw'
    rw [hput]
    refine ⟨fun h => .inl (Option.some.inj h ▸ hw), fun h => ?_⟩
    rcases h with h | ⟨hne, -⟩
    · rw [entries_uniq h hw]
    · exact absurd hk hne
  · have hput : installed lay db xs r k = _ := putAll_of_not_mem hk
    rw [hput, eraseAll_eq_some, mem_flatMap_erased]
    refine ⟨fun ⟨hne, hv⟩ => .inr ⟨hk, fun x hx hkx => hne ⟨x, hx, hkx⟩, hv⟩, fun h => ?_⟩
    rcases h with h | ⟨-, hne, hv⟩
    · exact absurd (List.mem_map_of_mem h) hk
    · exact ⟨fun ⟨x, hx, hkx⟩ => hne x hx hkx, hv⟩

omit [Prost] in
theorem primaryKey_mem_keys {w : Record} :
    primaryKey store.storeDef store.stateContext w ∈ lay.keys store.stateContext r ↔
      primaryKey store.storeDef store.stateContext w = primaryKey store.storeDef store.stateContext r := by
  rw [mem_keys]
  refine ⟨fun h => ?_, .inl⟩
  rcases h with h | h | h
  · exact h
  · exact absurd h.symm slotKey_ne_primaryKey
  · exact absurd rfl (secondary_ne_user h lay)

omit [Prost] in
theorem indexKey_mem_keys {w : Record} : lay.indexKey store.stateContext w ∈ lay.keys store.stateContext r ↔
      lay.indexKey store.stateContext w = lay.indexKey store.stateContext r := by
  rw [mem_keys]
  refine ⟨fun h => ?_, fun h => .inr (.inl h)⟩
  rcases h with h | h | h
  · exact absurd h slotKey_ne_primaryKey
  · exact h
  · exact absurd rfl (secondary_ne_user h lay)

/-- **Who is held after a merge**: the new message, and what was held on other conflict keys. -/
theorem held_installed (hr : lay.Typed r) (hnormal : r.message.Normal)
    (hxs : ∀ x, x ∈ xs ↔ lay.Rival store.stateContext db r x)
    (hfresh : ∀ w, lay.Held store.stateContext db w →
      primaryKey store.storeDef store.stateContext w = primaryKey store.storeDef store.stateContext r →
      conflictKey w = conflictKey r) {w : Record} : lay.Held store.stateContext (installed lay db xs r) w ↔
      w = r ∨ lay.Held store.stateContext db w ∧ conflictKey w ≠ conflictKey r := by
  constructor
  · intro hw
    by_cases hprim : primaryKey store.storeDef store.stateContext w =
      primaryKey store.storeDef store.stateContext r
    · -- the primary entry is the new one
      have henc : installed lay db xs r (primaryKey store.storeDef store.stateContext r) =
          some (messageEncode r.message) := installed_eq_some.2 (.inl (mem_entries.2 (.inl ⟨rfl, rfl⟩)))
      have hval := hw.primary
      rw [hprim, henc] at hval
      exact .inl (hw.typed.eq_of_message hr (messageEncode_inj hw.normal hnormal (Option.some.inj hval.symm)))
    · have hidx : lay.indexKey store.stateContext w ≠ lay.indexKey store.stateContext r := by
        intro heq
        have hts : installed lay db xs r (lay.indexKey store.stateContext r) = some (.bytes r.tsHash) :=
          installed_eq_some.2 (.inl (mem_entries.2 (.inr (.inl ⟨rfl, rfl⟩))))
        have hval := hw.index
        rw [heq, hts] at hval
        refine hprim (primaryKey_inj.2 ⟨congrArg Prod.fst (indexKey_inj.1 heq).2, ?_⟩)
        simpa using hval.symm
      rcases installed_eq_some.1 hw.primary with h | ⟨-, hne, hp⟩
      · exact absurd (primaryKey_mem_keys.1 (List.mem_map_of_mem h)) hprim
      rcases installed_eq_some.1 hw.index with h | ⟨-, -, hi⟩
      · exact absurd (indexKey_mem_keys.1 (List.mem_map_of_mem h)) hidx
      have hheld : lay.Held store.stateContext db w := ⟨hw.typed, hw.normal, hp, hi⟩
      refine .inr ⟨hheld, fun hkey => hne w ((hxs w).2 ⟨hheld, hkey⟩) (primaryKey_mem_keys.2 rfl)⟩
  · rintro (rfl | ⟨hw, hkey⟩)
    · exact ⟨hr, hnormal, installed_eq_some.2 (.inl (mem_entries.2 (.inl ⟨rfl, rfl⟩))),
        installed_eq_some.2 (.inl (mem_entries.2 (.inr (.inl ⟨rfl, rfl⟩))))⟩
    · refine ⟨hw.typed, hw.normal, installed_eq_some.2 (.inr ⟨?_, fun x hx => ?_, hw.primary⟩),
        installed_eq_some.2 (.inr ⟨?_, fun x hx => ?_, hw.index⟩)⟩
      · rw [primaryKey_mem_keys]
        exact fun h => hkey (hfresh w hw h)
      · rw [primaryKey_mem_keys]
        intro h
        have hx := (hxs x).1 hx
        exact hkey (hw.eq_of_primaryKey hx.1 h ▸ hx.2)
      · rw [indexKey_mem_keys]
        exact fun h => hkey (indexKey_inj.1 h).2
      · rw [indexKey_mem_keys]
        exact fun h => hkey ((indexKey_inj.1 h).2.trans ((hxs x).1 hx).2)

end installed

/-! ## The state of a run -/

/-- The messages that are being merged: all normal, with different hashes and a fid. -/
structure Pool (lay : Layout store.storeDef) (all : Set Record) : Prop where
  admits : ∀ r ∈ all, lay.Admits store.stateContext r
  normal : ∀ r ∈ all, r.message.Normal
  eq_of_hash : ∀ r ∈ all, ∀ r' ∈ all, r.message.hash = r'.message.hash → r = r'
  fid_ne : ∀ r ∈ all, r.fid ≠ 0

omit [Prost] [DbIterator] in
theorem hash_eq_of_tsHash {d : StoreDef} {lay : Layout d} {r r' : Record} (h : lay.Typed r)
    (h' : lay.Typed r') (hts : r.tsHash = r'.tsHash) : r.message.hash = r'.message.hash := by
  obtain ⟨data, -, -, hd⟩ := h.data
  obtain ⟨data', -, -, hd'⟩ := h'.data
  rw [(makeTsHash_ok_iff.1 hd).2, (makeTsHash_ok_iff.1 hd').2] at hts
  exact (List.append_inj hts rfl).2

omit [DbIterator] in
theorem Pool.eq_of_tsHash {all : Set Record} (hpool : Pool lay all) (hr : r ∈ all) {w : Record} (hw : w ∈ all)
    (hts : w.tsHash = r.tsHash) : w = r :=
  hpool.eq_of_hash w hw r hr (hash_eq_of_tsHash (hpool.admits w hw).toTyped (hpool.admits r hr).toTyped hts)

/-- No two conflict keys share the secondary key. -/
def Sole (d : StoreDef) (ctx : StateContext) (all : Set Record) (k : Bytes) : Prop :=
  ∀ r ∈ all, ∀ r' ∈ all, k ∈ (secondary d ctx r).map Prod.fst → k ∈ (secondary d ctx r').map Prod.fst →
    conflictKey r = conflictKey r'

/-- **The state after the records `seen` were merged**, in any order: nothing but held records is stored, they
    are the best of their conflict keys, and their sole secondary entries are there. -/
structure Sim (lay : Layout store.storeDef) (all seen : Set Record) (db : RocksDB) : Prop where
  sub : seen ⊆ all
  only : ∀ {k v}, k[0]? ≠ some RootPrefix.hubEvents.toByte → db k = some v →
    ∃ r, lay.Held store.stateContext db r ∧ (k, v) ∈ lay.entries store.stateContext r
  champions : Champions conflictKey lay.rankOf seen {r | lay.Held store.stateContext db r}
  complete : ∀ {k v r}, Sole store.storeDef store.stateContext all k → lay.Held store.stateContext db r →
    (k, v) ∈ secondary store.storeDef store.stateContext r → db k = some v

namespace Sim

variable {all seen : Set Record}

omit [DbIterator] in
theorem empty (lay : Layout store.storeDef) (all : Set Record) : Sim lay all ∅ fun _ => none := by
  have hnone : {r | lay.Held store.stateContext (fun _ => none) r} = ∅ := by
    ext r
    exact ⟨fun h => (by cases h.primary), fun h => h.elim⟩
  refine ⟨Set.empty_subset _, fun _ h => (Option.some_ne_none _ h.symm).elim, ?_,
    fun _ h => (Option.some_ne_none _ h.primary.symm).elim⟩
  rw [hnone]
  exact Champions.empty

variable (h : Sim lay all seen db) {db' : RocksDB} {xs : List Record}
include h

omit [DbIterator]

theorem user_key {k : Bytes} {v : DbValue} (hroot : k[0]? = some (store.stateContext.rootPrefix .user))
    (hv : db k = some v) : ∃ r, lay.Held store.stateContext db r ∧
      (k = primaryKey store.storeDef store.stateContext r ∨ k = lay.indexKey store.stateContext r) := by
  obtain ⟨r, hr, hkv⟩ := h.only (user_ne_hubEvents hroot) hv
  rcases mem_entries.1 hkv with ⟨hk, -⟩ | ⟨hk, -⟩ | hs
  · exact ⟨r, hr, .inl hk⟩
  · exact ⟨r, hr, .inr hk⟩
  · exact absurd hroot (secondary_ne_user (List.mem_map_of_mem hs) lay)

theorem indexed : lay.Indexed store.stateContext db :=
  .of_user_keys fun hroot hv => .inl (h.user_key hroot hv)

theorem mem_all (hr : lay.Held store.stateContext db r) : r ∈ all := h.sub (h.champions.sub hr)

theorem reject (hr : r ∈ all)
    (hblock : ∃ x, lay.Rival store.stateContext db r x ∧ bytesCompare (lay.rankOf x) (lay.rankOf r) ≠ .lt) :
    Sim lay all (insert r seen) db := by
  obtain ⟨x, ⟨hx, hkey⟩, hcmp⟩ := hblock
  have hle : compare (lay.rankOf r) (lay.rankOf x) ≠ .gt := fun hgt => hcmp (bytesCompare_gt_iff.1 hgt)
  exact ⟨Set.insert_subset hr h.sub, h.only, h.champions.reject hx hkey hle, h.complete⟩

theorem held_accept (hpool : Pool lay all) (hr : r ∈ all)
    (hxs : ∀ x, x ∈ xs ↔ lay.Rival store.stateContext db r x)
    (hdb : ∀ k, k[0]? ≠ some RootPrefix.hubEvents.toByte → db' k = installed lay db xs r k) (w : Record) :
    lay.Held store.stateContext db' w ↔
      w = r ∨ lay.Held store.stateContext db w ∧ conflictKey w ≠ conflictKey r := by
  rw [← held_installed (hpool.admits r hr).toTyped (hpool.normal r hr) hxs fun w hw hkey => by
    rw [hpool.eq_of_tsHash hr (h.mem_all hw) (primaryKey_inj.1 hkey).2]]
  exact held_congr hdb

/-- An accepted message takes the place of its conflict key, and its secondary entries are written. -/
theorem accept (hpool : Pool lay all) (hr : r ∈ all) (hxs : ∀ x, x ∈ xs ↔ lay.Rival store.stateContext db r x)
    (hlt : ∀ x, lay.Rival store.stateContext db r x → bytesCompare (lay.rankOf x) (lay.rankOf r) = .lt)
    (hdb : ∀ k, k[0]? ≠ some RootPrefix.hubEvents.toByte → db' k = installed lay db xs r k) :
    Sim lay all (insert r seen) db' := by
  have hadm := hpool.admits r hr
  have hheld := h.held_accept hpool hr hxs hdb
  refine ⟨Set.insert_subset hr h.sub, ?_, ?_, ?_⟩
  · -- an entry is the new message's, or was there and belongs to a record that stays
    intro k v hk hv
    rw [hdb k hk] at hv
    rcases installed_eq_some.1 hv with hkv | ⟨-, hne, hv⟩
    · exact ⟨r, (hheld r).2 (.inl rfl), hkv⟩
    · obtain ⟨w, hw, hkv⟩ := h.only hk hv
      refine ⟨w, (hheld w).2 (.inr ⟨hw, fun hkey => ?_⟩), hkv⟩
      exact hne w ((hxs w).2 ⟨hw, hkey⟩) (List.mem_map_of_mem hkv)
  · have hset : {w | lay.Held store.stateContext db' w} =
        insert r {w ∈ {w | lay.Held store.stateContext db w} | conflictKey w ≠ conflictKey r} := by
      ext w
      exact hheld w
    rw [hset]
    refine h.champions.accept fun w hw hkey hgt => ?_
    have := hlt w ⟨hw, hkey⟩
    exact absurd (hgt.symm.trans this) (by decide)
  · intro k v w hsole hw hkv
    rw [hdb k (secondary_ne_hubEvents lay hkv)]
    rcases (hheld w).1 hw with rfl | ⟨hw, hkey⟩
    · exact installed_eq_some.2 (.inl (mem_entries.2 (.inr (.inr hkv))))
    · -- the records that are written or deleted have another conflict key, so not this entry
      have hsame : ∀ x ∈ all, k ∈ lay.keys store.stateContext x → conflictKey w = conflictKey x := by
        intro x hx hkx
        have hk := List.mem_map_of_mem (f := Prod.fst) hkv
        rcases mem_keys.1 hkx with heq | heq | hkx
        · exact absurd (by rw [show k = _ from heq]; rfl) (secondary_ne_user hk lay)
        · exact absurd (by rw [show k = _ from heq]; rfl) (secondary_ne_user hk lay)
        · exact hsole w (h.mem_all hw) x hx hk hkx
      refine installed_eq_some.2 (.inr ⟨fun hkr => hkey (hsame r hr hkr), fun x hx hkx => ?_,
        h.complete hsole hw hkv⟩)
      have hx := (hxs x).1 hx
      exact hkey ((hsame x (h.mem_all hx.1) hkx).trans hx.2)

end Sim

/-- What one merge does to the state of a run: nothing, or the message takes the place of its rivals. -/
theorem Sim.mergeCommit_cases {all seen : Set Record} (hplain : Plain store) (hpool : Pool lay all)
    (h : Sim lay all seen db) (hr : r ∈ all) (hg : g.Ready) :
    (∃ x, lay.Rival store.stateContext db r x ∧ bytesCompare (lay.rankOf x) (lay.rankOf r) ≠ .lt) ∧
        store.mergeCommit g db r.message = db ∨
      (∀ x, lay.Rival store.stateContext db r x → bytesCompare (lay.rankOf x) (lay.rankOf r) = .lt) ∧
        ∃ xs, (∀ x, x ∈ xs ↔ lay.Rival store.stateContext db r x) ∧ ∀ k,
          k[0]? ≠ some RootPrefix.hubEvents.toByte →
          store.mergeCommit g db r.message k = installed lay db xs r k := by
  rcases mergeCommit_outcome hplain.conflictFree h.indexed (fun x hx => hpool.admits x (h.mem_all hx))
    (hpool.admits r hr) hg with
    ⟨hstop, heq⟩ | ⟨-, hres⟩
  · exact .inl ⟨hstop.resolve_left (not_not.2 (compactCheck_eq_ok hplain.compact db _ r)), heq⟩
  · exact .inr hres

/-- **One merge keeps the state of the run.** -/
theorem Sim.step {all seen : Set Record} (hplain : Plain store) (hpool : Pool lay all)
    (h : Sim lay all seen db) (hr : r ∈ all) (hg : g.Ready) :
    Sim lay all (insert r seen) (store.mergeCommit g db r.message) := by
  rcases h.mergeCommit_cases hplain hpool hr hg with ⟨hblock, heq⟩ | ⟨hfree, xs, hxs, hdb⟩
  · rw [heq]
    exact h.reject hr hblock
  · exact h.accept hpool hr hxs hfree hdb

end Store

end Hypersnap
