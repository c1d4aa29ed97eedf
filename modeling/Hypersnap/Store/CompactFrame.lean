import Hypersnap.Store.LinkConfluence

/-!
# `Store.CompactFrame` — what a compact state deletes, and what it says it deleted

A compact state is of one link type, but its scan goes over **all** links of the user in the database. So it
deletes links of other types that it does not list, and it reports as deleted what the pending batch has
deleted before. It stays within its type, and its report is exact, if and only if every link of the user in
the database that it does not keep is of its type and still there.
-/

namespace Hypersnap

open Overlay EState Layout

/-- The link type of a link or a compact state. -/
def Message.linkType (m : Message) : Option Bytes :=
  match m.data.bind (·.body) with
  | some (.linkBody type _) => some type
  | some (.linkCompactStateBody type _) => some type
  | _ => none

namespace Store

variable {ctx : StateContext} {fid : UInt64} {type : Bytes} {db : RocksDB} {s s' : StoreState}
  {c c₀ : Message} [Prost] {x : Record}

/-- The link store, in the database and as it is seen through the batch. -/
structure LinkState (ctx : StateContext) (db : RocksDB) (s : StoreState) : Prop where
  indexed : linkLayout.Indexed ctx db
  admits : ∀ x, linkLayout.Held ctx db x → linkLayout.Admits ctx x
  finite : {r | linkLayout.Held ctx db r}.Finite
  compact : ∀ fid type value, s.view db (compactKey ctx fid type) = some value →
    ∃ c₀, value = messageEncode c₀ ∧ StoredCompact ctx (compactKey ctx fid type) c₀

/-- A message of the user is in the link store: a link, or a compact state. -/
inductive StoredBy (ctx : StateContext) (o : RocksDB) (fid : UInt64) : Message → Prop
  | link {x : Record} (h : @HeldBy (linkStore ctx) _ linkLayout o fid x) : StoredBy ctx o fid x.message
  | compact {type : Bytes} {c₀ : Message} (hvalue : o (compactKey ctx fid type) = some (messageEncode c₀))
      (hstored : StoredCompact ctx (compactKey ctx fid type) c₀) : StoredBy ctx o fid c₀

/-! ## After the deletions -/

section after
variable {o o' : RocksDB} {xs : List Record} {y : Record}

/-- The store after the links were deleted and the compact state was put. -/
def Compacted (ctx : StateContext) (fid : UInt64) (type : Bytes) (c : Message) (xs : List Record)
    (o o' : RocksDB) : Prop :=
  ∀ k, k[0]? ≠ some RootPrefix.hubEvents.toByte → o' k =
    Function.update (eraseAll o (xs.flatMap (erased linkStoreDef linkLayout ctx))) (compactKey ctx fid type)
      (some (messageEncode c)) k

section

variable (h : Compacted ctx fid type c xs o o')
include h

omit [Prost] in
theorem Compacted.of_mem_keys {k : Bytes}
    (hk : k = primaryKey linkStoreDef ctx y ∨ k = linkLayout.indexKey ctx y) {v : DbValue} :
    o' k = some v ↔ (∀ x ∈ xs, k ∉ linkLayout.keys ctx x) ∧ o k = some v := by
  have hmem : k ∈ linkLayout.keys ctx y := mem_keys.2 (hk.imp_right .inl)
  have hroot : k[0]? ≠ some RootPrefix.hubEvents.toByte := by
    obtain rfl | rfl := hk <;> exact user_ne_hubEvents rfl
  have hne : k ≠ compactKey ctx fid type := fun heq => compactKey_not_mem_keys (heq ▸ hmem)
  rw [h k hroot, Function.update_of_ne hne, eraseAll_eq_some]
  simp only [List.mem_flatMap, mem_erased, not_exists, not_and]

theorem Compacted.held_iff (hxs : ∀ x ∈ xs, linkLayout.Held ctx o x) :
    linkLayout.Held ctx o' y ↔ linkLayout.Held ctx o y ∧ y ∉ xs := by
  constructor
  · intro hy
    obtain ⟨hkeep, hprim⟩ := (h.of_mem_keys (.inl rfl)).1 hy.primary
    refine ⟨⟨hy.typed, hy.normal, hprim, ((h.of_mem_keys (.inr rfl)).1 hy.index).2⟩, fun hmem => ?_⟩
    exact hkeep y hmem (mem_keys.2 (.inl rfl))
  · rintro ⟨hy, hmem⟩
    refine ⟨hy.typed, hy.normal, (h.of_mem_keys (.inl rfl)).2 ⟨fun x hx hk => hmem ?_, hy.primary⟩,
      (h.of_mem_keys (.inr rfl)).2 ⟨fun x hx hk => hmem ?_, hy.index⟩⟩
    · have hkey := (@primaryKey_mem_keys (linkStore ctx) linkLayout _ _).1 hk
      rwa [hy.eq_of_primaryKey (hxs x hx) hkey]
    · obtain ⟨hrem, hconf⟩ := indexKey_inj.1 ((@indexKey_mem_keys (linkStore ctx) linkLayout _ _).1 hk)
      rwa [hy.eq_of_conflictKey (hxs x hx) hrem hconf]

theorem Compacted.not_held (hy : y ∈ xs) : ¬ linkLayout.Held ctx o' y :=
  fun hheld => ((h.of_mem_keys (.inl rfl)).1 hheld.primary).1 y hy (mem_keys.2 (.inl rfl))

omit [Prost] in
theorem Compacted.compactKey_eq (fid' : UInt64) (type' : Bytes) :
    o' (compactKey ctx fid' type') =
      if compactKey ctx fid' type' = compactKey ctx fid type then some (messageEncode c)
        else o (compactKey ctx fid' type') := by
  rw [h _ compactKey_ne_hubEvents, Function.update_apply]
  split
  · rfl
  · rw [eraseAll_of_not_mem]
    simp only [List.mem_flatMap, mem_erased, not_exists, not_and]
    exact fun x _ => compactKey_not_mem_keys

end

end after

/-! ## Links are no compact states -/

theorem StoredCompact.not_typed {key : Bytes} (h : StoredCompact ctx key c₀) (hx : linkLayout.Typed x) :
    x.message ≠ c₀ := by
  intro heq
  have htype := h.hasType
  rw [← heq] at htype
  obtain ⟨-, hadd⟩ | ⟨-, -, hremove⟩ := hx.kind
  · exact absurd htype (by simp [hasType_false hadd (by decide : MessageType.linkAdd ≠ .linkCompactState)])
  · exact absurd htype
      (by simp [hasType_false hremove (by decide : MessageType.linkRemove ≠ .linkCompactState)])

theorem StoredBy.held {o : RocksDB} (h : StoredBy ctx o fid x.message) (hx : linkLayout.Typed x) :
    @HeldBy (linkStore ctx) _ linkLayout o fid x := by
  generalize hm : x.message = m at h
  cases h with
  | link h =>
    rwa [hx.eq_of_message h.1.typed hm]
  | compact _ hstored => exact absurd hm (hstored.not_typed hx)

theorem StoredCompact.key_unique {key key' : Bytes} (h : StoredCompact ctx key c₀)
    (h' : StoredCompact ctx key' c₀) : key = key' := by
  obtain ⟨fid, type, hlink, rfl⟩ := h.own
  obtain ⟨fid', type', hlink', rfl⟩ := h'.own
  exact Except.ok.inj
    ((@LinkMessage.makeCompactStateAddKey_eq _ _ _ ctx hlink).symm.trans hlink'.makeCompactStateAddKey_eq)

/-! ## The frame -/

/-- No link of another type goes, and the report of what went is exact. -/
structure ExactCompaction (ctx : StateContext) (fid : UInt64) (type : Bytes) (c : Message) (ev : HubEvent)
    (o o' : RocksDB) : Prop where
  frame : ∀ y, linkLayout.Held ctx o y → y.message.linkType ≠ some type → linkLayout.Held ctx o' y
  report : ∃ deleted, ev.body = .mergeMessageBody c deleted ∧
    ∀ m, m ∈ deleted ↔ StoredBy ctx o fid m ∧ ¬ StoredBy ctx o' fid m

section frame
variable {o o' : RocksDB} {ev : HubEvent} {cut : Option Message} {xs : List Record}

theorem Compacted.exact (h : Compacted ctx fid type c xs o o')
    (hbody : ev.body = .mergeMessageBody c (cut.toList ++ xs.map (·.message)))
    (hcut : o (compactKey ctx fid type) = cut.map messageEncode)
    (hstored : ∀ c₀, cut = some c₀ → StoredCompact ctx (compactKey ctx fid type) c₀)
    (hxs : ∀ x ∈ xs, @HeldBy (linkStore ctx) _ linkLayout o fid x ∧ x.message.linkType = some type)
    (hnew : o (compactKey ctx fid type) ≠ some (messageEncode c)) :
    ExactCompaction ctx fid type c ev o o' := by
  have hheld := fun y => @Compacted.held_iff _ _ _ _ _ _ _ _ y h fun x hx => (hxs x hx).1.1
  refine ⟨fun y hy htype => (hheld y).2 ⟨hy, fun hmem => htype (hxs y hmem).2⟩, _, hbody, fun m => ?_⟩
  rw [List.mem_append, Option.mem_toList, List.mem_map]
  constructor
  · rintro (hc₀ | ⟨x, hx, rfl⟩)
    · have hc₀ : cut = some m := hc₀
      have hvalue : o (compactKey ctx fid type) = some (messageEncode m) := by rw [hcut, hc₀]; rfl
      refine ⟨.compact hvalue (hstored m hc₀), fun hafter => ?_⟩
      cases hafter with
      | link hx => exact (hstored _ hc₀).not_typed hx.1.typed rfl
      | compact hafter hown =>
        -- the place is taken by the new compact state
        rw [h.compactKey_eq, if_pos (hown.key_unique (hstored m hc₀))] at hafter
        exact hnew (hvalue.trans hafter.symm)
    · exact ⟨.link (hxs x hx).1, fun hafter => h.not_held hx (hafter.held (hxs x hx).1.1.typed).1⟩
  · rintro ⟨hbefore, hafter⟩
    cases hbefore with
    | @link y hy =>
      refine .inr ⟨y, ?_, rfl⟩
      by_contra hmem
      exact hafter (.link ⟨(hheld y).2 ⟨hy.1, hmem⟩, hy.2⟩)
    | @compact type' _ hvalue hown =>
      by_cases hkey : compactKey ctx fid type' = compactKey ctx fid type
      · rw [hkey, hcut] at hvalue
        obtain ⟨c₀, hc₀, henc⟩ := Option.map_eq_some_iff.1 hvalue
        rw [← messageEncode_inj (hstored c₀ hc₀).normal hown.normal henc]
        exact .inl hc₀
      · refine absurd (.compact ?_ hown) hafter
        rw [h.compactKey_eq, if_neg hkey]
        exact hvalue

/-- A compact state that is accepted stays within its type and reports what it deleted if, and only if, the
    links of the user **in the database** that it does not keep are of its type and are still there, and it is
    not encoded as the one before. -/
theorem compactState_frame_iff [DbIterator] [DbIterator.Exact] (hstate : LinkState ctx db s)
    (hlink : LinkMessage fid type c) (hc : c.hasType .linkCompactState = true)
    (hok : (linkStore ctx).mergeCompactState db c s = .ok ev s') :
    ExactCompaction ctx fid type c ev (s.view db) (s'.view db) ↔
      (∀ x, @HeldBy (linkStore ctx) _ linkLayout db fid x → c.keeps x.message = false →
        x.message.linkType = some type ∧ linkLayout.Held ctx (s.view db) x) ∧
      s.view db (compactKey ctx fid type) ≠ some (messageEncode c) := by
  obtain ⟨cut, hcut, hstored⟩ : ∃ cut, s.view db (compactKey ctx fid type) = Option.map messageEncode cut ∧
      ∀ c₀, cut = some c₀ → StoredCompact ctx (compactKey ctx fid type) c₀ := by
    cases hvalue : s.view db (compactKey ctx fid type) with
    | none => exact ⟨none, rfl, fun _ h => nomatch h⟩
    | some value =>
      obtain ⟨c₀, rfl, hown⟩ := hstate.compact _ _ _ hvalue
      exact ⟨some c₀, rfl, fun _ h => Option.some.inj h ▸ hown⟩
  rcases mergeCompactState_cases hlink hc hcut hstored hstate.indexed hstate.admits hstate.finite with
    ⟨-, e, herr⟩ | ⟨-, xs, hxs, ⟨-, e, s'', herr⟩ | ⟨-, ev', s'', hok', hbody, hview⟩⟩
  · cases herr.symm.trans hok
  · cases herr.symm.trans hok
  cases hok'.symm.trans hok
  have hafter : Compacted ctx fid type c xs (s.view db) (s'.view db) := hview
  constructor
  · rintro ⟨hframe, deleted, hdeleted, hreport⟩
    obtain rfl : cut.toList ++ xs.map (·.message) = deleted :=
      (HubEventBody.mergeMessageBody.inj (hbody.symm.trans hdeleted)).2
    refine ⟨fun x hx hkeeps => ?_, fun hsame => ?_⟩
    · have hmem := (hxs x).2 ⟨hx, hkeeps⟩
      have hbefore := ((hreport x.message).1 (List.mem_append_right _ (List.mem_map_of_mem hmem))).1
      have hheld := (hbefore.held hx.1.typed).1
      refine ⟨?_, hheld⟩
      by_contra htype
      exact hafter.not_held hmem (hframe x hheld htype)
    · rw [hcut] at hsame
      obtain ⟨c₀, hc₀, henc⟩ := Option.map_eq_some_iff.1 hsame
      refine ((hreport c₀).1 (List.mem_append_left _ (by simp [hc₀]))).2 (.compact ?_ (hstored c₀ hc₀))
      rw [hafter.compactKey_eq, if_pos rfl, henc]
  · rintro ⟨hlinks, hnew⟩
    refine hafter.exact hbody hcut hstored (fun x hx => ?_) hnew
    obtain ⟨hheld, hkeeps⟩ := (hxs x).1 hx
    obtain ⟨htype, hview⟩ := hlinks x hheld hkeeps
    exact ⟨⟨hview, hheld.2⟩, htype⟩

end frame

/-! ## Links of one type -/

omit [Prost] in
theorem LinkSim.linkState [Prost] {msgs : List Message} {k : Lib.Keeper Record Message}
    (h : LinkSim ctx fid type msgs k db) (hfit : LinkFit fid type msgs) (g : HubEventIdGenerator) :
    LinkState ctx db ⟨Batch.empty, g⟩ where
  indexed := h.indexed hfit
  admits x hx := (h.held x ((h.held_iff hfit).1 hx)).2
  finite := LinkFit.records_finite.subset fun r hr => h.held r ((h.held_iff hfit).1 hr)
  compact fid' type' value hvalue := by
    obtain ⟨r, -, ⟨hk, -⟩ | ⟨hk, -⟩⟩ | hk := h.user_key rfl hvalue
    · exact absurd (hk ▸ mem_keys.2 (.inl rfl)) (compactKey_not_mem_keys (r := r))
    · exact absurd (hk ▸ mem_keys.2 (.inr (.inl rfl))) (compactKey_not_mem_keys (r := r))
    · rw [show (⟨Batch.empty, g⟩ : StoreState).view db = db from rfl, hk, h.compactKey_eq] at hvalue
      obtain ⟨c₀, hc₀, rfl⟩ := Option.map_eq_some_iff.1 hvalue
      obtain ⟨hmem, hcompact⟩ := h.cutoff c₀ hc₀
      refine ⟨c₀, rfl, hfit.normal _ hmem, (Bool.and_eq_true_iff.1 hcompact).1, fid, type,
        hfit.link _ hmem, hk.symm⟩

omit [Prost] in
/-- A link, and an empty compact state of its type. -/
theorem compactState_frame_sample :
    let _ := noProst
    let _ := sortedScan
    let db := (linkStore .legacy).mergeAll (fun _ => ⟨1, 0⟩) [sampleLink .linkAdd 10 1]
    ∃ ev s', (linkStore .legacy).mergeCompactState db (sampleCompactState [] 20 2) ⟨Batch.empty, ⟨1, 0⟩⟩ =
      .ok ev s' ∧
      ExactCompaction .legacy 1 [102] (sampleCompactState [] 20 2) ev db (s'.view db) := by
  intro _ _ db
  have _ := sortedScan_exact
  have hfit : LinkFit 1 [102] [sampleLink .linkAdd 10 1] := by
    refine ⟨?_, by decide, ?_⟩ <;> simp only [List.mem_singleton] <;> rintro m rfl
    · exact .link rfl rfl rfl (.inl rfl)
    · rfl
  have hsim := mergeAll_linkSim hfit (fun _ => by decide : ∀ _, (⟨1, 0⟩ : HubEventIdGenerator).Ready) .legacy
    [sampleLink .linkAdd 10 1] (List.Subset.refl _)
  have hstate := hsim.linkState hfit ⟨1, 0⟩
  have hlink : LinkMessage 1 [102] (sampleCompactState [] 20 2) := .compact rfl rfl rfl rfl
  have hmem : ∀ x, linkLayout.Held .legacy db x → x.message = sampleLink .linkAdd 10 1 := fun x hx =>
    List.mem_singleton.1 (hsim.held x ((hsim.held_iff hfit).1 hx)).1
  have hnone : db (compactKey .legacy 1 [102]) = Option.map messageEncode none := by
    refine hsim.compactKey_eq.trans (Option.map_eq_none_iff.2 ?_)
    refine Option.eq_none_iff_forall_ne_some.2 fun c₀ hc₀ => ?_
    obtain ⟨hc₀, hcompact⟩ := hsim.cutoff c₀ hc₀
    obtain rfl := List.mem_singleton.1 hc₀
    exact absurd hcompact (by decide)
  obtain ⟨⟨_, h, -⟩, -⟩ | ⟨-, xs, -, ⟨hnot, -⟩ | ⟨-, ev, s', hok, -⟩⟩ :=
    mergeCompactState_cases (s := ⟨Batch.empty, ⟨1, 0⟩⟩) hlink rfl
    hnone (fun _ h => nomatch h) hstate.indexed hstate.admits hstate.finite
  · cases h
  · exact absurd (by decide) hnot
  · refine ⟨ev, s', hok, (compactState_frame_iff hstate hlink rfl hok).2 ⟨fun x hx _ => ⟨?_, hx.1⟩, ?_⟩⟩
    · rw [hmem x hx.1]
      rfl
    · exact fun hsome => nomatch hnone.symm.trans hsome

omit [Prost] in
/-- A compact state of another type deletes the link; and one that is merged after a remove of the link, in
    the same batch, reports the link, which is gone already. -/
theorem compactState_leaves_type :
    let _ := noProst
    let _ := keyScan [sampleLinkKey]
    let other : Message := { sampleCompactState [] 20 2 with
      data := some ⟨MessageType.linkCompactState.toI32, 1, 20, 1, some (.linkCompactStateBody [103] [])⟩ }
    let db := (linkStore .legacy).mergeAll (fun _ => ⟨1, 0⟩) [sampleLink .linkAdd 10 1]
    db sampleLinkKey = some (.message (sampleLink .linkAdd 10 1)) ∧
      (linkStore .legacy).mergeAll (fun _ => ⟨1, 0⟩) [sampleLink .linkAdd 10 1, other] sampleLinkKey = none ∧
      ∃ ev ev' s s',
      (linkStore .legacy).merge db (sampleLink .linkRemove 15 3) ⟨Batch.empty, ⟨1, 0⟩⟩ = .ok ev s ∧
        s.view db sampleLinkKey = none ∧
        (linkStore .legacy).merge db (sampleCompactState [] 20 2) s = .ok ev' s' ∧
        ev'.body = .mergeMessageBody (sampleCompactState [] 20 2) [sampleLink .linkAdd 10 1] :=
  ⟨rfl, rfl, _, _, _, _, rfl, rfl, rfl, rfl⟩

end Store

end Hypersnap
