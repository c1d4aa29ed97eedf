import Hypersnap.Store.Confluence
import Hypersnap.Store.Scan

/-!
# `Store.CompactState` — links and compact states

A compact state of a user and link type lists the targets the user links to at its time. Merging it deletes
the removes and the adds of other targets **up to** its time; once stored, it turns away those **before** its
time. Here each of the two is put as a test on messages (`Message.keeps`, `Message.accepts`), and the merge of
a compact state is taken apart (`mergeCommit_compact_cases`).
-/

namespace Hypersnap

open Overlay EState Layout Lib

variable {data : MessageData} {cut : Option Message} {type : Bytes} {ctx : StateContext} {fid : UInt64}

def linkStore (ctx : StateContext) : Store := { storeDef := linkStoreDef, stateContext := ctx }

/-- A link add, link remove or compact state of one user and link type. -/
inductive LinkMessage (fid : UInt64) (type : Bytes) (m : Message) : Prop
  | link {data : MessageData} {target : Option UInt64} (hdata : m.data = some data) (hfid : data.fid = fid)
      (hbody : data.body = some (.linkBody type target))
      (htype : m.hasType .linkAdd = true ∨ m.hasType .linkRemove = true)
  | compact {data : MessageData} {targets : List UInt64} (hdata : m.data = some data) (hfid : data.fid = fid)
      (hbody : data.body = some (.linkCompactStateBody type targets))
        (htype : m.hasType .linkCompactState = true)

namespace Message

/-- The message adds a link to one of the targets of the compact state. -/
def listedIn (m c : Message) : Bool :=
  m.hasType .linkAdd && match m.data.bind (·.body), c.data.bind (·.body) with
    | some (.linkBody _ (some target)), some (.linkCompactStateBody _ targets) => targets.contains target
    | _, _ => false

/-- A stored compact state lets the message be merged. -/
def accepts (c m : Message) : Bool := decide (c.timestamp ≤ m.timestamp) || m.listedIn c

/-- A compact state that is merged leaves the stored message there. -/
def keeps (c m : Message) : Bool := decide (c.timestamp < m.timestamp) || m.listedIn c

theorem accepts_of_keeps {c m : Message} (h : c.keeps m = true) : c.accepts m = true := by
  simp only [keeps, accepts, Bool.or_eq_true, decide_eq_true_eq] at h ⊢
  exact h.imp_left UInt32.le_of_lt

/-- A compact state that can be merged. -/
def isCompactState (m : Message) : Bool := m.hasType .linkCompactState && (Store.messageTsHash m).isOk

theorem timestamp_eq {m : Message} (h : m.data = some data) : m.timestamp = data.timestamp := by
  simp [timestamp, h]

end Message

/-- The key of the compact state of a user and link type. -/
def compactKey (ctx : StateContext) (fid : UInt64) (type : Bytes) : Bytes :=
  makeIndexKey ctx fid .linkCompactStateMessage (LinkStore.padType type)

theorem compactKey_ne_hubEvents :
    (compactKey ctx fid type)[0]? ≠ some RootPrefix.hubEvents.toByte := user_ne_hubEvents rfl

theorem compactKey_not_mem_keys {r : Record} : compactKey ctx fid type ∉ linkLayout.keys ctx r := by
  intro h
  rcases mem_keys.1 h with h | h | h
  · have hset : some UserPostfix.linkCompactStateMessage.toByte = some UserPostfix.linkMessage.toByte :=
      congrArg (·[5]?) h
    exact absurd hset (by decide)
  · have hset :
        some UserPostfix.linkCompactStateMessage.toByte = some (linkLayout.indexSet r.isRemove).toByte :=
      congrArg (·[5]?) h
    cases hrem : r.isRemove <;> rw [hrem] at hset <;> exact absurd hset (by decide)
  · exact secondary_ne_user h linkLayout rfl

namespace LinkMessage

variable {fid : UInt64} {type : Bytes} {m c : Message} {ctx : StateContext}

theorem makeCompactStateAddKey_eq (h : LinkMessage fid type m) :
    LinkStore.makeCompactStateAddKey m ctx = .ok (compactKey ctx fid type) := by
  cases h with
  | link hdata hfid hbody =>
    simp [LinkStore.makeCompactStateAddKey, LinkStore.dataBody, hdata, hbody, bind, Except.bind,
      hfid, compactKey]
  | compact hdata hfid hbody =>
    simp [LinkStore.makeCompactStateAddKey, LinkStore.dataBody, hdata, hbody, bind, Except.bind,
      hfid, compactKey]

theorem compact_of_hasType (h : LinkMessage fid type c) (hc : c.hasType .linkCompactState = true) :
    ∃ data targets, c.data = some data ∧ data.fid = fid ∧
    data.body = some (.linkCompactStateBody type targets) := by
  cases h with
  | link _ _ _ htype =>
    rcases htype with htype | htype
    · exact absurd hc (by simp [hasType_false htype (by decide : MessageType.linkAdd ≠ .linkCompactState)])
    · exact absurd hc (by simp [hasType_false htype (by decide : MessageType.linkRemove ≠ .linkCompactState)])
  | compact hdata hfid hbody _ => exact ⟨_, _, hdata, hfid, hbody⟩

end LinkMessage

/-! ## Records of links -/

section records
variable {ctx : StateContext} {r : Record} {k : Bytes}

theorem Layout.Admits.linkBody (h : linkLayout.Admits ctx r) (hdata : r.message.data = some data) :
    ∃ type target, data.body = some (.linkBody type target) ∧
    (r.isRemove = false → target.isSome = true) := by
  have hslot := h.slot
  simp only [linkLayout, linkSlot, hdata, Option.bind_some] at hslot
  split at hslot
  next type target hbody =>
    refine ⟨type, target, hbody, fun hrem => ?_⟩
    have hok := h.secondary_ok
    simp only [secondaryOf, hrem, Bool.false_eq_true, if_false, linkStoreDef, LinkStore.secondaryIndices,
      LinkStore.dataBody, hdata, hbody, bind, Except.bind] at hok
    cases target with
    | none => cases hok
    | some target => rfl
  next => cases hslot

theorem Layout.Typed.hasType_linkAdd (h : linkLayout.Typed r) : r.message.hasType .linkAdd = !r.isRemove :=
  h.isAddType_eq

theorem Layout.Typed.hasType_linkRemove (h : linkLayout.Typed r) :
    r.message.hasType .linkRemove = r.isRemove :=
  h.isRemoveType_eq

theorem listedIn_eq (h : linkLayout.Admits ctx r) {c : Message} {dataC : MessageData} {targets : List UInt64}
    (hdata : r.message.data = some data) (hc : c.data = some dataC)
    (hbody : dataC.body = some (.linkCompactStateBody type targets)) :
    (r.isRemove = true ∧ r.message.listedIn c = false) ∨
      ∃ typeR target, r.isRemove = false ∧ data.body = some (.linkBody typeR (some target)) ∧
        r.message.listedIn c = targets.contains target := by
  cases hrem : r.isRemove with
  | true => exact .inl ⟨rfl, by simp [Message.listedIn, h.toTyped.hasType_linkAdd, hrem]⟩
  | false =>
    obtain ⟨typeR, target, hbodyR, hsome⟩ := h.linkBody hdata
    obtain ⟨target, rfl⟩ := Option.isSome_iff_exists.1 (hsome hrem)
    refine .inr ⟨typeR, target, rfl, hbodyR, ?_⟩
    simp [Message.listedIn, h.toTyped.hasType_linkAdd, hrem, hdata, hbodyR, hc, hbody]

theorem link_secondary_endsIn (hk : k ∈ (secondary linkStoreDef ctx r).map Prod.fst) :
    ∃ target fid, fid ≠ 0 ∧
    k = ctx.rootPrefix .linksByTarget :: (makeFidKey target ++ r.tsHash ++ makeFidKey fid) := by
  obtain ⟨⟨k, v⟩, hkv, rfl⟩ := List.mem_map.1 hk
  obtain ⟨data, target, w, -, hfid, hes⟩ := linkSecondary_cases (secondary_cases hkv).2
  rw [hes] at hkv
  cases List.mem_singleton.1 hkv
  exact ⟨target, data.fid, hfid, rfl⟩

theorem link_keys_disjoint {r' : Record} (hk : k ∈ linkLayout.keys ctx r) (hk' : k ∈ linkLayout.keys ctx r') :
    conflictKey r = conflictKey r' ∨ r.tsHash = r'.tsHash := by
  have hprim :
      ∀ {a b : Record}, primaryKey linkStoreDef ctx a ∈ linkLayout.keys ctx b → a.tsHash = b.tsHash := by
    intro a b hab
    exact (primaryKey_inj.1 ((@Store.primaryKey_mem_keys (linkStore ctx) linkLayout _ _).1 hab)).2
  have hidx : ∀ {a b : Record}, linkLayout.indexKey ctx a ∈ linkLayout.keys ctx b →
      conflictKey a = conflictKey b := by
    intro a b hab
    exact (indexKey_inj.1 ((@Store.indexKey_mem_keys (linkStore ctx) linkLayout _ _).1 hab)).2
  rcases mem_keys.1 hk with rfl | rfl | hsec
  · exact .inr (hprim hk')
  · exact .inl (hidx hk')
  · rcases mem_keys.1 hk' with rfl | rfl | hsec'
    · exact .inr (hprim hk).symm
    · exact .inl (hidx hk).symm
    · obtain ⟨target, fid, -, rfl⟩ := link_secondary_endsIn hsec
      obtain ⟨target', fid', -, heq⟩ := link_secondary_endsIn hsec'
      have hrest := (List.cons.inj heq).2
      obtain ⟨hfront, -⟩ := List.append_inj' hrest rfl
      exact .inr (List.append_inj hfront rfl).2

end records

namespace Store

variable {ctx : StateContext} {fid : UInt64} {type : Bytes} {db : RocksDB} {r : Record} {c : Message} [Prost]
  {txn : RocksDbTransactionBatch}

/-! ## Merging a link under a compact state -/

theorem storedCompactState_eq (hm : LinkMessage fid type r.message)
    (hcut : commit db txn (compactKey ctx fid type) = cut.map messageEncode)
    (hnormal : ∀ c, cut = some c → c.Normal ∧ LinkMessage fid type c ∧ c.hasType .linkCompactState = true) :
    (linkStore ctx).storedCompactState db txn r.message =
      .ok (cut.map fun c => (c.timestamp, match c.data.bind (·.body) with
        | some (.linkCompactStateBody _ targets) => targets
        | _ => [])) := by
  have hkey : (linkStore ctx).storeDef.makeCompactStateAddKey r.message (linkStore ctx).stateContext =
      .ok (compactKey ctx fid type) := hm.makeCompactStateAddKey_eq
  unfold storedCompactState
  simp only [hkey, getFromDbOrTxn, hcut, bind, Except.bind]
  cases cut with
  | none => rfl
  | some c =>
    obtain ⟨hc, hlink, htype⟩ := hnormal c rfl
    obtain ⟨data, targets, hdata, -, hbody⟩ := hlink.compact_of_hasType htype
    simp only [Option.map_some, messageDecode_messageEncode hc, readCompactStateDetails, hdata, hbody,
      Message.timestamp, Option.bind_some, Option.getD_some]

/-- **The check**: a link passes if the stored compact state, if any, accepts it. -/
theorem compactCheck_eq_ok_iff {txn : RocksDbTransactionBatch} (hm : LinkMessage fid type r.message)
    (hr : linkLayout.Admits ctx r) {cut : Option Message}
    (hcut : commit db txn (compactKey ctx fid type) = cut.map messageEncode)
    (hnormal : ∀ c, cut = some c → c.Normal ∧ LinkMessage fid type c ∧ c.hasType .linkCompactState = true) :
    (linkStore ctx).compactCheck db txn r = .ok () ↔ ∀ c, cut = some c → c.accepts r.message = true := by
  have hstored := storedCompactState_eq hm hcut hnormal
  have hsup : (linkStore ctx).storeDef.compactStateTypeSupported = true := rfl
  have hopt : (linkStore ctx).conflictFree = false := rfl
  obtain ⟨data, hdata, -⟩ := hr.data
  simp only [compactCheck, checkCompactStateForRemove, checkCompactStateForAdd, hstored, hsup, hopt,
    Bool.not_false, Bool.and_self, if_true, hdata, bind, Except.bind]
  cases cut with
  | none =>
    refine ⟨fun _ c h => (by cases h), fun _ => ?_⟩
    split <;> rfl
  | some c =>
    obtain ⟨-, hlink, htype⟩ := hnormal c rfl
    obtain ⟨dataC, targets, hdataC, -, hbodyC⟩ := hlink.compact_of_hasType htype
    have haccepts : (∀ c', some c = some c' → c'.accepts r.message = true) ↔
        ¬ data.timestamp < c.timestamp ∨ r.message.listedIn c = true := by
      simp [Message.accepts, Message.timestamp_eq hdata]
    rw [haccepts]
    rcases listedIn_eq hr hdata hdataC hbodyC with ⟨hrem, hlisted⟩ | ⟨typeR, target, hrem, hbody, hlisted⟩
    · -- a remove only has to be recent enough
      by_cases hlt : data.timestamp < c.timestamp <;> simp [hrem, hlisted, hlt, pure, Except.pure]
    · simp only [hrem, hlisted, Option.map_some, hbody, hdataC, hbodyC, Option.bind_some]
      by_cases hlt : data.timestamp < c.timestamp <;> cases targets.contains target <;>
        simp [hlt, pure, Except.pure]

/-! ## Merging a compact state -/

/-- What a store has under the key of a compact state: a compact state that belongs there. -/
structure StoredCompact (ctx : StateContext) (key : Bytes) (c₀ : Message) : Prop where
  normal : c₀.Normal
  hasType : c₀.hasType .linkCompactState = true
  own : ∃ fid type, LinkMessage fid type c₀ ∧ compactKey ctx fid type = key

/-- **What a compact state deletes**, of messages in the order of time: those it does not keep. -/
theorem compactedBy_eq {targets : List UInt64} (hc : c.data = some data)
    (hbody : data.body = some (.linkCompactStateBody type targets)) {rs : List Record}
    (hrs : ∀ r ∈ rs, linkLayout.Admits ctx r ∧ r.message.Normal)
    (hsorted : rs.Pairwise fun a b => a.message.timestamp ≤ b.message.timestamp) :
    (linkStore ctx).compactedBy data.timestamp targets (rs.map (primaryEntry linkStoreDef ctx)) =
      .ok ((rs.filter fun r => !c.keeps r.message).map (·.message)) := by
  induction rs with
  | nil => rfl
  | cons r rs ih =>
    obtain ⟨hr, hnormal⟩ := hrs r List.mem_cons_self
    have ih := ih (fun x hx => hrs x (List.mem_cons_of_mem _ hx)) hsorted.of_cons
    obtain ⟨dataR, hdataR, -⟩ := hr.data
    have htime : r.message.timestamp = dataR.timestamp := Message.timestamp_eq hdataR
    have htimeC : c.timestamp = data.timestamp := Message.timestamp_eq hc
    have hremove : (linkStore ctx).storeDef.isRemoveType r.message = r.isRemove :=
      hr.toTyped.hasType_linkRemove
    have hadd : (linkStore ctx).storeDef.isAddType r.message = !r.isRemove := hr.toTyped.hasType_linkAdd
    simp only [List.map_cons, primaryEntry, compactedBy, messageDecode_messageEncode hnormal, hdataR,
      hremove, hadd]
    by_cases hlt : data.timestamp < dataR.timestamp
    · -- the iteration stops; all that follow are as late
      have hkeep : ∀ x ∈ r :: rs, c.keeps x.message = true := by
        intro x hx
        have hle : r.message.timestamp ≤ x.message.timestamp := by
          rcases List.mem_cons.1 hx with rfl | hx
          · exact UInt32.le_refl _
          · exact List.rel_of_pairwise_cons hsorted hx
        have hlate : c.timestamp < x.message.timestamp := by
          rw [htimeC]
          exact UInt32.lt_of_lt_of_le (htime ▸ hlt) hle
        simp [Message.keeps, hlate]
      have hnone : (r :: rs).filter (fun r => !c.keeps r.message) = [] :=
        List.filter_eq_nil_iff.2 fun x hx => by simp [hkeep x hx]
      rw [if_pos hlt, hnone]
      rfl
    · have hkeeps : c.keeps r.message = r.message.listedIn c := by simp [Message.keeps, htime, htimeC, hlt]
      rw [if_neg hlt, List.filter_cons, hkeeps]
      rcases listedIn_eq hr hdataR hc hbody with ⟨hrem, hlisted⟩ | ⟨typeR, target, hrem, hbodyR, hlisted⟩
      · simp [hrem, hlisted, ih, bind, Except.bind]
      · cases htarget : targets.contains target with
        | true => simp only [hrem, hlisted, htarget, hbodyR, ih, Bool.not_false, Bool.not_true,
          Bool.false_eq_true, if_true, if_false]
        | false => simp only [hrem, hlisted, htarget, hbodyR, ih, Bool.not_false, Bool.false_eq_true, if_true,
          if_false, bind, Except.bind, List.map_cons]

omit [Prost] in
theorem deleteTransaction_compact (hlink : LinkMessage fid type c) (hc : c.hasType .linkCompactState = true)
    (s : StoreState) :
    (linkStore ctx).deleteTransaction c s = .ok () (s.delete (compactKey ctx fid type)) := by
  have hkey : (linkStore ctx).storeDef.makeCompactStateAddKey c (linkStore ctx).stateContext =
      .ok (compactKey ctx fid type) := hlink.makeCompactStateAddKey_eq
  have hcompact : (linkStore ctx).storeDef.isCompactStateType c = true := hc
  have hremove : (linkStore ctx).storeDef.isRemoveType c = false := hasType_false hc (by decide)
  have hsup : (linkStore ctx).storeDef.compactStateTypeSupported = true := rfl
  simp only [deleteTransaction, hcompact, hremove, if_true, deleteCompactStateTransaction, hsup, hkey,
    Bool.and_false]
  rfl

theorem supersededCompactState_cases (hlink : LinkMessage fid type c)
    (hc : c.hasType .linkCompactState = true)
    (hcut : commit db txn (compactKey ctx fid type) = cut.map messageEncode)
    (hstored : ∀ c₀, cut = some c₀ → StoredCompact ctx (compactKey ctx fid type) c₀) :
    (∃ c₀ e, cut = some c₀ ∧ c.timestamp ≤ c₀.timestamp ∧
      (linkStore ctx).supersededCompactState db txn c = .error e) ∨
      (∀ c₀, cut = some c₀ → c₀.timestamp < c.timestamp) ∧
        (linkStore ctx).supersededCompactState db txn c = .ok cut.toList := by
  have hkey : (linkStore ctx).storeDef.makeCompactStateAddKey c (linkStore ctx).stateContext =
      .ok (compactKey ctx fid type) := hlink.makeCompactStateAddKey_eq
  have hopt : (linkStore ctx).conflictFree = false := rfl
  obtain ⟨data, targets, hdata, -⟩ := hlink.compact_of_hasType hc
  unfold supersededCompactState
  simp only [hkey, getFromDbOrTxn, hcut, hopt, hdata, bind, Except.bind]
  cases cut with
  | none => exact .inr ⟨fun _ h => (by cases h), rfl⟩
  | some c₀ =>
    obtain ⟨hn₀, hc₀, fid₀, type₀, hlink₀, -⟩ := hstored c₀ rfl
    obtain ⟨data₀, targets₀, hdata₀, -⟩ := hlink₀.compact_of_hasType hc₀
    simp only [Option.map_some, Bool.false_eq_true, if_false, messageDecode_messageEncode hn₀, hdata₀]
    by_cases hlt : data₀.timestamp < data.timestamp
    · refine .inr ⟨?_, by rw [if_pos hlt]; rfl⟩
      rintro c' ⟨rfl⟩
      rwa [Message.timestamp_eq hdata₀, Message.timestamp_eq hdata]
    · refine .inl ⟨c₀, _, rfl, ?_, if_neg hlt⟩
      rw [Message.timestamp_eq hdata₀, Message.timestamp_eq hdata]
      exact UInt32.not_lt.1 hlt

omit [Prost] in
theorem timestamp_le_of_tsHash {a b : Record} (ha : linkLayout.Typed a) (hb : linkLayout.Typed b)
    (h : bytesCompare a.tsHash b.tsHash = .lt) : a.message.timestamp ≤ b.message.timestamp := by
  obtain ⟨dataA, hdataA, -, htsA⟩ := ha.data
  obtain ⟨dataB, hdataB, -, htsB⟩ := hb.data
  rw [Message.timestamp_eq hdataA, Message.timestamp_eq hdataB]
  rw [(makeTsHash_ok_iff.1 htsA).2, (makeTsHash_ok_iff.1 htsB).2, bytesCompare_append _ _
    (show (toBeBytes dataA.timestamp).length = (toBeBytes dataB.timestamp).length from rfl)] at h
  refine le_of_bytesCompare_toBeBytes fun hgt => ?_
  rw [hgt] at h
  cases h

theorem deleteManyTransaction_compact {cut : Option Message} {xs : List Record} {key : Bytes}
    (hcut : ∀ c₀, cut = some c₀ → StoredCompact ctx key c₀) (hxs : ∀ x ∈ xs, linkLayout.Admits ctx x)
    (s : StoreState) :
    ∃ s', (linkStore ctx).deleteManyTransaction (cut.toList ++ xs.map (·.message)) s = .ok () s' ∧
      s'.generator = s.generator ∧ ∀ k ≠ key,
        s'.view db k = eraseAll (s.view db) (xs.flatMap (erased linkStoreDef linkLayout ctx)) k := by
  have hdelete : ∀ s, (linkStore ctx).deleteManyTransaction (xs.map (·.message)) s =
      .ok () (s.deleteAll (xs.flatMap (erased linkStoreDef linkLayout ctx))) := by
    intro s
    rcases @deleteManyTransaction_cases (linkStore ctx) linkLayout _ (fun x hx => (hxs x hx).toTyped) s with
      ⟨-, hdel⟩ | ⟨ys, z, e, hz, -, hze, -⟩
    · exact hdel
    · exact absurd ((hxs z hz).secondary_ok.symm.trans hze) (by simp)
  cases cut with
  | none => exact ⟨_, hdelete s, by simp, fun k _ => by rw [StoreState.view_deleteAll]⟩
  | some c₀ =>
    obtain ⟨-, htype, fid₀, type₀, hlink, hkey⟩ := hcut c₀ rfl
    refine ⟨_, (bind_of_ok (deleteTransaction_compact hlink htype s)).trans (hdelete _), ?_, fun k hk => ?_⟩
    · rw [StoreState.generator_deleteAll]
      rfl
    · rw [StoreState.view_deleteAll, StoreState.view_delete, eraseAll, eraseAll, hkey,
        Function.update_of_ne hk]

/-- **One merge of a compact state**: it is too early; or it replaces the one before and deletes the links it
    does not keep of those in the **database**, whatever the batch did to them. -/
theorem mergeCompactState_cases [DbIterator] [DbIterator.Exact] {s : StoreState}
    (hlink : LinkMessage fid type c) (hc : c.hasType .linkCompactState = true)
    (hcut : s.view db (compactKey ctx fid type) = cut.map messageEncode)
    (hstored : ∀ c₀, cut = some c₀ → StoredCompact ctx (compactKey ctx fid type) c₀)
    (hidx : linkLayout.Indexed ctx db) (hheld : ∀ x, linkLayout.Held ctx db x → linkLayout.Admits ctx x)
    (hfin : {r | linkLayout.Held ctx db r}.Finite) :
    ((∃ c₀, cut = some c₀ ∧ c.timestamp ≤ c₀.timestamp) ∧ ∃ e,
      (linkStore ctx).mergeCompactState db c s = .error e s) ∨
      (∀ c₀, cut = some c₀ → c₀.timestamp < c.timestamp) ∧ ∃ xs : List Record,
        (∀ x, x ∈ xs ↔ @HeldBy (linkStore ctx) _ linkLayout db fid x ∧ c.keeps x.message = false) ∧
        ((¬ s.generator.Ready ∧ ∃ e s', (linkStore ctx).mergeCompactState db c s = .error e s') ∨
          s.generator.Ready ∧ ∃ ev s', (linkStore ctx).mergeCompactState db c s = .ok ev s' ∧
            ev.body = .mergeMessageBody c (cut.toList ++ xs.map (·.message)) ∧
            ∀ k, k[0]? ≠ some RootPrefix.hubEvents.toByte → s'.view db k =
              Function.update (eraseAll (s.view db) (xs.flatMap (erased linkStoreDef linkLayout ctx)))
                (compactKey ctx fid type) (some (messageEncode c)) k) := by
  obtain ⟨data, targets, hdata, rfl, hbody⟩ := hlink.compact_of_hasType hc
  have hsup : (linkStore ctx).storeDef.compactStateTypeSupported = true := rfl
  have hkey : (linkStore ctx).storeDef.makeCompactStateAddKey c (linkStore ctx).stateContext =
      .ok (compactKey ctx data.fid type) := hlink.makeCompactStateAddKey_eq
  unfold mergeCompactState
  rw [bind_of_ok (show (get : StoreM StoreState) s = .ok s s from rfl)]
  rcases supersededCompactState_cases hlink hc hcut hstored with ⟨c₀, e, hc₀, hle, heq⟩ | ⟨hlater, heq⟩
  · refine .inl ⟨⟨c₀, hc₀, hle⟩, e, ?_⟩
    rw [heq]
    rfl
  · obtain ⟨rs, hscan, hrs, hsorted⟩ := @scanUser_exact (linkStore ctx) linkLayout _ data.fid _ _ _
      (show linkStoreDef.setPostfix ≠ 255 by decide) hidx (hfin.subset fun r hr => hr.1)
    have hadm : ∀ r ∈ rs, linkLayout.Admits ctx r ∧ r.message.Normal := fun r hr =>
      ⟨hheld r ((hrs r).1 hr).1, ((hrs r).1 hr).1.normal⟩
    have hcompacted := compactedBy_eq hdata hbody hadm
      (hsorted.imp_of_mem fun ha hb hlt =>
        timestamp_le_of_tsHash (hadm _ ha).1.toTyped (hadm _ hb).1.toTyped hlt)
    rw [show rs.map (primaryEntry linkStoreDef ctx) = _ from hscan] at hcompacted
    let xs := rs.filter fun r => !c.keeps r.message
    have hxs : ∀ x, x ∈ xs ↔
        @HeldBy (linkStore ctx) _ linkLayout db data.fid x ∧ c.keeps x.message = false := by
      intro x
      simp [xs, hrs]
    obtain ⟨s', hdel, hgen, hview⟩ := @deleteManyTransaction_compact ctx db _ _ xs _ hstored
      (fun x hx => (hadm x (List.mem_filter.1 hx).1).1) s
    refine .inr ⟨hlater, xs, hxs, ?_⟩
    have hdetails : readCompactStateDetails c = .ok (data.fid, data.timestamp, targets) := by
      simp only [readCompactStateDetails, hdata, hbody]
    have hput : (linkStore ctx).putAddCompactStateTransaction c s' =
        .ok () (s'.put (compactKey ctx data.fid type) (messageEncode c)) := by
      simp only [putAddCompactStateTransaction, hsup, hkey]
      rfl
    rw [heq, bind_of_ok (show fromExcept (.ok cut.toList) s = .ok cut.toList s from rfl)]
    rw [bind_of_ok
      (show fromExcept (readCompactStateDetails c) s = .ok (data.fid, data.timestamp, targets) s by
      rw [hdetails]; rfl)]
    dsimp only
    rw [hcompacted]
    rw [bind_of_ok (show fromExcept (.ok (xs.map (·.message))) s = .ok (xs.map (·.message)) s from rfl)]
    rw [bind_of_ok hdel, bind_of_ok hput]
    have hready : (s'.put (compactKey ctx data.fid type) (messageEncode c)).generator = s.generator := hgen
    rcases commitTransaction_cases (s'.put (compactKey ctx data.fid type) (messageEncode c))
      (linkStore ctx).noPersist
      (HubEvent.new ((linkStore ctx).storeDef.mergeEventArgs c (cut.toList ++ xs.map (·.message)))) with
      ⟨e, hev, hnot⟩ | ⟨ev, s'', hev, hbodyEv, hyes, hlog⟩
    · exact .inl ⟨hready ▸ hnot, _, _, hev⟩
    · refine .inr ⟨hready ▸ hyes, ev, s'', hev, hbodyEv, fun k hk => (hlog db k hk).trans ?_⟩
      rw [StoreState.view_put]
      by_cases hkc : k = compactKey ctx data.fid type
      · rw [hkc, Function.update_self, Function.update_self]
      · rw [Function.update_of_ne hkc, Function.update_of_ne hkc, hview k hkc]

theorem mergeCommit_compact_cases [DbIterator] [DbIterator.Exact] {g : HubEventIdGenerator}
    (hlink : LinkMessage fid type c) (hc : c.isCompactState = true)
    (hcut : db (compactKey ctx fid type) = cut.map messageEncode)
    (hnormal : ∀ c, cut = some c → c.Normal ∧ LinkMessage fid type c ∧ c.hasType .linkCompactState = true)
    (hidx : linkLayout.Indexed ctx db) (hheld : ∀ x, linkLayout.Held ctx db x → linkLayout.Admits ctx x)
    (hfin : {r | linkLayout.Held ctx db r}.Finite) (hg : g.Ready) :
    ((∃ c₀, cut = some c₀ ∧ c.timestamp ≤ c₀.timestamp) ∧ (linkStore ctx).mergeCommit g db c = db) ∨
      (∀ c₀, cut = some c₀ → c₀.timestamp < c.timestamp) ∧ ∃ xs : List Record,
        (∀ x, x ∈ xs ↔ @HeldBy (linkStore ctx) _ linkLayout db fid x ∧ c.keeps x.message = false) ∧
        ∀ k, k[0]? ≠ some RootPrefix.hubEvents.toByte → (linkStore ctx).mergeCommit g db c k =
          Function.update (eraseAll db (xs.flatMap (erased linkStoreDef linkLayout ctx)))
            (compactKey ctx fid type) (some (messageEncode c)) k := by
  obtain ⟨htype, hts⟩ := Bool.and_eq_true_iff.1 hc
  obtain ⟨ts, hts⟩ : ∃ ts, messageTsHash c = .ok ts := by
    cases h : messageTsHash c with
    | ok ts => exact ⟨ts, rfl⟩
    | error e => simp [h, Except.isOk, Except.toBool] at hts
  have hcompact : (linkStore ctx).storeDef.isCompactStateType c = true := htype
  have hsup : (linkStore ctx).storeDef.compactStateTypeSupported = true := rfl
  have hmerge : (linkStore ctx).merge db c ⟨Batch.empty, g⟩ =
      (linkStore ctx).mergeCompactState db c ⟨Batch.empty, g⟩ := by
    simp only [merge, hcompact, hsup, hts, Bool.and_self, Bool.not_true, Bool.and_false, Bool.false_eq_true,
      if_false, if_true]
    rfl
  have hstored : ∀ c₀, cut = some c₀ → StoredCompact ctx (compactKey ctx fid type) c₀ := by
    intro c₀ hc₀
    obtain ⟨hn₀, hlink₀, htype₀⟩ := hnormal c₀ hc₀
    exact ⟨hn₀, htype₀, fid, type, hlink₀, rfl⟩
  unfold mergeCommit
  rw [hmerge]
  rcases mergeCompactState_cases (s := ⟨Batch.empty, g⟩) hlink htype hcut hstored hidx hheld hfin with
    ⟨hearly, e, heq⟩ | ⟨hlater, xs, hxs, ⟨hnot, -⟩ | ⟨-, ev, s', heq, -, hview⟩⟩
  · refine .inl ⟨hearly, ?_⟩
    rw [heq]
  · exact absurd hg hnot
  · refine .inr ⟨hlater, xs, hxs, fun k hk => ?_⟩
    rw [heq]
    exact hview k hk

end Store

end Hypersnap
