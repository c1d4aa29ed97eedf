import Mathlib.Data.List.Induction
import Hypersnap.Store.Convergence

/-!
# `Store.Confluence` — when the order of merging does not matter

The cast, reaction, verification and user-data stores, and finite sets of messages with different hashes.
Whatever the order, the messages and index entries at the end are those of the best message of each conflict
key. The secondary entries are too, **except** the by-address index of verifications: its key is the address
alone, so users who verify one address overwrite and delete each other's entry. `converges_iff` states exactly
when that happens.
-/

namespace Hypersnap

open Overlay EState Layout Lib

variable {k : Bytes} {v : DbValue} {r r' : Record} {order : List Message}

/-! ## Convergence -/

/-- `message_compare` of two messages. -/
def StoreDef.compareMessages (d : StoreDef) (a b : Message) : Ordering :=
  match a.data, b.data with
  | some dataA, some dataB =>
    d.messageCompare (asU8 dataA.type) (toBeBytes dataA.timestamp ++ a.hash) (asU8 dataB.type)
      (toBeBytes dataB.timestamp ++ b.hash)
  | _, _ => .eq

namespace Store

variable [Prost] [DbIterator] (store : Store)

/-- A message of the store: typed as an add or a remove, with a hash of the right length, and such that its
    conflict key and secondary entries can be built. -/
def mergeable (m : Message) : Bool :=
  match messageTsHash m, store.storeDef.makeAddKey m store.stateContext with
  | .ok ts, .ok _ =>
    if store.storeDef.isAddType m then (store.storeDef.secondaryIndices ts m store.stateContext).isOk
    else store.storeDef.removeTypeSupported && store.storeDef.isRemoveType m
  | _, _ => false

def Competes (m m' : Message) : Prop :=
  store.storeDef.makeAddKey m store.stateContext = store.storeDef.makeAddKey m' store.stateContext

def Stores (db : RocksDB) (m : Message) : Prop :=
  ∃ key, primaryKeyOf store.userPrefix m = .ok key ∧ db key = some (messageEncode m)

/-- Of the messages that compete with it, none is above it. -/
def Best (msgs : List Message) (m : Message) : Prop :=
  store.mergeable m = true ∧ ∀ m' ∈ msgs, store.mergeable m' = true → store.Competes m' m →
    store.storeDef.compareMessages m' m ≠ .gt

/-- **Convergence** of a store on a set of messages. -/
structure Converges (gen : Nat → HubEventIdGenerator) (msgs : List Message) : Prop where
  /-- Two orders end in the same messages, indices and secondary indices (only the event log differs). -/
  confluent : ∀ order₁ order₂ : List Message, order₁.Perm msgs → order₂.Perm msgs →
    ∀ key : Bytes, key[0]? ≠ some RootPrefix.hubEvents.toByte →
      store.mergeAll gen order₁ key = store.mergeAll gen order₂ key
  /-- The messages that survive are the maximal ones of their conflict keys. -/
  maximal : ∀ order : List Message, order.Perm msgs → ∀ m ∈ msgs,
    (store.Stores (store.mergeAll gen order) m ↔ store.Best msgs m)
  /-- Merging a message that was merged or superseded changes nothing. -/
  settled : ∀ done rest : List Message, (done ++ rest).Perm msgs → ∀ m ∈ done, ∀ g,
    store.mergeCommit g (store.mergeAll gen done) m = store.mergeAll gen done

/-! ## Records of the messages -/

variable {store} {lay : Layout store.storeDef} {msgs : List Message} {r : Record}

omit [Prost] [DbIterator] in
theorem mergeable_iff (lay : Layout store.storeDef) {m : Message} :
    store.mergeable m = true ↔ ∃ r, r.message = m ∧ lay.Admits store.stateContext r := by
  constructor
  · intro h
    unfold mergeable at h
    split at h
    next ts key hts hkey =>
      obtain ⟨data, hdata⟩ : ∃ data, m.data = some data := by
        cases hdata : m.data with
        | none => simp [messageTsHash, hdata] at hts
        | some data => exact ⟨data, rfl⟩
      obtain ⟨slot, hslot, -⟩ := (lay.makeAddKey_iff hdata).1 hkey
      simp only [messageTsHash, hdata] at hts
      cases hadd : store.storeDef.isAddType m with
      | true =>
        rw [hadd, if_pos rfl] at h
        refine ⟨⟨m, data.fid, ts, slot, false⟩, rfl, ⟨⟨data, hdata, rfl, hts⟩, hslot, .inl ⟨rfl, hadd⟩⟩, ?_⟩
        cases hsec : store.storeDef.secondaryIndices ts m store.stateContext with
        | ok es => simp [secondary, secondaryOf, hsec]
        | error e => simp [hsec, Except.isOk, Except.toBool] at h
      | false =>
        simp only [hadd, Bool.false_eq_true, if_false, Bool.and_eq_true] at h
        exact ⟨⟨m, data.fid, ts, slot, true⟩, rfl,
          ⟨⟨data, hdata, rfl, hts⟩, hslot, .inr ⟨rfl, h.1, h.2⟩⟩, rfl⟩
    next => cases h
  · rintro ⟨r, rfl, hr⟩
    have hadd := hr.toTyped.isAddType_eq
    have hremove := hr.toTyped.isRemoveType_eq
    have hsec := hr.secondary_ok
    simp only [mergeable, hr.toTyped.messageTsHash_eq, hr.toTyped.makeAddKey_eq, hadd, hremove]
    cases hrem : r.isRemove with
    | true => rfl
    | false =>
      simp only [secondaryOf, hrem, Bool.false_eq_true, if_false] at hsec
      simp [hsec, Except.isOk, Except.toBool]

def records (lay : Layout store.storeDef) (msgs : List Message) : Set Record :=
  {r | r.message ∈ msgs ∧ lay.Admits store.stateContext r}

/-- What the runs assume of the messages: hashes are different, what can be merged has a fid, and the messages
    are normal, as gossip and RPC hand them on. -/
structure Fit (store : Store) (msgs : List Message) : Prop where
  nodup_hash : (msgs.map Message.hash).Nodup
  normal : ∀ m ∈ msgs, m.Normal
  fid_ne : ∀ m ∈ msgs, store.mergeable m = true → m.fid ≠ 0

namespace Fit

omit [DbIterator] in
theorem pool (h : Fit store msgs) (lay : Layout store.storeDef) : Pool lay (records lay msgs) where
  admits _ hr := hr.2
  normal r hr := h.normal _ hr.1
  eq_of_hash r hr r' hr' heq :=
    hr.2.toTyped.eq_of_message hr'.2.toTyped (List.inj_on_of_nodup_map h.nodup_hash hr.1 hr'.1 heq)
  fid_ne r hr := by
    obtain ⟨data, hdata, hfid, -⟩ := hr.2.data
    have hne := h.fid_ne _ hr.1 ((mergeable_iff lay).2 ⟨r, rfl, hr.2⟩)
    rw [Message.fid, hdata] at hne
    exact hfid ▸ hne

end Fit

omit [Prost] [DbIterator] in
theorem records_snoc (hr : lay.Admits store.stateContext r) :
    records lay (msgs ++ [r.message]) = insert r (records lay msgs) := by
  ext w
  simp only [records, Set.mem_ofPred_eq, Set.mem_insert_iff, List.mem_append, List.mem_singleton]
  constructor
  · rintro ⟨hw | hw, hadm⟩
    · exact .inr ⟨hw, hadm⟩
    · exact .inl (hadm.toTyped.eq_of_message hr.toTyped hw)
  · rintro (rfl | ⟨hw, hadm⟩)
    · exact ⟨.inr rfl, hr⟩
    · exact ⟨.inl hw, hadm⟩

omit [Prost] [DbIterator] in
theorem competes_iff {r' : Record} (hr : lay.Typed r) (hr' : lay.Typed r') :
    store.Competes r.message r'.message ↔ conflictKey r = conflictKey r' := by
  rw [Competes, hr.makeAddKey_eq, hr'.makeAddKey_eq, Except.ok.injEq, slotKey_inj]

omit [Prost] [DbIterator] in
theorem compareMessages_eq (hr : lay.Typed r) (hr' : lay.Typed r') :
    store.storeDef.compareMessages r.message r'.message = bytesCompare (lay.rankOf r) (lay.rankOf r') := by
  obtain ⟨data, hdata, -, hts⟩ := hr.data
  obtain ⟨data', hdata', -, hts'⟩ := hr'.data
  simp only [StoreDef.compareMessages, hdata, hdata']
  rw [hr.asU8_type hdata, hr'.asU8_type hdata', ← (makeTsHash_ok_iff.1 hts).2, ← (makeTsHash_ok_iff.1 hts').2,
    hr.compare_eq hr']

omit [Prost] [DbIterator] in
theorem isBest_iff (hr : lay.Admits store.stateContext r) (hm : r.message ∈ msgs) :
    IsBest conflictKey lay.rankOf (records lay msgs) r ↔ store.Best msgs r.message := by
  constructor
  · rintro ⟨-, hbest⟩
    refine ⟨(mergeable_iff lay).2 ⟨r, rfl, hr⟩, fun m' hm' hmerge hcomp => ?_⟩
    obtain ⟨r', rfl, hr'⟩ := (mergeable_iff lay).1 hmerge
    rw [compareMessages_eq hr'.toTyped hr.toTyped]
    exact hbest r' ⟨hm', hr'⟩ ((competes_iff hr'.toTyped hr.toTyped).1 hcomp)
  · rintro ⟨-, hbest⟩
    refine ⟨⟨hm, hr⟩, fun r' hr' hkey => ?_⟩
    have hne := hbest _ hr'.1 ((mergeable_iff lay).2 ⟨r', rfl, hr'.2⟩)
      ((competes_iff hr'.2.toTyped hr.toTyped).2 hkey)
    rwa [compareMessages_eq hr'.2.toTyped hr.toTyped] at hne

/-! ## Runs -/

/-- **A run of merges**, in any order: the records that are held are the best of those merged. -/
theorem mergeAll_sim (hplain : Plain store) (hpool : Pool lay (records lay msgs))
    {gen : Nat → HubEventIdGenerator} (hgen : ∀ i, (gen i).Ready) (order : List Message)
    (hsub : order ⊆ msgs) :
    Sim lay (records lay msgs) (records lay order) (store.mergeAll gen order) := by
  -- induction on the merges made so far
  induction order using List.reverseRecOn with
  | nil =>
    have hnil : records lay [] = ∅ := by simp [records]
    rw [hnil]
    exact Sim.empty lay _
  | append_singleton order m ih =>
    have hm : m ∈ msgs := hsub (by simp)
    have ih := ih fun x hx => hsub (List.mem_append_left _ hx)
    rw [mergeAll_snoc]
    by_cases hr : ∃ r, r.message = m ∧ lay.Admits store.stateContext r
    · obtain ⟨r, rfl, hr⟩ := hr
      rw [records_snoc hr]
      exact ih.step hplain hpool ⟨hm, hr⟩ (hgen _)
    · rw [mergeCommit_of_not_admits hplain.conflictFree ih.indexed (hplain.isCompactStateType m) hr]
      have heq : records lay (order ++ [m]) = records lay order := by
        ext w
        simp only [records, Set.mem_ofPred_eq, List.mem_append, List.mem_singleton]
        exact ⟨fun ⟨hw, hadm⟩ => ⟨hw.resolve_right fun hwm => hr ⟨w, hwm, hadm⟩, hadm⟩,
          fun ⟨hw, hadm⟩ => ⟨.inl hw, hadm⟩⟩
      rw [heq]
      exact ih

/-- Of the best records, none shares a secondary key with a record of another conflict key. -/
def Uncontested (store : Store) (lay : Layout store.storeDef) (msgs : List Message) : Prop :=
  ∀ r, IsBest conflictKey lay.rankOf (records lay msgs) r → ∀ r' ∈ records lay msgs, ∀ k,
    k ∈ (secondary store.storeDef store.stateContext r).map Prod.fst →
    k ∈ (secondary store.storeDef store.stateContext r').map Prod.fst → conflictKey r' = conflictKey r

/-- Records of different conflict keys that share a secondary key give it different values. -/
def Telling (store : Store) (lay : Layout store.storeDef) (msgs : List Message) : Prop :=
  ∀ r ∈ records lay msgs, ∀ r' ∈ records lay msgs, conflictKey r' ≠ conflictKey r → ∀ k v v',
    (k, v) ∈ secondary store.storeDef store.stateContext r →
    (k, v') ∈ secondary store.storeDef store.stateContext r' → v' ≠ v

section results
variable (hplain : Plain store) (hfit : Fit store msgs) {gen : Nat → HubEventIdGenerator}
  (hgen : ∀ i, (gen i).Ready) {m : Message}
include hplain hfit hgen

theorem sim_of_perm (lay : Layout store.storeDef) (hp : order.Perm msgs) :
    Sim lay (records lay msgs) (records lay msgs) (store.mergeAll gen order) := by
  have hsim := mergeAll_sim hplain (hfit.pool lay) hgen order hp.subset
  have heq : records lay order = records lay msgs := by
    ext w
    simp only [records, Set.mem_ofPred_eq, hp.mem_iff]
  rwa [heq] at hsim

/-- **Who survives**: the best record of each conflict key. -/
theorem held_mergeAll_iff (hp : order.Perm msgs) :
    lay.Held store.stateContext (store.mergeAll gen order) r ↔
      IsBest conflictKey lay.rankOf (records lay msgs) r := by
  have hsim := sim_of_perm hplain hfit hgen lay hp
  refine hsim.champions.mem_iff fun a ha b hb _ hcmp => ?_
  -- equal ranks are ranks of one message
  have hrank : lay.rankOf a = lay.rankOf b := bytesCompare_eq_iff.1 hcmp
  have hts := (lay.rank_inj ha.2.length_tsHash hb.2.length_tsHash hrank).2
  exact (hfit.pool lay).eq_of_tsHash hb ha hts

theorem stores_iff_best (lay : Layout store.storeDef) (hp : order.Perm msgs) (hm : m ∈ msgs) :
    store.Stores (store.mergeAll gen order) m ↔ store.Best msgs m := by
  have hsim := sim_of_perm hplain hfit hgen lay hp
  constructor
  · rintro ⟨key, hkey, hval⟩
    have hroot := primaryKeyOf_root hkey
    obtain ⟨r, hr, hcases⟩ := hsim.only (user_ne_hubEvents hroot) hval
    rcases mem_entries.1 hcases with ⟨-, henc⟩ | ⟨-, henc⟩ | hsec
    · -- the entry is the message of a held record
      cases messageEncode_inj (hfit.normal m hm) hr.normal henc
      have hbest := (held_mergeAll_iff hplain hfit hgen hp).1 hr
      exact (isBest_iff hbest.1.2 hm).1 hbest
    · exact absurd henc messageEncode_ne_bytes
    · exact absurd hroot (secondary_ne_user (List.mem_map_of_mem hsec) lay)
  · intro hbest
    obtain ⟨r, rfl, hr⟩ := (mergeable_iff lay).1 hbest.1
    have hheld := (held_mergeAll_iff hplain hfit hgen hp).2 ((isBest_iff hr hm).2 hbest)
    exact ⟨_, hr.toTyped.primaryKeyOf_eq store.stateContext, hheld.primary⟩

/-- **Confluence**, when the secondary keys are not contested. -/
theorem mergeAll_confluent (hfree : Uncontested store lay msgs) {order₁ order₂ : List Message}
    (h₁ : order₁.Perm msgs) (h₂ : order₂.Perm msgs) (hk : k[0]? ≠ some RootPrefix.hubEvents.toByte) :
    store.mergeAll gen order₁ k = store.mergeAll gen order₂ k := by
  -- what one order stores, the other stores too
  have hsub : ∀ {order₁ order₂ : List Message}, order₁.Perm msgs → order₂.Perm msgs → ∀ v,
      store.mergeAll gen order₁ k = some v → store.mergeAll gen order₂ k = some v := by
    intro order₁ order₂ h₁ h₂ v hv
    obtain ⟨r, hr, hkv⟩ := (sim_of_perm hplain hfit hgen lay h₁).only hk hv
    have hbest := (held_mergeAll_iff hplain hfit hgen h₁).1 hr
    have hheld := (held_mergeAll_iff hplain hfit hgen h₂).2 hbest
    rcases mem_entries.1 hkv with ⟨rfl, rfl⟩ | ⟨rfl, rfl⟩ | hsec
    · exact hheld.primary
    · exact hheld.index
    · refine (sim_of_perm hplain hfit hgen lay h₂).complete (fun a ha b hb hka hkb => ?_) hheld hsec
      have hkr := List.mem_map_of_mem (f := Prod.fst) hsec
      exact (hfree r hbest a ha k hkr hka).trans (hfree r hbest b hb k hkr hkb).symm
  exact Option.ext fun v => ⟨hsub h₁ h₂ v, hsub h₂ h₁ v⟩

/-- Merging again what was merged or superseded changes nothing. -/
theorem mergeCommit_again (lay : Layout store.storeDef) {done : List Message} (hsub : done ⊆ msgs)
    (hm : m ∈ done) (g : HubEventIdGenerator) :
    store.mergeCommit g (store.mergeAll gen done) m = store.mergeAll gen done := by
  have hsim := mergeAll_sim hplain (hfit.pool lay) hgen done hsub
  by_cases hr : ∃ r, r.message = m ∧ lay.Admits store.stateContext r
  · obtain ⟨r, rfl, hr⟩ := hr
    -- a held message is not below it
    obtain ⟨w, hw, hkey, hle⟩ := hsim.champions.dominated r ⟨hm, hr⟩
    refine mergeCommit_of_blocked hplain hsim.indexed hr.toTyped ⟨w, ⟨hw, hkey⟩, fun hlt => hle ?_⟩
    exact bytesCompare_gt_iff.2 hlt
  · exact mergeCommit_of_not_admits hplain.conflictFree hsim.indexed (hplain.isCompactStateType m) hr

/-! ## Orders that end differently -/

theorem mergeAll_last (hbest : IsBest conflictKey lay.rankOf (records lay msgs) r)
    (hkv : (k, v) ∈ secondary store.storeDef store.stateContext r) :
    store.mergeAll gen (msgs.erase r.message ++ [r.message]) k = some v := by
  have hpool := hfit.pool lay
  have hsim := mergeAll_sim hplain hpool hgen (msgs.erase r.message) List.erase_subset
  rw [mergeAll_snoc]
  rcases hsim.mergeCommit_cases hplain hpool hbest.1 (hgen _)
    with ⟨⟨x, ⟨hx, hkey⟩, hcmp⟩, -⟩ | ⟨-, xs, -, hdb⟩
  · -- a rival that is not below it would be the message itself
    have hmem := hsim.champions.sub hx
    have hne : x.message ≠ r.message := ((List.Nodup.of_map _ hfit.nodup_hash).mem_erase_iff.1 hmem.1).1
    have hle : bytesCompare (lay.rankOf x) (lay.rankOf r) ≠ .gt := hbest.2 x (hsim.sub hmem) hkey
    have heq : bytesCompare (lay.rankOf x) (lay.rankOf r) = .eq := by
      cases hc : bytesCompare (lay.rankOf x) (lay.rankOf r) with
      | lt => exact absurd hc hcmp
      | eq => rfl
      | gt => exact absurd hc hle
    have hts := (lay.rank_inj hmem.2.length_tsHash hbest.1.2.length_tsHash (bytesCompare_eq_iff.1 heq)).2
    exact absurd (congrArg Record.message (hpool.eq_of_tsHash hbest.1 (hsim.sub hmem) hts)) hne
  · rw [hdb k (secondary_ne_hubEvents lay hkv)]
    exact installed_eq_some.2 (.inl (mem_entries.2 (.inr (.inr hkv))))

theorem mergeAll_append_ne (lay : Layout store.storeDef)
    (hroot : k[0]? ≠ some RootPrefix.hubEvents.toByte ∧ k[0]? ≠ some (store.stateContext.rootPrefix .user))
    (pre : List Message) (hne : store.mergeAll gen pre k ≠ some v) (rest : List Message)
    (hsub : pre ++ rest ⊆ msgs)
    (hrest : ∀ w ∈ records lay rest, (k, v) ∉ secondary store.storeDef store.stateContext w) :
    store.mergeAll gen (pre ++ rest) k ≠ some v := by
  have hpool := hfit.pool lay
  -- induction on the messages merged after `pre`
  induction rest using List.reverseRec with
  | nil => simpa using hne
  | append_singleton rest m ih =>
    rw [← List.append_assoc] at hsub ⊢
    have hm : m ∈ msgs := hsub (by simp)
    have hsub : pre ++ rest ⊆ msgs := fun x hx => hsub (List.mem_append_left [m] hx)
    have ih := ih hsub fun w hw => hrest w ⟨List.mem_append_left _ hw.1, hw.2⟩
    have hsim := mergeAll_sim hplain hpool hgen (pre ++ rest) hsub
    rw [mergeAll_snoc]
    by_cases hw : ∃ w, w.message = m ∧ lay.Admits store.stateContext w
    · obtain ⟨w, rfl, hw⟩ := hw
      rcases hsim.mergeCommit_cases hplain hpool ⟨hm, hw⟩ (hgen _) with ⟨-, heq⟩ | ⟨-, xs, -, hdb⟩
      · rwa [heq]
      · rw [hdb k hroot.1]
        intro hval
        rcases installed_eq_some.1 hval with hkv | ⟨-, -, hval⟩
        · rcases mem_entries.1 hkv with ⟨rfl, -⟩ | ⟨rfl, -⟩ | hsec
          · exact hroot.2 rfl
          · exact hroot.2 rfl
          · exact hrest w ⟨by simp, hw⟩ hsec
        · exact ih hval
    · rwa [mergeCommit_of_not_admits hplain.conflictFree hsim.indexed (hplain.isCompactStateType m) hw]

open Classical in
/-- **A contested entry** takes its value from the order: merged last, the best message has its own value
    there; merged before all competitors of the other message, it has not. -/
theorem exists_diverging (htell : Telling store lay msgs)
    (hbest : IsBest conflictKey lay.rankOf (records lay msgs) r) (hr' : r' ∈ records lay msgs)
    (hk : k ∈ (secondary store.storeDef store.stateContext r).map Prod.fst)
    (hk' : k ∈ (secondary store.storeDef store.stateContext r').map Prod.fst)
    (hkey : conflictKey r' ≠ conflictKey r) :
    ∃ order₁ order₂ : List Message, order₁.Perm msgs ∧ order₂.Perm msgs ∧
      store.mergeAll gen order₁ k ≠ store.mergeAll gen order₂ k := by
  obtain ⟨⟨_, v⟩, hkv, rfl⟩ := List.mem_map.1 hk
  obtain ⟨⟨k, v'⟩, hkv', rfl⟩ := List.mem_map.1 hk'
  have hpool := hfit.pool lay
  let inGroup : Message → Bool :=
    fun m => decide (∃ w ∈ records lay msgs, w.message = m ∧ conflictKey w = conflictKey r')
  let others := msgs.filter fun m => !inGroup m
  let group := (msgs.filter inGroup).erase r'.message
  have hin : r'.message ∈ msgs.filter inGroup :=
    List.mem_filter.2 ⟨hr'.1, decide_eq_true ⟨r', hr', rfl, rfl⟩⟩
  have hperm : (others ++ [r'.message] ++ group).Perm msgs := by
    have hgroup : (r'.message :: group).Perm (msgs.filter inGroup) := (List.perm_cons_erase hin).symm
    have happ := (hgroup.append_left others).trans List.perm_append_comm
    simpa using happ.trans (List.filter_append_perm inGroup msgs)
  have hperm' : (msgs.erase r.message ++ [r.message]).Perm msgs :=
    List.perm_append_comm.trans (List.perm_cons_erase hbest.1.1).symm
  refine ⟨_, _, hperm', hperm, ?_⟩
  rw [mergeAll_last hplain hfit hgen hbest hkv]
  refine (mergeAll_append_ne hplain hfit hgen lay
    ⟨secondary_ne_hubEvents lay hkv, secondary_ne_user hk lay⟩ _ ?_ group
    hperm.subset fun w hw hsec => ?_).symm
  · -- the first of its group finds no rival
    have hsim := mergeAll_sim hplain hpool hgen others (List.filter_sublist.subset)
    rw [mergeAll_snoc]
    rcases hsim.mergeCommit_cases hplain hpool hr' (hgen _) with ⟨⟨x, ⟨hx, hxkey⟩, -⟩, -⟩ | ⟨-, xs, -, hdb⟩
    · have hmem := hsim.champions.sub hx
      have hnot := (List.mem_filter.1 hmem.1).2
      have hyes : inGroup x.message = true := decide_eq_true ⟨x, hsim.sub hmem, rfl, hxkey⟩
      simp [hyes] at hnot
    · rw [hdb _ (secondary_ne_hubEvents lay hkv)]
      have hval : installed lay (store.mergeAll gen others) xs r' k = some v' :=
        installed_eq_some.2 (.inl (mem_entries.2 (.inr (.inr hkv'))))
      rw [hval]
      exact fun heq => htell r hbest.1 r' hr' hkey _ v v' hkv hkv' (Option.some.inj heq)
  · -- the group has the other conflict key, hence other values
    obtain ⟨hmem, hw'⟩ := List.mem_filter.1 (List.mem_of_mem_erase hw.1)
    obtain ⟨x, hx, hxm, hxkey⟩ := of_decide_eq_true hw'
    cases hx.2.toTyped.eq_of_message hw.2.toTyped hxm
    exact htell r hbest.1 w hx (fun heq => hkey (hxkey.symm.trans heq)) _ v v hkv hsec rfl

/-- **When a store converges**: exactly when no secondary key of a best message is contested. -/
theorem converges_iff_uncontested (htell : Telling store lay msgs) :
    store.Converges gen msgs ↔ Uncontested store lay msgs := by
  constructor
  · intro hconv r hbest r' hr' k hk hk'
    by_contra hkey
    obtain ⟨order₁, order₂, h₁, h₂, hne⟩ := exists_diverging hplain hfit hgen htell hbest hr' hk hk' hkey
    obtain ⟨⟨_, v⟩, hkv, rfl⟩ := List.mem_map.1 hk
    exact hne (hconv.confluent order₁ order₂ h₁ h₂ _ (secondary_ne_hubEvents lay hkv))
  · intro hfree
    refine ⟨fun order₁ order₂ h₁ h₂ k hk => mergeAll_confluent hplain hfit hgen hfree h₁ h₂ hk,
      fun order hp m hm => stores_iff_best hplain hfit hgen lay hp hm, fun done rest hp m hm g => ?_⟩
    exact mergeCommit_again hplain hfit hgen lay (fun x hx => hp.subset (List.mem_append_left _ hx)) hm g

end results

end Store

/-! ## The four stores -/

/-- The stores without compact states and without an order of their own over names. -/
inductive PlainStore where
  | cast
  | reaction
  | verification
  | userData
  deriving DecidableEq, Repr

namespace PlainStore

def storeDef : PlainStore → StoreDef
  | .cast => castStoreDef
  | .reaction => reactionStoreDef
  | .verification => verificationStoreDef
  | .userData => userDataStoreDef

def store (p : PlainStore) (ctx : StateContext) : Store := { storeDef := p.storeDef, stateContext := ctx }

def layout : (p : PlainStore) → Layout p.storeDef
  | .cast => castLayout
  | .reaction => reactionLayout
  | .verification => verificationLayout
  | .userData => userDataLayout

theorem plain (p : PlainStore) (ctx : StateContext) : (p.store ctx).Plain := by
  cases p <;> exact ⟨rfl, rfl, fun _ => rfl⟩

end PlainStore

def Message.verifiedAddress (m : Message) : Option Bytes :=
  match m.data.bind (·.body) with
  | some (.verificationAddAddressBody address _ _) => some address
  | _ => none

/-- No user but the one of a best message verifies its address. -/
def OneVerifierPerAddress (store : Store) (msgs : List Message) : Prop :=
  ∀ m ∈ msgs, ∀ m' ∈ msgs, store.Best msgs m → store.mergeable m' = true → m.verifiedAddress.isSome = true →
    m.verifiedAddress = m'.verifiedAddress → store.Competes m' m

namespace Store

variable {ctx : StateContext} {p : PlainStore}

theorem endsIn_of_secondary (hp : p = .cast ∨ p = .reaction)
    (hk : k ∈ (secondary p.storeDef ctx r).map Prod.fst) (hr : p.layout.Typed r) :
    EndsIn ctx r.tsHash r.fid k := by
  obtain ⟨⟨k, v⟩, hkv, rfl⟩ := List.mem_map.1 hk
  obtain ⟨data, hdata, hfid, -⟩ := hr.data
  have hsec := (secondary_cases hkv).2
  rcases hp with rfl | rfl
  · obtain ⟨-, data', hdata', hends⟩ := castSecondary_cases hsec hkv
    cases hdata.symm.trans hdata'
    exact hfid ▸ hends
  · obtain ⟨data', k', v', hdata', hes, hends⟩ := reactionSecondary_cases hsec
    cases hdata.symm.trans hdata'
    rw [hes] at hkv
    cases List.mem_singleton.1 hkv
    exact hfid ▸ hends

theorem verification_secondary (hr : verificationLayout.Typed r)
    (hkv : (k, v) ∈ secondary verificationStoreDef ctx r) :
    k = ctx.rootPrefix .verificationByAddress :: r.slot ∧ v = .bytes (makeFidKey r.fid) ∧
      r.message.verifiedAddress = some r.slot := by
  obtain ⟨data, hdata, hfid, -⟩ := hr.data
  obtain ⟨data', address, protocol, claim, hdata', hbody, hes⟩ :=
    verificationSecondary_cases r.tsHash (secondary_cases hkv).2
  cases hdata.symm.trans hdata'
  have hslot : some address = some r.slot := by
    rw [← hr.slot]
    simp [verificationLayout, verificationSlot, hdata, hbody]
  rw [hes, Option.some.inj hslot] at hkv
  cases List.mem_singleton.1 hkv
  refine ⟨rfl, by rw [hfid], ?_⟩
  simpa [Message.verifiedAddress, hdata, hbody] using hslot

theorem mem_verification_secondary (hr : verificationLayout.Admits ctx r) {address : Bytes}
    (ha : r.message.verifiedAddress = some address) :
    ctx.rootPrefix .verificationByAddress :: address ∈
      (secondary verificationStoreDef ctx r).map Prod.fst := by
  unfold Message.verifiedAddress at ha
  split at ha
  next address' protocol hbody =>
    cases ha
    have hrem : r.isRemove = false := by
      rcases hr.kind with ⟨hrem, -⟩ | ⟨-, -, hremove⟩
      · exact hrem
      · simp [verificationStoreDef, VerificationStoreDef.isRemoveType, hbody] at hremove
    have hok := hr.secondary_ok
    simp only [secondaryOf, hrem, Bool.false_eq_true, if_false] at hok
    obtain ⟨data, address', protocol', claim, hdata, hbody', hes⟩ := verificationSecondary_cases r.tsHash hok
    simp only [hdata, Option.bind_some] at hbody
    cases hbody.symm.trans hbody'
    rw [hes]
    simp
  next => cases ha

variable [Prost] {msgs : List Message}

theorem eq_of_secondary (hp : p = .cast ∨ p = .reaction) (hfit : Fit (p.store ctx) msgs)
    (hr : r.message ∈ msgs ∧ p.layout.Admits ctx r) (hr' : r'.message ∈ msgs ∧ p.layout.Admits ctx r')
    (hk : k ∈ (secondary p.storeDef ctx r).map Prod.fst)
    (hk' : k ∈ (secondary p.storeDef ctx r').map Prod.fst) :
    r' = r := by
  have hpool := hfit.pool p.layout
  have hts := (endsIn_of_secondary hp hk hr.2.toTyped).tsHash_eq (endsIn_of_secondary hp hk' hr'.2.toTyped)
    hr.2.length_tsHash hr'.2.length_tsHash (hpool.fid_ne r hr) (hpool.fid_ne r' hr')
  exact hpool.eq_of_tsHash hr hr' hts.symm

theorem telling (p : PlainStore) (hfit : Fit (p.store ctx) msgs) : Telling (p.store ctx) p.layout msgs := by
  intro r hr r' hr' hkey k v v' hkv hkv'
  have hk := List.mem_map_of_mem (f := Prod.fst) hkv
  have hk' := List.mem_map_of_mem (f := Prod.fst) hkv'
  cases p with
  | cast => exact absurd (congrArg conflictKey (eq_of_secondary (.inl rfl) hfit hr hr' hk hk')) hkey
  | reaction => exact absurd (congrArg conflictKey (eq_of_secondary (.inr rfl) hfit hr hr' hk hk')) hkey
  | verification =>
    obtain ⟨hk, hv, -⟩ := verification_secondary hr.2.toTyped hkv
    obtain ⟨hk', hv', -⟩ := verification_secondary hr'.2.toTyped hkv'
    have hslot := (List.cons.inj (hk.symm.trans hk')).2
    rw [hv, hv']
    exact fun hfid => hkey (Prod.ext (DbValue.bytes.inj hfid) hslot.symm)
  | userData => simp [PlainStore.store, PlainStore.storeDef, secondary, secondaryOf, userDataStoreDef] at hkv

/-- Only verifications of one address by several users contest an entry. -/
theorem uncontested_iff (p : PlainStore) (hfit : Fit (p.store ctx) msgs) :
    Uncontested (p.store ctx) p.layout msgs ↔
      (p = .verification → OneVerifierPerAddress (p.store ctx) msgs) := by
  constructor
  · rintro hfree rfl m hm m' hm' hbest hmerge hsome heq
    have hrecord {m : Message} (h : (PlainStore.verification.store ctx).mergeable m = true) :
        ∃ r, r.message = m ∧ verificationLayout.Admits ctx r := (mergeable_iff _).1 h
    obtain ⟨r, rfl, hr⟩ := hrecord hbest.1
    obtain ⟨r', rfl, hr'⟩ := hrecord hmerge
    obtain ⟨address, ha⟩ := Option.isSome_iff_exists.1 hsome
    have hkey :=
      hfree r ((isBest_iff hr hm).2 hbest) r' ⟨hm', hr'⟩ (ctx.rootPrefix .verificationByAddress :: address)
      (mem_verification_secondary hr ha) (mem_verification_secondary hr' (heq.symm.trans ha))
    exact (competes_iff hr'.toTyped hr.toTyped).2 hkey
  · intro hone r hbest r' hr' k hk hk'
    cases p with
    | cast => exact congrArg conflictKey (eq_of_secondary (.inl rfl) hfit hbest.1 hr' hk hk')
    | reaction => exact congrArg conflictKey (eq_of_secondary (.inr rfl) hfit hbest.1 hr' hk hk')
    | verification =>
      obtain ⟨⟨k, v⟩, hkv, rfl⟩ := List.mem_map.1 hk
      obtain ⟨⟨_, v'⟩, hkv', rfl⟩ := List.mem_map.1 hk'
      obtain ⟨hk, -, ha⟩ := verification_secondary hbest.1.2.toTyped hkv
      obtain ⟨hk', -, ha'⟩ := verification_secondary hr'.2.toTyped hkv'
      have hslot := (List.cons.inj (hk.symm.trans hk')).2
      refine (competes_iff hr'.2.toTyped hbest.1.2.toTyped).1 (hone rfl _ hbest.1.1 _ hr'.1
        ((isBest_iff hbest.1.2 hbest.1.1).1 hbest) ((mergeable_iff _).2 ⟨r', rfl, hr'.2⟩) (by simp [ha]) ?_)
      rw [ha, ha', hslot]
    | userData => simp [PlainStore.store, PlainStore.storeDef, secondary, secondaryOf, userDataStoreDef] at hk

variable [DbIterator]

/-- **Convergence of the four stores.** They converge on a set of messages exactly when, in the verification
    store, no two users verify one address. -/
theorem converges_iff (p : PlainStore) (ctx : StateContext) (msgs : List Message)
    (hfit : Fit (p.store ctx) msgs) (gen : Nat → HubEventIdGenerator) (hgen : ∀ i, (gen i).Ready) :
    (p.store ctx).Converges gen msgs ↔ (p = .verification → OneVerifierPerAddress (p.store ctx) msgs) :=
  (converges_iff_uncontested (p.plain ctx) hfit hgen (telling p hfit)).trans (uncontested_iff p hfit)

/-- **No entry without its message.** Whatever is merged, in any order and with repetitions, even if users
    contest an address: every entry of the four stores is one of a stored message, and for each conflict key
    the best message is stored and no other. -/
theorem mergeAll_entries (p : PlainStore) (ctx : StateContext) (msgs : List Message)
    (hfit : Fit (p.store ctx) msgs) (gen : Nat → HubEventIdGenerator) (hgen : ∀ i, (gen i).Ready)
    (order : List Message) (hsub : order ⊆ msgs) :
    let db := (p.store ctx).mergeAll gen order
    (∀ k v, k[0]? ≠ some RootPrefix.hubEvents.toByte → db k = some v →
      ∃ r, p.layout.Held ctx db r ∧ (k, v) ∈ p.layout.entries ctx r) ∧
    Champions conflictKey p.layout.rankOf {r | r.message ∈ order ∧ p.layout.Admits ctx r}
      {r | p.layout.Held ctx db r} := by
  have hsim := mergeAll_sim (p.plain ctx) (hfit.pool p.layout) hgen order hsub
  exact ⟨fun _ _ hk hv => hsim.only hk hv, hsim.champions⟩

/-! ### Two users and one address -/

@[reducible] def noProst : Prost := ⟨fun _ => none⟩

@[reducible] def noScan : DbIterator := ⟨fun _ _ _ => [], fun h => (List.not_mem_nil h).elim⟩

def sampleVerification (fid : UInt64) (timestamp : UInt32) (hash : UInt8) : Message where
  data := some ⟨MessageType.verificationAddEthAddress.toI32, fid, timestamp, 1,
    some (.verificationAddAddressBody [7] 0 ⟨[], [], 0, 0⟩)⟩
  hash := List.replicate 20 hash
  hashScheme := blake3
  signature := []
  signatureScheme := ed25519
  signer := []
  dataBytes := none

omit [Prost] [DbIterator] in
/-- One user may verify the address again, in any order. -/
theorem converges_iff_sample :
    @Converges noProst noScan (PlainStore.verification.store .legacy) (fun _ => ⟨1, 0⟩)
      [sampleVerification 1 10 1, sampleVerification 1 20 2] := by
  let _ := noProst
  let _ := noScan
  have hfit :
      Fit (PlainStore.verification.store .legacy) [sampleVerification 1 10 1, sampleVerification 1 20 2] := by
    refine ⟨by decide, ?_, ?_⟩ <;> simp only [List.mem_cons, List.not_mem_nil, or_false]
    · rintro m (rfl | rfl) <;> rfl
    · rintro m (rfl | rfl) - <;> decide
  refine (converges_iff .verification .legacy _ hfit (fun _ => ⟨1, 0⟩) fun _ => by decide).2 fun _ => ?_
  simp only [OneVerifierPerAddress, List.mem_cons, List.not_mem_nil, or_false]
  rintro m (rfl | rfl) m' (rfl | rfl) - - - - <;> rfl

omit [Prost] [DbIterator] in
/-- Two users verify one address: the by-address index ends with the fid of whoever was merged last. -/
theorem verification_index_order_dependent :
    @mergeAll noProst noScan (PlainStore.verification.store .legacy) (fun _ => ⟨1, 0⟩)
        [sampleVerification 1 10 1, sampleVerification 2 20 2]
        (VerificationStoreDef.makeVerificationByAddressKey RootPrefix.verificationByAddress.toByte [7]) =
      some (.bytes (makeFidKey 2)) ∧
    @mergeAll noProst noScan (PlainStore.verification.store .legacy) (fun _ => ⟨1, 0⟩)
        [sampleVerification 2 20 2, sampleVerification 1 10 1]
        (VerificationStoreDef.makeVerificationByAddressKey RootPrefix.verificationByAddress.toByte [7]) =
      some (.bytes (makeFidKey 1)) := by
  constructor <;> rfl

omit [Prost] [DbIterator] in
/-- Two users contest an address, and one of them is merged again. -/
theorem mergeAll_entries_contested :
    let db := @mergeAll noProst noScan (PlainStore.verification.store .legacy) (fun _ => ⟨1, 0⟩)
      [sampleVerification 1 10 1, sampleVerification 2 20 2, sampleVerification 1 10 1]
    ∃ r, @Held _ verificationLayout .legacy noProst db r ∧
      (RootPrefix.verificationByAddress.toByte :: [7], .bytes (makeFidKey 2)) ∈
      verificationLayout.entries .legacy r := by
  let _ := noProst
  let _ := noScan
  have hfit :
      Fit (PlainStore.verification.store .legacy) [sampleVerification 1 10 1, sampleVerification 2 20 2] := by
    refine ⟨by decide, ?_, ?_⟩ <;> simp only [List.mem_cons, List.not_mem_nil, or_false]
    · rintro m (rfl | rfl) <;> rfl
    · rintro m (rfl | rfl) - <;> decide
  exact (mergeAll_entries .verification .legacy _ hfit (fun _ => ⟨1, 0⟩) (fun _ => by decide) _
    (by simp)).1 _ _ (by decide) rfl

end Store

end Hypersnap
