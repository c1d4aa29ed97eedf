import Mathlib.Data.List.Pairwise
import Hypersnap.Mempool.PoolKeys

/-!
# `Mempool.Delivery` — in which order block events leave the mempool

A shard takes the events of shard zero one after the other: an event whose number is not the next one is
rejected. The pool hands its messages out in the order of their keys, and within one time the key of a block
event is its number **as a text**. So the events of one block come in sequence exactly if their numbers are in
the order of their texts (`pulls_in_sequence_iff`); after 9 comes 10, and "10" is before "9".
-/

namespace Hypersnap

open EState

variable {limited atAdmission : Bool} {offers : List Offer} {key : MempoolKey}

/-! ## The order of keys -/

namespace MempoolKey

def kindNat (key : MempoolKey) : Nat := key.messageKind.toNat

instance : Ord MempoolKey :=
  ⟨compareLex (compareOn kindNat) (compareLex (compareOn timestamp) (compareOn identity))⟩

instance : Std.TransOrd MempoolKey :=
  inferInstanceAs
    (Std.TransCmp (compareLex (compareOn kindNat) (compareLex (compareOn timestamp) (compareOn identity))))

instance : Std.LawfulEqOrd MempoolKey where
  eq_of_compare {a b} h := by
    have hlex : (compare a.messageKind.toNat b.messageKind.toNat).then
      ((compare a.timestamp b.timestamp).then (compare a.identity b.identity)) = .eq := h
    rw [Ordering.then_eq_eq, Ordering.then_eq_eq] at hlex
    obtain ⟨kind, time, text⟩ := a
    obtain ⟨kind', time', text'⟩ := b
    have hkind : kind.toNat = kind'.toNat := Std.LawfulEqOrd.eq_of_compare hlex.1
    have htime : time = time' := Std.LawfulEqOrd.eq_of_compare hlex.2.1
    have htext : text = text' := Std.LawfulEqOrd.eq_of_compare hlex.2.2
    have hkinds : kind = kind' := by
      cases kind <;> cases kind' <;> first | rfl | cases hkind
    rw [hkinds, htime, htext]

theorem compare_eq_lt_iff {a b : MempoolKey} (hkind : a.messageKind = b.messageKind) :
    compare a b = .lt ↔
      a.timestamp < b.timestamp ∨ a.timestamp = b.timestamp ∧ bytesCompare a.identity b.identity = .lt := by
  have hlex : compare a b = (compare a.messageKind.toNat b.messageKind.toNat).then
    ((compare a.timestamp b.timestamp).then (compare a.identity b.identity)) := rfl
  have hself : compare a.messageKind.toNat b.messageKind.toNat = .eq := by
    rw [hkind]
    exact Std.ReflCmp.compare_self
  rw [hlex, hself, Ordering.then_eq_lt, Ordering.then_eq_lt, Std.compare_eq_lt,
    Std.LawfulEqOrd.compare_eq_iff_eq]
  simp only [reduceCtorEq, false_or, true_and, bytesCompare]

end MempoolKey

/-! ## Pools in order -/

namespace ShardPool

def Ordered (pool : ShardPool) : Prop := pool.Pairwise fun a b => compare a.1 b.1 = .lt

theorem Ordered.orderedInsert {pool : ShardPool} (h : Ordered pool) {e : MempoolKey × MempoolMessage}
    (hnew : ∀ x ∈ pool, x.1 ≠ e.1) :
    Ordered (pool.orderedInsert (fun a b => MempoolKey.le a.1 b.1 = true) e) := by
  induction pool with
  | nil => exact List.pairwise_singleton _ _
  | cons y ys ih =>
    obtain ⟨hy, hys⟩ := List.pairwise_cons.1 h
    rw [List.orderedInsert_cons]
    split
    next hle =>
      have hlt : compare e.1 y.1 = .lt := (Ordering.isLE_iff_eq_lt_or_eq_eq.1 hle).resolve_right fun heq =>
        hnew y List.mem_cons_self (Std.LawfulEqOrd.eq_of_compare heq).symm
      exact List.pairwise_cons.2
        ⟨List.forall_mem_cons.2 ⟨hlt, fun z hz => Std.TransCmp.lt_trans hlt (hy z hz)⟩, h⟩
    next hgt =>
      have hlt : compare y.1 e.1 = .lt :=
        Std.OrientedCmp.gt_iff_lt.1 (Ordering.isLE_eq_false.1 (eq_false_of_ne_true hgt))
      refine List.pairwise_cons.2 ⟨fun z hz => ?_, ih hys fun x hx => hnew x (List.mem_cons_of_mem _ hx)⟩
      rcases (List.mem_orderedInsert _).1 hz with rfl | hz
      · exact hlt
      · exact hy z hz

end ShardPool

/-! ## Offers and pulls -/

namespace Mempool

section runs
variable [Platform]

/-- A message on offer: what the mempool reads then, and what the rate limiters say. -/
structure Offer where
  env : MempoolEnv
  message : MempoolMessage
  limited : UInt32 → Bool

def insertAll : List Offer → Mempool → Option Mempool
  | [], self => some self
  | offer :: offers, self => do
    let (_, self) ← self.insert offer.env offer.message offer.limited
    insertAll offers self

def pullAll (shard : UInt32) : List (MempoolEnv × UInt32) → Mempool → Option (List MempoolMessage × Mempool)
  | [], self => some ([], self)
  | (env, maxMessagesPerBlock) :: pulls, self => do
    let (pulled, self) ← self.pullMessages env shard maxMessagesPerBlock
    let (messages, self) ← pullAll shard pulls self
    some (pulled.messages ++ messages, self)

/-! ### What is in a pool -/

variable {self self' : Mempool} {shard : UInt32} {message : MempoolMessage} {env : MempoolEnv} {offer : Offer}
  {pulled : Pulled} {messages : List MempoolMessage} {rest : ShardPool}

/-- The message of the entry was offered to this pool, and was valid then. -/
def WasOffered (offers : List Offer) (shard : UInt32) (e : MempoolKey × MempoolMessage) : Prop :=
  ∃ offer ∈ offers, ∃ shards, offer.message = e.2 ∧ routeMempoolMessage offer.env e.2 = some shards ∧
    shard ∈ shards ∧
    messageIsValid offer.env shard e.2 true (offer.limited shard) = .ok ()

/-- The pool of a shard after some offers. -/
structure Filled (offers : List Offer) (shard : UInt32) (pools : Mempool) : Prop where
  ordered : ShardPool.Ordered (pools.pool shard)
  keyed : ∀ e ∈ pools.pool shard, e.2.mempoolKey = some e.1
  offered : ∀ e ∈ pools.pool shard, WasOffered offers shard e

theorem Filled.insertIntoShard {other : UInt32} {shards : List UInt32} (h : Filled offers shard self)
    (hmem : offer ∈ offers) (hroute : routeMempoolMessage offer.env offer.message = some shards)
    (hother : other ∈ shards)
    (hinsert : self.insertIntoShard offer.env other offer.message (offer.limited other) = .ok self') :
    Filled offers shard self' := by
  obtain ⟨hvalid, key, hkey, hnew, rfl⟩ := insertIntoShard_cases hinsert
  by_cases hshard : shard = other
  · subst hshard
    refine ⟨?_, ?_, ?_⟩
    · rw [pool_setPool_self]
      exact h.ordered.orderedInsert hnew
    · intro e he
      rw [pool_setPool_self, List.mem_orderedInsert] at he
      rcases he with rfl | he
      · exact hkey
      · exact h.keyed e he
    · intro e he
      rw [pool_setPool_self, List.mem_orderedInsert] at he
      rcases he with rfl | he
      · exact ⟨offer, hmem, shards, rfl, hroute, hother, hvalid⟩
      · exact h.offered e he
  · constructor <;> rw [pool_setPool_of_ne hshard]
    exacts [h.ordered, h.keyed, h.offered]

theorem Filled.insertIntoShards {all shards : List UInt32} {errors : List HubError}
    (h : Filled offers shard self) (hmem : offer ∈ offers)
    (hroute : routeMempoolMessage offer.env offer.message = some all) (hshards : shards ⊆ all)
    (hinsert : Mempool.insertIntoShards offer.env offer.message offer.limited shards self =
      some (errors, self')) :
    Filled offers shard self' := by
  induction shards generalizing self errors with
  | nil =>
    cases hinsert
    exact h
  | cons first shards ih =>
    obtain ⟨hfirst, hshards⟩ := List.cons_subset.1 hshards
    unfold Mempool.insertIntoShards at hinsert
    split at hinsert
    · cases hinsert
    · obtain ⟨⟨rest, self''⟩, hrest, hinsert⟩ := Option.bind_eq_some_iff.1 hinsert
      cases hinsert
      exact ih h hshards hrest
    next taken htaken => exact ih (h.insertIntoShard hmem hroute hfirst htaken) hshards hinsert

theorem Filled.insertAll {all : List Offer} (hsub : offers ⊆ all) (h : Filled all shard self)
    (hrun : Mempool.insertAll offers self = some self') : Filled all shard self' := by
  induction offers generalizing self with
  | nil =>
    cases hrun
    exact h
  | cons offer offers ih =>
    obtain ⟨hoffer, hsub⟩ := List.cons_subset.1 hsub
    obtain ⟨⟨reply, self₁⟩, hinsert, hrun⟩ := Option.bind_eq_some_iff.1 hrun
    obtain ⟨shards, hroute, hinsert⟩ := Option.bind_eq_some_iff.1 hinsert
    obtain ⟨⟨errors, self₂⟩, hinsert, hreply⟩ := Option.bind_eq_some_iff.1 hinsert
    cases hreply
    exact ih hsub (h.insertIntoShards hoffer hroute (List.Subset.refl _) hinsert) hrun

theorem filled_new (offers : List Offer) (shard : UInt32) : Filled offers shard new :=
  ⟨List.Pairwise.nil, fun _ h => (nomatch h), fun _ h => nomatch h⟩

/-! ### What is pulled -/

theorem pullMessages_sublist {maxMessages : UInt32}
    (h : self.pullMessages env shard maxMessages = some (pulled, self')) :
    (pulled.messages ++ (self'.pool shard).map (·.2)).Sublist ((self.pool shard).map (·.2)) := by
  obtain ⟨⟨taken, htaken, hmessages, -⟩, -⟩ := pullMessages_spec h
  rw [hmessages, htaken, List.map_append]
  exact List.filter_sublist.append_right _

theorem pullAll_sublist {pulls : List (MempoolEnv × UInt32)}
    (h : pullAll shard pulls self = some (messages, self')) :
    messages.Sublist ((self.pool shard).map (·.2)) := by
  induction pulls generalizing self messages with
  | nil =>
    cases h
    exact List.nil_sublist _
  | cons pull pulls ih =>
    obtain ⟨⟨pulled, self₁⟩, hpull, h⟩ := Option.bind_eq_some_iff.1 h
    obtain ⟨⟨rest, self₂⟩, hrest, h⟩ := Option.bind_eq_some_iff.1 h
    cases h
    exact ((ih hrest).append_left _).trans (pullMessages_sublist hpull)

theorem pullMessages_of_ok (hpool : self.messages shard = some ((key, message) :: rest))
    (hvalid : messageIsValid env shard message false false = .ok ()) :
    self.pullMessages env shard 1 = some (⟨[message], [], rest⟩, self.setPool shard rest) := by
  have hzero : pullFrom env shard 0 rest = some ⟨[], [], rest⟩ := by cases rest <;> rfl
  have hfrom : pullFrom env shard 1 ((key, message) :: rest) = some ⟨[message], [], rest⟩ := by
    rw [pullFrom, hvalid, hzero]
    rfl
  have hone : (1 : UInt32).toNat = 1 := rfl
  rw [pullMessages, hpool, hone]
  simp only [hfrom]
  rfl

theorem pullMessages_of_err {e : HubError} (hpool : self.messages shard = some ((key, message) :: rest))
    (hvalid : messageIsValid env shard message false false = .error (.err e)) {after : Mempool}
    (hrest : (self.setPool shard rest).pullMessages env shard 1 = some (pulled, after)) :
    self.pullMessages env shard 1 = some ({ pulled with dropped := message :: pulled.dropped }, after) := by
  have hone : (1 : UInt32).toNat = 1 := rfl
  have hset : (self.setPool shard rest).messages shard = some rest := Function.update_self ..
  rw [pullMessages, hset, hone] at hrest
  obtain ⟨pulled', hpulled, hrest⟩ := Option.bind_eq_some_iff.1 hrest
  cases hrest
  have hfrom : pullFrom env shard 1 ((key, message) :: rest) =
      some { pulled with dropped := message :: pulled.dropped } := by
    rw [pullFrom, hvalid]
    simp only [hpulled]
    rfl
  rw [pullMessages, hpool, hone]
  simp only [hfrom]
  have hupdate : (self.setPool shard rest).setPool shard pulled.left = self.setPool shard pulled.left := by
    simp only [setPool, Function.update_idem]
  rw [hupdate]
  rfl

/-- If no message of the pool makes a pull panic, then some pulls of one message each return all that are
    valid. -/
theorem exists_pullAll {pool : ShardPool} (hpool : self.messages shard = some pool)
    (hsafe : ∀ e ∈ pool, messageIsValid env shard e.2 false false ≠ .error .panic) :
    ∃ n after, pullAll shard (List.replicate n (env, 1)) self =
      some ((pool.map (·.2)).filter (isPullable env shard), after) := by
  induction pool generalizing self with
  | nil => exact ⟨0, self, rfl⟩
  | cons first rest ih =>
    obtain ⟨key, message⟩ := first
    obtain ⟨n, after, hrest⟩ := @ih (self.setPool shard rest) (Function.update_self ..)
      fun e he => hsafe e (List.mem_cons_of_mem _ he)
    rw [List.map_cons, List.filter_cons]
    cases hvalid : messageIsValid env shard message false false with
    | ok _ =>
      refine ⟨n + 1, after, ?_⟩
      have htrue : isPullable env shard message = true := by rw [isPullable, hvalid]
      rw [if_pos htrue, List.replicate_succ, pullAll, pullMessages_of_ok hpool hvalid]
      simp only [Option.bind_eq_bind, Option.bind_some, hrest]
      rfl
    | error stop =>
      have hfalse : ¬ isPullable env shard message = true := by simp [isPullable, hvalid]
      rw [if_neg hfalse]
      cases stop with
      | panic => exact absurd hvalid (hsafe _ List.mem_cons_self)
      | err e =>
        cases n with
        | zero =>
          refine ⟨0, self, ?_⟩
          cases hnone : (rest.map (·.2)).filter (isPullable env shard) with
          | nil => rfl
          | cons m ms =>
            rw [hnone] at hrest
            cases hrest
        | succ n =>
          refine ⟨n + 1, after, ?_⟩
          rw [List.replicate_succ, pullAll] at hrest ⊢
          obtain ⟨⟨pulled, after₁⟩, hpull, hrest⟩ := Option.bind_eq_some_iff.1 hrest
          rw [pullMessages_of_err hpool hvalid hpull]
          exact hrest

/-! ### When messages are valid -/

theorem messageIsValid_eq_ok_iff : messageIsValid env shard message atAdmission limited = .ok () ↔
      checkFeature env message = .ok () ∧ checkBlockEvent env message = .ok () ∧
        messageAlreadyExists env shard message = .ok false ∧ message.fid.isSome = true ∧
        (atAdmission && message.isUserMessage && limited) = false := by
  unfold messageIsValid
  simp only [except_bind_eq_ok, Unique.exists_iff, Bool.exists_bool, reduceCtorEq, ↓reduceIte, false_and,
    and_false, or_false]
  cases message.fid with
  | none => simp
  | some fid => simp only [ensure_eq_ok, Bool.not_eq_true', Option.isSome_some, true_and]

theorem messageIsValid_panic (h : messageIsValid env shard message atAdmission limited = .error .panic) :
    checkBlockEvent env message = .error .panic ∨ messageAlreadyExists env shard message = .error .panic ∨
      message.fid = none := by
  have hensure {ok : Bool} {e : HubError} (hpanic : ensure ok (.err e) = .error (.panic : Stop HubError)) :
      False := by
    unfold ensure at hpanic
    split at hpanic <;> cases hpanic
  unfold messageIsValid at h
  rcases except_bind_eq_error.1 h with h | ⟨_, -, h⟩
  · unfold checkFeature at h
    split at h
    · exact (hensure h).elim
    · cases h
  rcases except_bind_eq_error.1 h with h | ⟨_, -, h⟩
  · exact .inl h
  rcases except_bind_eq_error.1 h with h | ⟨merged, -, h⟩
  · exact .inr (.inl h)
  cases hfid : message.fid with
  | none => exact .inr (.inr rfl)
  | some fid =>
    rw [hfid] at h
    cases merged with
    | true => cases h
    | false => exact (hensure h).elim

theorem checkBlockEvent_eq_ok_iff {forShard : UInt32} {event : BlockEvent} :
    checkBlockEvent env (.blockEvent forShard event) = .ok () ↔
      forShard ≠ 0 ∧ ∃ db, env.shardStores forShard = some db ∧ ∀ max, maxSeqnum db = .ok max →
        ∃ seqnum, event.seqnum = some seqnum ∧ max < seqnum := by
  unfold checkBlockEvent
  constructor
  · intro h
    obtain ⟨_, hshard, h⟩ := except_bind_eq_ok.1 h
    rw [ensure_eq_ok, bne_iff_ne] at hshard
    refine ⟨hshard, ?_⟩
    cases hstore : env.shardStores forShard with
    | none =>
      rw [hstore] at h
      cases h
    | some db =>
      refine ⟨db, rfl, fun max hmax => ?_⟩
      simp only [hstore, hmax] at h
      cases hseqnum : event.seqnum with
      | none =>
        rw [hseqnum] at h
        cases h
      | some seqnum =>
        simp only [hseqnum, ensure_eq_ok, decide_eq_true_eq] at h
        exact ⟨seqnum, rfl, h⟩
  · rintro ⟨hshard, db, hstore, hmax⟩
    have hnonzero : (forShard != 0) = true := bne_iff_ne.2 hshard
    simp only [hnonzero, hstore]
    cases hread : maxSeqnum db with
    | error e => rfl
    | ok max =>
      obtain ⟨seqnum, hseqnum, hlt⟩ := hmax max hread
      simp only [hseqnum, hlt, decide_true]
      rfl

/-- A message that was valid once may be found invalid later, but the check does not panic. -/
theorem messageIsValid_ne_panic {env' : MempoolEnv}
    (hvalid : messageIsValid env shard message atAdmission limited = .ok ())
    (hkey : message.mempoolKey = some key)
    (hshard : ∀ forShard event, message = .blockEvent forShard event → forShard = shard)
    (hstore : (env.shardStores shard).isSome = true) (hstore' : (env'.shardStores shard).isSome = true) :
    messageIsValid env' shard message false false ≠ .error .panic := by
  intro hpanic
  obtain ⟨-, -, hmerged, hfid, -⟩ := messageIsValid_eq_ok_iff.1 hvalid
  obtain ⟨db, hstore⟩ := Option.isSome_iff_exists.1 hstore
  obtain ⟨db', hstore'⟩ := Option.isSome_iff_exists.1 hstore'
  rcases messageIsValid_panic hpanic with h | h | h
  · cases message with
    | blockEvent forShard event =>
      obtain ⟨data, hdata, -⟩ := Option.map_eq_some_iff.1 hkey
      have hseqnum : event.seqnum = some data.seqnum := by rw [BlockEvent.seqnum, hdata, Option.map_some]
      obtain rfl := hshard forShard event rfl
      unfold checkBlockEvent at h
      simp only [hstore', hseqnum, ensure] at h
      split at h
      · cases hmax : maxSeqnum db' with
        | error e => simp only [hmax] at h; cases h
        | ok max =>
          simp only [hmax] at h
          change (if _ then _ else _) = _ at h
          split at h <;> cases h
      · cases h
    | userMessage | onchainEvent | onchainEventForMigration | fnameTransfer => cases h
  · cases message with
    | userMessage m =>
      unfold messageAlreadyExists at h hmerged
      rw [hstore'] at h
      rw [hstore] at hmerged
      cases hdata : m.data with
      | none =>
        simp only [hdata] at h
        cases h
      | some data =>
        simp only [hdata] at h hmerged
        cases htsHash : makeTsHash data.timestamp m.hash with
        | error e =>
          rw [htsHash] at hmerged
          cases hmerged
        | ok tsHash =>
          simp only [htsHash] at h
          split at h
          · cases h
          · split at h <;> cases h
    | blockEvent | onchainEvent | onchainEventForMigration | fnameTransfer =>
      unfold messageAlreadyExists at h
      rw [hstore'] at h
      cases h
  · rw [h] at hfid
    cases hfid

/-! ## Block events in sequence -/

def blockEventData : MempoolMessage → Option BlockEventData
  | .blockEvent _ event => event.data
  | _ => none

def seqnums (messages : List MempoolMessage) : List UInt64 :=
  (messages.filterMap blockEventData).map (·.seqnum)

/-- A block event for the shard with this data is on offer. -/
def OffersEvent (offers : List Offer) (shard : UInt32) (data : BlockEventData) : Prop :=
  ∃ offer ∈ offers, ∃ event, offer.message = .blockEvent shard event ∧ event.data = some data

/-- Block events as they are made: no number twice, and times do not go back. -/
structure Sequenced (Made : BlockEventData → Prop) : Prop where
  unique : ∀ a b, Made a → Made b → a.seqnum = b.seqnum → a = b
  time_le : ∀ a b, Made a → Made b → a.seqnum < b.seqnum → a.blockTimestamp ≤ b.blockTimestamp

def blockEvents (self : Mempool) (shard : UInt32) : List BlockEventData :=
  ((self.pool shard).map (·.2)).filterMap blockEventData

/-- **The numbers of one time are in the order of their texts.** -/
def InTextOrder (events : List BlockEventData) : Prop :=
  ∀ a ∈ events, ∀ b ∈ events, a.seqnum < b.seqnum → a.blockTimestamp = b.blockTimestamp →
    bytesCompare (decimal a.seqnum.toNat) (decimal b.seqnum.toNat) = .lt

variable {offers : List Offer} {e : MempoolKey × MempoolMessage} {data : BlockEventData}

theorem Filled.blockEvent (h : Filled offers shard self) (he : e ∈ self.pool shard)
    (hdata : blockEventData e.2 = some data) :
    (∃ event, e.2 = .blockEvent shard event ∧ event.data = some data) ∧ OffersEvent offers shard data ∧
      e.1 = ⟨.validatorMessage, data.blockTimestamp, decimal data.seqnum.toNat⟩ := by
  obtain ⟨key, message⟩ := e
  cases message with
  | blockEvent forShard event =>
    have hdata : event.data = some data := hdata
    have hkey : event.data.map _ = some key := h.keyed _ he
    rw [hdata, Option.map_some] at hkey
    obtain ⟨offer, hoffer, shards, hmessage, hroute, hshard, -⟩ := h.offered _ he
    obtain ⟨fid, -, hroute⟩ := Option.bind_eq_some_iff.1 hroute
    cases hroute
    cases List.mem_singleton.1 hshard
    exact ⟨⟨event, rfl, hdata⟩, ⟨offer, hoffer, event, hmessage, hdata⟩, (Option.some.inj hkey).symm⟩
  | userMessage | onchainEvent | onchainEventForMigration | fnameTransfer => cases hdata

/-- In a pool whose events are in text order, events come in sequence. -/
theorem Filled.pairwise_seqnum (h : Filled offers shard self) (hseq : Sequenced (OffersEvent offers shard))
    (htext : InTextOrder (self.blockEvents shard)) :
    (self.pool shard).Pairwise fun x y => ∀ a, blockEventData x.2 = some a →
    ∀ b, blockEventData y.2 = some b →
      a.seqnum < b.seqnum := by
  refine h.ordered.imp_of_mem fun {x y} hx hy hlt a ha b hb => ?_
  obtain ⟨-, hmade, hkey⟩ := h.blockEvent hx ha
  obtain ⟨-, hmade', hkey'⟩ := h.blockEvent hy hb
  rw [MempoolKey.compare_eq_lt_iff (by rw [hkey, hkey']), hkey, hkey'] at hlt
  dsimp only at hlt
  have hmem {z : MempoolKey × MempoolMessage} {c : BlockEventData} (hz : z ∈ self.pool shard)
      (hc : blockEventData z.2 = some c) : c ∈ self.blockEvents shard :=
    List.mem_filterMap.2 ⟨z.2, List.mem_map_of_mem hz, hc⟩
  refine UInt64.not_le.1 fun hle => ?_
  rcases UInt64.lt_or_eq_of_le hle with hless | hsame
  · -- the later number has the earlier time, or the earlier text
    rcases hlt with htime | ⟨htime, hidentity⟩
    · exact absurd (hseq.time_le b a hmade' hmade hless) (UInt64.not_le.2 htime)
    · have hbefore := htext b (hmem hy hb) a (hmem hx ha) hless htime.symm
      rw [bytesCompare_gt_iff.2 hbefore] at hidentity
      cases hidentity
  · cases hseq.unique b a hmade' hmade hsame
    rcases hlt with htime | ⟨-, hidentity⟩
    · exact UInt64.lt_irrefl _ htime
    · simp [bytesCompare_eq_iff.2 rfl] at hidentity

omit [Platform] in
theorem pairwise_seqnums :
    (seqnums messages).Pairwise (· < ·) ↔ messages.Pairwise fun x y => ∀ a, blockEventData x = some a →
      ∀ b, blockEventData y = some b → a.seqnum < b.seqnum := by
  rw [seqnums, List.pairwise_map, List.pairwise_filterMap]

theorem isPullable_of_lt {event event' : BlockEvent} {a b : BlockEventData}
    (hvalid : messageIsValid env shard (.blockEvent shard event) true limited = .ok ())
    (ha : event.data = some a) (hfid : (MempoolMessage.blockEvent shard event').fid.isSome = true)
    (hb : event'.data = some b) (hle : a.seqnum ≤ b.seqnum) :
    isPullable env shard (.blockEvent shard event') = true := by
  obtain ⟨-, hevent, -, -, -⟩ := messageIsValid_eq_ok_iff.1 hvalid
  obtain ⟨hshard, db, hstore, hmax⟩ := checkBlockEvent_eq_ok_iff.1 hevent
  have hok : messageIsValid env shard (.blockEvent shard event') false false = .ok () := by
    refine messageIsValid_eq_ok_iff.2
      ⟨rfl, checkBlockEvent_eq_ok_iff.2 ⟨hshard, db, hstore, fun max hread => ?_⟩, ?_, hfid, rfl⟩
    · obtain ⟨seqnum, hseqnum, hlt⟩ := hmax max hread
      rw [BlockEvent.seqnum, ha, Option.map_some] at hseqnum
      cases hseqnum
      exact ⟨b.seqnum, by rw [BlockEvent.seqnum, hb, Option.map_some], UInt64.lt_of_lt_of_le hlt hle⟩
    · unfold messageAlreadyExists
      rw [hstore]
  rw [isPullable, hok]

/-- **Block events in sequence.** After messages have been offered to the pool of a shard, in any order, all
    pulls return the block events of the shard in the order of their numbers, exactly if the events of the
    pool that have one time are in the order of the texts of their numbers. -/
theorem pulls_in_sequence_iff (offers : List Offer) (shard : UInt32) (self : Mempool)
    (hrun : insertAll offers new = some self)
    (hstores : ∀ offer ∈ offers, (offer.env.shardStores shard).isSome = true)
    (hseq : Sequenced (OffersEvent offers shard)) :
    (∀ pulls messages after, pullAll shard pulls self = some (messages, after) →
      (seqnums messages).Pairwise (· < ·)) ↔
      InTextOrder (self.blockEvents shard) := by
  have hfilled : Filled offers shard self := (filled_new offers shard).insertAll (List.Subset.refl _) hrun
  constructor
  · intro hpulls a ha b hb hlt htime
    rw [Mempool.blockEvents, List.filterMap_map, List.mem_filterMap] at ha hb
    obtain ⟨x, hx, ha⟩ := ha
    obtain ⟨y, hy, hb⟩ := hb
    obtain ⟨⟨event, hxevent, hdata⟩, -, hkey⟩ := hfilled.blockEvent hx ha
    obtain ⟨⟨event', hyevent, hdata'⟩, -, hkey'⟩ := hfilled.blockEvent hy hb
    obtain ⟨offer, hoffer, -, -, -, -, hvalid⟩ := hfilled.offered x hx
    obtain ⟨offer', -, -, -, -, -, hvalid'⟩ := hfilled.offered y hy
    -- pull in the state of the stores in which the first event was taken
    have hsafe : ∀ e ∈ self.pool shard, messageIsValid offer.env shard e.2 false false ≠ .error .panic := by
      intro e he
      obtain ⟨offer₁, hoffer₁, shards, -, hroute, hshard, hvalid₁⟩ := hfilled.offered e he
      refine messageIsValid_ne_panic hvalid₁ (hfilled.keyed e he) ?_ (hstores _ hoffer₁) (hstores _ hoffer)
      intro forShard event₁ heq
      rw [heq] at hroute
      obtain ⟨fid, -, hroute⟩ := Option.bind_eq_some_iff.1 hroute
      cases hroute
      exact (List.mem_singleton.1 hshard).symm
    have hpool : self.messages shard = some (self.pool shard) := by
      cases hmessages : self.messages shard with
      | none => simp [Mempool.pool, hmessages] at hx
      | some pool => rw [Mempool.pool, hmessages, Option.getD_some]
    obtain ⟨n, after, hpull⟩ := exists_pullAll hpool hsafe
    have hpairs := hpulls _ _ _ hpull
    rw [pairwise_seqnums, List.pairwise_filter, List.pairwise_map] at hpairs
    have hpullable : isPullable offer.env shard x.2 = true := by
      rw [hxevent] at hvalid ⊢
      exact isPullable_of_lt hvalid hdata (messageIsValid_eq_ok_iff.1 hvalid).2.2.2.1 hdata (UInt64.le_refl _)
    have hpullable' : isPullable offer.env shard y.2 = true := by
      rw [hxevent] at hvalid
      rw [hyevent] at hvalid' ⊢
      exact isPullable_of_lt hvalid hdata (messageIsValid_eq_ok_iff.1 hvalid').2.2.2.1 hdata'
        (UInt64.le_of_lt hlt)
    -- one of the two comes first, and it is not the one with the greater number
    let Before (u v : MempoolKey × MempoolMessage) : Prop := compare u.1 v.1 = .lt ∧
      (isPullable offer.env shard u.2 = true → isPullable offer.env shard v.2 = true →
        ∀ c, blockEventData u.2 = some c → ∀ d, blockEventData v.2 = some d → c.seqnum < d.seqnum)
    have hbefore : (self.pool shard).Pairwise Before := hfilled.ordered.and hpairs
    have hsymm : Std.Symm fun u v => Before u v ∨ Before v u := ⟨fun _ _ h => h.symm⟩
    have hne : x ≠ y := by
      rintro rfl
      cases ha.symm.trans hb
      exact UInt64.lt_irrefl _ hlt
    rcases (hbefore.imp Or.inl : (self.pool shard).Pairwise fun u v => Before u v ∨ Before v u).forall hx hy
      hne with h | h
    · have horder := h.1
      rw [MempoolKey.compare_eq_lt_iff (by rw [hkey, hkey']), hkey, hkey'] at horder
      rcases horder with hearlier | ⟨-, hidentity⟩
      · exact absurd htime (UInt64.ne_of_lt hearlier)
      · exact hidentity
    · exact absurd (h.2 hpullable' hpullable b hb a ha) (UInt64.not_lt.2 (UInt64.le_of_lt hlt))
  · intro htext pulls messages after hpull
    rw [pairwise_seqnums]
    have hpairs := hfilled.pairwise_seqnum hseq htext
    have hmap : ((self.pool shard).map (·.2)).Pairwise fun x y => ∀ a, blockEventData x = some a →
      ∀ b, blockEventData y = some b → a.seqnum < b.seqnum := List.pairwise_map.2 hpairs
    exact hmap.sublist (pullAll_sublist hpull)

end runs

/-! ### The ninth and the tenth event -/

/-- A clock at zero, and an empty store for shard 1. -/
def sampleMempoolEnv : MempoolEnv := ⟨.mainnet, 1, 0, fun _ => some fun _ => none⟩

def sampleOffers (first second : UInt64) : List Offer :=
  [⟨sampleMempoolEnv, sampleBlockEvent first 100, fun _ => false⟩,
    ⟨sampleMempoolEnv, sampleBlockEvent second 100, fun _ => false⟩]

theorem sequenced_sampleOffers {first second : UInt64} :
    Sequenced (OffersEvent (sampleOffers first second) 1) := by
  have hmade {data : BlockEventData} (h : OffersEvent (sampleOffers first second) 1 data) :
      data = ⟨first, 0, 1, 0, 100, none⟩ ∨ data = ⟨second, 0, 1, 0, 100, none⟩ := by
    obtain ⟨offer, hoffer, event, hmessage, hdata⟩ := h
    rcases List.mem_cons.1 hoffer with rfl | hoffer
    · cases hmessage
      exact .inl (Option.some.inj hdata).symm
    · cases List.mem_singleton.1 hoffer
      cases hmessage
      exact .inr (Option.some.inj hdata).symm
  constructor
  · intro a b ha hb heq
    rcases hmade ha with rfl | rfl <;> rcases hmade hb with rfl | rfl <;> first | rfl | (cases heq; rfl)
  · intro a b ha hb _
    rcases hmade ha with rfl | rfl <;> rcases hmade hb with rfl | rfl <;> exact UInt64.le_refl _

/-- Events 8 and 9 come in sequence. -/
theorem pulls_in_sequence_nine :
    let _ := samplePlatform (keyScan [])
    ∃ self, insertAll (sampleOffers 9 8) new = some self ∧ ∀ pulls messages after,
      pullAll 1 pulls self = some (messages, after) → (seqnums messages).Pairwise (· < ·) := by
  intro _
  have hrun : ∃ self, insertAll (sampleOffers 9 8) new = some self ∧ self.pool 1 =
      [(⟨.validatorMessage, 100, decimal 8⟩, sampleBlockEvent 8 100),
        (⟨.validatorMessage, 100, decimal 9⟩, sampleBlockEvent 9 100)] :=
    ⟨_, rfl, rfl⟩
  obtain ⟨self, hrun, hpool⟩ := hrun
  refine ⟨self, hrun, (pulls_in_sequence_iff (sampleOffers 9 8) 1 self hrun ?_ sequenced_sampleOffers).2 ?_⟩
  · intro offer hoffer
    rcases List.mem_cons.1 hoffer with rfl | hoffer
    · rfl
    · cases List.mem_singleton.1 hoffer
      rfl
  · have hevents : self.blockEvents 1 = [⟨8, 0, 1, 0, 100, none⟩, ⟨9, 0, 1, 0, 100, none⟩] := by
      rw [Mempool.blockEvents, hpool]
      rfl
    rw [hevents]
    unfold InTextOrder
    decide

/-- Event 10 comes before event 9. -/
theorem pulls_ten_before_nine :
    let _ := samplePlatform (keyScan [])
    Sequenced (OffersEvent (sampleOffers 9 10) 1) ∧ ∃ self after,
      insertAll (sampleOffers 9 10) new = some self ∧
      pullAll 1 [(sampleMempoolEnv, 1), (sampleMempoolEnv, 1)] self =
        some ([sampleBlockEvent 10 100, sampleBlockEvent 9 100], after) ∧
      ¬ (seqnums [sampleBlockEvent 10 100, sampleBlockEvent 9 100]).Pairwise (· < ·) := by
  intro _
  exact ⟨sequenced_sampleOffers, _, _, rfl, rfl, by decide⟩

end Mempool

end Hypersnap
