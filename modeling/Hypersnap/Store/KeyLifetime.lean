import Hypersnap.Lib.SlidingWindow
import Hypersnap.Store.KeyAtomicity

/-!
# `Store.KeyLifetime` — how long a gasless key lives

A gasless key is rejected once its time to live has passed since its last use. `check_and_bump_last_used_at`
compares with the time of the **block**, and what it stores is the time that the **message** carries, at most
every five minutes. So the key is a sliding window (`Lib.SlidingWindow`) whose renewals are message times: a
run of uses from the registration on is a run of that window (`UseRun.window`). Where the messages carry the
time of their block this is the expected lifetime; a message that is dated back renews less than its use would
suggest, and one that is dated ahead renews more.
-/

namespace Hypersnap

open Overlay EState

/-- One use of a key: the time that the message carries, and the time of the block that takes it. -/
structure KeyUse where
  messageTimestamp : UInt32
  blockTimestamp : UInt64

def KeyUse.toWindow (u : KeyUse) : SlidingWindow.Use ℕ := ⟨u.messageTimestamp.toNat, u.blockTimestamp.toNat⟩

section runs
variable (fid : UInt64) (key : Bytes) (ttl : UInt32)

def KeyUse.check (u : KeyUse) (db : RocksDB) : KeyM Unit :=
  checkAndBumpLastUsedAt db fid key ttl u.messageTimestamp u.blockTimestamp

/-- The check accepts the use. -/
def KeyUse.accepted (u : KeyUse) (db : RocksDB) (s : StoreState) : Bool :=
  match u.check fid key ttl db s with
  | .ok _ _ => true
  | .error _ _ => false

def lastUsedAtPath : Bytes := makeGaslessKey .gaslessKeyLastUsedAt (makeFidKey fid ++ key)

/-- **Uses of a key**, the latest first and each with its outcome. Between two uses anything may happen that
    leaves the time of the key alone: other messages, a commit of the batch, the next block. -/
inductive UseRun (start : RocksDB × StoreState) : List (KeyUse × Bool) → RocksDB × StoreState → Prop
  | start : UseRun start [] start
  | use {uses : List (KeyUse × Bool)} {db : RocksDB} {s : StoreState} (u : KeyUse) :
    UseRun start uses (db, s) →
      UseRun start ((u, u.accepted fid key ttl db s) :: uses) (db, stateOf (u.check fid key ttl db s))
  | elsewhere {uses : List (KeyUse × Bool)} {db db' : RocksDB} {s s' : StoreState} :
    UseRun start uses (db, s) →
      s'.view db' (lastUsedAtPath fid key) = s.view db (lastUsedAtPath fid key) → UseRun start uses (db', s')

end runs

/-! ## One use -/

section use
variable {db : RocksDB} {s : StoreState} {fid : UInt64} {key : Bytes} {ttl : UInt32}

theorem toUInt64_add_lt_iff {a b : UInt32} {c : UInt64} :
    a.toUInt64 + b.toUInt64 < c ↔ a.toNat + b.toNat < c.toNat := by
  have ha := a.toNat_lt
  have hb := b.toNat_lt
  rw [UInt64.lt_iff_toNat_lt, UInt64.toNat_add, UInt32.toNat_toUInt64, UInt32.toNat_toUInt64,
    Nat.mod_eq_of_lt (by omega)]

section

variable (hlen : key.length = ed25519PublicKeyLen)
include hlen

/-- **The check of a key whose time is stored**: it fails where it stands if the key has expired, and
    otherwise moves the time on if that is a gain of more than the throttle. -/
theorem KeyUse.check_ends {last : UInt32}
    (hlast : s.view db (lastUsedAtPath fid key) = some (numberValue last)) (u : KeyUse) :
    Ends (u.check fid key ttl db) s (fun _ s' => u.blockTimestamp.toNat ≤ last.toNat + ttl.toNat ∧
        s' = if last.toNat + 300 < u.messageTimestamp.toNat
          then s.put (lastUsedAtPath fid key) (numberValue u.messageTimestamp) else s)
      fun _ s' => last.toNat + ttl.toNat < u.blockTimestamp.toNat ∧ s' = s := by
  have hread : getLastUsedAt db s.txn fid key = .ok (some last) := by
    rw [getLastUsedAt, makeLastUsedAtKey_eq hlen]
    exact @getU32_eq db s "last_used_at value" (.lastUsedAt fid.toUInt32 ⟨key, hlen⟩) (some last) hlast
  have hthrottle : last.toUInt64 + slidingTtlThrottleSeconds < u.messageTimestamp.toUInt64 ↔
      last.toNat + 300 < u.messageTimestamp.toNat :=
    (@toUInt64_add_lt_iff last 300 _).trans (by rw [UInt32.toNat_toUInt64]; rfl)
  refine (checkAndBumpLastUsedAt_ends fid key ttl u.messageTimestamp u.blockTimestamp).mono ?_ ?_
  · rintro _ s' ⟨stored, hstored, hlive, rfl⟩
    cases hread.symm.trans hstored
    refine ⟨Nat.not_lt.1 (mt toUInt64_add_lt_iff.2 hlive), ?_⟩
    simp only [hthrottle]
    rfl
  · rintro _ s' ⟨rfl, hexpired⟩
    exact ⟨toUInt64_add_lt_iff.1 (hexpired last hread), rfl⟩

/-- **A use is a step of the window**: what it accepts and what it stores. -/
theorem KeyUse.check_window {last : UInt32}
    (hlast : s.view db (lastUsedAtPath fid key) = some (numberValue last)) (u : KeyUse) {start : ℕ}
    {uses : List (SlidingWindow.Use ℕ × Bool)}
    (hrun : SlidingWindow.Run ttl.toNat 300 start uses last.toNat) :
    ∃ last' : UInt32, (stateOf (u.check fid key ttl db s)).view db (lastUsedAtPath fid key) =
      some (numberValue last') ∧
      SlidingWindow.Run ttl.toNat 300 start
        ((u.toWindow, u.accepted fid key ttl db s) :: uses) last'.toNat := by
  have hends := @KeyUse.check_ends _ _ _ _ ttl hlen _ hlast u
  unfold KeyUse.accepted
  rw [Ends] at hends
  cases hcheck : u.check fid key ttl db s with
  | error e s' =>
    rw [hcheck] at hends
    obtain ⟨hexpired, rfl⟩ := hends
    exact ⟨last, hlast, .rejected u.toWindow hrun hexpired⟩
  | ok a s' =>
    rw [hcheck] at hends
    obtain ⟨hlive, rfl⟩ := hends
    have hnext := SlidingWindow.Run.accepted u.toWindow hrun hlive
    by_cases hbump : last.toNat + 300 < u.messageTimestamp.toNat
    · rw [SlidingWindow.renew, if_pos (show _ < u.toWindow.stamp from hbump)] at hnext
      refine ⟨u.messageTimestamp, ?_, hnext⟩
      rw [stateOf_ok, if_pos hbump, StoreState.view_put]
      exact Function.update_self ..
    · rw [SlidingWindow.renew, if_neg (show ¬ _ < u.toWindow.stamp from hbump)] at hnext
      refine ⟨last, ?_, hnext⟩
      rw [stateOf_ok, if_neg hbump]
      exact hlast

/-- **A run of uses is a run of the window.** -/
theorem UseRun.window {start last : RocksDB × StoreState} {uses : List (KeyUse × Bool)} {registered : UInt32}
    (hstart : start.2.view start.1 (lastUsedAtPath fid key) = some (numberValue registered))
    (hrun : UseRun fid key ttl start uses last) :
    ∃ time : UInt32, last.2.view last.1 (lastUsedAtPath fid key) = some (numberValue time) ∧
      SlidingWindow.Run ttl.toNat 300 registered.toNat
        (uses.map fun x => (x.1.toWindow, x.2)) time.toNat := by
  induction hrun with
  | start => exact ⟨registered, hstart, .start⟩
  | use u _ ih =>
    obtain ⟨time, htime, hwindow⟩ := ih
    exact u.check_window hlen htime hwindow
  | elsewhere _ hsame ih =>
    obtain ⟨time, htime, hwindow⟩ := ih
    exact ⟨time, hsame.trans htime, hwindow⟩

end

end use

/-! ## The registration -/

section registration
variable {db : RocksDB} {s : StoreState}

variable [Crypto]

/-- **A registration stores its own time.** -/
theorem mergeKeyAdd_lastUsedAt {msg : Message} {isReplay : Bool} {data : MessageData} {body : KeyAddBody}
    (hdata : msg.data = some data) (hbody : data.body = some (.keyAddBody body)) :
    Ends (mergeKeyAdd db msg isReplay) s
      (fun _ s' => body.key.length = ed25519PublicKeyLen ∧
        s'.view db (lastUsedAtPath data.fid body.key) = some (numberValue data.timestamp))
          fun _ _ => True := by
  refine (mergeKeyAdd_ends msg isReplay).mono ?_ fun _ _ _ => trivial
  rintro _ s' ⟨data', body', hdata', hbody', hadded⟩
  obtain rfl := Option.some.inj (hdata.symm.trans hdata')
  obtain rfl := Body.keyAddBody.inj (Option.some.inj (hbody.symm.trans hbody'))
  have hregister (record : GaslessKeyRecord) :
      (s.registerKey data.fid body.key body.nonce data.timestamp record).view db
      (lastUsedAtPath data.fid body.key) =
        some (numberValue data.timestamp) := by
    rw [StoreState.registerKey, StoreState.view_put]
    exact Function.update_self ..
  cases hadded with
  | again hlen => exact ⟨hlen, hregister _⟩
  | new hlen =>
    -- the counter is another entry
    have hother : lastUsedAtPath data.fid body.key ≠ makeGaslessKeyCountByFidKey data.fid :=
      makeGaslessKey_ne (by decide)
    refine ⟨hlen, ?_⟩
    rw [StoreState.view_put, Function.update_of_ne hother]
    exact hregister _

end registration

/-! ## The lifetime -/

/-- The times at which the key was renewed before a use: its registration, and the messages that were
    accepted. -/
def KeyRenewed (registered : UInt32) (before : List (KeyUse × Bool)) (time : UInt32) : Prop :=
  time = registered ∨ ∃ u, (u, true) ∈ before ∧ u.messageTimestamp = time

/-- Each use comes in a block no later than `gap` after the time that the message before it carries, the first
    one after the registration. -/
def RegularUse (registered : UInt32) (gap : ℕ) (uses : List KeyUse) : Prop :=
  List.IsChain
    (fun later earlier : KeyUse => later.blockTimestamp.toNat ≤ earlier.messageTimestamp.toNat + gap)
    (uses ++ [⟨registered, registered.toUInt64⟩])

theorem RegularUse.window {registered : UInt32} {ttl : ℕ} (httl : 300 ≤ ttl) {uses : List KeyUse}
    (h : RegularUse registered (ttl - 300) uses) :
    SlidingWindow.Regular ttl 300 registered.toNat (uses.map KeyUse.toWindow) := by
  have hchain :
      List.IsChain (fun later earlier : SlidingWindow.Use ℕ => later.now + 300 ≤ earlier.stamp + ttl)
      ((uses ++ [(⟨registered, registered.toUInt64⟩ : KeyUse)]).map KeyUse.toWindow) := by
    rw [List.isChain_map]
    refine h.imp fun later earlier hle => ?_
    simp only [KeyUse.toWindow]
    omega
  rw [List.map_append] at hchain
  exact hchain

/-- **How long a key lives.** From its registration on, a key with a time to live of at least five minutes is
    accepted as long as each use comes within the time to live less five minutes of the message before it; and
    a use that is accepted is within the time to live of the registration or of a message that was accepted
    before. -/
theorem key_lifetime [Crypto] {db : RocksDB} {s s₀ : StoreState} {msg : Message} {isReplay : Bool}
    {data : MessageData} {body : KeyAddBody} {event : HubEvent} (hdata : msg.data = some data)
    (hbody : data.body = some (.keyAddBody body)) (hregister : mergeKeyAdd db msg isReplay s = .ok event s₀)
    (httl : 300 ≤ body.ttl.toNat) {uses : List (KeyUse × Bool)} {last : RocksDB × StoreState}
    (hrun : UseRun data.fid body.key body.ttl (db, s₀) uses last) :
    (RegularUse data.timestamp (body.ttl.toNat - 300) (uses.map Prod.fst) → ∀ x ∈ uses, x.2 = true) ∧
    ∀ after before u, uses = after ++ (u, true) :: before → ∃ time, KeyRenewed data.timestamp before time ∧
      u.blockTimestamp.toNat ≤ time.toNat + body.ttl.toNat := by
  have hstored := @mergeKeyAdd_lastUsedAt db s _ msg isReplay data body hdata hbody
  rw [Ends, hregister] at hstored
  obtain ⟨hlen, hview⟩ := hstored
  obtain ⟨time, -, hwindow⟩ := hrun.window hlen hview
  constructor
  · intro hregular x hx
    have hgaps := hregular.window httl
    have hmap :
        (uses.map fun x => (x.1.toWindow, x.2)).map Prod.fst = (uses.map Prod.fst).map KeyUse.toWindow := by
      rw [List.map_map, List.map_map]
      rfl
    rw [← hmap] at hgaps
    exact hwindow.all_accepted (Nat.zero_le _) hgaps _ (List.mem_map_of_mem hx)
  · rintro after before u rfl
    rw [List.map_append, List.map_cons] at hwindow
    obtain ⟨t, ht, hnow⟩ := hwindow.recent_of_accepted
    rcases ht with rfl | ⟨v, hv, rfl⟩
    · exact ⟨data.timestamp, .inl rfl, hnow⟩
    · obtain ⟨⟨w, accepted⟩, hw, heq⟩ := List.mem_map.1 hv
      cases heq
      exact ⟨w.messageTimestamp, .inr ⟨w, hw, rfl⟩, hnow⟩

/-! ### Messages dated back and ahead -/

def sampleLease : Message :=
  { sampleKeyAdd with data := some ⟨MessageType.keyAdd.toI32, 5, 0, 1,
      some (.keyAddBody ⟨sampleGaslessKey, 1, [], 1000, 1, [1], 1, [], 1000⟩)⟩ }

def sampleLeased : StoreState :=
  stateOf (@mergeKeyAdd sampleKeyDb sampleKeyCrypto sampleLease false ⟨Batch.empty, ⟨1, 0⟩⟩)

theorem mergeKeyAdd_sampleLease :
    ∃ event, @mergeKeyAdd sampleKeyDb sampleKeyCrypto sampleLease false ⟨Batch.empty, ⟨1, 0⟩⟩ =
      .ok event sampleLeased := by
  obtain ⟨event, s', hr⟩ := exists_of_isOk (r := @mergeKeyAdd sampleKeyDb sampleKeyCrypto sampleLease false
    ⟨Batch.empty, ⟨1, 0⟩⟩) (by decide +kernel)
  rw [sampleLeased, hr]
  exact ⟨event, rfl⟩

theorem useRun_pair {u v : KeyUse} {first second : Bool}
    (hu : u.accepted 5 sampleGaslessKey 1000 sampleKeyDb sampleLeased = first)
    (hv : v.accepted 5 sampleGaslessKey 1000 sampleKeyDb
      (stateOf (u.check 5 sampleGaslessKey 1000 sampleKeyDb sampleLeased)) =
      second) :
    ∃ last, UseRun 5 sampleGaslessKey 1000 (sampleKeyDb, sampleLeased) [(v, second), (u, first)] last := by
  subst hu hv
  exact ⟨_, .use v (.use u .start)⟩

/-- Two uses in time: both are accepted, each within the time to live of a renewal. -/
theorem key_lifetime_pair :
    (∃ last, UseRun 5 sampleGaslessKey 1000 (sampleKeyDb, sampleLeased)
      [(⟨1400, 1400⟩, true), (⟨700, 700⟩, true)] last) ∧
      (∀ x ∈ [((⟨1400, 1400⟩ : KeyUse), true), (⟨700, 700⟩, true)], x.2 = true) ∧
      ∃ time, KeyRenewed 0 [(⟨700, 700⟩, true)] time ∧ 1400 ≤ time.toNat + 1000 := by
  obtain ⟨event, hevent⟩ := mergeKeyAdd_sampleLease
  obtain ⟨last, hrun⟩ :=
    @useRun_pair ⟨700, 700⟩ ⟨1400, 1400⟩ true true (by decide +kernel) (by decide +kernel)
  have hlife := @key_lifetime sampleKeyCrypto _ _ _ sampleLease _ _ _ _ rfl rfl hevent (by decide) _ _ hrun
  refine ⟨⟨last, hrun⟩, hlife.1 ?_, hlife.2 [] _ ⟨1400, 1400⟩ rfl⟩
  unfold RegularUse
  decide

/-- **Dated back**: the key is used every 700 seconds, but the first message carries the time of the
    registration, so it does not renew the key and the second use is rejected. **Dated ahead**: a message that
    carries a time 500 seconds after its block renews the key for longer, and a use is accepted 1500 seconds
    after the last one. -/
theorem key_lifetime_of_skewed :
    (∃ event, @mergeKeyAdd sampleKeyDb sampleKeyCrypto sampleLease false ⟨Batch.empty, ⟨1, 0⟩⟩ =
      .ok event sampleLeased) ∧
    (∃ last, UseRun 5 sampleGaslessKey 1000 (sampleKeyDb, sampleLeased)
      [(⟨1400, 1400⟩, false), (⟨0, 700⟩, true)] last) ∧
    ∃ last, UseRun 5 sampleGaslessKey 1000 (sampleKeyDb, sampleLeased)
    [(⟨2500, 2500⟩, true), (⟨1500, 1000⟩, true)] last :=
  ⟨mergeKeyAdd_sampleLease, useRun_pair (by decide +kernel) (by decide +kernel),
    useRun_pair (by decide +kernel) (by decide +kernel)⟩

end Hypersnap
