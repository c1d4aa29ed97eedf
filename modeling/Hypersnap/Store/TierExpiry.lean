import Hypersnap.Store.FidIterator

/-!
# `Store.TierExpiry` — when a tier runs out

`tier_subscription_exires_at` goes through the purchases of a tier by block: each extends what was paid for,
from its own block on if that has run out. The result is the latest **end** of a purchase, its time plus the
durations of all purchases from it on (`tierExpiry_closed`), so more purchases never make a tier run out
earlier.
-/

namespace Hypersnap

open EState FIDIterator

/-! ## Times and durations -/

/-- Paid until then after more purchases, each a time and the seconds it pays for. -/
def paidUntil (paid : Nat) (purchases : List (Nat × Nat)) : Nat :=
  purchases.foldl (fun paid p => max p.1 paid + p.2) paid

/-- The latest end of a purchase, if all that follow are added to it; 0 if there is none. -/
def lastEnd : List (Nat × Nat) → Nat
  | [] => 0
  | p :: later => max (p.1 + ((p :: later).map Prod.snd).sum) (lastEnd later)

theorem paidUntil_cons (paid : Nat) (p : Nat × Nat) (later : List (Nat × Nat)) :
    paidUntil paid (p :: later) = paidUntil (max p.1 paid + p.2) later := rfl

theorem paidUntil_eq_max (paid : Nat) (purchases : List (Nat × Nat)) :
    paidUntil paid purchases = max (paid + (purchases.map Prod.snd).sum) (lastEnd purchases) := by
  induction purchases generalizing paid with
  | nil => simp [paidUntil, lastEnd]
  | cons p later ih =>
    rw [paidUntil_cons, ih, lastEnd, List.map_cons, List.sum_cons]
    omega

theorem paidUntil_zero (purchases : List (Nat × Nat)) : paidUntil 0 purchases = lastEnd purchases := by
  rw [paidUntil_eq_max]
  cases purchases with
  | nil => rfl
  | cons p later =>
    rw [lastEnd]
    omega

theorem paidUntil_mono {few many : List (Nat × Nat)} (h : few.Sublist many) {paid paid' : Nat}
    (hle : paid ≤ paid') :
    paidUntil paid few ≤ paidUntil paid' many := by
  induction h generalizing paid paid' with
  | slnil => exact hle
  | cons p _ ih => exact ih (show paid ≤ max p.1 paid' + p.2 by omega)
  | cons_cons p _ ih => exact ih (show max p.1 paid + p.2 ≤ max p.1 paid' + p.2 by omega)

/-! ## Events -/

/-- The time and the duration of a purchase of the tier. -/
def purchaseOf (tierType : Int32) (event : OnChainEvent) : Option (Nat × Nat) :=
  match event.body with
  | some (.tierPurchaseEventBody body) =>
    if body.tierType = tierType then some (event.blockTimestamp.toNat, body.forDays.toNat * 86400) else none
  | _ => none

/-- The purchases of the tier until `t`. -/
def purchasesUntil (tierType : Int32) (t : UInt64) (events : List OnChainEvent) : List (Nat × Nat) :=
  (events.filterMap (purchaseOf tierType)).filter (·.1 ≤ t.toNat)

theorem toNat_extend {time paid days : UInt64} (h : max time.toNat paid.toNat + days.toNat * 86400 < 2 ^ 64) :
    (max time paid + days * 24 * 60 * 60).toNat = max time.toNat paid.toNat + days.toNat * 86400 := by
  have hmax : (max time paid).toNat = max time.toNat paid.toNat := by
    rw [UInt64.max_def, Nat.max_def]
    simp only [UInt64.le_iff_toNat_le]
    split <;> rfl
  simp only [UInt64.toNat_add, UInt64.toNat_mul, hmax, UInt64.reduceToNat]
  omega

/-- The loop stops at the first later purchase, and loses none if their times ascend. -/
theorem tierExpiresAt_toNat {tierType : Int32} {t : FarcasterTime} (events : List OnChainEvent)
    (paid : UInt64) (htimes : (events.filterMap (purchaseOf tierType)).Pairwise fun p q => p.1 ≤ q.1)
    (hsum : paidUntil paid.toNat (purchasesUntil tierType t.toUnixSeconds events) < 2 ^ 64) :
    (tierExpiresAt tierType (some t) events paid).toNat =
      paidUntil paid.toNat (purchasesUntil tierType t.toUnixSeconds events) := by
  fun_induction tierExpiresAt tierType (some t) events paid with
  | case1 => simp [purchasesUntil, paidUntil]
  | case2 event rest paid body hbody htier hlate =>
    rw [Option.any_some, decide_eq_true_eq, UInt64.lt_iff_toNat_lt] at hlate
    simp only [purchasesUntil, purchaseOf, hbody, htier, List.filterMap_cons, if_true, List.pairwise_cons]
      at htimes ⊢
    rw [List.filter_eq_nil_iff.2]
    · simp [paidUntil]
    · simp only [List.forall_mem_cons, decide_eq_true_eq, Nat.not_le]
      exact ⟨hlate, fun p hp => hlate.trans_le (htimes.1 p hp)⟩
  | case3 event rest paid body hbody htier hlate ih =>
    rw [Option.any_some, decide_eq_true_eq, UInt64.not_lt, UInt64.le_iff_toNat_le] at hlate
    simp only [purchasesUntil, purchaseOf, hbody, htier, List.filterMap_cons, if_true, List.pairwise_cons,
      hlate, decide_true, List.filter_cons, paidUntil_cons] at htimes hsum ih ⊢
    -- the next sum is below the last one
    rw [toNat_extend] at ih
    · exact ih htimes.2 hsum
    · rw [paidUntil_eq_max] at hsum
      omega
  | case4 event rest paid body hbody htier ih =>
    simp only [purchasesUntil, purchaseOf, hbody, htier, List.filterMap_cons, if_false] at htimes hsum ih ⊢
    exact ih htimes hsum
  | case5 event rest paid hbody ih =>
    simp only [purchasesUntil, purchaseOf, List.filterMap_cons] at htimes hsum ih ⊢
    exact ih htimes hsum

/-! ## The purchases of a user -/

/-- The purchases that are stored for a user, by key. Block times of the tier do not decrease with the block,
    and no sum is beyond the range of a time. -/
structure TierHistory (db : RocksDB) (fid : UInt64) (tierType : Int32) (t : UInt64)
    (events : List OnChainEvent) : Prop where
  stored : ∀ k v,
    let start := makeOnchainEventTypePrefix .eventTypeTierPurchase ++ makeFidKey fid
    InRange start (incrementVecU8 start) k ∧ db k = some v ↔ (k, v) ∈ events.map entryOfEvent
  ascending : events.Pairwise fun e e' =>
    bytesCompare (makeOnchainEventPrimaryKey e) (makeOnchainEventPrimaryKey e') = .lt
  ofUser : ∀ e ∈ events, OnChainEventType.orDefault e.type = .eventTypeTierPurchase ∧ e.fid = fid
  times : ∀ e ∈ events, ∀ e' ∈ events, (purchaseOf tierType e).isSome → (purchaseOf tierType e').isSome →
    e.blockNumber ≤ e'.blockNumber → e.blockTimestamp ≤ e'.blockTimestamp
  sums : lastEnd (purchasesUntil tierType t events) < 2 ^ 64

section history
variable {db : RocksDB} {fid : UInt64} {tierType : Int32} {t : FarcasterTime} {events : List OnChainEvent}

theorem TierHistory.pairwise {t : UInt64} (h : TierHistory db fid tierType t events) :
    (events.filterMap (purchaseOf tierType)).Pairwise fun p q => p.1 ≤ q.1 := by
  have htime : ∀ {e : OnChainEvent} {p : Nat × Nat}, purchaseOf tierType e = some p →
      p.1 = e.blockTimestamp.toNat := by
    intro e p hp
    unfold purchaseOf at hp
    split at hp
    · cases (Option.ite_none_right_eq_some.1 hp).2
      rfl
    · cases hp
  rw [List.pairwise_filterMap]
  refine h.ascending.imp_of_mem fun {e e'} he he' hlt p hp q hq => ?_
  have hblock : e.blockNumber ≤ e'.blockNumber := by
    refine le_of_bytesCompare_toBeBytes fun hgt => ?_
    simp only [makeOnchainEventPrimaryKey, h.ofUser e he, h.ofUser e' he', List.append_assoc,
      bytesCompare_append_left] at hlt
    rw [bytesCompare_append _ _ (by simp), hgt] at hlt
    cases hlt
  rw [htime hp, htime hq]
  exact UInt64.le_iff_toNat_le.1 (h.times e he e' he' (by rw [hp]; rfl) (by rw [hq]; rfl) hblock)

variable [DbIterator] [DbIterator.Exact]

theorem TierHistory.listed {t : UInt64} (h : TierHistory db fid tierType t events) :
    getOnchainEvents db .eventTypeTierPurchase fid = .ok events := by
  have hfin : (occupied db (makeOnchainEventTypePrefix .eventTypeTierPurchase ++ makeFidKey fid)
      (incrementVecU8 (makeOnchainEventTypePrefix .eventTypeTierPurchase ++ makeFidKey fid))).Finite := by
    refine (events.map makeOnchainEventPrimaryKey).finite_toSet.subset fun k hk => ?_
    obtain ⟨v, hv⟩ := Option.isSome_iff_exists.1 hk.2
    obtain ⟨e, he, heq⟩ := List.mem_map.1 ((h.stored k v).1 ⟨hk.1, hv⟩)
    exact List.mem_map.2 ⟨e, he, congrArg Prod.fst heq⟩
  have hscan : readPages db (makeOnchainEventTypePrefix .eventTypeTierPurchase ++ makeFidKey fid)
      (incrementVecU8 (makeOnchainEventTypePrefix .eventTypeTierPurchase ++ makeFidKey fid)) eventPageSize =
        events.map entryOfEvent := by
    rw [readPages_eq (by decide) hfin]
    refine eq_of_mem_iff_of_ascending (DbIterator.Exact.sorted _ _ _) (List.pairwise_map.2 h.ascending) ?_
    rintro ⟨k, v⟩
    rw [mem_scan_iff hfin]
    exact h.stored k v
  show (readPages _ _ _ _).mapM _ = _
  rw [hscan, List.mapM_map]
  show events.mapM (fun e => (pure e : Except OnchainEventStorageError OnChainEvent)) = _
  rw [List.mapM_pure, List.map_id']
  rfl

theorem TierHistory.expiresAt (h : TierHistory db fid tierType t.toUnixSeconds events) :
    ∃ expiry, tierSubscriptionExpiresAt db tierType fid (some t) = .ok expiry ∧
      expiry.toNat = paidUntil 0 (purchasesUntil tierType t.toUnixSeconds events) := by
  refine ⟨_, by rw [tierSubscriptionExpiresAt, h.listed]; rfl, tierExpiresAt_toNat events 0 h.pairwise ?_⟩
  exact (paidUntil_zero _).trans_lt h.sums

/-- **The expiry in closed form**: the latest end of a purchase until `t`, all purchases from it on until `t`
    counted, and 0 if there is none. With more purchases it is never earlier. -/
theorem tierExpiry_closed (h : TierHistory db fid tierType t.toUnixSeconds events) :
    ∃ expiry, tierSubscriptionExpiresAt db tierType fid (some t) = .ok expiry ∧
      expiry.toNat = lastEnd (purchasesUntil tierType t.toUnixSeconds events) ∧
      ∀ {db' more}, TierHistory db' fid tierType t.toUnixSeconds more → events.Sublist more →
        ∃ expiry', tierSubscriptionExpiresAt db' tierType fid (some t) = .ok expiry' ∧ expiry ≤ expiry' := by
  obtain ⟨expiry, hexpiry, heq⟩ := h.expiresAt
  refine ⟨expiry, hexpiry, heq.trans (paidUntil_zero _), fun h' hsub => ?_⟩
  obtain ⟨expiry', hexpiry', heq'⟩ := h'.expiresAt
  refine ⟨expiry', hexpiry', UInt64.le_iff_toNat_le.2 ?_⟩
  rw [heq, heq']
  exact paidUntil_mono ((hsub.filterMap _).filter _) (Nat.le_refl 0)

end history

/-- User 1 buys one day and, after it has run out, two. -/
def samplePurchases : List OnChainEvent :=
  [(0, 1000, 1), (1, 500000, 2)].map fun (block, time, days) => { sampleIdEvent .register 1 block with
    type := OnChainEventType.eventTypeTierPurchase.toI32
    blockTimestamp := time
    body := some (.tierPurchaseEventBody ⟨1, days, []⟩) }

theorem tierExpiry_samplePurchases :
    let _ := sortedScan
    ∃ expiry, tierSubscriptionExpiresAt (sampleIdDb samplePurchases) 1 1 (some ⟨0⟩) = .ok expiry ∧
      expiry.toNat = 672800 := by
  let _ := sortedScan
  have _ : DbIterator.Exact := sortedScan_exact
  have hhist :
      TierHistory (sampleIdDb samplePurchases) 1 1 (FarcasterTime.toUnixSeconds ⟨0⟩) samplePurchases := by
    refine ⟨fun k v => ⟨fun hkv => ?_, fun hkv => ?_⟩, by decide, by decide, by decide, by decide⟩
    · obtain ⟨e, he, heq⟩ := of_sampleIdDb hkv.2
      exact List.mem_map.2 ⟨e, he, heq.symm⟩
    · obtain ⟨e, he, heq⟩ := List.mem_map.1 hkv
      cases heq
      have hunder : ∀ e ∈ samplePurchases,
          makeOnchainEventTypePrefix .eventTypeTierPurchase ++ makeFidKey 1 <+:
          makeOnchainEventPrimaryKey e := by
        decide
      refine ⟨inRange_of_isPrefix (by decide) (hunder e he), ?_⟩
      obtain rfl | rfl := List.mem_pair.1 he <;> rfl
  obtain ⟨expiry, hexpiry, hend, -⟩ := tierExpiry_closed hhist
  exact ⟨expiry, hexpiry, hend.trans (by decide)⟩

end Hypersnap
