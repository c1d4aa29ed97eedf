import Mathlib.Data.List.Sort
import Mathlib.Data.Set.Finite.Basic
import Hypersnap.Storage.Db

/-!
# `Storage.Iterator` — scanning a range of keys

The stores scan all keys with a given prefix, as the range from the prefix to the prefix **plus one**. For a
prefix whose last byte is not 255 the range is exactly the keys with the prefix (`inRange_iff_isPrefix`); all
prefixes in use end in the byte of a set. `DbIterator.Exact` is what RocksDB promises beyond soundness: the
scan is complete and in key order.
-/

namespace Hypersnap

/-! ## Ranges of keys -/

def InRange (start stop key : Bytes) : Prop := bytesCompare start key ≠ .gt ∧ bytesCompare key stop = .lt

variable {b : UInt8}

theorem incrementVecU8_snoc (p : Bytes) (hb : b ≠ 255) : incrementVecU8 (p ++ [b]) = p ++ [b + 1] := by
  have hgo : incrementVecU8.go (p ++ [b]) = (p ++ [b + 1], false) := by
    induction p with
    | nil => simp [incrementVecU8.go, hb]
    | cons x p ih => simp [incrementVecU8.go, ih]
  simp [incrementVecU8, hgo]

theorem lt_succ_iff (hb : b ≠ 255) (x : UInt8) : x < b + 1 ↔ x ≤ b := by
  have hb' : b.toNat ≠ 255 := fun h => hb (UInt8.toNat_inj.1 h)
  have hlt := b.toNat_lt
  rw [UInt8.lt_iff_toNat_lt, UInt8.le_iff_toNat_le, UInt8.toNat_add]
  simp only [UInt8.reduceToNat]
  omega

theorem bytesCompare_cons_self (x : UInt8) (a b : Bytes) :
    bytesCompare (x :: a) (x :: b) = bytesCompare a b := by
  have hx : compare x x = .eq := Std.ReflCmp.compare_self
  rw [bytesCompare_cons, hx]
  rfl

theorem bytesCompare_nil_left (a : Bytes) : bytesCompare [] a ≠ .gt := by
  cases a with
  | nil => decide
  | cons x a => exact fun h => nomatch (show Ordering.lt = .gt from h)

theorem bytesCompare_nil_right {a : Bytes} : bytesCompare a [] ≠ .lt := by
  intro h
  exact bytesCompare_nil_left a (bytesCompare_gt_iff.2 h)

theorem inRange_cons_self {x : UInt8} {start stop key : Bytes} :
    InRange (x :: start) (x :: stop) (x :: key) ↔ InRange start stop key := by
  rw [InRange, InRange, bytesCompare_cons_self, bytesCompare_cons_self]

theorem InRange.head_eq {x y : UInt8} {start stop key : Bytes}
    (h : InRange (x :: start) (x :: stop) (y :: key)) :
    y = x := by
  obtain ⟨hge, hlt⟩ := h
  rw [bytesCompare_cons_ne_gt] at hge
  rw [bytesCompare_cons_eq_lt] at hlt
  grind

/-- **The range of a prefix** is the keys that start with it. -/
theorem inRange_iff_isPrefix {p key : Bytes} {b : UInt8} (hb : b ≠ 255) :
    InRange (p ++ [b]) (incrementVecU8 (p ++ [b])) key ↔ p ++ [b] <+: key := by
  rw [incrementVecU8_snoc p hb]
  induction p generalizing key with
  | nil =>
    cases key with
    | nil => simp [InRange, show bytesCompare [b] [] = .gt from rfl]
    | cons x key =>
      have hnil := bytesCompare_nil_left key
      simp only [List.nil_append, InRange, bytesCompare_cons_ne_gt, bytesCompare_cons_eq_lt, lt_succ_iff hb,
        bytesCompare_nil_right, List.cons_prefix_cons, List.nil_prefix]
      grind
  | cons x p ih =>
    cases key with
    | nil => simp [InRange, show bytesCompare (x :: (p ++ [b])) [] = .gt from rfl]
    | cons y key =>
      constructor
      · intro h
        have hxy : y = x := h.head_eq
        subst hxy
        simpa using ih.1 (inRange_cons_self.1 h)
      · intro h
        obtain ⟨rfl, h⟩ := List.cons_prefix_cons.1 h
        exact inRange_cons_self.2 (ih.2 (by simpa using h))

/-! ## Exact iterators -/

/-- What RocksDB promises of a scan: every entry of the range is reported, if there are finitely many, and the
    keys ascend. -/
class DbIterator.Exact [DbIterator] : Prop where
  complete : ∀ {db start stop k v}, {k | InRange start stop k ∧ (db k).isSome}.Finite → InRange start stop k →
    db k = some v → (k, v) ∈ DbIterator.scan db start stop
  sorted : ∀ db start stop, (DbIterator.scan db start stop).Pairwise fun a b => bytesCompare a.1 b.1 = .lt

variable {db : RocksDB} {v : DbValue}

theorem DbIterator.inRange [DbIterator] {start stop k : Bytes} (h : (k, v) ∈ DbIterator.scan db start stop) :
    InRange start stop k ∧ db k = some v :=
  have hs := DbIterator.sound h
  ⟨⟨hs.1, hs.2.1⟩, hs.2.2⟩

def entriesAt (db : RocksDB) (keys : List Bytes) : List (Bytes × DbValue) :=
  keys.filterMap fun k => (db k).map (k, ·)

theorem mem_entriesAt {keys : List Bytes} {k : Bytes} :
    (k, v) ∈ entriesAt db keys ↔ k ∈ keys ∧ db k = some v := by
  simp only [entriesAt, List.mem_filterMap, Option.map_eq_some_iff, Prod.mk.injEq]
  constructor
  · rintro ⟨k', hk', v', hv', rfl, rfl⟩
    exact ⟨hk', hv'⟩
  · rintro ⟨hk, hv⟩
    exact ⟨k, hk, v, hv, rfl, rfl⟩

def bytesLe (a b : Bytes) : Bool := (bytesCompare a b).isLE

theorem bytesLe_trans (a b c : Bytes) (hab : bytesLe a b = true) (hbc : bytesLe b c = true) :
    bytesLe a c = true := by
  have htrans : (compare a b).isLE = true → (compare b c).isLE = true → (compare a c).isLE = true :=
    Std.TransCmp.isLE_trans
  exact htrans hab hbc

theorem bytesLe_total (a b : Bytes) : (bytesLe a b || bytesLe b a) = true := by
  have hswap : compare a b = (compare b a).swap := Std.OrientedCmp.eq_swap
  simp only [bytesLe, bytesCompare, hswap]
  cases compare b a <;> rfl

theorem lt_of_bytesLe_of_ne {a b : Bytes} (h : bytesLe a b = true) (hne : a ≠ b) :
    bytesCompare a b = .lt := by
  unfold bytesLe at h
  cases hc : bytesCompare a b with
  | lt => rfl
  | eq => exact absurd (bytesCompare_eq_iff.1 hc) hne
  | gt => simp [hc] at h

theorem pairwise_entriesAt_mergeSort {db : RocksDB} {keys : List Bytes} (hnodup : keys.Nodup) :
    (entriesAt db (keys.mergeSort bytesLe)).Pairwise fun a b => bytesCompare a.1 b.1 = .lt := by
  have hle := List.pairwise_mergeSort bytesLe_trans bytesLe_total keys
  have hne : (keys.mergeSort bytesLe).Nodup := (List.mergeSort_perm _ _).nodup_iff.2 hnodup
  refine (List.Pairwise.and hle hne).filterMap _ fun k k' hlt e he e' he' => ?_
  simp only [Option.map_eq_some_iff] at he he'
  obtain ⟨v, -, rfl⟩ := he
  obtain ⟨v', -, rfl⟩ := he'
  exact lt_of_bytesLe_of_ne hlt.1 hlt.2

/-- An iterator over the keys of a list, for databases with no other keys. -/
@[reducible] def keyScan (keys : List Bytes) : DbIterator where
  scan db start stop := entriesAt db
    (keys.filter fun k => bytesCompare start k != .gt && bytesCompare k stop == .lt)
  sound h := by
    obtain ⟨hk, hv⟩ := mem_entriesAt.1 h
    have hrange := (List.mem_filter.1 hk).2
    simp only [Bool.and_eq_true, bne_iff_ne, beq_iff_eq] at hrange
    exact ⟨hrange.1, hrange.2, hv⟩

open Classical in
/-- The iterator that sorts the keys of the range. -/
@[reducible] noncomputable def sortedScan : DbIterator where
  scan db start stop :=
    if h : {k | InRange start stop k ∧ (db k).isSome}.Finite then
      entriesAt db (h.toFinset.toList.mergeSort bytesLe)
    else []
  sound h := by
    split at h
    next hfin =>
      obtain ⟨hk, hv⟩ := mem_entriesAt.1 h
      rw [List.mem_mergeSort, Finset.mem_toList, Set.Finite.mem_toFinset] at hk
      exact ⟨hk.1.1, hk.1.2, hv⟩
    next => cases h

theorem sortedScan_exact : @DbIterator.Exact sortedScan := by
  let _ := sortedScan
  refine ⟨?_, ?_⟩
  · intro db start stop k v hfin hk hv
    have hmem : (k, v) ∈ entriesAt db (hfin.toFinset.toList.mergeSort bytesLe) := by
      rw [mem_entriesAt, List.mem_mergeSort, Finset.mem_toList, Set.Finite.mem_toFinset]
      exact ⟨⟨hk, by simp [hv]⟩, hv⟩
    have hscan : DbIterator.scan db start stop = _ := dif_pos hfin
    rwa [hscan]
  · intro db start stop
    by_cases hfin : {k | InRange start stop k ∧ (db k).isSome}.Finite
    · have hscan : DbIterator.scan db start stop = _ := dif_pos hfin
      rw [hscan]
      exact pairwise_entriesAt_mergeSort (Finset.nodup_toList _)
    · have hscan : DbIterator.scan db start stop = _ := dif_neg hfin
      rw [hscan]
      exact List.Pairwise.nil

end Hypersnap
