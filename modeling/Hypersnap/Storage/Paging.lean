import Hypersnap.Storage.Iterator

/-!
# `Storage.Paging` — reading a range page by page

A range is read in pages of a fixed size; a full page returns the key of its last entry as the token of the
next page, which starts at the smallest key **after** it. The end of the range is exclusive. With an exact
iterator the pages together are the range, in order (`readPages_eq`).
-/

namespace Hypersnap

variable [DbIterator] {db : RocksDB} {start stop : Bytes} {pageSize : Nat}

/-! ## Pages -/

/-- The lower bound of a page: after `[1,2,3]` comes `[1,2,3,0]`. -/
def pageStart (start : Bytes) : Option Bytes → Bytes
  | none => start
  | some token => token ++ [0]

/-- One page, and the token of the next one if the page is full. -/
def readPage (db : RocksDB) (start stop : Bytes) (pageSize : Nat) (token : Option Bytes) :
    List (Bytes × DbValue) × Option Bytes :=
  let entries := (DbIterator.scan db (pageStart start token) stop).take pageSize
  (entries, if entries.length < pageSize then none else entries.getLast?.map (·.1))

def readPagesFuel (db : RocksDB) (start stop : Bytes) (pageSize : Nat) :
    Nat → Option Bytes → List (Bytes × DbValue)
  | 0, _ => []
  | fuel + 1, token =>
    match readPage db start stop pageSize token with
    | (entries, none) => entries
    | (entries, some token) => entries ++ readPagesFuel db start stop pageSize fuel (some token)

/-- There are no more full pages than entries. -/
def readPages (db : RocksDB) (start stop : Bytes) (pageSize : Nat) : List (Bytes × DbValue) :=
  readPagesFuel db start stop pageSize ((DbIterator.scan db start stop).length + 1) none

/-! ## The pages are the range -/

omit [DbIterator] in
theorem snoc_zero_le_iff (k x : Bytes) : bytesCompare (k ++ [0]) x ≠ .gt ↔ bytesCompare k x = .lt := by
  induction k generalizing x with
  | nil =>
    cases x with
    | nil => decide
    | cons b x =>
      have hlt : bytesCompare [] (b :: x) = .lt := rfl
      have hzero : (0 : UInt8) < b ∨ 0 = b := UInt8.lt_or_eq_of_le UInt8.zero_le
      simp [bytesCompare_cons_ne_gt, bytesCompare_nil_left, hzero, hlt]
  | cons a k ih =>
    cases x with
    | nil => exact ⟨fun h => absurd rfl h, fun h => absurd h bytesCompare_nil_right⟩
    | cons b x => rw [List.cons_append, bytesCompare_cons_ne_gt, bytesCompare_cons_eq_lt, ih]

omit [DbIterator] in
theorem le_of_le_of_lt {a b c : Bytes} (hab : bytesCompare a b ≠ .gt) (hbc : bytesCompare b c = .lt) :
    bytesCompare a c ≠ .gt := by
  have hle : bytesLe a c = true :=
    bytesLe_trans a b c (Ordering.isLE_iff_ne_gt.2 hab) (by simp [bytesLe, hbc])
  exact Ordering.isLE_iff_ne_gt.1 hle

def occupied (db : RocksDB) (start stop : Bytes) : Set Bytes := {k | InRange start stop k ∧ (db k).isSome}

theorem mem_scan_iff [DbIterator.Exact] {db : RocksDB} {start stop : Bytes}
    (hfin : (occupied db start stop).Finite) {k : Bytes} {v : DbValue} :
    (k, v) ∈ DbIterator.scan db start stop ↔ InRange start stop k ∧ db k = some v :=
  ⟨DbIterator.inRange, fun h => DbIterator.Exact.complete hfin h.1 h.2⟩

omit [DbIterator] in
theorem eq_of_mem_iff_of_ascending {l₁ l₂ : List (Bytes × DbValue)}
    (h₁ : l₁.Pairwise fun a b => bytesCompare a.1 b.1 = .lt)
    (h₂ : l₂.Pairwise fun a b => bytesCompare a.1 b.1 = .lt) (hmem : ∀ e, e ∈ l₁ ↔ e ∈ l₂) : l₁ = l₂ := by
  have hself (a : Bytes) : bytesCompare a a ≠ .lt := by simp [bytesCompare_eq_iff.2 rfl]
  have hirr : Std.Irrefl fun a b : Bytes × DbValue => bytesCompare a.1 b.1 = .lt := ⟨fun a => hself a.1⟩
  have hasymm : Std.Antisymm fun a b : Bytes × DbValue => bytesCompare a.1 b.1 = .lt := by
    refine ⟨fun a b hab hba => absurd hba ?_⟩
    simp [bytesCompare_gt_iff.2 hab]
  exact List.Pairwise.eq_of_mem_iff h₁ h₂ fun e => hmem e

theorem scan_after [DbIterator.Exact] {k : Bytes} {v : DbValue} {l₁ l₂ : List (Bytes × DbValue)}
    (hfin : (occupied db start stop).Finite) (hscan : DbIterator.scan db start stop = l₁ ++ l₂)
    (hlast : l₁.getLast? = some (k, v)) : DbIterator.scan db (k ++ [0]) stop = l₂ := by
  have hsorted := DbIterator.Exact.sorted db start stop
  rw [hscan, List.pairwise_append] at hsorted
  obtain ⟨hsorted₁, hsorted₂, hcross⟩ := hsorted
  have hk : (k, v) ∈ l₁ := List.mem_of_getLast? hlast
  have hkrange := (DbIterator.inRange (hscan ▸ List.mem_append_left l₂ hk)).1
  -- no entry of the first part comes after its last key
  have hnot : ∀ e ∈ l₁, bytesCompare k e.1 ≠ .lt := by
    intro e he hlt
    obtain ⟨front, rfl⟩ : ∃ front, l₁ = front ++ [(k, v)] := by
      rw [List.getLast?_eq_some_iff] at hlast
      exact hlast
    rcases List.mem_append.1 he with he | he
    · have := (List.pairwise_append.1 hsorted₁).2.2 e he (k, v) (by simp)
      rw [bytesCompare_gt_iff.2 this] at hlt
      cases hlt
    · obtain rfl := List.mem_singleton.1 he
      simp [bytesCompare_eq_iff.2 rfl] at hlt
  have hsub : occupied db (k ++ [0]) stop ⊆ occupied db start stop := by
    rintro x ⟨⟨hge, hlt⟩, hsome⟩
    exact ⟨⟨le_of_le_of_lt hkrange.1 ((snoc_zero_le_iff k x).1 hge), hlt⟩, hsome⟩
  refine eq_of_mem_iff_of_ascending (DbIterator.Exact.sorted _ _ _) hsorted₂ ?_
  rintro ⟨x, w⟩
  rw [mem_scan_iff (hfin.subset hsub)]
  constructor
  · rintro ⟨⟨hge, hlt⟩, hw⟩
    have hafter := (snoc_zero_le_iff k x).1 hge
    have hmem : (x, w) ∈ DbIterator.scan db start stop :=
      (mem_scan_iff hfin).2 ⟨⟨le_of_le_of_lt hkrange.1 hafter, hlt⟩, hw⟩
    rw [hscan] at hmem
    rcases List.mem_append.1 hmem with h | h
    · exact absurd hafter (hnot _ h)
    · exact h
  · intro hmem
    have hin := DbIterator.inRange (hscan ▸ List.mem_append_right l₁ hmem)
    exact ⟨⟨(snoc_zero_le_iff k x).2 (hcross (k, v) hk (x, w) hmem), hin.1.2⟩, hin.2⟩

/-- **The pages together are the range.** -/
theorem readPagesFuel_eq [DbIterator.Exact] (hsize : 0 < pageSize) (hfin : (occupied db start stop).Finite) :
    ∀ {fuel : Nat} {token : Option Bytes} {done rest : List (Bytes × DbValue)},
      DbIterator.scan db start stop = done ++ rest → (token = none → done = []) →
      (∀ k, token = some k → ∃ v, done.getLast? = some (k, v)) → rest.length < fuel →
      readPagesFuel db start stop pageSize fuel token = rest := by
  intro fuel
  induction fuel with
  | zero => intro token done rest _ _ _ hfuel; exact absurd hfuel (Nat.not_lt_zero _)
  | succ fuel ih =>
    intro token done rest hscan hnone hsome hfuel
    have hrest : DbIterator.scan db (pageStart start token) stop = rest := by
      cases token with
      | none => rw [pageStart, hscan, hnone rfl, List.nil_append]
      | some k =>
        obtain ⟨v, hlast⟩ := hsome k rfl
        exact scan_after hfin hscan hlast
    rw [readPagesFuel, readPage, hrest]
    by_cases hfull : (rest.take pageSize).length < pageSize
    · -- the last page
      have hshort : rest.length ≤ pageSize := by
        rw [List.length_take] at hfull
        omega
      rw [if_pos hfull, List.take_of_length_le hshort]
    · have hne : rest.take pageSize ≠ [] := by
        intro h
        simp [h] at hfull
        omega
      obtain ⟨⟨k, v⟩, hlast⟩ : ∃ e, (rest.take pageSize).getLast? = some e :=
        ⟨_, List.getLast?_eq_some_getLast hne⟩
      have hnext := @ih (some k) (done ++ rest.take pageSize) (rest.drop pageSize)
        (by rw [hscan, List.append_assoc, List.take_append_drop]) (fun h => nomatch h)
        (fun k' hk' => ⟨v, by cases hk'; rw [List.getLast?_append, hlast]; rfl⟩)
        (by rw [List.length_drop]; rw [List.length_take] at hfull; omega)
      simp only [hfull, if_false, hlast, Option.map_some, hnext, List.take_append_drop]

theorem readPages_eq [DbIterator.Exact] (hsize : 0 < pageSize) (hfin : (occupied db start stop).Finite) :
    readPages db start stop pageSize = DbIterator.scan db start stop :=
  readPagesFuel_eq hsize hfin (List.nil_append _).symm (fun _ => rfl) (fun _ h => nomatch h)
    (Nat.lt_succ_self _)

end Hypersnap
