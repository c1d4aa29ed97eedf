import Hypersnap.Lib.Cursor
import Hypersnap.Storage.Paging

/-!
# `Storage.Pages` — iterating over a range with a callback, page by page

`iterate_with_opts` hands the entries of a range to a callback, in key order or backwards, until the callback
stops it. The queries of the stores are one pattern (`pageByPrefix`): collect from the entries until the page
is full, and return the last key as the token of the next page. Forwards the token is an **exclusive lower
bound**, backwards an exclusive upper bound; both resume the iteration right after the entry
(`entries_resume`), so the pages of a query are the selection from the whole range (`walk_pageByPrefix_iff`).

The range of a prefix ends at `increment_vec_u8` of it. This is the range of the keys with the prefix if the
last byte is not 255; otherwise it is so for the keys that are as long as the prefix
(`inRange_increment_iff`).
-/

namespace Hypersnap

open Cursor

variable {k p : Bytes} {v : DbValue}

/-! ## Iteration -/

structure PageOptions where
  pageSize : Option Nat := none
  pageToken : Option Bytes := none
  reverse : Bool := false
deriving DecidableEq, Repr

def pageSizeMax : Nat := 10000

def PageOptions.limit (pageOptions : PageOptions) : Nat := pageOptions.pageSize.getD pageSizeMax

structure IteratorOptions where
  lowerBound : Bytes
  upperBound : Bytes
  reverse : Bool
deriving DecidableEq, Repr

def getIteratorOptions (startPrefix stopPrefix : Option Bytes) (pageOptions : PageOptions) :
    IteratorOptions :=
  let start := startPrefix.getD []
  let stop := stopPrefix.getD (List.replicate 32 255)
  { upperBound := if pageOptions.reverse then pageOptions.pageToken.getD stop else stop
    lowerBound := if pageOptions.reverse then start else pageStart start pageOptions.pageToken
    reverse := pageOptions.reverse }

/-- The entries between the bounds, in the order of the iteration. -/
def IteratorOptions.entries [DbIterator] (opts : IteratorOptions) (db : RocksDB) : List (Bytes × DbValue) :=
  let ascending := DbIterator.scan db opts.lowerBound opts.upperBound
  if opts.reverse then ascending.reverse else ascending

section iterate
variable {σ β ε : Type}

/-- `iterate_with_opts`, from an entry on. The callback returns whether to stop. The result is false if it
    did. -/
def iterateWithOpts (pageSize : Option Nat) (f : Bytes → DbValue → σ → Except ε (Bool × σ)) :
    List (Bytes × DbValue) → Nat → σ → Except ε (Bool × σ)
  | [], _, s => .ok (true, s)
  | (key, value) :: rest, count, s =>
    match f key value s with
    | .error e => .error e
    | .ok (true, s) => .ok (false, s)
    | .ok (false, s) =>
      match pageSize with
      | none => iterateWithOpts pageSize f rest count s
      | some limit =>
        if limit ≤ count + 1 then .ok (true, s) else iterateWithOpts pageSize f rest (count + 1) s

def forEachIteratorByPrefixPaged [DbIterator] (db : RocksDB) (startPrefix stopPrefix : Option Bytes)
    (pageOptions : PageOptions) (f : Bytes → DbValue → σ → Except ε (Bool × σ)) (s : σ) :
    Except ε (Bool × σ) :=
  iterateWithOpts pageOptions.pageSize f
    ((getIteratorOptions startPrefix stopPrefix pageOptions).entries db) 0 s

/-- The same without the bound on the number of entries. -/
def forEachIteratorByPrefix [DbIterator] (db : RocksDB) (startPrefix stopPrefix : Option Bytes)
    (pageOptions : PageOptions) (f : Bytes → DbValue → σ → Except ε (Bool × σ)) (s : σ) :
    Except ε (Bool × σ) :=
  forEachIteratorByPrefixPaged db startPrefix stopPrefix { pageOptions with pageSize := none } f s

/-! ## Queries -/

/-- The callback of the queries: push what is selected, stop with the key of the entry once there are `limit`
    items. -/
def pushSelected (select : Bytes × DbValue → Except ε (Option β)) (limit : Nat) (key : Bytes)
    (value : DbValue) (s : List β × Bytes) : Except ε (Bool × (List β × Bytes)) :=
  match select (key, value) with
  | .error e => .error e
  | .ok none => .ok (false, s)
  | .ok (some b) =>
    let items := s.1 ++ [b]
    if limit ≤ items.length then .ok (true, (items, key)) else .ok (false, (items, s.2))

def nextPageToken (lastKey : Bytes) : Option Bytes := if lastKey.length = 0 then none else some lastKey

/-- **One page of a query**: the selected items of the range, and the token of the next page. -/
def pageByPrefix [DbIterator] (db : RocksDB) (start stop : Bytes) (pageOptions : PageOptions)
    (select : Bytes × DbValue → Except ε (Option β)) : Except ε (List β × Option Bytes) :=
  match forEachIteratorByPrefix db (some start) (some stop) pageOptions
    (pushSelected select pageOptions.limit) ([], []) with
  | .error e => .error e
  | .ok (_, (items, lastKey)) => .ok (items, nextPageToken lastKey)

theorem iterateWithOpts_pushSelected (select : Bytes × DbValue → Except ε (Option β)) (limit : Nat)
    (entries : List (Bytes × DbValue)) (count : Nat) (done : List β) :
    iterateWithOpts none (pushSelected select limit) entries count (done, []) =
      (selectPage select limit done.length entries).map fun r =>
        (r.2.isNone, (done ++ r.1, (r.2.map Prod.fst).getD [])) := by
  induction entries generalizing done with
  | nil => simp [iterateWithOpts, selectPage, Except.map]
  | cons e rest ih =>
    obtain ⟨key, value⟩ := e
    cases he : select (key, value) with
    | error e => simp [iterateWithOpts, pushSelected, selectPage, he, Except.map]
    | ok b =>
      cases b with
      | none => simp only [iterateWithOpts, pushSelected, selectPage, he, ih]
      | some b =>
        by_cases hfull : limit ≤ done.length + 1
        · simp [iterateWithOpts, pushSelected, selectPage, he, hfull, Except.map]
        · simp only [iterateWithOpts, pushSelected, selectPage, he, List.length_append, List.length_singleton,
            hfull, if_false, ih]
          cases selectPage select limit (done.length + 1) rest <;> simp [Except.map]

/-- The entries a query goes through after a token. -/
def queryEntries [DbIterator] (db : RocksDB) (start stop : Bytes) (reverse : Bool) (token : Option Bytes) :
    List (Bytes × DbValue) :=
  (getIteratorOptions (some start) (some stop) { pageToken := token, reverse }).entries db

theorem pageByPrefix_eq [DbIterator] (db : RocksDB) (start stop : Bytes) (pageOptions : PageOptions)
    (select : Bytes × DbValue → Except ε (Option β)) (token : Option Bytes) :
    pageByPrefix db start stop { pageOptions with pageToken := token } select =
      page (queryEntries db start stop pageOptions.reverse)
      (fun e => nextPageToken e.1) select pageOptions.limit token := by
  have hiter := iterateWithOpts_pushSelected select pageOptions.limit
    (queryEntries db start stop pageOptions.reverse token) 0 []
  have hpage : forEachIteratorByPrefix db (some start) (some stop) { pageOptions with pageToken := token }
      (pushSelected select pageOptions.limit) ([], []) = _ := hiter
  have hlimit : ({ pageOptions with pageToken := token } : PageOptions).limit = pageOptions.limit := rfl
  rw [pageByPrefix, page, hlimit, hpage, List.length_nil]
  cases selectPage select pageOptions.limit 0 (queryEntries db start stop pageOptions.reverse token) with
  | error e => rfl
  | ok r =>
    obtain ⟨bs, last⟩ := r
    cases last <;> rfl

end iterate

/-! ## Tokens resume the iteration -/

theorem bytesCompare_lt_trans {a b c : Bytes} (hab : bytesCompare a b = .lt) (hbc : bytesCompare b c = .lt) :
    bytesCompare a c = .lt := by
  have htrans : compare a b = .lt → compare b c = .lt → compare a c = .lt := Std.TransCmp.lt_trans
  exact htrans hab hbc

section resume
variable [DbIterator] {db : RocksDB} {start stop : Bytes}

theorem queryEntries_reverse (token : Option Bytes) :
    queryEntries db start stop true token = (DbIterator.scan db start (token.getD stop)).reverse := rfl

section
variable [DbIterator.Exact] (hfin : (occupied db start stop).Finite)
include hfin

theorem scan_before {l₁ l₂ : List (Bytes × DbValue)}
    (hscan : DbIterator.scan db start stop = l₁ ++ (k, v) :: l₂) : DbIterator.scan db start k = l₁ := by
  have hsorted := DbIterator.Exact.sorted db start stop
  rw [hscan, List.pairwise_append, List.pairwise_cons] at hsorted
  obtain ⟨hsorted₁, ⟨hafter, -⟩, hcross⟩ := hsorted
  have hmem : (k, v) ∈ DbIterator.scan db start stop := by rw [hscan]; simp
  have hk : InRange start stop k := (DbIterator.inRange hmem).1
  have hsub : occupied db start k ⊆ occupied db start stop :=
    fun x hx => ⟨⟨hx.1.1, bytesCompare_lt_trans hx.1.2 hk.2⟩, hx.2⟩
  refine eq_of_mem_iff_of_ascending (DbIterator.Exact.sorted _ _ _) hsorted₁ ?_
  rintro ⟨x, w⟩
  rw [mem_scan_iff (hfin.subset hsub)]
  constructor
  · rintro ⟨⟨hge, hlt⟩, hw⟩
    have hmem : (x, w) ∈ DbIterator.scan db start stop :=
      (mem_scan_iff hfin).2 ⟨⟨hge, bytesCompare_lt_trans hlt hk.2⟩, hw⟩
    rw [hscan] at hmem
    rcases List.mem_append.1 hmem with h | h
    · exact h
    -- an entry from `k` on is not before `k`
    · rcases List.mem_cons.1 h with h | h
      · cases h
        simp [bytesCompare_eq_iff.2 rfl] at hlt
      · have := bytesCompare_gt_iff.2 (hafter _ h)
        rw [hlt] at this
        cases this
  · intro hmem
    have hin := DbIterator.inRange (hscan ▸ List.mem_append_left _ hmem)
    exact ⟨⟨hin.1.1, hcross _ hmem _ List.mem_cons_self⟩, hin.2⟩

/-- **A token resumes the iteration** right after the entry it was made from. -/
theorem entries_resume (reverse : Bool) {done rest : List (Bytes × DbValue)} {e : Bytes × DbValue}
    (h : queryEntries db start stop reverse none = done ++ e :: rest) :
    queryEntries db start stop reverse (some e.1) = rest := by
  cases reverse with
  | false =>
    have hscan : DbIterator.scan db start stop = (done ++ [e]) ++ rest := by
      rw [List.append_assoc]
      exact h
    exact scan_after hfin hscan (by simp : (done ++ [e]).getLast? = some (e.1, e.2))
  | true =>
    have hscan : DbIterator.scan db start stop = rest.reverse ++ (e.1, e.2) :: done.reverse := by
      have hrev := congrArg List.reverse h
      rw [queryEntries_reverse, List.reverse_reverse] at hrev
      simpa using hrev
    rw [queryEntries_reverse, Option.getD_some, scan_before hfin hscan, List.reverse_reverse]

theorem mem_queryEntries {reverse : Bool} :
    (k, v) ∈ queryEntries db start stop reverse none ↔ InRange start stop k ∧ db k = some v := by
  rw [← mem_scan_iff hfin]
  cases reverse
  · exact Iff.rfl
  · exact List.mem_reverse

end

variable {β ε : Type} {select : Bytes × DbValue → Except ε (Option β)} {pageOptions : PageOptions}
  {l : List β}

/-- **The pages of a query are the selection from the range.** (Only the empty key would give no token.) -/
theorem walk_pageByPrefix_iff [DbIterator.Exact] (hfin : (occupied db start stop).Finite)
    (hstart : start ≠ []) :
    Walk (fun token => pageByPrefix db start stop { pageOptions with pageToken := token } select) none l ↔
      selectAll select (queryEntries db start stop pageOptions.reverse none) = .ok l := by
  simp only [pageByPrefix_eq]
  refine walk_page_iff fun {done e rest} h => ⟨e.1, ?_, entries_resume hfin _ h⟩
  have hrange :=
    ((mem_queryEntries hfin).1 (h ▸ List.mem_append_right _ List.mem_cons_self : (e.1, e.2) ∈ _)).1
  refine if_neg fun hlen => hstart ?_
  have hge := hrange.1
  rw [List.eq_nil_of_length_eq_zero hlen] at hge
  cases start with
  | nil => rfl
  | cons b p => exact absurd rfl hge

end resume

/-! ## The range of a prefix -/

theorem eq_of_carry {v : Bytes} (hgo : incrementVecU8.go p = (v, true)) : ∀ b ∈ p, b = 255 := by
  induction p generalizing v with
  | nil => exact fun _ hb => nomatch hb
  | cons b p ih =>
    rw [incrementVecU8.go] at hgo
    split at hgo
    next hrest =>
      split at hgo
      · exact List.forall_mem_cons.2 ⟨‹_›, ih hrest⟩
      · cases hgo
    · cases hgo

theorem range_of_carry {v : Bytes} (hgo : incrementVecU8.go p = (v, true)) (hlen : p.length ≤ k.length) :
    bytesCompare k v ≠ .lt ∧ (bytesCompare p k ≠ .gt ↔ p <+: k) := by
  induction p generalizing v k with
  | nil =>
    cases hgo
    simp [bytesCompare_nil_left, bytesCompare_nil_right]
  | cons b p ih =>
    obtain _ | ⟨x, k⟩ := k
    · simp at hlen
    obtain rfl := eq_of_carry hgo b (.head _)
    rw [incrementVecU8.go] at hgo
    cases hrest : incrementVecU8.go p with
    | mk v' carry =>
      rw [hrest] at hgo
      cases carry <;> cases hgo
      obtain ⟨hlow, hhigh⟩ := ih hrest (Nat.le_of_succ_le_succ hlen)
      have htop : ¬ 255 < x := UInt8.not_lt.2 (UInt8.le_iff_toNat_le.2 (Nat.le_of_lt_succ x.toNat_lt))
      rw [Ne, bytesCompare_cons_eq_lt, bytesCompare_cons_ne_gt, List.cons_prefix_cons, hhigh]
      simp [hlow, htop, UInt8.not_lt_zero]

theorem inRange_go_iff {v : Bytes} (hgo : incrementVecU8.go p = (v, false)) (hlen : p.length ≤ k.length) :
    InRange p v k ↔ p <+: k := by
  induction p generalizing v k with
  | nil => cases hgo
  | cons b p ih =>
    obtain _ | ⟨x, k⟩ := k
    · simp at hlen
    have hlen' : p.length ≤ k.length := Nat.le_of_succ_le_succ hlen
    rw [incrementVecU8.go] at hgo
    rw [List.cons_prefix_cons, InRange]
    split at hgo
    next v' hcarry =>
      split at hgo
      · cases hgo
      next hb =>
        cases hgo
        obtain ⟨hlow, hhigh⟩ := range_of_carry hcarry hlen'
        rw [bytesCompare_cons_ne_gt, bytesCompare_cons_eq_lt, lt_succ_iff hb, hhigh]
        grind
    next v' hnone =>
      cases hgo
      have hrest := ih hnone hlen'
      rw [InRange] at hrest
      rw [bytesCompare_cons_ne_gt, bytesCompare_cons_eq_lt]
      grind

theorem le_append (p rest : Bytes) : bytesCompare p (p ++ rest) ≠ .gt := by
  induction p with
  | nil => exact bytesCompare_nil_left _
  | cons b p ih => rwa [List.cons_append, bytesCompare_cons_self]

theorem inRange_of_noCarry {v : Bytes} (hgo : incrementVecU8.go p = (v, false)) (h : p <+: k) :
    InRange p (incrementVecU8 p) k := by
  have hstop : incrementVecU8 p = v := by simp [incrementVecU8, hgo]
  rw [hstop]
  exact (inRange_go_iff hgo h.length_le).2 h

theorem inRange_of_isPrefix {b : UInt8} (hb : b ≠ 255) (h : b :: p <+: k) :
    InRange (b :: p) (incrementVecU8 (b :: p)) k := by
  cases hgo : incrementVecU8.go (b :: p) with
  | mk v carry =>
    cases carry with
    | false => exact inRange_of_noCarry hgo h
    | true => exact absurd (eq_of_carry hgo b (.head _)) hb

/-- **The range of a prefix that is not all 255** has, of the strings as long as the prefix, those with the
    prefix. -/
theorem inRange_increment_iff (p k : Bytes) (hp : ¬ ∀ b ∈ p, b = 255) (hlen : p.length ≤ k.length) :
    InRange p (incrementVecU8 p) k ↔ p <+: k := by
  cases hgo : incrementVecU8.go p with
  | mk v carry =>
    cases carry with
    | false =>
      rw [incrementVecU8, hgo]
      exact inRange_go_iff hgo hlen
    | true => exact absurd (eq_of_carry hgo) hp

theorem inRange_increment_carry :
    incrementVecU8 [1, 255] = [2, 0] ∧ InRange [1, 255] (incrementVecU8 [1, 255]) [1, 255, 7] :=
  ⟨rfl, (inRange_increment_iff [1, 255] [1, 255, 7] (by decide) (by decide)).2 (by decide)⟩

end Hypersnap
