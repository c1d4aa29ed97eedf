import Hypersnap.Storage.Pages

/-!
# `Storage.Sweep` — deleting a range page by page, and looking up through an index

`delete_paginated` deletes the entries of a range in pages, each in a batch of its own, until a page has
nothing left to delete. The pages go through the range from its start, so whatever happens a first part of it
is gone (`deletePaginated_eq`). The counts are 32-bit numbers: up to that size the whole range is deleted and
the total is the number of its entries.

`get_next_by_index` reads the first entry of an index from a key on, and the record it points to. An entry
whose record is missing is an **error**, not the end of the index.
-/

namespace Hypersnap

open Overlay

variable [DbIterator]

/-! ## Deleting -/

/-- `delete_page`: the keys of a page in a batch. The batch is a map, its length the number of different
    keys. -/
def deletePage (db : RocksDB) (startPrefix stopPrefix : Option Bytes) (pageOptions : PageOptions) :
    Except HubError (RocksDB × UInt32) :=
  match iterateWithOpts pageOptions.pageSize (fun key _ keys => .ok (false, keys ++ [key]))
      ((getIteratorOptions startPrefix stopPrefix pageOptions).entries db) 0 [] with
  | .error e => .error e
  | .ok (_, keys) => .ok (commit db (keys.foldl Batch.delete Batch.empty), UInt32.ofNat keys.dedup.length)

/-- The loop of `delete_paginated`: it ends at a page that counts zero. Nothing if the fuel runs out. -/
def deletePaginatedFuel (startPrefix stopPrefix : Option Bytes) (pageOptions : PageOptions) :
    Nat → RocksDB → UInt32 → Option (Except HubError (RocksDB × UInt32))
  | 0, _, _ => none
  | fuel + 1, db, totalDeleted =>
    match deletePage db startPrefix stopPrefix pageOptions with
    | .error e => some (.error e)
    | .ok (db, count) =>
      if count = 0 then some (.ok (db, totalDeleted))
      else deletePaginatedFuel startPrefix stopPrefix pageOptions fuel db (totalDeleted + count)

/-- There are no more pages than entries, and the last one that is empty. -/
def deletePaginated (db : RocksDB) (startPrefix stopPrefix : Option Bytes) (pageOptions : PageOptions) :
    Option (Except HubError (RocksDB × UInt32)) :=
  deletePaginatedFuel startPrefix stopPrefix pageOptions
    (((getIteratorOptions startPrefix stopPrefix pageOptions).entries db).length + 1) db 0

/-! ## Looking up -/

/-- `get_next_by_index`. Index entries are keys; a value of another kind points nowhere. -/
def getNextByIndex (db : RocksDB) (indexPrefix start : Bytes) : Except HubError (Option DbValue) :=
  match forEachIteratorByPrefix db (some start) (some (incrementVecU8 indexPrefix)) { pageSize := some 1 }
      (fun _ index _ => .ok (true, some index)) none with
  | .error e => .error e
  | .ok (_, none) => .ok none
  | .ok (_, some index) =>
    let found := match index with
      | .bytes primaryKey => db primaryKey
      | _ => none
    match found with
    | some value => .ok (some value)
    | none => .error (.notFound "No value found for the given key")

theorem getNextByIndex_eq (db : RocksDB) (indexPrefix start : Bytes) : getNextByIndex db indexPrefix start =
      match (DbIterator.scan db start (incrementVecU8 indexPrefix)).head? with
      | none => .ok none
      | some (_, .bytes primaryKey) =>
        match db primaryKey with
        | some value => .ok (some value)
        | none => .error (.notFound "No value found for the given key")
      | some _ => .error (.notFound "No value found for the given key") := by
  have hentries :
      (getIteratorOptions (some start) (some (incrementVecU8 indexPrefix)) { pageSize := none }).entries db =
      DbIterator.scan db start (incrementVecU8 indexPrefix) := rfl
  unfold getNextByIndex forEachIteratorByPrefix forEachIteratorByPrefixPaged
  simp only [hentries]
  cases DbIterator.scan db start (incrementVecU8 indexPrefix) with
  | nil => rfl
  | cons e rest =>
    obtain ⟨key, index⟩ := e
    cases index <;> rfl

/-! ## What the pages delete -/

/-- How many entries a page of this size takes: the first one also if the size is zero. -/
def pageLength (pageSize : Option Nat) (entries : Nat) : Nat :=
  match pageSize with
  | none => entries
  | some limit => min (max limit 1) entries

omit [DbIterator] in
theorem pageLength_le (pageSize : Option Nat) (entries : Nat) : pageLength pageSize entries ≤ entries := by
  cases pageSize with
  | none => exact Nat.le_refl _
  | some limit => exact Nat.min_le_right _ _

omit [DbIterator] in
theorem pageLength_eq_zero {pageSize : Option Nat} {entries : Nat} :
    pageLength pageSize entries = 0 ↔ entries = 0 := by
  cases pageSize with
  | none => exact Iff.rfl
  | some limit =>
    simp only [pageLength]
    omega

omit [DbIterator] in
theorem iterateWithOpts_keys (pageSize : Option Nat) (entries : List (Bytes × DbValue)) (count : Nat)
    (done : List Bytes) :
    ∃ complete, iterateWithOpts (ε := HubError) pageSize
      (fun key _ keys => .ok (false, keys ++ [key])) entries count done =
      .ok (complete,
        done ++ (entries.take (pageLength (pageSize.map (· - count)) entries.length)).map Prod.fst) := by
  induction entries generalizing count done with
  | nil => exact ⟨true, by simp [iterateWithOpts]⟩
  | cons e rest ih =>
    obtain ⟨key, value⟩ := e
    cases pageSize with
    | none =>
      obtain ⟨complete, hrest⟩ := ih count (done ++ [key])
      refine ⟨complete, ?_⟩
      simp only [iterateWithOpts, hrest]
      simp [pageLength]
    | some limit =>
      by_cases hfull : limit ≤ count + 1
      · refine ⟨true, ?_⟩
        have hlen : pageLength (some (limit - count)) ((key, value) :: rest).length = 1 := by
          simp only [pageLength, List.length_cons]
          omega
        simp only [iterateWithOpts, if_pos hfull, Option.map_some, hlen]
        rfl
      · obtain ⟨complete, hrest⟩ := ih (count + 1) (done ++ [key])
        refine ⟨complete, ?_⟩
        have hlen : pageLength (some (limit - count)) ((key, value) :: rest).length =
            pageLength (some (limit - (count + 1))) rest.length + 1 := by
          simp only [pageLength, List.length_cons]
          omega
        simp only [iterateWithOpts, if_neg hfull, hrest, Option.map_some, hlen]
        simp

section exact
variable [DbIterator.Exact] {db : RocksDB} {start stop : Bytes} {pageSize : Option Nat}

/-- **One page** deletes the first entries of the range, and leaves the others. -/
theorem deletePage_eq (db : RocksDB) (start stop : Bytes) (pageSize : Option Nat) :
    deletePage db (some start) (some stop) { pageSize } =
      .ok (eraseAll db (((DbIterator.scan db start stop).take
          (pageLength pageSize (DbIterator.scan db start stop).length)).map Prod.fst),
        UInt32.ofNat (pageLength pageSize (DbIterator.scan db start stop).length)) := by
  have hentries : (getIteratorOptions (some start) (some stop) { pageSize }).entries db =
      DbIterator.scan db start stop := rfl
  generalize hE : DbIterator.scan db start stop = entries at hentries
  have hsorted := hE ▸ DbIterator.Exact.sorted db start stop
  obtain ⟨complete, hkeys⟩ := iterateWithOpts_keys pageSize entries 0 []
  have hsub : pageSize.map (· - 0) = pageSize := by cases pageSize <;> rfl
  rw [hsub, List.nil_append] at hkeys
  generalize hn : pageLength pageSize entries.length = n at hkeys ⊢
  have hnodup : ((entries.take n).map Prod.fst).Nodup := by
    refine List.Pairwise.map _ ?_ (hsorted.sublist (List.take_sublist n entries))
    intro a b hlt heq
    rw [heq, bytesCompare_eq_iff.2 rfl] at hlt
    cases hlt
  have hlen : (entries.take n).length = n := by
    rw [List.length_take, ← hn]
    exact Nat.min_eq_left (pageLength_le _ _)
  unfold deletePage
  simp only [hentries, hkeys]
  rw [hnodup.dedup, List.length_map, hlen, commit_foldl_delete]
  rfl

omit [DbIterator] [DbIterator.Exact] in
theorem finite_occupied_eraseAll (hfin : (occupied db start stop).Finite) (keys : List Bytes) :
    (occupied (eraseAll db keys) start stop).Finite := by
  refine hfin.subset ?_
  rintro k ⟨hrange, hsome⟩
  obtain ⟨v, hv⟩ := Option.isSome_iff_exists.1 hsome
  exact ⟨hrange, by rw [(eraseAll_eq_some.1 hv).2]; rfl⟩

theorem scan_eraseAll_take (hfin : (occupied db start stop).Finite) (n : Nat) :
    DbIterator.scan (eraseAll db (((DbIterator.scan db start stop).take n).map Prod.fst)) start stop =
      (DbIterator.scan db start stop).drop n := by
  have hsorted := DbIterator.Exact.sorted db start stop
  have hmem {k : Bytes} {v : DbValue} := @mem_scan_iff _ _ db start stop hfin k v
  generalize hE : DbIterator.scan db start stop = entries at hsorted hmem ⊢
  have hsplit := List.take_append_drop n entries
  refine eq_of_mem_iff_of_ascending (DbIterator.Exact.sorted _ _ _)
    (hsorted.sublist (List.drop_sublist n entries)) ?_
  rintro ⟨k, v⟩
  rw [mem_scan_iff (finite_occupied_eraseAll hfin _), eraseAll_eq_some]
  constructor
  · rintro ⟨hrange, hkept, hv⟩
    have hin := hmem.2 ⟨hrange, hv⟩
    rw [← hsplit] at hin
    exact (List.mem_append.1 hin).resolve_left fun h => hkept (List.mem_map_of_mem h)
  · intro hin
    have hv := hmem.1 ((List.drop_sublist n entries).subset hin)
    refine ⟨hv.1, ?_, hv.2⟩
    intro hdeleted
    obtain ⟨⟨_, w⟩, hw, rfl⟩ := List.mem_map.1 hdeleted
    -- a key of the first part is before all of the second
    rw [← hsplit] at hsorted
    have hlt := (List.pairwise_append.1 hsorted).2.2 _ hw _ hin
    rw [bytesCompare_eq_iff.2 rfl] at hlt
    cases hlt

/-- **The pages delete a first part of the range**, and count it up to the size of the counter; all of it if
    it has fewer entries than that. -/
theorem deletePaginatedFuel_eq {total : UInt32} {fuel : Nat} (hfin : (occupied db start stop).Finite)
    (hfuel : (DbIterator.scan db start stop).length < fuel) : ∃ n ≤ (DbIterator.scan db start stop).length,
      deletePaginatedFuel (some start) (some stop) { pageSize } fuel db total =
        some (.ok (eraseAll db (((DbIterator.scan db start stop).take n).map Prod.fst),
          total + UInt32.ofNat n)) ∧
      ((DbIterator.scan db start stop).length < 2 ^ 32 → n = (DbIterator.scan db start stop).length) := by
  induction fuel generalizing db total with
  | zero => omega
  | succ fuel ih =>
    generalize hE : DbIterator.scan db start stop = entries at hfuel
    have hpage := deletePage_eq db start stop pageSize
    have hrest := scan_eraseAll_take hfin (pageLength pageSize (DbIterator.scan db start stop).length)
    rw [hE] at hpage hrest
    have hle := pageLength_le pageSize entries.length
    generalize hn : pageLength pageSize entries.length = n at hpage hrest hle
    generalize hdb : eraseAll db ((entries.take n).map Prod.fst) = db' at hpage hrest
    simp only [deletePaginatedFuel, hpage]
    by_cases hzero : UInt32.ofNat n = 0
    · -- the page counts zero: nothing was there, or a multiple of the size of the counter
      refine ⟨n, hle, ?_, ?_⟩
      · rw [if_pos hzero, hzero, hdb]
        simp
      · intro hsmall
        have hmod : n % 2 ^ 32 = 0 := by
          have := congrArg UInt32.toNat hzero
          rwa [UInt32.toNat_ofNat'] at this
        rw [Nat.mod_eq_of_lt (by omega)] at hmod
        have hempty := pageLength_eq_zero.1 (hn.trans hmod)
        omega
    · rw [if_neg hzero]
      have hpos : n ≠ 0 := by
        rintro rfl
        exact hzero rfl
      have hfin' : (occupied db' start stop).Finite := hdb ▸ finite_occupied_eraseAll hfin _
      have hlen : (entries.drop n).length = entries.length - n := List.length_drop
      obtain ⟨m, hm, heq, hall⟩ := @ih db' (total + UInt32.ofNat n) hfin' (by rw [hrest]; omega)
      rw [hrest] at hm heq hall
      refine ⟨n + m, by omega, ?_, fun hsmall => ?_⟩
      · rw [heq, ← hdb, eraseAll_eraseAll, ← List.map_append, ← List.take_add, UInt32.ofNat_add,
          UInt32.add_assoc]
      · have := hall (by omega)
        omega

theorem deletePaginated_eq (hfin : (occupied db start stop).Finite) (pageSize : Option Nat) :
    ∃ n ≤ (DbIterator.scan db start stop).length, deletePaginated db (some start) (some stop) { pageSize } =
        some (.ok (eraseAll db (((DbIterator.scan db start stop).take n).map Prod.fst), UInt32.ofNat n)) ∧
      ((DbIterator.scan db start stop).length < 2 ^ 32 → n = (DbIterator.scan db start stop).length) := by
  have hfuel : (DbIterator.scan db start stop).length < (DbIterator.scan db start stop).length + 1 :=
    Nat.lt_succ_self _
  obtain ⟨n, hn, heq, hall⟩ := @deletePaginatedFuel_eq _ _ db start stop pageSize 0 _ hfin hfuel
  rw [UInt32.zero_add] at heq
  exact ⟨n, hn, heq, hall⟩

end exact

end Hypersnap
