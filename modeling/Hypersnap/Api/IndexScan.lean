import Hypersnap.Storage.Pages

/-!
# `Api.IndexScan` — upgrading the quote index and the user-data index

Both indices are cleared by `for_each_iterator_by_prefix`. Its callback returns whether to **stop**, and the
callback that collects the keys returns whether to **go on**, so an upgrade of the schema clears one key
(`schemaUpgrade_clears_iff`).
-/

namespace Hypersnap

open Overlay

/-- What a scan has collected. The callbacks of the indices never fail. -/
def collected {β : Type} : Except Empty (Bool × List β) → List β
  | .ok (_, results) => results

namespace CastQuotesIndexer

def makeQuotePrefix (targetHash : Bytes) : Bytes := 0xE8 :: 0x01 :: targetHash

end CastQuotesIndexer

/-! ## Upgrades of the schema -/

section upgrade
variable {b : UInt8} {version : UInt32} {db : RocksDB}

def storedVersion (b : UInt8) (db : RocksDB) : Nat :=
  match db [b, 0xFE] with
  | some (.bytes v) => if v.length = 4 then fromBeBytes v else 0
  | _ => 0

def loadCheckpoint (b : UInt8) (db : RocksDB) : Nat :=
  match db [b, 0xFF] with
  | some (.bytes v) => if v.length = 8 then fromBeBytes v else 0
  | _ => 0

/-- The callback pushes the key and returns `true`. -/
def clearAllData [DbIterator] (b : UInt8) (db : RocksDB) : RocksDB :=
  let keys := collected (forEachIteratorByPrefix db (some [b]) (some (incrementVecU8 [b])) {}
    (fun key _ keys => .ok (true, keys ++ [key])) [])
  if keys.isEmpty then db else commit db (keys.foldl Batch.delete Batch.empty)

def openIndex [DbIterator] (b : UInt8) (schemaVersion : UInt32) (db : RocksDB) : RocksDB × Nat :=
  let db := if storedVersion b db < schemaVersion.toNat then
      commit (clearAllData b db) (Batch.empty.put [b, 0xFE] (.bytes (toBeBytes schemaVersion)))
    else db
  (db, loadCheckpoint b db)

def CastQuotesIndexer.new [DbIterator] (db : RocksDB) : RocksDB × Nat := openIndex 0xE8 1 db

def UserDataIndexer.new [DbIterator] (db : RocksDB) : RocksDB × Nat := openIndex 0xE9 1 db

/-- Under the prefix there is the version and nothing else, and all other keys are as before. -/
def StartsEmpty (b : UInt8) (version : UInt32) (db db' : RocksDB) : Prop :=
  (∀ k, [b] <+: k → db' k = if k = [b, 0xFE] then some (.bytes (toBeBytes version)) else none) ∧
    ∀ k, ¬ [b] <+: k → db' k = db k

/-- Every key under the prefix is the version key or the first one. -/
def OnlyFirst (b : UInt8) (db : RocksDB) : Prop :=
  ∀ k, [b] <+: k → (db k).isSome → k ≠ [b, 0xFE] → ∀ k', [b] <+: k' → (db k').isSome → bytesCompare k' k ≠ .lt

/-- The keys that are cleared: the first one. -/
def firstKeys [DbIterator] (b : UInt8) (db : RocksDB) : List Bytes :=
  ((DbIterator.scan db [b] (incrementVecU8 [b])).take 1).map (·.1)

theorem clearAllData_eq [DbIterator] : clearAllData b db = eraseAll db (firstKeys b db) := by
  have hkeys : collected (forEachIteratorByPrefix db (some [b]) (some (incrementVecU8 [b])) {}
      (fun key _ keys => .ok (true, keys ++ [key])) []) = firstKeys b db := by
    change collected (iterateWithOpts none _ (DbIterator.scan db [b] (incrementVecU8 [b])) 0 []) = _
    unfold firstKeys
    cases DbIterator.scan db [b] (incrementVecU8 [b]) <;> rfl
  rw [clearAllData, hkeys, commit_foldl_delete, commit_empty]
  cases firstKeys b db <;> simp

theorem firstKeys_cases [DbIterator] [DbIterator.Exact] (hb : b ≠ 255) (hdb : {k | (db k).isSome}.Finite) :
    (∀ f ∈ firstKeys b db, [b] <+: f ∧ (db f).isSome) ∧ ∀ k, [b] <+: k → (db k).isSome →
      firstKeys b db = [k] ∨ ∃ f, firstKeys b db = [f] ∧ bytesCompare f k = .lt := by
  have hfin : (occupied db [b] (incrementVecU8 [b])).Finite := hdb.subset fun _ hk => hk.2
  have hmem {k : Bytes} {v : DbValue} :
      (k, v) ∈ DbIterator.scan db [b] (incrementVecU8 [b]) ↔ [b] <+: k ∧ db k = some v :=
    (mem_scan_iff hfin).trans (and_congr_left fun _ => @inRange_iff_isPrefix [] k b hb)
  constructor
  · intro f hf
    obtain ⟨e, he, rfl⟩ := List.mem_map.1 hf
    obtain ⟨hp, hv⟩ := hmem.1 (List.mem_of_mem_take he)
    exact ⟨hp, by simp [hv]⟩
  · intro k hp hk
    obtain ⟨v, hv⟩ := Option.isSome_iff_exists.1 hk
    have hkv := hmem.2 ⟨hp, hv⟩
    have hsorted := DbIterator.Exact.sorted db [b] (incrementVecU8 [b])
    unfold firstKeys
    cases hscan : DbIterator.scan db [b] (incrementVecU8 [b]) with
    | nil => simp [hscan] at hkv
    | cons e rest =>
      rw [hscan] at hkv hsorted
      rcases List.mem_cons.1 hkv with rfl | hlater
      · exact .inl rfl
      · exact .inr ⟨e.1, rfl, (List.pairwise_cons.1 hsorted).1 _ hlater⟩

theorem openIndex_startsEmpty_iff [DbIterator] [DbIterator.Exact] (hb : b ≠ 255)
    (hdb : {k | (db k).isSome}.Finite) (hold : storedVersion b db < version.toNat) :
    StartsEmpty b version db (openIndex b version db).1 ↔ OnlyFirst b db := by
  obtain ⟨hfirst, hcases⟩ := firstKeys_cases hb hdb
  have hnew : (openIndex b version db).1 =
      Function.update (eraseAll db (firstKeys b db)) [b, 0xFE] (some (.bytes (toBeBytes version))) := by
    rw [openIndex, if_pos hold, commit_put, commit_empty, clearAllData_eq]
  rw [StartsEmpty, hnew]
  constructor
  · rintro ⟨hclear, -⟩ k hp hk hne k' hp' hk' hlt
    have hgone := hclear k hp
    rw [Function.update_of_ne hne, if_neg hne] at hgone
    -- what is gone was the first key, and no key is before it
    rcases hcases k hp hk with heq | ⟨f, heq, hbefore⟩
    · rcases hcases k' hp' hk' with heq' | ⟨f, heq', hbefore⟩ <;> cases heq.symm.trans heq'
      · simp [bytesCompare_eq_iff.2 rfl] at hlt
      · simp [bytesCompare_gt_iff.2 hbefore] at hlt
    · have hkf : k ∉ firstKeys b db := by
        rw [heq, List.mem_singleton]
        rintro rfl
        simp [bytesCompare_eq_iff.2 rfl] at hbefore
      rw [eraseAll_of_not_mem hkf] at hgone
      simp [hgone] at hk
  · intro honly
    refine ⟨fun k hp => ?_, fun k hp => ?_⟩
    · by_cases hne : k = [b, 0xFE]
      · rw [if_pos hne, hne, Function.update_self]
      · rw [if_neg hne, Function.update_of_ne hne]
        by_contra hsome
        obtain ⟨v, hv⟩ := Option.ne_none_iff_exists'.1 hsome
        obtain ⟨hkept, hv⟩ := eraseAll_eq_some.1 hv
        rcases hcases k hp (by simp [hv]) with heq | ⟨f, heq, hbefore⟩
        · exact hkept (by simp [heq])
        · obtain ⟨hpf, hf⟩ := hfirst f (by simp [heq])
          exact honly k hp (by simp [hv]) hne f hpf hf hbefore
    · have hother : k ≠ [b, 0xFE] := by
        rintro rfl
        exact hp ⟨_, rfl⟩
      rw [Function.update_of_ne hother, eraseAll_of_not_mem fun hk => hp (hfirst k hk).1]

/-- **A schema upgrade starts from an empty index** exactly if every key of the index, the version apart, is
    its first key. -/
theorem schemaUpgrade_clears_iff [DbIterator] [DbIterator.Exact] (db : RocksDB)
    (hdb : {k | (db k).isSome}.Finite) :
    (storedVersion 0xE8 db < 1 → (StartsEmpty 0xE8 1 db (CastQuotesIndexer.new db).1 ↔ OnlyFirst 0xE8 db)) ∧
      (storedVersion 0xE9 db < 1 → (StartsEmpty 0xE9 1 db (UserDataIndexer.new db).1 ↔ OnlyFirst 0xE9 db)) :=
  ⟨@openIndex_startsEmpty_iff 0xE8 1 db _ _ (by decide) hdb,
    @openIndex_startsEmpty_iff 0xE9 1 db _ _ (by decide) hdb⟩

def sampleQuoteKey (fid : UInt64) : Bytes :=
  CastQuotesIndexer.makeQuotePrefix (List.replicate 20 7) ++ toBeBytes64 fid ++ List.replicate 20 9

def sampleQuotesDb (fids : List UInt64) : RocksDB := fun k =>
  if (fids.map sampleQuoteKey).contains k then some (.bytes [1]) else none

/-- One quote, and one key outside the index. -/
def sampleQuoteDb : RocksDB := Function.update (sampleQuotesDb [1]) [1] (some (.bytes [5]))

theorem sampleQuoteDb_isSome {k : Bytes} : (sampleQuoteDb k).isSome ↔ k = [1] ∨ k = sampleQuoteKey 1 := by
  rw [sampleQuoteDb]
  by_cases hk : k = [1]
  · simp [hk]
  · simp [hk, sampleQuotesDb]

/-- A single quote is cleared, and the key outside the index stays. -/
theorem schemaUpgrade_clears_quote :
    let _ := sortedScan
    (sampleQuoteDb (sampleQuoteKey 1)).isSome ∧ storedVersion 0xE8 sampleQuoteDb < 1 ∧
      StartsEmpty 0xE8 1 sampleQuoteDb (CastQuotesIndexer.new sampleQuoteDb).1 := by
  let _ := sortedScan
  have := sortedScan_exact
  have hfin : {k | (sampleQuoteDb k).isSome}.Finite := by
    simp only [sampleQuoteDb_isSome]
    exact Set.toFinite {[1], sampleQuoteKey 1}
  have hold : storedVersion 0xE8 sampleQuoteDb < 1 := by decide
  refine ⟨rfl, hold, ((schemaUpgrade_clears_iff sampleQuoteDb hfin).1 hold).2 ?_⟩
  have honly {k : Bytes} (hp : [0xE8] <+: k) (hk : (sampleQuoteDb k).isSome) : k = sampleQuoteKey 1 := by
    rcases sampleQuoteDb_isSome.1 hk with rfl | rfl
    · exact absurd hp (by decide)
    · rfl
  intro k hp hk _ k' hp' hk'
  rw [honly hp hk, honly hp' hk']
  decide

/-- Of two quotes, one survives the upgrade. -/
theorem schemaUpgrade_leaves_quote :
    let _ := keyScan ([1, 2].map sampleQuoteKey)
    storedVersion 0xE8 (sampleQuotesDb [1, 2]) < 1 ∧
      ((CastQuotesIndexer.new (sampleQuotesDb [1, 2])).1 (sampleQuoteKey 2)).isSome = true :=
  ⟨Nat.zero_lt_one, rfl⟩

end upgrade
end Hypersnap
