import Mathlib.Data.Set.Finite.Range
import Hypersnap.Lib.Windows
import Hypersnap.Store.ShardChunks

/-!
# `Store.History` — a shard's chunks with consecutive heights

A `ChunkHistory` of a database says that its shard table holds the chunks of consecutive heights and nothing
else. With an exact iterator `getShardChunks` then returns the chunks of a half-open range of heights and
`maxBlockNumber` the height of the last one. `forChunkRanges` is the loop both backfills run over the chunks:
in ranges of 100, the end of each range handed to the **exclusive** bound of the read and skipped; on a
history it runs over the windows of `Lib.Windows`.
-/

namespace Hypersnap

/-! ## Keys of chunks -/

theorem bytesCompare_makeShardKey (a b : UInt64) :
    bytesCompare (makeShardKey a) (makeShardKey b) = compare a b := by
  rw [makeShardKey, makeShardKey, bytesCompare_cons_self, bytesCompare_toBeBytes64]

theorem makeShardKey_injective : Function.Injective makeShardKey := by
  intro a b h
  exact toBeBytes64_injective (List.cons_inj_right _ |>.1 h)

theorem makeShardKey_lt_table_end (n : UInt64) :
    bytesCompare (makeShardKey n) [RootPrefix.shard.toByte + 1] = .lt := rfl

theorem inRange_makeShardKey {lo hi n : UInt64} :
    InRange (makeShardKey lo) (makeShardKey hi) (makeShardKey n) ↔ lo ≤ n ∧ n < hi := by
  rw [InRange, bytesCompare_makeShardKey, bytesCompare_makeShardKey, ne_eq, ← Ordering.isLE_iff_ne_gt,
    Std.isLE_compare,
    Std.compare_eq_lt]

theorem inRange_table (n : UInt64) :
    InRange (makeShardKey 0) [RootPrefix.shard.toByte + 1] (makeShardKey n) := by
  refine ⟨?_, makeShardKey_lt_table_end n⟩
  rw [bytesCompare_makeShardKey, ne_eq, ← Ordering.isLE_iff_ne_gt, Std.isLE_compare]
  exact UInt64.zero_le

theorem InRange.table {lo hi : UInt64} {k : Bytes} (h : InRange (makeShardKey lo) (makeShardKey hi) k) :
    InRange (makeShardKey 0) [RootPrefix.shard.toByte + 1] k := by
  obtain ⟨hge, hlt⟩ := h
  have hzero : bytesLe (makeShardKey 0) (makeShardKey lo) = true :=
    Ordering.isLE_iff_ne_gt.2 (inRange_table lo).1
  refine ⟨Ordering.isLE_iff_ne_gt.1 (bytesLe_trans _ _ _ hzero (Ordering.isLE_iff_ne_gt.2 hge)), ?_⟩
  have htrans : Std.TransCmp bytesCompare := inferInstanceAs (Std.TransCmp compare)
  exact Std.TransCmp.lt_trans hlt (makeShardKey_lt_table_end hi)

/-! ## Histories -/

def ShardChunk.blockNumber (chunk : ShardChunk) : Option UInt64 :=
  (chunk.header.bind (·.height)).map (·.blockNumber)

/-- The user messages of a chunk, transaction by transaction. -/
def ShardChunk.userMessages (chunk : ShardChunk) : List Message := chunk.transactions.flatMap (·.userMessages)

/-- The shard table of a database holds the chunks of the heights from `first` on. -/
structure ChunkHistory (db : RocksDB) where
  first : Nat
  chunks : List ShardChunk
  stored : ∀ n : UInt64, db (makeShardKey n) =
    (if first ≤ n.toNat then chunks[n.toNat - first]? else none).map .shardChunk
  /-- The table has no other keys. -/
  only : ∀ k, InRange (makeShardKey 0) [RootPrefix.shard.toByte + 1] k → (db k).isSome →
    ∃ n, k = makeShardKey n
  numbered : ∀ i chunk, chunks[i]? = some chunk → ∃ n, chunk.blockNumber = some n ∧ n.toNat = first + i

namespace ChunkHistory

variable {db : RocksDB} (history : ChunkHistory db)

def chunkAt (h : Nat) : Option ShardChunk :=
  if history.first ≤ h then history.chunks[h - history.first]? else none

def messagesAt (h : Nat) : List Message := ((history.chunkAt h).map ShardChunk.userMessages).getD []

/-- The height of the last chunk, 0 without one. -/
def maxHeight : Nat := if history.chunks = [] then 0 else history.first + history.chunks.length - 1

variable {history} {h : Nat}

theorem lt_of_chunkAt {chunk : ShardChunk} (hc : history.chunkAt h = some chunk) :
    h < 2 ^ 64 ∧ history.first ≤ h ∧ h < history.first + history.chunks.length := by
  unfold chunkAt at hc
  by_cases hf : history.first ≤ h
  · rw [if_pos hf] at hc
    obtain ⟨n, -, hn⟩ := history.numbered _ _ hc
    have hlen := (List.getElem?_eq_some_iff.1 hc).1
    have := n.toNat_lt
    omega
  · rw [if_neg hf] at hc
    cases hc

theorem flatMap_userMessages (heights : List Nat) :
    (heights.filterMap history.chunkAt).flatMap ShardChunk.userMessages =
      heights.flatMap history.messagesAt := by
  induction heights with
  | nil => rfl
  | cons h heights ih =>
    rw [List.flatMap_cons, ← ih, messagesAt]
    cases hc : history.chunkAt h with
    | none => rw [List.filterMap_cons_none hc]; rfl
    | some chunk => rw [List.filterMap_cons_some hc]; rfl

theorem stored_eq (history : ChunkHistory db) (n : UInt64) :
    db (makeShardKey n) = (history.chunkAt n.toNat).map .shardChunk := history.stored n

/-! ## Reading a history -/

def entryAt (history : ChunkHistory db) (h : Nat) : Option (Bytes × DbValue) :=
  (history.chunkAt h).map fun chunk => (makeShardKey (UInt64.ofNat h), .shardChunk chunk)

theorem entryAt_eq_some {e : Bytes × DbValue} (he : history.entryAt h = some e) :
    ∃ n : UInt64, n.toNat = h ∧ e.1 = makeShardKey n ∧ db e.1 = some e.2 := by
  obtain ⟨chunk, hchunk, rfl⟩ := Option.map_eq_some_iff.1 he
  have hlt := (lt_of_chunkAt hchunk).1
  have hnat : (UInt64.ofNat h).toNat = h := UInt64.toNat_ofNat_of_lt' hlt
  refine ⟨UInt64.ofNat h, hnat, rfl, ?_⟩
  rw [history.stored_eq, hnat, hchunk]
  rfl

theorem finite_occupied (history : ChunkHistory db) {start stop : Bytes}
    (htable : ∀ k, InRange start stop k → InRange (makeShardKey 0) [RootPrefix.shard.toByte + 1] k) :
    (occupied db start stop).Finite := by
  have hsub : occupied db start stop ⊆ Set.range makeShardKey := by
    rintro k ⟨hrange, hsome⟩
    obtain ⟨n, rfl⟩ := history.only k (htable k hrange) hsome
    exact ⟨n, rfl⟩
  have hfin : Finite UInt64 :=
    Finite.of_injective (fun n : UInt64 => n.toFin) fun a b h => UInt64.toFin_inj.1 h
  exact (Set.finite_range makeShardKey).subset hsub

variable [DbIterator] [DbIterator.Exact]

/-- **A scan of the table** is the entries of the heights in the range, in order. -/
theorem scan_eq (history : ChunkHistory db) {start stop : Bytes} {lo hi : Nat}
    (htable : ∀ k, InRange start stop k → InRange (makeShardKey 0) [RootPrefix.shard.toByte + 1] k)
    (hrange : ∀ n, (db (makeShardKey n)).isSome →
      (InRange start stop (makeShardKey n) ↔ lo ≤ n.toNat ∧ n.toNat < hi)) :
    DbIterator.scan db start stop = (List.range' lo (hi - lo)).filterMap history.entryAt := by
  refine eq_of_mem_iff_of_ascending (DbIterator.Exact.sorted _ _ _) ?_ ?_
  · rw [List.pairwise_filterMap]
    refine (List.pairwise_lt_range' (s := lo) (n := hi - lo)).imp ?_
    intro a b hab e he e' he'
    obtain ⟨n, hn, hkey, -⟩ := entryAt_eq_some he
    obtain ⟨n', hn', hkey', -⟩ := entryAt_eq_some he'
    rw [hkey, hkey', bytesCompare_makeShardKey, Std.compare_eq_lt, UInt64.lt_iff_toNat_lt]
    omega
  · rintro ⟨k, v⟩
    rw [mem_scan_iff (history.finite_occupied htable), List.mem_filterMap]
    constructor
    · rintro ⟨hin, hv⟩
      obtain ⟨n, rfl⟩ := history.only k (htable k hin) (by rw [hv]; rfl)
      have hn := (hrange n (by rw [hv]; rfl)).1 hin
      refine ⟨n.toNat, List.mem_range'_1.2 ⟨hn.1, by omega⟩, ?_⟩
      rw [history.stored_eq] at hv
      obtain ⟨chunk, hchunk, rfl⟩ := Option.map_eq_some_iff.1 hv
      simp [entryAt, hchunk]
    · rintro ⟨h, hmem, he⟩
      obtain ⟨n, rfl, hkey, hv⟩ := entryAt_eq_some he
      obtain rfl : k = makeShardKey n := hkey
      rw [List.mem_range'_1] at hmem
      exact ⟨(hrange n (by rw [hv]; rfl)).2 ⟨hmem.1, by omega⟩, hv⟩

omit [DbIterator] [DbIterator.Exact] in
theorem mapM_entries (heights : List Nat) :
    (heights.filterMap history.entryAt).mapM (fun e => shardChunkDecode e.2) =
      .ok (heights.filterMap history.chunkAt) := by
  induction heights with
  | nil => rfl
  | cons h heights ih =>
    cases hc : history.chunkAt h with
    | none =>
      have he : history.entryAt h = none := by rw [entryAt, hc]; rfl
      rw [List.filterMap_cons_none he, List.filterMap_cons_none hc, ih]
    | some chunk =>
      have he : history.entryAt h =
          some (makeShardKey (UInt64.ofNat h), .shardChunk chunk) := by rw [entryAt, hc]; rfl
      rw [List.filterMap_cons_some he, List.filterMap_cons_some hc, List.mapM_cons, ih]
      rfl

/-- **Reading a range** returns its chunks without that of the end. -/
theorem getShardChunks_eq (history : ChunkHistory db) (lo hi : UInt64) : getShardChunks db lo (some hi) =
      .ok ((List.range' lo.toNat (hi.toNat - lo.toNat)).filterMap history.chunkAt) := by
  have htable : ∀ k, InRange (makeShardKey lo) (makeShardKey hi) k →
      InRange (makeShardKey 0) [RootPrefix.shard.toByte + 1] k := fun k h => h.table
  rw [getShardChunks]
  rw [readPages_eq (by decide) (history.finite_occupied htable),
    @scan_eq _ _ _ history _ _ lo.toNat hi.toNat htable, mapM_entries]
  intro n _
  rw [inRange_makeShardKey, UInt64.le_iff_toNat_le, UInt64.lt_iff_toNat_lt]

theorem maxBlockNumber_eq (history : ChunkHistory db) : (maxBlockNumber db).toNat = history.maxHeight := by
  have hscan : DbIterator.scan db (makeShardKey 0) [RootPrefix.shard.toByte + 1] =
      (List.range' history.first (history.first + history.chunks.length - history.first)).filterMap
        history.entryAt := by
    refine history.scan_eq (fun k h => h) fun n hsome => ⟨fun _ => ?_, fun _ => inRange_table n⟩
    rw [history.stored_eq, Option.isSome_map] at hsome
    obtain ⟨chunk, hchunk⟩ := Option.isSome_iff_exists.1 hsome
    exact (lt_of_chunkAt hchunk).2
  rw [maxBlockNumber, getLastShardChunk, hscan, maxHeight]
  rcases List.eq_nil_or_concat history.chunks with hnil | ⟨front, last, hchunks⟩
  · simp [hnil]
  · rw [List.concat_eq_append] at hchunks
    have hlen : history.chunks.length = front.length + 1 := by simp [hchunks]
    have hne : history.chunks ≠ [] := by simp [hchunks]
    have hget : history.chunks[front.length]? = some last := by simp [hchunks]
    have hentry : history.entryAt (history.first + front.length) =
        some (makeShardKey (UInt64.ofNat (history.first + front.length)), .shardChunk last) := by
      simp [entryAt, chunkAt, hget]
    obtain ⟨n, hn, hnat⟩ := history.numbered _ _ hget
    obtain ⟨header, hheader, height, hheight, rfl⟩ : ∃ header, last.header = some header ∧
        ∃ height, header.height = some height ∧ height.blockNumber = n := by
      simpa [ShardChunk.blockNumber, Option.bind_eq_some_iff] using hn
    have hrange : List.range' history.first (history.chunks.length) =
        List.range' history.first front.length ++ [history.first + front.length] := by
      rw [hlen, List.range'_concat]
      simp
    rw [Nat.add_sub_cancel_left, hrange, List.filterMap_append, List.filterMap_cons_some hentry]
    simp [hheader, hheight, hnat, hlen, hne]

end ChunkHistory

/-! ## The loop of the backfills -/

/-- Blocks per round of a backfill. -/
def backfillBatch : UInt64 := 100

variable {σ : Type}

/-- `while height <= max_height`: read the chunks of a range, do the work of the round, go on after the end of
    the range. A failing read ends the loop. -/
def forChunkRanges [DbIterator] (db : RocksDB) (maxHeight : UInt64)
    (round : UInt64 → UInt64 → List ShardChunk → σ → σ) : Nat → UInt64 → σ → σ
  | 0, _, s => s
  | fuel + 1, height, s =>
    if height ≤ maxHeight then
      let stop := min (height + backfillBatch) maxHeight
      match getShardChunks db height (some stop) with
      | .error _ => s
      | .ok chunks => forChunkRanges db maxHeight round fuel (stop + 1) (round height stop chunks s)
    else s

theorem forChunkRanges_keeps [DbIterator] {db : RocksDB} {maxHeight : UInt64}
    {round : UInt64 → UInt64 → List ShardChunk → σ → σ} {P : σ → Prop}
    (hround : ∀ height stop chunks s, P s → P (round height stop chunks s)) :
    ∀ (fuel : Nat) (height : UInt64) (s : σ), P s → P (forChunkRanges db maxHeight round fuel height s) := by
  intro fuel
  induction fuel with
  | zero => intro height s hs; exact hs
  | succ fuel ih =>
    intro height s hs
    rw [forChunkRanges]
    by_cases hle : height ≤ maxHeight
    · rw [if_pos hle]
      dsimp only
      cases getShardChunks db height (some (min (height + backfillBatch) maxHeight)) with
      | error e => exact hs
      | ok chunks => exact ih _ _ (hround _ _ _ _ hs)
    · rw [if_neg hle]
      exact hs

/-- **The loop on a history** does one round for each window of heights, on the chunks of the window without
    its end. -/
theorem forChunkRanges_eq [DbIterator] [DbIterator.Exact] {db : RocksDB} (history : ChunkHistory db)
    {maxHeight : UInt64} (hbound : maxHeight.toNat + 101 < 2 ^ 64)
    (round : UInt64 → UInt64 → List ShardChunk → σ → σ) :
    ∀ (fuel : Nat) (height : UInt64) (s : σ), forChunkRanges db maxHeight round fuel height s =
        (Windows.windowsFuel 100 maxHeight.toNat fuel height.toNat).foldl
          (fun s w => round (.ofNat w.1) (.ofNat w.2)
            ((List.range' w.1 (w.2 - w.1)).filterMap history.chunkAt) s) s := by
  intro fuel
  induction fuel with
  | zero => intro height s; rfl
  | succ fuel ih =>
    intro height s
    rw [forChunkRanges, Windows.windowsFuel]
    by_cases hle : height ≤ maxHeight
    · have hle' := UInt64.le_iff_toNat_le.1 hle
      have hadd : (height + backfillBatch).toNat = height.toNat + 100 := by
        rw [UInt64.toNat_add]
        exact Nat.mod_eq_of_lt (by simp [backfillBatch]; omega)
      have hstop :
          (min (height + backfillBatch) maxHeight).toNat = min (height.toNat + 100) maxHeight.toNat := by
        rw [← hadd]
        show (if height + backfillBatch ≤ maxHeight then height + backfillBatch else maxHeight).toNat = _
        by_cases h : height + backfillBatch ≤ maxHeight
        · rw [if_pos h, Nat.min_eq_left (UInt64.le_iff_toNat_le.1 h)]
        · rw [if_neg h, Nat.min_eq_right (Nat.le_of_not_le (mt UInt64.le_iff_toNat_le.2 h))]
      have hnext : (min (height + backfillBatch) maxHeight + 1).toNat =
          min (height.toNat + 100) maxHeight.toNat + 1 := by
        rw [UInt64.toNat_add, hstop]
        exact Nat.mod_eq_of_lt (by simp; omega)
      rw [if_pos hle, if_pos hle']
      simp only [history.getShardChunks_eq, ih, List.foldl_cons, hnext, hstop]
      rw [← hstop, UInt64.ofNat_toNat, UInt64.ofNat_toNat]
    · rw [if_neg hle, if_neg (mt UInt64.le_iff_toNat_le.2 hle)]
      rfl

theorem exists_split_shards {shardStores : List (UInt32 × RocksDB)}
    (hnodup : (shardStores.map Prod.fst).Nodup) {shard : UInt32 × RocksDB} (hshard : shard ∈ shardStores) :
    ∃ before after, (shardStores.mergeSort fun a b => a.1 ≤ b.1) = before ++ shard :: after ∧
      shard.1 ∉ before.map Prod.fst ∧ shard.1 ∉ after.map Prod.fst := by
  have hperm := List.mergeSort_perm shardStores fun a b => a.1 ≤ b.1
  obtain ⟨before, after, hsplit⟩ := List.append_of_mem (hperm.mem_iff.2 hshard)
  have hnodup' := ((hperm.map Prod.fst).nodup_iff).2 hnodup
  rw [hsplit, List.map_append, List.map_cons, List.nodup_middle, List.nodup_cons, List.mem_append, not_or]
    at hnodup'
  exact ⟨before, after, hsplit, hnodup'.1⟩

/-! ### Samples -/

def sampleCast : Message where
  data := some ⟨MessageType.castAdd.toI32, 1, 10, 1, some (.castAddBody none [] ⟨[], 0, [], [], []⟩)⟩
  hash := List.replicate 20 10
  hashScheme := blake3
  signature := []
  signatureScheme := ed25519
  signer := []
  dataBytes := none

def sampleShardChunk (blockNumber : UInt64) (messages : List Message) : ShardChunk where
  header := some ⟨some ⟨1, blockNumber⟩, 0, [], []⟩
  hash := []
  transactions := [⟨1, messages, [], []⟩]
  commits := none

def sampleShardDb (messages₁ messages₂ : List Message) : RocksDB := fun k =>
  if k = makeShardKey 1 then some (.shardChunk (sampleShardChunk 1 messages₁))
  else if k = makeShardKey 2 then some (.shardChunk (sampleShardChunk 2 messages₂))
  else none

def sampleHistory (messages₁ messages₂ : List Message) :
    ChunkHistory (sampleShardDb messages₁ messages₂) where
  first := 1
  chunks := [sampleShardChunk 1 messages₁, sampleShardChunk 2 messages₂]
  stored n := by
    unfold sampleShardDb
    simp only [makeShardKey_injective.eq_iff]
    by_cases h₁ : n = 1
    · subst h₁
      rfl
    · by_cases h₂ : n = 2
      · subst h₂
        rfl
      · have h₁' : n.toNat ≠ 1 := fun h => h₁ (UInt64.toNat_inj.1 h)
        have h₂' : n.toNat ≠ 2 := fun h => h₂ (UInt64.toNat_inj.1 h)
        rw [if_neg h₁, if_neg h₂]
        split
        · rw [List.getElem?_eq_none (by simp; omega)]
          rfl
        · rfl
  only k _ hsome := by
    unfold sampleShardDb at hsome
    split at hsome
    · exact ⟨1, by assumption⟩
    · split at hsome
      · exact ⟨2, by assumption⟩
      · cases hsome
  numbered i chunk h := by
    rcases i with _ | _ | i
    · cases h
      exact ⟨1, rfl, rfl⟩
    · cases h
      exact ⟨2, rfl, rfl⟩
    · cases h

end Hypersnap
