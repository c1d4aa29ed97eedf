import Mathlib.Data.Set.Card
import Mathlib.Data.Set.Finite.Range
import Hypersnap.Lib.Ascending
import Hypersnap.Storage.Sweep
import Hypersnap.Store.ShardChunks

/-!
# `Store.Blocks` — the blocks of the chain, and what is left after pruning

A block is kept under its height, and the first block of a timestamp is indexed by it. Pruning deletes the
blocks below a height and **leaves the index**. So after any run of puts and prunes the store holds the last
blocks of a log and the index all of it (`Stores`): a lookup by timestamp runs into the first block of the
whole log, and fails if that one is gone (`getNextHeightByTimestamp_cases`).
-/

namespace Hypersnap

open Overlay

variable {n t : UInt64} {key : Bytes} {b : ChainBlock}

/-! ## The store -/

inductive BlockStorageError where
  | rocksdbError
  | blockMissing
  | blockMissingHeader
  | blockMissingHeight
  | tooManyBlocksInResult
  | decodeError
deriving DecidableEq, Repr

def makeBlockKey (blockNumber : UInt64) : Bytes := RootPrefix.block.toByte :: toBeBytes64 blockNumber

/-- `put_block`: the block, and its index entry unless an earlier block has the same timestamp. The blocks are
    shard zero. -/
def putBlock (db : RocksDB) (block : Block) : Except BlockStorageError RocksDB :=
  match block.header with
  | none => .error .blockMissingHeader
  | some header =>
    match header.height with
    | none => .error .blockMissingHeight
    | some height =>
      let primaryKey := makeBlockKey height.blockNumber
      let timestampIndexKey := makeBlockTimestampIndex 0 header.timestamp
      let txn := Batch.empty.put primaryKey (.block block)
      .ok (commit db
        (if (db timestampIndexKey).isNone then txn.put timestampIndexKey (.bytes primaryKey) else txn))

def blockDecode : DbValue → Except BlockStorageError Block
  | .block block => .ok block
  | _ => .error .decodeError

def getBlockByHeight (db : RocksDB) (height : UInt64) : Except BlockStorageError (Option Block) :=
  match db (makeBlockKey height) with
  | none => .ok none
  | some value => (blockDecode value).map some

/-- `get_next_height_by_timestamp`. Every error of the lookup is reported as too many blocks. -/
def getNextHeightByTimestamp [DbIterator] (db : RocksDB) (timestamp : UInt64) :
    Except BlockStorageError (Option UInt64) :=
  match getNextByIndex db [RootPrefix.blockIndex.toByte] (makeBlockTimestampIndex 0 timestamp) with
  | .error _ => .error .tooManyBlocksInResult
  | .ok none => .ok none
  | .ok (some value) => do
    let block ← blockDecode value
    match block.header with
    | none => .error .blockMissingHeader
    | some header =>
      match header.height with
      | none => .error .blockMissingHeight
      | some height => .ok (some height.blockNumber)

/-- `prune_until`: the blocks below a height are deleted, and their number is returned. -/
def pruneUntil [DbIterator] (db : RocksDB) (stopHeight : UInt64) (pageOptions : PageOptions) :
    Option (Except BlockStorageError (RocksDB × UInt32)) :=
  (deletePaginated db (some (makeBlockKey 0)) (some (makeBlockKey stopHeight)) pageOptions).map
    (·.mapError fun _ => .tooManyBlocksInResult)

/-! ## Runs -/

/-- A block with its height. -/
structure ChainBlock where
  block : Block
  header : BlockHeader
  height : Height
  header_eq : block.header = some header
  height_eq : header.height = some height

namespace ChainBlock

def number (b : ChainBlock) : UInt64 := b.height.blockNumber

def timestamp (b : ChainBlock) : UInt64 := b.header.timestamp

/-- The next block: one higher and not earlier. -/
def Precedes (a b : ChainBlock) : Prop := a.number.toNat + 1 = b.number.toNat ∧ a.timestamp ≤ b.timestamp

/-- Blocks of a chain, the first one of any height. -/
def Consecutive (log : List ChainBlock) : Prop := log.IsChain Precedes

end ChainBlock

open ChainBlock

/-- **Runs of the store**: blocks are put in order, with pruning in between; the blocks put so far, and the
    database. -/
inductive BlockRun [DbIterator] (start : RocksDB) : List ChainBlock → RocksDB → Prop
  | start : BlockRun start [] start
  | put {log : List ChainBlock} {db db' : RocksDB} (b : ChainBlock) : BlockRun start log db →
    Consecutive (log ++ [b]) →
      putBlock db b.block = .ok db' → BlockRun start (log ++ [b]) db'
  | prune {log : List ChainBlock} {db db' : RocksDB} {pruned : UInt32} (stopHeight : UInt64)
    (pageSize : Option Nat) :
      BlockRun start log db → pruneUntil db stopHeight { pageSize } = some (.ok (db', pruned)) →
      BlockRun start log db'

/-- A key of the blocks or of their index. -/
def InBlockTables (key : Bytes) : Prop :=
  key.head? = some RootPrefix.block.toByte ∨ key.head? = some RootPrefix.blockIndex.toByte

/-! ## The keys -/

section keys

theorem bytesCompare_makeBlockKey (a b : UInt64) :
    bytesCompare (makeBlockKey a) (makeBlockKey b) = compare a b := by
  rw [makeBlockKey, makeBlockKey, bytesCompare_cons_self, bytesCompare_toBeBytes64]

theorem bytesCompare_makeBlockTimestampIndex (shard : UInt32) (a b : UInt64) :
    bytesCompare (makeBlockTimestampIndex shard a) (makeBlockTimestampIndex shard b) = compare a b := by
  rw [makeBlockTimestampIndex, makeBlockTimestampIndex, bytesCompare_cons_self, bytesCompare_append_left,
    bytesCompare_toBeBytes64]

theorem makeBlockKey_injective : Function.Injective makeBlockKey := by
  intro a b h
  exact toBeBytes64_injective (List.cons_inj_right _ |>.1 h)

theorem makeBlockTimestampIndex_injective (shard : UInt32) :
    Function.Injective (makeBlockTimestampIndex shard) := by
  intro a b h
  exact toBeBytes64_injective (List.append_cancel_left (List.cons_inj_right _ |>.1 h))

theorem makeBlockKey_ne_index (n t : UInt64) : makeBlockKey n ≠ makeBlockTimestampIndex 0 t := by
  intro h
  exact absurd (congrArg List.head? h) (by simp [makeBlockKey, makeBlockTimestampIndex, RootPrefix.toByte])

variable {stop : UInt64}

theorem inRange_makeBlockKey : InRange (makeBlockKey 0) (makeBlockKey stop) (makeBlockKey n) ↔ n < stop := by
  rw [InRange, bytesCompare_makeBlockKey, bytesCompare_makeBlockKey, ne_eq, ← Ordering.isLE_iff_ne_gt,
    Std.isLE_compare,
    Std.compare_eq_lt]
  exact and_iff_right UInt64.zero_le

theorem head?_of_inRange {x : UInt8} (hx : x ≠ 255) {start stop : Bytes}
    (hstart : bytesCompare [x] start ≠ .gt) (hstop : bytesLe stop (incrementVecU8 [x]) = true)
    (h : InRange start stop key) : key.head? = some x := by
  have hrange : InRange ([] ++ [x]) (incrementVecU8 ([] ++ [x])) key := by
    refine ⟨?_, ?_⟩
    · exact Ordering.isLE_iff_ne_gt.1 (bytesLe_trans [x] start key (Ordering.isLE_iff_ne_gt.2 hstart)
        (Ordering.isLE_iff_ne_gt.2 h.1))
    · have htrans : compare key stop = .lt → (compare stop (incrementVecU8 [x])).isLE = true →
        compare key (incrementVecU8 [x]) = .lt := Std.TransCmp.lt_of_lt_of_isLE
      exact htrans h.2 hstop
  obtain ⟨rest, rfl⟩ := (inRange_iff_isPrefix hx).1 hrange
  rfl

theorem head?_of_inRange_blocks (h : InRange (makeBlockKey 0) (makeBlockKey stop) key) :
    key.head? = some RootPrefix.block.toByte := by
  refine head?_of_inRange (by decide) ?_ ?_ h
  · decide
  · rfl

theorem head?_of_inRange_index
    (h : InRange (makeBlockTimestampIndex 0 t) (incrementVecU8 [RootPrefix.blockIndex.toByte]) key) :
    key.head? = some RootPrefix.blockIndex.toByte := by
  refine head?_of_inRange (by decide) ?_ ?_ h
  · exact fun h => nomatch (show Ordering.lt = .gt from h)
  · decide

end keys

/-! ## Logs -/

section logs
variable {log : List ChainBlock} {b : ChainBlock}

theorem ChainBlock.Consecutive.pairwise (h : Consecutive log) :
    log.Pairwise fun a b => a.number < b.number ∧ a.timestamp ≤ b.timestamp := by
  have htrans : IsTrans ChainBlock fun a b => a.number < b.number ∧ a.timestamp ≤ b.timestamp :=
    ⟨fun _ _ _ hab hbc => ⟨UInt64.lt_trans hab.1 hbc.1, UInt64.le_trans hab.2 hbc.2⟩⟩
  refine List.isChain_iff_pairwise.1 (h.imp fun a b hab => ⟨UInt64.lt_iff_toNat_lt.2 ?_, hab.2⟩)
  have := hab.1
  omega

section
variable (h : log.Pairwise fun a b => a.number < b.number ∧ a.timestamp ≤ b.timestamp)
include h

theorem find?_number_eq_some : log.find? (·.number = n) = some b ↔ b ∈ log ∧ b.number = n := by
  have hne : log.Pairwise fun a b => a.number ≠ b.number := h.imp fun hab => UInt64.ne_of_lt hab.1
  exact Ascending.find?_key_eq_some hne

theorem find?_since_eq_some (hb : log.find? (t ≤ ·.timestamp) = some b) {c : ChainBlock} (hc : c ∈ log)
    (ht : t ≤ c.timestamp) : b.number ≤ c.number ∧ b.timestamp ≤ c.timestamp := by
  obtain ⟨-, front, rest, rfl, hfront⟩ := List.find?_eq_some_iff_append.1 hb
  rcases List.mem_append.1 hc with hc | hc
  · exact absurd ht (by simpa using hfront c hc)
  · rcases List.mem_cons.1 hc with rfl | hc
    · exact ⟨UInt64.le_refl _, UInt64.le_refl _⟩
    · have hbc := List.rel_of_pairwise_cons (List.pairwise_append.1 h).2.1 hc
      exact ⟨UInt64.le_of_lt hbc.1, hbc.2⟩

end

end logs

/-! ## What the store holds -/

/-- **The store holds the blocks of a log that are kept**, the last ones, and the index of all of it. -/
structure Stores (db : RocksDB) (gone kept : List ChainBlock) : Prop where
  consecutive : Consecutive (gone ++ kept)
  blocks : ∀ n, db (makeBlockKey n) = (kept.find? (·.number = n)).map fun b => .block b.block
  index : ∀ t, db (makeBlockTimestampIndex 0 t) =
    ((gone ++ kept).find? (·.timestamp = t)).map fun b => .bytes (makeBlockKey b.number)
  /-- The tables have no other keys. -/
  only : ∀ key, InBlockTables key → (db key).isSome → (∃ n, key = makeBlockKey n) ∨ ∃ t,
    key = makeBlockTimestampIndex 0 t

namespace Stores

variable {db : RocksDB} {gone kept : List ChainBlock}

theorem empty {start : RocksDB} (h : ∀ key, InBlockTables key → start key = none) : Stores start [] [] where
  consecutive := .nil
  blocks n := h _ (.inl rfl)
  index t := h _ (.inr rfl)
  only key hkey hsome := by
    rw [h key hkey] at hsome
    cases hsome

section
variable (h : Stores db gone kept)
include h

theorem pairwise :
    (gone ++ kept).Pairwise fun a b => a.number < b.number ∧ a.timestamp ≤ b.timestamp :=
      h.consecutive.pairwise

theorem pairwise_kept :
    kept.Pairwise fun a b => a.number < b.number ∧ a.timestamp ≤ b.timestamp :=
      (List.pairwise_append.1 h.pairwise).2.1

theorem block_eq_some {v : DbValue} :
    db (makeBlockKey n) = some v ↔ ∃ b ∈ kept, b.number = n ∧ v = .block b.block := by
  rw [h.blocks, Option.map_eq_some_iff]
  constructor
  · rintro ⟨b, hb, rfl⟩
    obtain ⟨hmem, hn⟩ := (find?_number_eq_some h.pairwise_kept).1 hb
    exact ⟨b, hmem, hn, rfl⟩
  · rintro ⟨b, hmem, hn, rfl⟩
    exact ⟨b, (find?_number_eq_some h.pairwise_kept).2 ⟨hmem, hn⟩, rfl⟩

theorem isSome_block_iff : (db (makeBlockKey n)).isSome ↔ ∃ b ∈ kept, b.number = n := by
  rw [Option.isSome_iff_exists]
  constructor
  · rintro ⟨v, hv⟩
    obtain ⟨b, hb, hn, -⟩ := h.block_eq_some.1 hv
    exact ⟨b, hb, hn⟩
  · rintro ⟨b, hb, hn⟩
    exact ⟨_, h.block_eq_some.2 ⟨b, hb, hn, rfl⟩⟩

theorem isSome_of_log (hb : b ∈ gone ++ kept) : (db (makeBlockKey b.number)).isSome ↔ b ∈ kept := by
  rw [h.isSome_block_iff]
  refine ⟨?_, fun hb => ⟨b, hb, rfl⟩⟩
  rintro ⟨c, hc, hn⟩
  have hfind : (gone ++ kept).find? (·.number = b.number) = some b :=
    (find?_number_eq_some h.pairwise).2 ⟨hb, rfl⟩
  rw [(find?_number_eq_some h.pairwise).2 ⟨List.mem_append_right gone hc, hn⟩, Option.some.injEq] at hfind
  exact hfind ▸ hc

end

/-! ### Putting a block -/

theorem putBlock_eq (db : RocksDB) (b : ChainBlock) : putBlock db b.block = .ok (commit db
      (if (db (makeBlockTimestampIndex 0 b.timestamp)).isNone
        then (Batch.empty.put (makeBlockKey b.number) (.block b.block)).put
          (makeBlockTimestampIndex 0 b.timestamp)
          (.bytes (makeBlockKey b.number))
        else Batch.empty.put (makeBlockKey b.number) (.block b.block))) := by
  unfold putBlock
  simp only [b.header_eq, b.height_eq]
  rfl

/-- **A block is put at the end of the log.** -/
theorem put (h : Stores db gone kept) (hb : Consecutive (gone ++ kept ++ [b])) {db' : RocksDB}
    (hput : putBlock db b.block = .ok db') : Stores db' gone (kept ++ [b]) := by
  rw [putBlock_eq, Except.ok.injEq] at hput
  have hnew : ∀ c ∈ gone ++ kept, c.number < b.number := fun c hc =>
    ((List.pairwise_append.1 hb.pairwise).2.2 c hc b List.mem_cons_self).1
  -- what is under each key now
  have hother : ∀ key, key ≠ makeBlockKey b.number → key ≠ makeBlockTimestampIndex 0 b.timestamp →
      db' key = db key := by
    intro key hblock hindex
    rw [← hput]
    split <;> simp [hblock, hindex]
  have hblock : db' (makeBlockKey b.number) = some (.block b.block) := by
    rw [← hput]
    split <;> simp [makeBlockKey_ne_index]
  have hindex : db' (makeBlockTimestampIndex 0 b.timestamp) =
      (db (makeBlockTimestampIndex 0 b.timestamp)).or (some (.bytes (makeBlockKey b.number))) := by
    rw [← hput]
    cases hold : db (makeBlockTimestampIndex 0 b.timestamp) with
    | none => simp
    | some v => simp [(makeBlockKey_ne_index _ _).symm, hold]
  refine ⟨by rw [← List.append_assoc]; exact hb, fun n => ?_, fun t => ?_, fun key hkey hsome => ?_⟩
  · rw [List.find?_append]
    by_cases hn : b.number = n
    · have hnone : kept.find? (·.number = n) = none := by
        rw [List.find?_eq_none]
        intro c hc
        have hlt := hnew c (List.mem_append_right gone hc)
        rw [hn] at hlt
        simpa using UInt64.ne_of_lt hlt
      rw [← hn, hblock, hn, hnone]
      simp [hn]
    · rw [hother _ (fun he => hn (makeBlockKey_injective he).symm) (makeBlockKey_ne_index _ _), h.blocks]
      simp [hn]
  · rw [← List.append_assoc, List.find?_append]
    by_cases ht : b.timestamp = t
    · rw [← ht, hindex, h.index]
      cases (gone ++ kept).find? (·.timestamp = b.timestamp) <;> simp
    · rw [hother _ (makeBlockKey_ne_index _ _).symm
        (fun he => ht (makeBlockTimestampIndex_injective 0 he).symm), h.index]
      simp [ht]
  · by_cases hk : key = makeBlockKey b.number
    · exact .inl ⟨_, hk⟩
    · by_cases hk' : key = makeBlockTimestampIndex 0 b.timestamp
      · exact .inr ⟨_, hk'⟩
      · rw [hother key hk hk'] at hsome
        exact h.only key hkey hsome

/-! ### Pruning -/

def below (kept : List ChainBlock) (stopHeight : UInt64) : List ChainBlock :=
  kept.takeWhile (·.number < stopHeight)

theorem mem_below (h : Stores db gone kept) {stopHeight : UInt64} :
    b ∈ below kept stopHeight ↔ b ∈ kept ∧ b.number < stopHeight := by
  unfold below
  rw [Ascending.mem_takeWhile_iff h.pairwise_kept, decide_eq_true_eq]
  intro a b hab hb
  rw [decide_eq_true_eq] at hb ⊢
  exact UInt64.lt_trans hab.1 hb

theorem take_below (kept : List ChainBlock) (stopHeight : UInt64) {n : Nat}
    (hn : n ≤ (below kept stopHeight).length) :
    (below kept stopHeight).take n = kept.take n := by
  obtain ⟨rest, hrest⟩ := List.takeWhile_prefix (p := (·.number < stopHeight)) (l := kept)
  conv_rhs => rw [← hrest]
  exact (List.take_append_of_le_length hn).symm

def entryOf (b : ChainBlock) : Bytes × DbValue := (makeBlockKey b.number, .block b.block)

theorem finite_occupied (h : Stores db gone kept) {start stop : Bytes}
    (htables : ∀ key, InRange start stop key → InBlockTables key) : (occupied db start stop).Finite := by
  have hfin : Finite UInt64 :=
    Finite.of_injective (fun n : UInt64 => n.toFin) fun a b h => UInt64.toFin_inj.1 h
  refine ((Set.finite_range makeBlockKey).union (Set.finite_range (makeBlockTimestampIndex 0))).subset ?_
  rintro k ⟨hrange, hsome⟩
  exact (h.only k (htables k hrange) hsome).imp (fun ⟨n, hn⟩ => ⟨n, hn.symm⟩) fun ⟨t, ht⟩ => ⟨t, ht.symm⟩

theorem finite_occupied_blocks (h : Stores db gone kept) (stopHeight : UInt64) :
    (occupied db (makeBlockKey 0) (makeBlockKey stopHeight)).Finite :=
  h.finite_occupied fun _ hrange => .inl (head?_of_inRange_blocks hrange)

theorem finite_occupied_index (h : Stores db gone kept) (t : UInt64) :
    (occupied db (makeBlockTimestampIndex 0 t) (incrementVecU8 [RootPrefix.blockIndex.toByte])).Finite :=
  h.finite_occupied fun _ hrange => .inr (head?_of_inRange_index hrange)

variable [DbIterator] [DbIterator.Exact]

section

variable (h : Stores db gone kept)
include h

/-- **The range of a prune** is the kept blocks below the height. -/
theorem scan_blocks (stopHeight : UInt64) :
    DbIterator.scan db (makeBlockKey 0) (makeBlockKey stopHeight) = (below kept stopHeight).map entryOf := by
  refine eq_of_mem_iff_of_ascending (DbIterator.Exact.sorted _ _ _) ?_ ?_
  · rw [List.pairwise_map]
    refine (h.pairwise_kept.sublist (List.takeWhile_sublist _)).imp fun hab => ?_
    rw [entryOf, entryOf, bytesCompare_makeBlockKey, Std.compare_eq_lt]
    exact hab.1
  · rintro ⟨k, v⟩
    rw [mem_scan_iff (h.finite_occupied_blocks stopHeight), List.mem_map]
    constructor
    · rintro ⟨hrange, hv⟩
      have hhead := head?_of_inRange_blocks hrange
      rcases h.only k (.inl hhead) (by rw [hv]; rfl) with ⟨n, rfl⟩ | ⟨t, rfl⟩
      · obtain ⟨b, hb, rfl, rfl⟩ := h.block_eq_some.1 hv
        exact ⟨b, h.mem_below.2 ⟨hb, inRange_makeBlockKey.1 hrange⟩, rfl⟩
      · exact absurd hhead (by simp [makeBlockTimestampIndex, RootPrefix.toByte])
    · rintro ⟨b, hb, heq⟩
      cases heq
      obtain ⟨hmem, hlt⟩ := h.mem_below.1 hb
      exact ⟨inRange_makeBlockKey.2 hlt, h.block_eq_some.2 ⟨b, hmem, rfl, rfl⟩⟩

/-- **What pruning does**: it returns, having deleted a first part of the blocks below the height, all of them
    if they can be counted. -/
theorem pruneUntil_eq (stopHeight : UInt64) (pageSize : Option Nat) :
    ∃ n ≤ (below kept stopHeight).length, pruneUntil db stopHeight { pageSize } =
        some (.ok (eraseAll db ((kept.take n).map fun b => makeBlockKey b.number), UInt32.ofNat n)) ∧
      ((below kept stopHeight).length < 2 ^ 32 → n = (below kept stopHeight).length) := by
  obtain ⟨n, hn, heq, hall⟩ := deletePaginated_eq (h.finite_occupied_blocks stopHeight) pageSize
  rw [h.scan_blocks, List.length_map] at hn hall
  rw [h.scan_blocks, ← List.map_take, take_below kept stopHeight hn, List.map_map] at heq
  refine ⟨n, hn, ?_, hall⟩
  rw [pruneUntil, heq]
  rfl

omit [DbIterator] [DbIterator.Exact] in
/-- **Deleted blocks are gone from the store, and not from the index.** -/
theorem erase (n : Nat) :
    Stores (eraseAll db ((kept.take n).map fun b => makeBlockKey b.number)) (gone ++ kept.take n)
    (kept.drop n) := by
  have hsplit := List.take_append_drop n kept
  have hlog : gone ++ kept.take n ++ kept.drop n = gone ++ kept := by rw [List.append_assoc, hsplit]
  refine ⟨hlog ▸ h.consecutive, fun m => ?_, fun t => ?_, fun key hkey hsome => ?_⟩
  · by_cases hm : m ∈ (kept.take n).map ChainBlock.number
    · -- a deleted block: no other one has its height
      obtain ⟨b, hb, rfl⟩ := List.mem_map.1 hm
      have hnone : (kept.drop n).find? (·.number = b.number) = none := by
        rw [List.find?_eq_none]
        intro c hc
        have hkept := h.pairwise_kept
        rw [← hsplit] at hkept
        simpa using (UInt64.ne_of_lt ((List.pairwise_append.1 hkept).2.2 b hb c hc).1).symm
      rw [eraseAll_of_mem (List.mem_map_of_mem hb), hnone]
      rfl
    · have hkey : makeBlockKey m ∉ (kept.take n).map fun b => makeBlockKey b.number := by
        rintro hmem
        obtain ⟨b, hb, heq⟩ := List.mem_map.1 hmem
        exact hm (makeBlockKey_injective heq ▸ List.mem_map_of_mem hb)
      have hnone : (kept.take n).find? (·.number = m) = none := by
        rw [List.find?_eq_none]
        intro b hb hbm
        exact hm (of_decide_eq_true hbm ▸ List.mem_map_of_mem hb)
      rw [eraseAll_of_not_mem hkey, h.blocks]
      conv_lhs => rw [← hsplit, List.find?_append, hnone, Option.none_or]
  · have hkey : makeBlockTimestampIndex 0 t ∉ (kept.take n).map fun b => makeBlockKey b.number := by
      rintro hmem
      obtain ⟨b, -, heq⟩ := List.mem_map.1 hmem
      exact makeBlockKey_ne_index _ _ heq
    rw [eraseAll_of_not_mem hkey, h.index, hlog]
  · obtain ⟨v, hv⟩ := Option.isSome_iff_exists.1 hsome
    exact h.only key hkey (by rw [(eraseAll_eq_some.1 hv).2]; rfl)

/-! ### Looking up -/

omit h in
omit [DbIterator] [DbIterator.Exact] in
theorem inRange_index {u : UInt64} :
    InRange (makeBlockTimestampIndex 0 t) (incrementVecU8 [RootPrefix.blockIndex.toByte])
    (makeBlockTimestampIndex 0 u) ↔
      t ≤ u := by
  have hstop :
      bytesCompare (makeBlockTimestampIndex 0 u) (incrementVecU8 [RootPrefix.blockIndex.toByte]) = .lt := rfl
  rw [InRange, bytesCompare_makeBlockTimestampIndex, ne_eq, ← Ordering.isLE_iff_ne_gt, Std.isLE_compare]
  exact and_iff_left hstop

theorem mem_scan_index {t : UInt64} {k : Bytes} {v : DbValue} :
    (k, v) ∈ DbIterator.scan db (makeBlockTimestampIndex 0 t)
    (incrementVecU8 [RootPrefix.blockIndex.toByte]) ↔
      ∃ b, (gone ++ kept).find? (·.timestamp = b.timestamp) = some b ∧ t ≤ b.timestamp ∧
        k = makeBlockTimestampIndex 0 b.timestamp ∧ v = .bytes (makeBlockKey b.number) := by
  rw [mem_scan_iff (h.finite_occupied_index t)]
  constructor
  · rintro ⟨hrange, hv⟩
    have hhead := head?_of_inRange_index hrange
    rcases h.only k (.inr hhead) (by rw [hv]; rfl) with ⟨n, rfl⟩ | ⟨u, rfl⟩
    · exact absurd hhead (by simp [makeBlockKey, RootPrefix.toByte])
    · rw [h.index, Option.map_eq_some_iff] at hv
      obtain ⟨b, hb, rfl⟩ := hv
      have hu : b.timestamp = u := by simpa using List.find?_some hb
      exact ⟨b, hu ▸ hb, hu ▸ inRange_index.1 hrange, by rw [hu], rfl⟩
  · rintro ⟨b, hb, ht, rfl, rfl⟩
    exact ⟨inRange_index.2 ht, by rw [h.index, hb]; rfl⟩

/-- **The lookup finds the first block of the whole log**, kept or not. -/
theorem scan_index (t : UInt64) :
    (DbIterator.scan db (makeBlockTimestampIndex 0 t)
      (incrementVecU8 [RootPrefix.blockIndex.toByte])).head?.map Prod.snd =
      ((gone ++ kept).find? (t ≤ ·.timestamp)).map fun b => .bytes (makeBlockKey b.number) := by
  have hsorted :=
    DbIterator.Exact.sorted db (makeBlockTimestampIndex 0 t) (incrementVecU8 [RootPrefix.blockIndex.toByte])
  have hmem {k : Bytes} {v : DbValue} := @mem_scan_index db gone kept _ _ h t k v
  generalize DbIterator.scan db (makeBlockTimestampIndex 0 t)
    (incrementVecU8 [RootPrefix.blockIndex.toByte]) = entries
    at hsorted hmem
  cases hb : (gone ++ kept).find? (t ≤ ·.timestamp) with
  | none =>
    have hnil : entries = [] := by
      refine List.eq_nil_iff_forall_not_mem.2 ?_
      rintro ⟨k, v⟩ he
      obtain ⟨c, hc, ht, -⟩ := hmem.1 he
      exact List.find?_eq_none.1 hb c (List.mem_of_find?_eq_some hc) (by simpa using ht)
    rw [hnil]
    rfl
  | some b =>
    -- its entry is there, and no entry is before it
    have hbt : t ≤ b.timestamp := by simpa using List.find?_some hb
    have hfirst : (gone ++ kept).find? (·.timestamp = b.timestamp) = some b := by
      obtain ⟨-, front, rest, heq, hfront⟩ := List.find?_eq_some_iff_append.1 hb
      refine List.find?_eq_some_iff_append.2 ⟨by simp, front, rest, heq, fun c hc => ?_⟩
      have hlt : ¬ t ≤ c.timestamp := by simpa using hfront c hc
      have hne : c.timestamp ≠ b.timestamp := fun h => hlt (h ▸ hbt)
      simpa using hne
    have hentry := hmem.2 ⟨b, hfirst, hbt, rfl, rfl⟩
    cases entries with
    | nil => cases hentry
    | cons e rest =>
      rcases List.mem_cons.1 hentry with heq | hrest
      · rw [← heq]
        rfl
      · obtain ⟨k, v⟩ := e
        obtain ⟨c, hc, ht, rfl, -⟩ := hmem.1 List.mem_cons_self
        have hlt := List.rel_of_pairwise_cons hsorted hrest
        rw [bytesCompare_makeBlockTimestampIndex, Std.compare_eq_lt] at hlt
        have hle := (find?_since_eq_some h.pairwise hb (List.mem_of_find?_eq_some hc) ht).2
        exact absurd hlt (UInt64.not_lt.2 hle)

/-- **What a lookup returns**: the height of the first block of the log from this time on, or an error if it
    is gone. -/
theorem getNextHeightByTimestamp_cases (t : UInt64) :
    (gone ++ kept).find? (t ≤ ·.timestamp) = none ∧ getNextHeightByTimestamp db t = .ok none ∨
    ∃ b, (gone ++ kept).find? (t ≤ ·.timestamp) = some b ∧
      (b ∈ kept ∧ getNextHeightByTimestamp db t = .ok (some b.number) ∨
        b ∉ kept ∧ getNextHeightByTimestamp db t = .error .tooManyBlocksInResult) := by
  have hindex := h.scan_index t
  have hnext := getNextByIndex_eq db [RootPrefix.blockIndex.toByte] (makeBlockTimestampIndex 0 t)
  unfold getNextHeightByTimestamp
  rw [hnext]
  cases hb : (gone ++ kept).find? (t ≤ ·.timestamp) with
  | none =>
    rw [hb, Option.map_none, Option.map_eq_none_iff] at hindex
    rw [hindex]
    exact .inl ⟨rfl, rfl⟩
  | some b =>
    rw [hb, Option.map_some, Option.map_eq_some_iff] at hindex
    obtain ⟨⟨k, v⟩, hhead, rfl⟩ := hindex
    rw [hhead]
    refine .inr ⟨b, rfl, ?_⟩
    have hkept := h.isSome_of_log (List.mem_of_find?_eq_some hb)
    by_cases hmem : b ∈ kept
    · have hstored := h.block_eq_some.2 ⟨b, hmem, rfl, rfl⟩
      refine .inl ⟨hmem, ?_⟩
      simp only [hstored, blockDecode]
      show (match b.block.header with | none => _ | some _ => _) = _
      rw [b.header_eq]
      show (match b.header.height with | none => _ | some _ => _) = _
      rw [b.height_eq]
      rfl
    · have hnone : db (makeBlockKey b.number) = none := by
        rw [← Option.not_isSome_iff_eq_none, hkept]
        exact hmem
      refine .inr ⟨hmem, ?_⟩
      simp only [hnone]

end

end Stores

/-! ## Runs of the store -/

section runs
variable [DbIterator] [DbIterator.Exact] {start db : RocksDB} {log : List ChainBlock}

/-- **After any run the store holds the last blocks of the log**, and the index of all of it. -/
theorem BlockRun.stores (hempty : ∀ key, InBlockTables key → start key = none)
    (hrun : BlockRun start log db) :
    ∃ gone kept, log = gone ++ kept ∧ Stores db gone kept := by
  induction hrun with
  | start => exact ⟨[], [], rfl, .empty hempty⟩
  | put b _ hlog hput ih =>
    obtain ⟨gone, kept, rfl, h⟩ := ih
    exact ⟨gone, kept ++ [b], List.append_assoc .., h.put hlog hput⟩
  | prune stopHeight pageSize _ hprune ih =>
    obtain ⟨gone, kept, rfl, h⟩ := ih
    obtain ⟨n, -, heq, -⟩ := h.pruneUntil_eq stopHeight pageSize
    rw [heq, Option.some.injEq, Except.ok.injEq, Prod.mk.injEq] at hprune
    refine ⟨gone ++ kept.take n, kept.drop n, ?_, hprune.1 ▸ h.erase n⟩
    rw [List.append_assoc, List.take_append_drop]

end runs

def storedBelow (db : RocksDB) (stopHeight : UInt64) : Set UInt64 :=
  {h | h < stopHeight ∧ (db (makeBlockKey h)).isSome}

/-- Pruning returns, has removed exactly the blocks below the height, and returns their number. -/
def PrunesExactly [DbIterator] (db : RocksDB) (stopHeight : UInt64) (pageSize : Option Nat) : Prop :=
  ∃ db' pruned, pruneUntil db stopHeight { pageSize } = some (.ok (db', pruned)) ∧
    (∀ h < stopHeight, db' (makeBlockKey h) = none) ∧
    (∀ key, (∀ h < stopHeight, key ≠ makeBlockKey h) → db' key = db key) ∧
    pruned.toNat = (storedBelow db stopHeight).ncard

/-- The height has a block from this time on. -/
def StoredSince (db : RocksDB) (timestamp height : UInt64) : Prop :=
  ∃ block header, getBlockByHeight db height = .ok (some block) ∧ block.header = some header ∧
    timestamp ≤ header.timestamp

/-- The lookup returns the least height that has a block from this time on, or none if there is none. -/
def LooksUp [DbIterator] (db : RocksDB) (timestamp : UInt64) : Prop :=
  ∃ found, getNextHeightByTimestamp db timestamp = .ok found ∧
    match found with
    | none => ∀ h, ¬ StoredSince db timestamp h
    | some height => StoredSince db timestamp height ∧ ∀ h, StoredSince db timestamp h → height ≤ h

namespace Stores

variable {db : RocksDB} {gone kept : List ChainBlock}

theorem storedSince_iff (h : Stores db gone kept) :
    StoredSince db t n ↔ ∃ b ∈ kept, b.number = n ∧ t ≤ b.timestamp := by
  unfold StoredSince getBlockByHeight
  constructor
  · rintro ⟨block, header, hget, hheader, ht⟩
    cases hn : db (makeBlockKey n) with
    | none =>
      rw [hn] at hget
      cases hget
    | some v =>
      obtain ⟨b, hb, rfl, rfl⟩ := h.block_eq_some.1 hn
      rw [hn] at hget
      cases hget
      rw [b.header_eq, Option.some.injEq] at hheader
      subst hheader
      exact ⟨b, hb, rfl, ht⟩
  · rintro ⟨b, hb, rfl, ht⟩
    refine ⟨b.block, b.header, ?_, b.header_eq, ht⟩
    rw [h.block_eq_some.2 ⟨b, hb, rfl, rfl⟩]
    rfl

theorem ncard_storedBelow (h : Stores db gone kept) (stopHeight : UInt64) :
    (storedBelow db stopHeight).ncard = (below kept stopHeight).length := by
  have hset : storedBelow db stopHeight = ((below kept stopHeight).map ChainBlock.number).toFinset := by
    ext n
    simp only [storedBelow, Set.mem_ofPred_eq, h.isSome_block_iff, List.coe_toFinset,
      List.mem_map, h.mem_below]
    constructor
    · rintro ⟨hlt, b, hb, rfl⟩
      exact ⟨b, ⟨hb, hlt⟩, rfl⟩
    · rintro ⟨b, ⟨hb, hlt⟩, rfl⟩
      exact ⟨hlt, b, hb, rfl⟩
  have hnodup : ((below kept stopHeight).map ChainBlock.number).Nodup := by
    refine List.Pairwise.map _ ?_ (h.pairwise_kept.sublist (List.takeWhile_sublist _))
    exact fun a b hab => UInt64.ne_of_lt hab.1
  rw [hset, Set.ncard_coe_finset, List.toFinset_card_of_nodup hnodup, List.length_map]

variable [DbIterator] [DbIterator.Exact]

/-- **Pruning is exact as long as the blocks can be counted.** -/
theorem prunesExactly_iff (h : Stores db gone kept) (stopHeight : UInt64) (pageSize : Option Nat) :
    PrunesExactly db stopHeight pageSize ↔ (storedBelow db stopHeight).ncard < 2 ^ 32 := by
  constructor
  · rintro ⟨db', pruned, -, -, -, hcount⟩
    rw [← hcount]
    exact pruned.toNat_lt
  · intro hsmall
    obtain ⟨n, hn, heq, hall⟩ := h.pruneUntil_eq stopHeight pageSize
    rw [h.ncard_storedBelow] at hsmall
    obtain rfl := hall hsmall
    have hbelow : kept.take (below kept stopHeight).length = below kept stopHeight := by
      rw [← take_below kept stopHeight hn, List.take_length]
    rw [hbelow] at heq
    refine ⟨_, _, heq, fun m hm => ?_, fun key hkey => ?_, ?_⟩
    · by_cases hmem : makeBlockKey m ∈ (below kept stopHeight).map fun b => makeBlockKey b.number
      · exact eraseAll_of_mem hmem
      · rw [eraseAll_of_not_mem hmem, ← Option.not_isSome_iff_eq_none, h.isSome_block_iff]
        rintro ⟨b, hb, rfl⟩
        exact hmem (List.mem_map.2 ⟨b, h.mem_below.2 ⟨hb, hm⟩, rfl⟩)
    · refine eraseAll_of_not_mem fun hmem => ?_
      obtain ⟨b, hb, rfl⟩ := List.mem_map.1 hmem
      exact hkey _ (h.mem_below.1 hb).2 rfl
    · rw [h.ncard_storedBelow, UInt32.toNat_ofNat', Nat.mod_eq_of_lt hsmall]

/-- **A lookup is right exactly if no block from this time on is gone.** -/
theorem looksUp_iff (h : Stores db gone kept) (t : UInt64) :
    LooksUp db t ↔ ∀ b ∈ gone ++ kept, t ≤ b.timestamp → (db (makeBlockKey b.number)).isSome := by
  rcases h.getNextHeightByTimestamp_cases t with ⟨hnone, heq⟩ | ⟨b, hb, hcases⟩
  · -- nothing from this time on, neither kept nor gone
    have hlate : ∀ b ∈ gone ++ kept, ¬ t ≤ b.timestamp :=
      fun b hb => by simpa using List.find?_eq_none.1 hnone b hb
    refine ⟨fun _ b hb ht => absurd ht (hlate b hb), fun _ => ⟨none, heq, fun n hn => ?_⟩⟩
    obtain ⟨c, hc, -, ht⟩ := h.storedSince_iff.1 hn
    exact hlate c (List.mem_append_right gone hc) ht
  · have hbmem := List.mem_of_find?_eq_some hb
    have hbt : t ≤ b.timestamp := by simpa using List.find?_some hb
    have hfirst {c : ChainBlock} (hc : c ∈ gone ++ kept) (ht : t ≤ c.timestamp) :=
      find?_since_eq_some h.pairwise hb hc ht
    rcases hcases with ⟨hkept, heq⟩ | ⟨hgone, heq⟩
    · constructor
      · -- the first one is kept, and so are those after it
        intro _ c hc ht
        refine (h.isSome_of_log hc).2 ?_
        rcases List.mem_append.1 hc with hc' | hc'
        · have hlt := ((List.pairwise_append.1 h.pairwise).2.2 c hc' b hkept).1
          exact absurd hlt (UInt64.not_lt.2 (hfirst hc ht).1)
        · exact hc'
      · intro _
        refine ⟨some b.number, heq, h.storedSince_iff.2 ⟨b, hkept, rfl, hbt⟩, fun n hn => ?_⟩
        obtain ⟨c, hc, rfl, ht⟩ := h.storedSince_iff.1 hn
        exact (hfirst (List.mem_append_right gone hc) ht).1
    · constructor
      · rintro ⟨found, hfound, -⟩
        rw [heq] at hfound
        cases hfound
      · intro hall
        exact absurd ((h.isSome_of_log hbmem).1 (hall b hbmem hbt)) hgone

end Stores

/-- **Pruning and looking up, after any run.** `prune_until` removes exactly the blocks below its height and
    returns their number if that fits in 32 bits; `get_next_height_by_timestamp` is right exactly if no block
    that was put with this timestamp or a later one has been pruned. -/
theorem block_lookup_iff [DbIterator] [DbIterator.Exact] {start db : RocksDB} {log : List ChainBlock}
    (hempty : ∀ key, InBlockTables key → start key = none) (hrun : BlockRun start log db) :
    (∀ stopHeight pageSize, PrunesExactly db stopHeight pageSize ↔
      (storedBelow db stopHeight).ncard < 2 ^ 32) ∧
      ∀ timestamp, LooksUp db timestamp ↔
        ∀ b ∈ log, timestamp ≤ b.timestamp → (db (makeBlockKey b.number)).isSome := by
  obtain ⟨gone, kept, rfl, h⟩ := hrun.stores hempty
  exact ⟨h.prunesExactly_iff, h.looksUp_iff⟩

/-! ### A pruned block -/

def sampleBlock (number timestamp : UInt64) : ChainBlock where
  block := ⟨some ⟨some ⟨0, number⟩, timestamp, 1, 0, [], [], [], []⟩, [], none, none, [], []⟩
  header := ⟨some ⟨0, number⟩, timestamp, 1, 0, [], [], [], []⟩
  height := ⟨0, number⟩
  header_eq := rfl
  height_eq := rfl

def putBlocks (db : RocksDB) (blocks : List ChainBlock) : RocksDB :=
  blocks.foldl (fun db b => match putBlock db b.block with | .ok db' => db' | .error _ => db) db

theorem storedBelow_putBlocks :
    storedBelow (putBlocks (fun _ => none) [sampleBlock 1 100, sampleBlock 2 200]) 2 = {1} := by
  ext h
  constructor
  · rintro ⟨hlt, hsome⟩
    obtain rfl | rfl : h = 0 ∨ h = 1 := by
      rw [← UInt64.toNat_inj, ← UInt64.toNat_inj]
      rw [UInt64.lt_iff_toNat_lt] at hlt
      change h.toNat < 2 at hlt
      change h.toNat = 0 ∨ h.toNat = 1
      omega
    · exact absurd hsome (by decide)
    · rfl
  · rintro rfl
    exact ⟨by decide, rfl⟩

/-- Two blocks, of which the first is pruned: from time 150 on the lookup finds the other one. -/
theorem block_lookup_past_pruned :
    let _ := sortedScan
    ∃ db, pruneUntil (putBlocks (fun _ => none) [sampleBlock 1 100, sampleBlock 2 200]) 2 {} =
      some (.ok (db, 1)) ∧
      db (makeBlockKey 1) = none ∧ LooksUp db 150 := by
  intro iterator
  have _ : DbIterator.Exact := sortedScan_exact
  have hfirst :
      BlockRun (fun _ => none) [sampleBlock 1 100] (putBlocks (fun _ => none) [sampleBlock 1 100]) :=
    .put (sampleBlock 1 100) .start (.singleton _) rfl
  have hrun : BlockRun (fun _ => none) [sampleBlock 1 100, sampleBlock 2 200]
      (putBlocks (fun _ => none) [sampleBlock 1 100, sampleBlock 2 200]) :=
    .put (sampleBlock 2 200) hfirst (.cons_cons ⟨rfl, by decide⟩ (.singleton _)) rfl
  have hcount :
      (storedBelow (putBlocks (fun _ => none) [sampleBlock 1 100, sampleBlock 2 200]) 2).ncard = 1 := by
    rw [storedBelow_putBlocks, Set.ncard_singleton]
  obtain ⟨db, pruned, hprune, hgone, hframe, hpruned⟩ :=
    ((block_lookup_iff (fun _ _ => rfl) hrun).1 2 none).2 (by rw [hcount]; decide)
  obtain rfl : pruned = 1 := UInt32.toNat_inj.1 (hpruned.trans hcount)
  refine ⟨db, hprune, hgone 1 (by decide), ?_⟩
  refine ((block_lookup_iff (fun _ _ => rfl) (.prune 2 none hrun hprune)).2 150).2 fun b hb ht => ?_
  -- only the second block is from this time on, and it has been kept
  rcases List.mem_pair.1 hb with rfl | rfl
  · exact absurd ht (by decide)
  · have hkept := hframe (makeBlockKey (sampleBlock 2 200).number) fun h hlt heq =>
      UInt64.ne_of_lt hlt (makeBlockKey_injective heq).symm
    rw [hkept]
    rfl

/-- Two blocks, of which the first is pruned. The lookup from time 50 on runs into its index entry, and fails,
    although the other block is there. -/
theorem block_lookup_of_pruned :
    let _ := keyScan
      [makeBlockKey 1, makeBlockKey 2, makeBlockTimestampIndex 0 100, makeBlockTimestampIndex 0 200]
    ∃ db, pruneUntil (putBlocks (fun _ => none) [sampleBlock 1 100, sampleBlock 2 200]) 2 {} =
      some (.ok (db, 1)) ∧
      StoredSince db 50 2 ∧ getNextHeightByTimestamp db 50 = .error .tooManyBlocksInResult := by
  intro iterator
  refine ⟨_, rfl, ⟨(sampleBlock 2 200).block, (sampleBlock 2 200).header, ?_, rfl, by decide⟩, ?_⟩
  · rfl
  · rfl

end Hypersnap
