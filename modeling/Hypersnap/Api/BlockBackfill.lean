import Hypersnap.Store.History

/-!
# `Api.BlockBackfill` — replaying chunks to the indexers

The model of `run_block_backfill`. Every indexer has a checkpoint per shard, the next height it has to see.
One loop per shard starts at the **lowest** checkpoint of the enabled indexers and hands the messages of each
range of heights to the indexers whose checkpoint is not past the start of the range; then it moves every
checkpoint on.

`runBlockBackfill_spec` says what an indexer gets: the messages of its heights without those at the end of a
range (the read excludes the end, the loop goes on after it) and without those of a range that starts before
its checkpoint.
-/

namespace Hypersnap

/-! ## Checkpoints -/

/-- `make_shard_checkpoint_key`: the length of the name in one byte, the name, the shard. -/
def makeShardCheckpointKey (indexerName : String) (shardId : UInt32) : Bytes :=
  let nameBytes := indexerName.toUTF8.toList
  0xE3 :: nameBytes.length.toUInt8 :: (nameBytes ++ toBeBytes shardId)

def loadShardCheckpoint (db : RocksDB) (indexerName : String) (shardId : UInt32) : UInt64 :=
  match db (makeShardCheckpointKey indexerName shardId) with
  | some (.bytes bytes) => if bytes.length = 8 then (fromBeBytes bytes).toUInt64 else 0
  | _ => 0

def saveShardCheckpoint (db : RocksDB) (indexerName : String) (shardId : UInt32) (eventId : UInt64) :
    RocksDB :=
  Function.update db (makeShardCheckpointKey indexerName shardId) (some (.bytes (toBeBytes64 eventId)))

@[simp] theorem load_save_same (db : RocksDB) (name : String) (shardId : UInt32) (eventId : UInt64) :
    loadShardCheckpoint (saveShardCheckpoint db name shardId eventId) name shardId = eventId := by
  have hback : (fromBeBytes (toBeBytes64 eventId)).toUInt64 = eventId := by
    rw [fromBeBytes_toBeBytes64]
    exact UInt64.ofNat_toNat
  simp only [loadShardCheckpoint, saveShardCheckpoint, Function.update_self, length_toBeBytes64,
    if_true, hback]

theorem makeShardCheckpointKey_shard {name name' : String} {shardId shardId' : UInt32}
    (h : makeShardCheckpointKey name shardId = makeShardCheckpointKey name' shardId') :
    shardId = shardId' := by
  have hlast := congrArg (fun k : Bytes => k.reverse.take 4) h
  simp only [makeShardCheckpointKey, List.reverse_cons, List.reverse_append, List.append_assoc] at hlast
  rw [List.take_append_of_le_length (by simp), List.take_append_of_le_length (by simp),
    List.take_of_length_le (by simp), List.take_of_length_le (by simp)] at hlast
  exact toBeBytes_injective (List.reverse_injective hlast)

theorem load_save_of_ne {name name' : String} {shardId shardId' : UInt32} (hne : shardId ≠ shardId')
    (db : RocksDB) (eventId : UInt64) :
    loadShardCheckpoint (saveShardCheckpoint db name' shardId' eventId) name shardId =
      loadShardCheckpoint db name shardId := by
  have hkey : makeShardCheckpointKey name shardId ≠ makeShardCheckpointKey name' shardId' :=
    fun h => hne (makeShardCheckpointKey_shard h)
  simp only [loadShardCheckpoint, saveShardCheckpoint, Function.update_of_ne hkey]

/-! ## The backfill -/

structure Indexer where
  name : String
  isEnabled : Bool
deriving DecidableEq, Repr

/-- `IndexEvent::MessagesCommitted`. -/
structure MessagesCommitted where
  messages : List Message
  shardId : UInt32
  blockHeight : UInt64
deriving DecidableEq, Repr

inductive IndexerCall where
  | processBatch (events : List MessagesCommitted)
  | saveCheckpoint (eventId : UInt64)
deriving DecidableEq, Repr

/-- An indexer during the backfill: its entry of `per_indexer_checkpoint` and the calls made to it. What the
    calls return is only logged. -/
structure IndexerRun where
  indexer : Indexer
  checkpoint : UInt64 := 0
  calls : List IndexerCall := []
deriving DecidableEq, Repr

structure Backfill where
  db : RocksDB
  runs : List IndexerRun

def backfillCheckpointName (indexerName : String) : String := "api_block_backfill:" ++ indexerName

namespace IndexerRun

def name (self : IndexerRun) : String := backfillCheckpointName self.indexer.name

def call (self : IndexerRun) (c : IndexerCall) : IndexerRun := { self with calls := self.calls ++ [c] }

def load (db : RocksDB) (shardId : UInt32) (self : IndexerRun) : IndexerRun :=
  { self with checkpoint := loadShardCheckpoint db self.name shardId }

/-- Hand the batch to the indexer, unless it is past the start of the range. -/
def dispatch (height : UInt64) (event : MessagesCommitted) (self : IndexerRun) : IndexerRun :=
  if self.indexer.isEnabled && !(height < self.checkpoint) then self.call (.processBatch [event]) else self

def advance (stop : UInt64) (self : IndexerRun) : IndexerRun :=
  if self.checkpoint < stop + 1 then { self with checkpoint := stop + 1 } else self

def handed (self : IndexerRun) (shardId : UInt32) : List Message :=
  self.calls.flatMap fun
    | .processBatch events => (events.filter (·.shardId == shardId)).flatMap (·.messages)
    | .saveCheckpoint _ => []

end IndexerRun

namespace Backfill

def persist (shardId : UInt32) (checkpoint : IndexerRun → UInt64) (self : Backfill) : Backfill :=
  { self with db :=
    self.runs.foldl (fun db run => saveShardCheckpoint db run.name shardId (checkpoint run)) self.db }

/-- One round: a range of heights and the chunks read for it. -/
def round (shardId : UInt32) (maxHeight height stop : UInt64) (chunks : List ShardChunk) (self : Backfill) :
    Backfill :=
  if chunks.isEmpty then
    { self with runs := self.runs.map (·.advance stop) }
  else
    let batchMessages := chunks.flatMap (·.userMessages)
    let runs := if batchMessages.isEmpty then self.runs
      else self.runs.map (·.dispatch height ⟨batchMessages, shardId, 0⟩)
    let moved : Backfill := { self with runs := runs.map (·.advance stop) }
    if (stop + 1) % (backfillBatch * 10) == 0 || maxHeight < stop + 1 then
      moved.persist shardId (·.checkpoint)
    else moved

/-- The lowest checkpoint of the enabled indexers, 0 without one. -/
def minCheckpoint (runs : List IndexerRun) : UInt64 :=
  ((runs.filter (·.indexer.isEnabled)).map (·.checkpoint)).min?.getD 0

def backfillShard [DbIterator] (self : Backfill) (shard : UInt32 × RocksDB) : Backfill :=
  let (shardId, store) := shard
  let runs := self.runs.map (·.load self.db shardId)
  let maxHeight := maxBlockNumber store
  let lowest := minCheckpoint runs
  if maxHeight < lowest then { self with runs := runs }
  else
    let looped :=
      forChunkRanges store maxHeight (round shardId maxHeight) (maxHeight.toNat + 1 - lowest.toNat) lowest
      { self with runs := runs }
    let final := looped.persist shardId fun _ => maxHeight + 1
    { final with runs := final.runs.map (·.call (.saveCheckpoint maxHeight)) }

end Backfill

/-- `run_block_backfill`: the shards in ascending order. -/
def runBlockBackfill [DbIterator] (db : RocksDB) (shardStores : List (UInt32 × RocksDB))
    (indexers : List Indexer) : Backfill :=
  (shardStores.mergeSort fun a b => a.1 ≤ b.1).foldl Backfill.backfillShard
    ⟨db, indexers.map fun i => { indexer := i }⟩

/-! ## What one indexer sees -/

namespace IndexerRun

def visit (shardId : UInt32) (height stop : UInt64) (messages : List Message) (self : IndexerRun) :
    IndexerRun :=
  (if messages.isEmpty then self else self.dispatch height ⟨messages, shardId, 0⟩).advance stop

section
variable (run : IndexerRun)
include run

@[simp] theorem handed_call_saveCheckpoint (eventId : UInt64) (shardId : UInt32) :
    (run.call (.saveCheckpoint eventId)).handed shardId = run.handed shardId := by
  simp [handed, call]

@[simp] theorem handed_advance (stop : UInt64) (shardId : UInt32) :
    (run.advance stop).handed shardId = run.handed shardId := by
  unfold advance
  split <;> rfl

@[simp] theorem indexer_advance (stop : UInt64) : (run.advance stop).indexer = run.indexer := by
  unfold advance
  split <;> rfl

@[simp] theorem indexer_dispatch (height : UInt64) (event : MessagesCommitted) :
    (run.dispatch height event).indexer = run.indexer := by
  unfold dispatch
  split <;> rfl

@[simp] theorem checkpoint_dispatch (height : UInt64) (event : MessagesCommitted) :
    (run.dispatch height event).checkpoint = run.checkpoint := by
  unfold dispatch
  split <;> rfl

@[simp] theorem indexer_visit (shardId : UInt32) (height stop : UInt64) (messages : List Message) :
    (run.visit shardId height stop messages).indexer = run.indexer := by
  unfold visit
  split <;> simp

end

theorem handed_visit {run : IndexerRun} (henabled : run.indexer.isEnabled = true) (shardId : UInt32)
    (height stop : UInt64) (messages : List Message) :
    (run.visit shardId height stop messages).handed shardId =
      run.handed shardId ++ if run.checkpoint ≤ height then messages else [] := by
  unfold visit
  rw [handed_advance]
  by_cases hnil : messages = []
  · simp [hnil]
  · rw [if_neg (by simpa using hnil), dispatch]
    by_cases hle : run.checkpoint ≤ height
    · have hnot : ¬ height < run.checkpoint := UInt64.not_lt.2 hle
      simp [henabled, hnot, hle, handed, call]
    · have hlt : height < run.checkpoint := UInt64.not_le.1 hle
      simp [hlt, hle]

theorem handed_visit_of_ne {shardId other : UInt32} (hne : other ≠ shardId) (run : IndexerRun)
    (height stop : UInt64) (messages : List Message) :
    (run.visit other height stop messages).handed shardId = run.handed shardId := by
  unfold visit
  rw [handed_advance]
  by_cases hnil : messages.isEmpty
  · rw [if_pos hnil]
  · rw [if_neg hnil, dispatch]
    split
    · simp [handed, call, hne]
    · rfl

theorem checkpoint_visit (run : IndexerRun) (shardId : UInt32) (height stop : UInt64)
    (messages : List Message) (hstop : stop.toNat + 1 < 2 ^ 64) :
    (run.visit shardId height stop messages).checkpoint.toNat =
      max run.checkpoint.toNat (stop.toNat + 1) := by
  have hadd : (stop + 1).toNat = stop.toNat + 1 := by
    rw [UInt64.toNat_add]
    exact Nat.mod_eq_of_lt (by simpa using hstop)
  have hadvance (r : IndexerRun) :
      (r.advance stop).checkpoint.toNat = max r.checkpoint.toNat (stop.toNat + 1) := by
    unfold advance
    by_cases hlt : r.checkpoint < stop + 1
    · have := UInt64.lt_iff_toNat_lt.1 hlt
      rw [if_pos hlt]
      show (stop + 1).toNat = _
      omega
    · have := mt UInt64.lt_iff_toNat_lt.2 hlt
      rw [if_neg hlt]
      omega
  rw [visit, hadvance]
  split
  · rfl
  · rw [checkpoint_dispatch]

end IndexerRun

def ChunkHistory.windowMessages {db : RocksDB} (history : ChunkHistory db) (w : Nat × Nat) : List Message :=
  (List.range' w.1 (w.2 - w.1)).flatMap history.messagesAt

/-- **What an indexer is handed over the windows**: those that do not start before its checkpoint. -/
theorem IndexerRun.handed_windowsFuel {db : RocksDB} (history : ChunkHistory db) {max : Nat}
    (hmax : max + 1 < 2 ^ 64) {shardId : UInt32} {checkpoint : Nat} :
    ∀ {fuel lo : Nat} {run : IndexerRun}, run.indexer.isEnabled = true →
      (∀ h, lo ≤ h → (run.checkpoint.toNat ≤ h ↔ checkpoint ≤ h)) →
      ((Windows.windowsFuel 100 max fuel lo).foldl
          (fun run w => run.visit shardId (.ofNat w.1) (.ofNat w.2) (history.windowMessages w)) run).handed
            shardId =
        run.handed shardId ++
          ((Windows.windowsFuel 100 max fuel lo).filter fun w => decide (checkpoint ≤ w.1)).flatMap
            history.windowMessages := by
  intro fuel
  induction fuel with
  | zero => intro lo run _ _; simp [Windows.windowsFuel]
  | succ fuel ih =>
    intro lo run henabled hcp
    rw [Windows.windowsFuel]
    by_cases hle : lo ≤ max
    · obtain ⟨stop, hstop⟩ : ∃ stop, stop = min (lo + 100) max := ⟨_, rfl⟩
      have hlo : (UInt64.ofNat lo).toNat = lo := UInt64.toNat_ofNat_of_lt' (by show lo < 2 ^ 64; omega)
      have hhi : (UInt64.ofNat stop).toNat = stop := UInt64.toNat_ofNat_of_lt' (by show stop < 2 ^ 64; omega)
      have hdue : run.checkpoint ≤ UInt64.ofNat lo ↔ checkpoint ≤ lo := by
        rw [UInt64.le_iff_toNat_le, hlo, hcp lo (Nat.le_refl lo)]
      have hmoved :=
        checkpoint_visit run shardId (.ofNat lo) (.ofNat stop) (history.windowMessages (lo, stop))
        (by rw [hhi]; omega)
      rw [if_pos hle, ← hstop, List.foldl_cons, ih (by rw [indexer_visit, henabled]) ?_,
        handed_visit henabled]
      · by_cases hc : checkpoint ≤ lo
        · simp [hdue, hc]
        · simp [hdue, hc]
      · -- the checkpoint has only moved to where the next window starts
        intro h hh
        rw [hmoved, hhi]
        have := hcp h (by omega)
        omega
    · simp [hle]

/-! ## What one shard does -/

namespace Backfill

theorem runs_round (shardId : UInt32) (maxHeight height stop : UInt64) (chunks : List ShardChunk)
    (b : Backfill) :
    (b.round shardId maxHeight height stop chunks).runs =
      b.runs.map (·.visit shardId height stop (chunks.flatMap (·.userMessages))) := by
  unfold round
  by_cases hempty : chunks.isEmpty
  · obtain rfl := List.isEmpty_iff.1 hempty
    simp [IndexerRun.visit]
  · rw [if_neg hempty]
    by_cases hnil : (chunks.flatMap (·.userMessages)).isEmpty
    · split <;> simp [persist, IndexerRun.visit, hnil]
    · split <;> simp [persist, IndexerRun.visit, hnil, Function.comp_def]

theorem foldl_runs {ι : Type} (step : ι → Backfill → Backfill) (visit : ι → IndexerRun → IndexerRun)
    (hstep : ∀ w b, (step w b).runs = b.runs.map (visit w)) (ws : List ι) (b : Backfill) :
    (ws.foldl (fun b w => step w b) b).runs = b.runs.map fun run =>
      ws.foldl (fun run w => visit w run) run := by
  induction ws generalizing b with
  | nil => simp
  | cons w ws ih =>
    rw [List.foldl_cons, ih, hstep, List.map_map]
    rfl

theorem load_persist_const {b : Backfill} {run : IndexerRun} (hrun : run ∈ b.runs) (shardId : UInt32)
    (v : UInt64) :
    loadShardCheckpoint (b.persist shardId fun _ => v).db run.name shardId = v := by
  obtain ⟨db, runs⟩ := b
  show loadShardCheckpoint (runs.foldl (fun db r => saveShardCheckpoint db r.name shardId v) db)
    run.name shardId = v
  -- it is still to be saved, or saving it for the others does not change it
  have hsaved : run ∈ runs ∨ loadShardCheckpoint db run.name shardId = v := .inl hrun
  clear hrun
  induction runs generalizing db with
  | nil => exact hsaved.resolve_left List.not_mem_nil
  | cons r runs ih =>
    refine ih _ ?_
    by_cases hkey : makeShardCheckpointKey run.name shardId = makeShardCheckpointKey r.name shardId
    · have hsame := load_save_same db r.name shardId v
      rw [loadShardCheckpoint, ← hkey] at hsame
      exact .inr hsame
    · refine hsaved.imp (fun h => (List.mem_cons.1 h).resolve_left fun heq => hkey (by rw [heq])) fun h => ?_
      rw [← h]
      simp only [loadShardCheckpoint, saveShardCheckpoint, Function.update_of_ne hkey]

/-- Two states agree on a shard: its checkpoints, the indexers and what they were handed. -/
structure SameFor (shardId : UInt32) (b b' : Backfill) : Prop where
  checkpoints : ∀ name, loadShardCheckpoint b'.db name shardId = loadShardCheckpoint b.db name shardId
  runs : b'.runs.map (fun run => (run.indexer, run.handed shardId)) =
    b.runs.map fun run => (run.indexer, run.handed shardId)

namespace SameFor

variable {shardId other : UInt32}

theorem refl (shardId : UInt32) (b : Backfill) : SameFor shardId b b := ⟨fun _ => rfl, rfl⟩

theorem trans {b b' b'' : Backfill} (h : SameFor shardId b b') (h' : SameFor shardId b' b'') :
    SameFor shardId b b'' :=
  ⟨fun name => (h'.checkpoints name).trans (h.checkpoints name), h'.runs.trans h.runs⟩

theorem exists_run {b b' : Backfill} (h : SameFor shardId b b') {i : Nat} {run : IndexerRun}
    (hrun : b.runs[i]? = some run) :
    ∃ run', b'.runs[i]? = some run' ∧ run'.indexer = run.indexer ∧
    run'.handed shardId = run.handed shardId := by
  have hget := congrArg (fun l : List (Indexer × List Message) => l[i]?) h.runs
  simp only [List.getElem?_map, hrun, Option.map_some, Option.map_eq_some_iff] at hget
  obtain ⟨run', hrun', heq⟩ := hget
  exact ⟨run', hrun', congrArg Prod.fst heq, congrArg Prod.snd heq⟩

theorem map_runs {b : Backfill} {f : IndexerRun → IndexerRun}
    (hf : ∀ run, (f run).indexer = run.indexer ∧ (f run).handed shardId = run.handed shardId) :
    SameFor shardId b { b with runs := b.runs.map f } := by
  refine ⟨fun _ => rfl, ?_⟩
  rw [List.map_map]
  exact List.map_congr_left fun run _ => by rw [Function.comp, (hf run).1, (hf run).2]

theorem persist (hne : shardId ≠ other) (b : Backfill) (checkpoint : IndexerRun → UInt64) :
    SameFor shardId b (b.persist other checkpoint) := by
  refine ⟨fun name => ?_, rfl⟩
  obtain ⟨db, runs⟩ := b
  show loadShardCheckpoint (runs.foldl _ db) name shardId = loadShardCheckpoint db name shardId
  induction runs generalizing db with
  | nil => rfl
  | cons r runs ih => rw [List.foldl_cons, ih, load_save_of_ne hne]

theorem round (hne : shardId ≠ other) (maxHeight height stop : UInt64) (chunks : List ShardChunk)
    (b : Backfill) :
    SameFor shardId b (b.round other maxHeight height stop chunks) := by
  have hvisit : SameFor shardId b
      { b with runs := b.runs.map (·.visit other height stop (chunks.flatMap (·.userMessages))) } :=
    map_runs fun run => ⟨IndexerRun.indexer_visit .., IndexerRun.handed_visit_of_ne hne.symm ..⟩
  refine ⟨fun name => ?_, by rw [runs_round]; exact hvisit.runs⟩
  unfold Backfill.round
  split
  · rfl
  · dsimp only
    split
    · exact (persist hne _ _).checkpoints name
    · rfl

/-- **The work on one shard does not concern another.** -/
theorem backfillShard [DbIterator] (hne : shardId ≠ other) (store : RocksDB) (b : Backfill) :
    SameFor shardId b (b.backfillShard (other, store)) := by
  have hload : SameFor shardId b { b with runs := b.runs.map (·.load b.db other) } :=
    map_runs fun _ => ⟨rfl, rfl⟩
  unfold Backfill.backfillShard
  dsimp only
  split
  · exact hload
  · have hloop := @forChunkRanges_keeps _ _ store (maxBlockNumber store)
      (Backfill.round other (maxBlockNumber store)) (SameFor shardId b)
      (fun height stop chunks s hs => hs.trans (SameFor.round hne _ height stop chunks s))
    refine (hloop _ _ _ hload).trans ((persist hne _ _).trans (map_runs fun run => ⟨rfl, ?_⟩))
    exact IndexerRun.handed_call_saveCheckpoint ..

theorem foldl [DbIterator] {shards : List (UInt32 × RocksDB)} (hnot : shardId ∉ shards.map Prod.fst)
    (b : Backfill) :
    SameFor shardId b (shards.foldl Backfill.backfillShard b) := by
  induction shards generalizing b with
  | nil => exact refl _ _
  | cons shard shards ih =>
    rw [List.map_cons, List.mem_cons, not_or] at hnot
    exact (backfillShard hnot.1 shard.2 b).trans (ih hnot.2 _)

end SameFor

/-- The lowest checkpoint of the enabled indexers, read from the database. -/
def lowestCheckpoint (db : RocksDB) (shardId : UInt32) (indexers : List Indexer) : UInt64 :=
  ((indexers.filter (·.isEnabled)).map fun i =>
    loadShardCheckpoint db (backfillCheckpointName i.name) shardId).min?.getD 0

theorem minCheckpoint_load (db : RocksDB) (shardId : UInt32) (runs : List IndexerRun) :
    minCheckpoint (runs.map (·.load db shardId)) = lowestCheckpoint db shardId (runs.map (·.indexer)) := by
  simp only [minCheckpoint, lowestCheckpoint, List.filter_map, List.map_map]
  rfl

theorem lowestCheckpoint_le {db : RocksDB} {shardId : UInt32} {indexers : List Indexer} {indexer : Indexer}
    (hmem : indexer ∈ indexers) (henabled : indexer.isEnabled = true) :
    lowestCheckpoint db shardId indexers ≤
      loadShardCheckpoint db (backfillCheckpointName indexer.name) shardId := by
  have hin : loadShardCheckpoint db (backfillCheckpointName indexer.name) shardId ∈
      (indexers.filter (·.isEnabled)).map fun i =>
      loadShardCheckpoint db (backfillCheckpointName i.name) shardId :=
    List.mem_map_of_mem (List.mem_filter.2 ⟨hmem, henabled⟩)
  unfold lowestCheckpoint
  cases hmin : ((indexers.filter (·.isEnabled)).map fun i =>
      loadShardCheckpoint db (backfillCheckpointName i.name) shardId).min? with
  | none => rw [List.min?_eq_none_iff.1 hmin] at hin; cases hin
  | some m => exact (List.min?_eq_some_iff.1 hmin).2 _ hin

section shard
variable {store : RocksDB} (history : ChunkHistory store)

/-- The heights an indexer with this checkpoint gets, out of a loop that starts at `lowest`. -/
def reached (lowest checkpoint : Nat) : List Nat :=
  (List.range' lowest (history.maxHeight + 1 - lowest)).filter fun h =>
    decide (¬ Windows.IsEnd 100 history.maxHeight lowest h) && decide (checkpoint ≤ Windows.base 100 lowest h)

theorem handed_windows (hmax : history.maxHeight + 1 < 2 ^ 64) {run : IndexerRun}
    (henabled : run.indexer.isEnabled = true) (shardId : UInt32) (lowest : Nat) :
    ((Windows.windows 100 history.maxHeight lowest).foldl
        (fun run w => run.visit shardId (.ofNat w.1) (.ofNat w.2) (history.windowMessages w)) run).handed
          shardId =
      run.handed shardId ++ (reached history lowest run.checkpoint.toNat).flatMap history.messagesAt := by
  have hloop := @IndexerRun.handed_windowsFuel _ history _ hmax shardId run.checkpoint.toNat
    (history.maxHeight + 1 - lowest) lowest run henabled fun _ _ => Iff.rfl
  have htaken :=
    @Windows.flatMap_windows 100 history.maxHeight (fun h => decide (run.checkpoint.toNat ≤ h)) lowest
  rw [Windows.windows, hloop, reached, ← htaken, List.flatMap_assoc]
  rfl

variable {history} [DbIterator] [DbIterator.Exact]

/-- **One shard, one indexer**: what it is handed and where its checkpoint ends. -/
theorem backfillShard_spec (hbound : history.maxHeight + 101 < 2 ^ 64) {b : Backfill} {shardId : UInt32}
    {i : Nat} {run : IndexerRun} (hrun : b.runs[i]? = some run) (henabled : run.indexer.isEnabled = true) :
    let lowest := (lowestCheckpoint b.db shardId (b.runs.map (·.indexer))).toNat
    let checkpoint := (loadShardCheckpoint b.db run.name shardId).toNat
    let b' := b.backfillShard (shardId, store)
    ∃ run', b'.runs[i]? = some run' ∧ run'.indexer = run.indexer ∧
      run'.handed shardId =
      run.handed shardId ++ (reached history lowest checkpoint).flatMap history.messagesAt ∧
      (loadShardCheckpoint b'.db run.name shardId).toNat =
        if history.maxHeight < lowest then checkpoint else history.maxHeight + 1 := by
  intro lowest checkpoint
  have hmax := history.maxBlockNumber_eq
  have hskip : maxBlockNumber store < lowestCheckpoint b.db shardId (b.runs.map (·.indexer)) ↔
      history.maxHeight < lowest := by rw [UInt64.lt_iff_toNat_lt, hmax]
  unfold backfillShard
  dsimp only
  rw [minCheckpoint_load]
  by_cases hlt : history.maxHeight < lowest
  · have hnone : reached history lowest checkpoint = [] := by
      rw [reached, show history.maxHeight + 1 - lowest = 0 by omega]
      rfl
    rw [if_pos (hskip.2 hlt), if_pos hlt, hnone]
    exact ⟨run.load b.db shardId, by simp [hrun], rfl, (List.append_nil _).symm, rfl⟩
  · rw [if_neg (mt hskip.1 hlt), if_neg hlt, forChunkRanges_eq history (by rw [hmax]; exact hbound), hmax]
    have hruns := foldl_runs
      (fun w (s : Backfill) => s.round shardId (maxBlockNumber store) (.ofNat w.1) (.ofNat w.2)
        ((List.range' w.1 (w.2 - w.1)).filterMap history.chunkAt))
      (fun w => IndexerRun.visit shardId (.ofNat w.1) (.ofNat w.2) (history.windowMessages w))
      (fun w s => by rw [runs_round, ChunkHistory.flatMap_userMessages]; rfl)
      (Windows.windowsFuel 100 history.maxHeight (history.maxHeight + 1 - lowest) lowest)
      { b with runs := b.runs.map (·.load b.db shardId) }
    have hvisited := @handed_windows _ history (by omega) (run.load b.db shardId) henabled shardId lowest
    have hindexer : ∀ (ws : List (Nat × Nat)) (r : IndexerRun), (ws.foldl (fun r w =>
        r.visit shardId (.ofNat w.1) (.ofNat w.2) (history.windowMessages w)) r).indexer = r.indexer := by
      intro ws
      induction ws with
      | nil => intro r; rfl
      | cons w ws ih => intro r; rw [List.foldl_cons, ih, IndexerRun.indexer_visit]
    generalize List.foldl _ _ _ = looped at hruns ⊢
    generalize hseen : List.foldl _ _ _ = seen at hvisited
    have hsame : seen.indexer = run.indexer := by rw [← hseen, hindexer]; rfl
    have hget : looped.runs[i]? = some seen := by
      rw [hruns, ← hseen, List.getElem?_map, List.getElem?_map, hrun]
      rfl
    refine ⟨seen.call (.saveCheckpoint (maxBlockNumber store)), ?_, hsame, ?_, ?_⟩
    · show (looped.runs.map _)[i]? = _
      rw [List.getElem?_map, hget]
      rfl
    · rw [IndexerRun.handed_call_saveCheckpoint]
      exact hvisited
    · have hload := load_persist_const (List.mem_of_getElem? hget) shardId (maxBlockNumber store + 1)
      rw [show seen.name = run.name by rw [IndexerRun.name, IndexerRun.name, hsame]] at hload
      rw [hload, UInt64.toNat_add, hmax]
      exact Nat.mod_eq_of_lt (by simp; omega)

omit [DbIterator] [DbIterator.Exact] in
theorem filter_range'_le {lo checkpoint n : Nat} (hle : lo ≤ checkpoint) :
    (List.range' lo (n - lo)).filter (fun h => decide (checkpoint ≤ h)) =
      List.range' checkpoint (n - checkpoint) := by
  refine List.Pairwise.eq_of_mem_iff ((List.pairwise_lt_range' 1).filter _)
    (List.pairwise_lt_range' 1) fun h => ?_
  rw [List.mem_filter, List.mem_range'_1, List.mem_range'_1, decide_eq_true_eq]
  omega

/-- The messages an indexer has to get: those of the heights from its checkpoint to the last one. -/
def due (history : ChunkHistory store) (checkpoint : Nat) : List Message :=
  (List.range' checkpoint (history.maxHeight + 1 - checkpoint)).flatMap history.messagesAt

omit [DbIterator] [DbIterator.Exact] in
/-- What is handed is what is due exactly if there are no messages at the heights left out. -/
theorem reached_eq_due_iff {lowest checkpoint : Nat} (hle : lowest ≤ checkpoint) :
    (reached history lowest checkpoint).flatMap history.messagesAt = due history checkpoint ↔
      ∀ h, checkpoint ≤ h → h ≤ history.maxHeight →
        (Windows.IsEnd 100 history.maxHeight lowest h ∨ Windows.base 100 lowest h < checkpoint) →
          history.messagesAt h = [] := by
  have hreached : reached history lowest checkpoint =
      (List.range' checkpoint (history.maxHeight + 1 - checkpoint)).filter fun h =>
        decide (¬ Windows.IsEnd 100 history.maxHeight lowest h) &&
          decide (checkpoint ≤ Windows.base 100 lowest h) := by
    rw [← filter_range'_le hle, List.filter_filter, reached]
    refine List.filter_congr fun h hmem => ?_
    rw [List.mem_range'_1] at hmem
    have hbase := @Windows.base_le 100 lowest h hmem.1
    by_cases hc : checkpoint ≤ Windows.base 100 lowest h
    · simp [hc, Nat.le_trans hc hbase]
    · simp [hc]
  rw [hreached, due, Windows.flatMap_filter_eq_iff]
  constructor
  · intro hall h hge hmax hout
    refine hall h (List.mem_range'_1.2 ⟨hge, by omega⟩) ?_
    rcases hout with hend | hbase
    · simp [hend]
    · simp [Nat.not_le.2 hbase]
  · intro hall h hmem hout
    rw [List.mem_range'_1] at hmem
    refine hall h hmem.1 (by omega) ?_
    by_cases hend : Windows.IsEnd 100 history.maxHeight lowest h
    · exact .inl hend
    · simpa [hend] using hout

variable (hbound : history.maxHeight + 101 < 2 ^ 64) {db : RocksDB} {shardStores : List (UInt32 × RocksDB)}
  (hnodup : (shardStores.map Prod.fst).Nodup) {shardId : UInt32} (hshard : (shardId, store) ∈ shardStores)
  {indexers : List Indexer} {i : Nat} {indexer : Indexer} (hindexer : indexers[i]? = some indexer)
  (henabled : indexer.isEnabled = true)
include hbound hnodup hshard hindexer henabled

/-- **One run, one indexer, one shard**: what it is handed and where its checkpoint ends. -/
theorem runBlockBackfill_spec : let name := backfillCheckpointName indexer.name
    let lowest := (lowestCheckpoint db shardId indexers).toNat
    let checkpoint := (loadShardCheckpoint db name shardId).toNat
    let b := runBlockBackfill db shardStores indexers
    ∃ run, b.runs[i]? = some run ∧
      run.handed shardId = (reached history lowest checkpoint).flatMap history.messagesAt ∧
      (loadShardCheckpoint b.db name shardId).toNat =
        if history.maxHeight < lowest then checkpoint else history.maxHeight + 1 := by
  intro name lowest checkpoint
  obtain ⟨before, after, hsplit, hbefore, hafter⟩ := exists_split_shards hnodup hshard
  rw [runBlockBackfill, hsplit, List.foldl_append, List.foldl_cons]
  have hfirst := @SameFor.foldl shardId _ before hbefore ⟨db, indexers.map fun i => { indexer := i }⟩
  generalize List.foldl backfillShard _ before = b at hfirst
  have hnames : b.runs.map (·.indexer) = indexers := by
    have h := congrArg (List.map Prod.fst) hfirst.runs
    simpa [Function.comp_def] using h
  obtain ⟨run, hrun, hrunIndexer, hrunHanded⟩ :=
    @SameFor.exists_run _ _ _ hfirst i { indexer } (by simp [hindexer])
  have hloads (name : String) : loadShardCheckpoint b.db name shardId = loadShardCheckpoint db name shardId :=
    hfirst.checkpoints name
  have hlowest : lowestCheckpoint b.db shardId indexers = lowestCheckpoint db shardId indexers := by
    simp only [lowestCheckpoint, hloads]
  have hname : run.name = name := by rw [IndexerRun.name, hrunIndexer]
  obtain ⟨run', hrun', -, hhanded, hload⟩ :=
    @backfillShard_spec _ history _ _ hbound b shardId i run hrun (by rw [hrunIndexer]; exact henabled)
  have hnone : run.handed shardId = [] := hrunHanded
  rw [hnames, hlowest, hname, hloads, hnone, List.nil_append] at hhanded
  rw [hnames, hlowest, hname, hloads name] at hload
  have hlast := @SameFor.foldl shardId _ after hafter (b.backfillShard (shardId, store))
  generalize List.foldl backfillShard _ after = b' at hlast ⊢
  obtain ⟨run'', hrun'', -, hhanded''⟩ := hlast.exists_run hrun'
  exact ⟨run'', hrun'', hhanded''.trans hhanded, by rw [hlast.checkpoints, hload]⟩

/-- **Every message exactly once**, and the checkpoint after the last height, holds for an enabled indexer
    exactly if no user message lies at the end of a range or in a range that starts before the indexer's
    checkpoint; and, if the loop does not run, if the checkpoint is already there. -/
theorem block_backfill_exactly_once_iff :
    let name := backfillCheckpointName indexer.name
    let lowest := (lowestCheckpoint db shardId indexers).toNat
    let checkpoint := (loadShardCheckpoint db name shardId).toNat
    let b := runBlockBackfill db shardStores indexers
    ((b.runs[i]?.map fun run => run.handed shardId) = some (due history checkpoint) ∧
        (loadShardCheckpoint b.db name shardId).toNat = history.maxHeight + 1) ↔
      (∀ h, checkpoint ≤ h → h ≤ history.maxHeight →
        (Windows.IsEnd 100 history.maxHeight lowest h ∨ Windows.base 100 lowest h < checkpoint) →
          history.messagesAt h = []) ∧
      (history.maxHeight < lowest → checkpoint = history.maxHeight + 1) := by
  intro name lowest checkpoint b
  obtain ⟨run, hrun, hhanded, hload⟩ :=
    @runBlockBackfill_spec _ history _ _ hbound db _ hnodup _ hshard _ _ _ hindexer henabled
  have hle : lowest ≤ checkpoint :=
    UInt64.le_iff_toNat_le.1 (lowestCheckpoint_le (List.mem_of_getElem? hindexer) henabled)
  rw [hrun, Option.map_some, Option.some_inj, hhanded, reached_eq_due_iff hle, hload]
  refine and_congr_right fun _ => ?_
  show (if history.maxHeight < lowest then checkpoint else history.maxHeight + 1) = _ ↔ _
  by_cases hlt : history.maxHeight < lowest
  · rw [if_pos hlt]
    exact ⟨fun h _ => h, fun h => h hlt⟩
  · rw [if_neg hlt]
    exact ⟨fun _ h => absurd h hlt, fun _ => rfl⟩

end shard

/-! ### Samples -/

def sampleIndexer : Indexer := ⟨"social_graph", true⟩

/-- A message below the last height reaches a new indexer. -/
theorem block_backfill_below_last :
    ((@runBlockBackfill sortedScan (fun _ => none) [(1, sampleShardDb [sampleCast] [])]
        [sampleIndexer]).runs[0]?.map fun run => run.handed 1) =
      some (due (sampleHistory [sampleCast] []) 0) := by
  let _ := sortedScan
  have _ := sortedScan_exact
  refine (@block_backfill_exactly_once_iff _ (sampleHistory [sampleCast] []) _ _ (by decide) (fun _ => none)
    [(1, sampleShardDb [sampleCast] [])] (by decide) 1 (by simp) [sampleIndexer] 0 sampleIndexer rfl rfl).2
    ⟨?_, ?_⟩ |>.1
  · intro h _ hmax hout
    have hmax' : h ≤ 2 := hmax
    have hout' : (h = 2 ∨ (h - 0) % 101 = 100) ∨ 0 + (h - 0) / 101 * 101 < 0 := hout
    obtain rfl : h = 2 := by omega
    rfl
  · intro h
    exact absurd (show 2 < 0 from h) (by decide)

/-- **The message of the last height is skipped**: nothing is handed out, and the checkpoint is past it. -/
theorem block_backfill_skips_last :
    let b := @runBlockBackfill sortedScan (fun _ => none) [(1, sampleShardDb [] [sampleCast])] [sampleIndexer]
    (b.runs[0]?.map fun run => run.handed 1) = some [] ∧
      due (sampleHistory [] [sampleCast]) 0 = [sampleCast] ∧
      loadShardCheckpoint b.db (backfillCheckpointName sampleIndexer.name) 1 = 3 := by
  let _ := sortedScan
  have _ := sortedScan_exact
  obtain ⟨run, hrun, hhanded, hload⟩ :=
    @runBlockBackfill_spec _ (sampleHistory [] [sampleCast]) _ _ (by decide)
    (fun _ => none) [(1, sampleShardDb [] [sampleCast])] (by decide) 1 (by simp)
      [sampleIndexer] 0 sampleIndexer rfl rfl
  exact ⟨by rw [hrun, Option.map_some, hhanded]; rfl, by decide, UInt64.toNat_inj.1 hload⟩

end Backfill

end Hypersnap
