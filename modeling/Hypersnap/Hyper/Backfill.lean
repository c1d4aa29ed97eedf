import Hypersnap.Api.BlockBackfill
import Hypersnap.Engine.Merge
import Hypersnap.Store.Views

/-!
# `Hyper.Backfill` — filling the shadow stores from the chunks

The model of `run_hyper_backfill`. For each shard the loop of `Store.History` runs from the stored checkpoint
to the last height; every user message it reads is **offered** to the shadow stores, the writes are committed
every 500 merged messages and at the end of a range, and the checkpoint is saved now and then and at the end.

A process can be killed between any two of these actions, or a merge can panic: what was not committed or
saved is lost and the next run starts at the checkpoint. So a run is a list of actions, and an interrupted run
does the first ones. The chunks and the shadow stores are tables of one database; the merges leave the chunks
alone, so the chunks are read from a database of their own here.
-/

namespace Hypersnap

open Overlay EState

variable {shardId : UInt32} {b b' : HyperBackfill} {c : Nat} {offered : List Message}

/-! ## The run -/

section model
variable [Platform] (env : EngineEnv)

/-- Whether an operation succeeds; what it has staged stays. -/
def succeeds {α : Type} (x : StoreM α) : StoreM Bool := do return (← attempt x).toBool

/-- Offer a message to the shadow stores; conflicts and duplicates are expected and skipped, with what the
    merge has staged before it failed. -/
def mergeMessageToHyper (msg : Message) : StoreM Bool :=
  match (msg.data.bind fun data => MessageType.tryFrom data.type).bind fun type =>
    mergeIntoStore env .hyper type msg with
  | none => pure false
  | some merge => succeeds merge

def commitInterval : Nat := 500

def hyperCheckpointName : String := "hyper_backfill"

/-- The shadow stores of a shard, with the messages ever offered to them. -/
structure HyperStore where
  db : RocksDB
  generator : HubEventIdGenerator
  offered : List Message := []

/-- What the backfill changes: the checkpoints and the shadow stores of each shard, and the batch at hand. -/
structure HyperBackfill where
  apiDb : RocksDB
  hyper : UInt32 → HyperStore
  txnBatch : RocksDbTransactionBatch := Batch.empty
  batchCount : Nat := 0

inductive HyperAction where
  | offer (msg : Message)
  | commit
  | save (height : UInt64)

namespace HyperBackfill

def setHyper (self : HyperBackfill) (shardId : UInt32) (h : HyperStore) : HyperBackfill :=
  { self with hyper := Function.update self.hyper shardId h }

/-- One action on a shard; a panic has no result. -/
def exec (shardId : UInt32) (self : HyperBackfill) : HyperAction → Option HyperBackfill
  | .offer msg =>
    let h := self.hyper shardId
    match mergeMessageToHyper { env with db := h.db } msg ⟨self.txnBatch, h.generator⟩ with
    | .error _ _ => none
    | .ok merged s =>
      let offered := h.offered ++ [msg]
      let batchCount := if merged then self.batchCount + 1 else self.batchCount
      if commitInterval ≤ batchCount then
        some { self.setHyper shardId ⟨Overlay.commit h.db s.txn, s.generator, offered⟩ with
          txnBatch := Batch.empty, batchCount := 0 }
      else
        some { self.setHyper shardId ⟨h.db, s.generator, offered⟩ with txnBatch := s.txn, batchCount }
  | .commit =>
    let h := self.hyper shardId
    some { self.setHyper shardId { h with db := Overlay.commit h.db self.txnBatch } with
      txnBatch := Batch.empty, batchCount := 0 }
  | .save height =>
    some { self with apiDb := saveShardCheckpoint self.apiDb hyperCheckpointName shardId height }

/-- The process is gone, and the batch with it. -/
def drop (self : HyperBackfill) : HyperBackfill := { self with txnBatch := Batch.empty, batchCount := 0 }

/-- Do the actions as long as the process lives; what is left of its time, if it got through. -/
def execAll (shardId : UInt32) : List HyperAction → Nat → HyperBackfill → HyperBackfill × Option Nat
  | [], time, self => (self, some time)
  | _ :: _, 0, self => (self.drop, none)
  | action :: actions, time + 1, self =>
    match self.exec env shardId action with
    | none => (self.drop, none)
    | some next => execAll shardId actions time next

end HyperBackfill

/-- The work on one range of heights: offer, commit what is left, and save the checkpoint after every
    thousandth chunk. -/
def rangeActions (stop : UInt64) (chunks : List ShardChunk) (chunksProcessed : Nat) : List HyperAction :=
  if chunks.isEmpty then []
  else
    (chunks.flatMap (·.userMessages)).map .offer ++ [.commit] ++
      if (chunksProcessed + chunks.length) % 1000 = 0 then [.save (stop + 1)] else []

/-- The number of chunks so far and the actions, with those of another range. -/
def collect (stop : UInt64) (chunks : List ShardChunk) (s : Nat × List HyperAction) :
    Nat × List HyperAction :=
  (s.1 + chunks.length, s.2 ++ rangeActions stop chunks s.1)

def shardActions (store : RocksDB) (checkpoint : UInt64) : List HyperAction :=
  let maxHeight := maxBlockNumber store
  if maxHeight < checkpoint then []
  else
    (forChunkRanges store maxHeight (fun _ => collect)
        (maxHeight.toNat + 1 - checkpoint.toNat) checkpoint (0, [])).2 ++ [.save (maxHeight + 1)]

/-- One shard, with the time the process has left. -/
def backfillHyperShard (state : HyperBackfill × Option Nat) (shard : UInt32 × RocksDB) :
    HyperBackfill × Option Nat :=
  match state with
  | (b, none) => (b, none)
  | (b, some time) =>
    b.drop.execAll env shard.1
      (shardActions shard.2 (loadShardCheckpoint b.apiDb hyperCheckpointName shard.1)) time

/-- `run_hyper_backfill`, by a process that lives for a number of actions: the shards in ascending order. It
    has returned if there is an amount of time left. -/
def runHyperBackfill (shardStores : List (UInt32 × RocksDB)) (time : Nat) (b : HyperBackfill) :
    HyperBackfill × Option Nat :=
  (shardStores.mergeSort fun a b => a.1 ≤ b.1).foldl (backfillHyperShard env) (b, some time)

end model

/-! ## What a merge sees -/

section views
variable [Platform] {env : EngineEnv}

/-- A message whose merge sees only the view: no compact state, and no lend of nothing. -/
def Message.seesOnlyView (m : Message) : Bool := !m.hasType .linkCompactState && !m.lendsNothing

theorem storeDefOf_spec {type : MessageType} {storeDef : StoreDef} (h : storeDefOf type = some storeDef)
    {m : Message} (hm : m.hasType .linkCompactState = false) :
    storeDef.LooksThrough ∧ storeDef.isCompactStateType m = false := by
  cases type <;> cases h
  case usernameProof =>
    refine ⟨fun own hown db db' txn txn' hview m ts ctx => ?_, rfl⟩
    cases hown
    exact usernameProof_getMergeConflicts_congr hview m ts ctx
  all_goals exact ⟨(fun own hown => nomatch hown), by first | rfl | exact hm⟩

theorem loosely_mergeIntoStore {db db' : RocksDB} {m : Message} (hm : m.seesOnlyView = true)
    (type : MessageType) :
    (mergeIntoStore { env with db := db } .hyper type m = none ∧
      mergeIntoStore { env with db := db' } .hyper type m = none) ∨
    ∃ x y, mergeIntoStore { env with db := db } .hyper type m = some x ∧
      mergeIntoStore { env with db := db' } .hyper type m = some y ∧ Loosely db db' x y := by
  simp only [Message.seesOnlyView, Bool.and_eq_true, Bool.not_eq_true'] at hm
  by_cases htype : type = .lendStorage
  · subst htype
    exact .inr ⟨_, _, rfl, rfl, loosely_mergeLend rfl rfl hm.2⟩
  · have hcommon (env : EngineEnv) : mergeIntoStore env .hyper type m =
        (storeDefOf type).map fun storeDef => do return [← (env.store .hyper storeDef).merge env.db m] := by
      cases type <;> first | rfl | exact absurd rfl htype
    rw [hcommon, hcommon]
    cases hdef : storeDefOf type with
    | none => exact .inl ⟨rfl, rfl⟩
    | some storeDef =>
      obtain ⟨hlook, hcompact⟩ := storeDefOf_spec hdef hm.1
      exact .inr ⟨_, _, rfl, rfl,
        (Store.loosely_merge (env.store .hyper storeDef) rfl hlook m hcompact).map _ _⟩

omit [Platform] in
theorem stateOf_succeeds {α : Type} (x : StoreM α) (s : StoreState) :
    stateOf (succeeds x s) = stateOf (x s) := by
  have hattempt : stateOf (attempt x s) = stateOf (x s) := by
    unfold attempt
    rcases x s with ⟨a, s'⟩ | ⟨_ | _, s'⟩ <;> rfl
  unfold succeeds
  cases h : attempt x s with
  | error e s' => rw [bind_of_error h, ← hattempt, h]; rfl
  | ok r s' => rw [bind_of_ok h, ← hattempt, h]; rfl

/-- A message merged into the shadow stores and committed at once. -/
def offerAlone (env : EngineEnv) (db : RocksDB) (m : Message) : RocksDB :=
  Overlay.commit db (stateOf (mergeMessageToHyper { env with db := db } m ⟨Batch.empty, ⟨0, 0⟩⟩)).txn

/-- **An offer sees only the view.** -/
theorem mergeMessageToHyper_view {db : RocksDB} {m : Message} (hm : m.seesOnlyView = true) (s : StoreState) :
    (stateOf (mergeMessageToHyper { env with db := db } m s)).view db = offerAlone env (s.view db) m := by
  unfold offerAlone mergeMessageToHyper
  cases htype : m.data.bind fun data => MessageType.tryFrom data.type with
  | none => rfl
  | some type =>
    rw [Option.bind_some, Option.bind_some]
    rcases @loosely_mergeIntoStore _ env db (s.view db) m hm type with ⟨hx, hy⟩ | ⟨x, y, hx, hy, hxy⟩
    · rw [hx, hy]
      rfl
    · rw [hx, hy]
      dsimp only
      rw [stateOf_succeeds, stateOf_succeeds]
      exact hxy s ⟨Batch.empty, ⟨0, 0⟩⟩ rfl

end views

/-! ## Actions and what they leave -/

def offersOf (actions : List HyperAction) : List Message :=
  actions.filterMap fun
    | .offer msg => some msg
    | _ => none

theorem offersOf_append (l₁ l₂ : List HyperAction) : offersOf (l₁ ++ l₂) = offersOf l₁ ++ offersOf l₂ :=
  List.filterMap_append

theorem offersOf_offers (l : List Message) : offersOf (l.map .offer) = l :=
  List.filterMap_map.trans List.filterMap_some

/-- The checkpoint after some actions. -/
def lastSave (checkpoint : UInt64) : List HyperAction → UInt64
  | [] => checkpoint
  | .save height :: actions => lastSave height actions
  | _ :: actions => lastSave checkpoint actions

theorem lastSave_append (checkpoint : UInt64) (l₁ l₂ : List HyperAction) :
    lastSave checkpoint (l₁ ++ l₂) = lastSave (lastSave checkpoint l₁) l₂ := by
  induction l₁ generalizing checkpoint with
  | nil => rfl
  | cons action l₁ ih => cases action <;> exact ih _

namespace HyperBackfill

def checkpoint (b : HyperBackfill) (shardId : UInt32) : UInt64 :=
  loadShardCheckpoint b.apiDb hyperCheckpointName shardId

/-- The shadow stores of a shard as a merge sees them. -/
def view (b : HyperBackfill) (shardId : UInt32) : RocksDB := Overlay.commit (b.hyper shardId).db b.txnBatch

/-- Two states agree on a shard. -/
def SameOn (shardId : UInt32) (b b' : HyperBackfill) : Prop :=
  b'.hyper shardId = b.hyper shardId ∧ b'.checkpoint shardId = b.checkpoint shardId

theorem SameOn.refl (b : HyperBackfill) : SameOn shardId b b := ⟨rfl, rfl⟩

theorem SameOn.trans {b'' : HyperBackfill} (h : SameOn shardId b b') (h' : SameOn shardId b' b'') :
    SameOn shardId b b'' := ⟨h'.1.trans h.1, h'.2.trans h.2⟩

theorem SameOn.drop (b : HyperBackfill) : SameOn shardId b b.drop := ⟨rfl, rfl⟩

variable [Platform] {env : EngineEnv} {shardId : UInt32}

/-- All of some actions. -/
def done (env : EngineEnv) (shardId : UInt32) (actions : List HyperAction) (b : HyperBackfill) :
    Option HyperBackfill :=
  actions.foldlM (fun b action => b.exec env shardId action) b

/-- **A run is the first actions**, all of them if it got through. -/
theorem execAll_cases (actions : List HyperAction) (time : Nat) (b : HyperBackfill) :
    ∃ first rest b', actions = first ++ rest ∧ done env shardId first b = some b' ∧
      (((b.execAll env shardId actions time).2.isSome ∧ rest = [] ∧
        (b.execAll env shardId actions time).1 = b') ∨
        (b.execAll env shardId actions time).2 = none ∧
        (b.execAll env shardId actions time).1 = b'.drop) := by
  induction actions generalizing time b with
  | nil => exact ⟨[], [], b, rfl, rfl, .inl ⟨rfl, rfl, rfl⟩⟩
  | cons action actions ih =>
    cases time with
    | zero => exact ⟨[], action :: actions, b, rfl, rfl, .inr ⟨rfl, rfl⟩⟩
    | succ time =>
      rw [execAll]
      cases hexec : b.exec env shardId action with
      | none => exact ⟨[], action :: actions, b, rfl, rfl, .inr ⟨rfl, rfl⟩⟩
      | some next =>
        obtain ⟨first, rest, b', hsplit, hdone, hend⟩ := ih time next
        refine ⟨action :: first, rest, b', by rw [hsplit]; rfl, ?_, hend⟩
        rw [done, List.foldlM_cons, hexec]
        exact hdone

/-- **What some actions do** to the shard they are for, and not to another. -/
structure Performed (env : EngineEnv) (shardId : UInt32) (actions : List HyperAction) (b b' : HyperBackfill) :
    Prop where
  offered : (b'.hyper shardId).offered = (b.hyper shardId).offered ++ offersOf actions
  checkpoint : b'.checkpoint shardId = lastSave (b.checkpoint shardId) actions
  other : ∀ other, other ≠ shardId → SameOn other b b'
  view : (∀ m ∈ offersOf actions, m.seesOnlyView = true) →
    b'.view shardId = (offersOf actions).foldl (offerAlone env) (b.view shardId)

theorem exec_performed {action : HyperAction} (h : b.exec env shardId action = some b') :
    Performed env shardId [action] b b' := by
  cases action with
  | offer msg =>
    have hview := fun hm => @mergeMessageToHyper_view _ env (b.hyper shardId).db msg hm
      ⟨b.txnBatch, (b.hyper shardId).generator⟩
    simp only [exec] at h
    cases hmerge : mergeMessageToHyper { env with db := (b.hyper shardId).db } msg
        ⟨b.txnBatch, (b.hyper shardId).generator⟩ with
    | error e s => simp [hmerge] at h
    | ok merged s =>
      rw [hmerge] at hview
      simp only [hmerge] at h
      generalize (if merged = true then b.batchCount + 1 else b.batchCount) = count at h
      -- committed at once or not, the view is the same
      split at h <;> cases h <;>
        refine ⟨by simp [setHyper, offersOf], rfl, fun other hne =>
          ⟨Function.update_of_ne hne _ _, rfl⟩, fun hm => ?_⟩ <;>
        simpa [HyperBackfill.view, setHyper, offersOf, StoreState.view]
          using hview (hm msg (by simp [offersOf]))
  | commit =>
    cases h
    exact ⟨by simp [setHyper, offersOf], rfl, fun other hne =>
      ⟨Function.update_of_ne hne _ _, rfl⟩, fun _ => by
      simp [HyperBackfill.view, setHyper, offersOf]⟩
  | save height =>
    cases h
    exact ⟨by simp [offersOf], load_save_same .., fun other hne =>
      ⟨rfl, load_save_of_ne hne _ _⟩, fun _ => rfl⟩

theorem done_performed {actions : List HyperAction} (h : done env shardId actions b = some b') :
    Performed env shardId actions b b' := by
  induction actions generalizing b with
  | nil =>
    cases h
    exact ⟨by simp [offersOf], rfl, fun _ _ => SameOn.refl _, fun _ => rfl⟩
  | cons action actions ih =>
    rw [done, List.foldlM_cons] at h
    obtain ⟨next, hexec, hrest⟩ := Option.bind_eq_some_iff.1 h
    have hfirst := exec_performed hexec
    have hrest := ih hrest
    have hsplit := offersOf_append [action] actions
    refine ⟨?_, ?_, fun other hne => (hfirst.other other hne).trans (hrest.other other hne), fun hm => ?_⟩
    · rw [hrest.offered, hfirst.offered, List.append_assoc, ← hsplit]
      rfl
    · rw [hrest.checkpoint, hfirst.checkpoint, ← lastSave_append]
      rfl
    · rw [← List.singleton_append, hsplit] at hm ⊢
      rw [List.foldl_append, hrest.view fun m hmem => hm m (List.mem_append_right _ hmem),
        hfirst.view fun m hmem => hm m (List.mem_append_left _ hmem)]

end HyperBackfill

/-! ## The actions on a history -/

section chain
variable (chain : Nat → List Message)

/-- The messages of the heights from `lo` up to, but not including, `hi`. -/
def between (lo hi : Nat) : List Message := (List.range' lo (hi - lo)).flatMap chain

variable {chain}

theorem between_append {lo mid hi : Nat} (hlo : lo ≤ mid) (hhi : mid ≤ hi) :
    between chain lo mid ++ between chain mid hi = between chain lo hi := by
  rw [between, between, between, ← List.flatMap_append, show hi - lo = mid - lo + (hi - mid) by omega,
    ← List.range'_append_1, show lo + (mid - lo) = mid by omega]

theorem between_succ {lo hi : Nat} (hle : lo ≤ hi) (hnone : chain hi = []) :
    between chain lo (hi + 1) = between chain lo hi := by
  have hlast : between chain hi (hi + 1) = [] := by simp [between, hnone]
  rw [← between_append hle (Nat.le_succ hi), hlast, List.append_nil]

theorem between_sublist (c h : Nat) :
    (between chain 0 h).Sublist (between chain 0 c ++ between chain c h) := by
  rcases Nat.le_total c h with hle | hle
  · rw [between_append (Nat.zero_le c) hle]
  · rw [← between_append (Nat.zero_le h) hle, List.append_assoc]
    exact List.sublist_append_left _ _

variable (chain)

/-- Whenever a checkpoint is saved, exactly the messages from `c` up to it have been offered. -/
def SavesMatch (c : Nat) : List Message → List HyperAction → Prop
  | _, [] => True
  | offered, .offer msg :: actions => SavesMatch c (offered ++ [msg]) actions
  | offered, .commit :: actions => SavesMatch c offered actions
  | offered, .save height :: actions => offered = between chain c height.toNat ∧ SavesMatch c offered actions

variable {chain} {pending : Bool}

theorem SavesMatch.append {l₁ l₂ : List HyperAction} : SavesMatch chain c offered (l₁ ++ l₂) ↔
      SavesMatch chain c offered l₁ ∧ SavesMatch chain c (offered ++ offersOf l₁) l₂ := by
  induction l₁ generalizing offered with
  | nil => simp [SavesMatch, offersOf]
  | cons action l₁ ih =>
    cases action with
    | offer msg =>
      have hoffers : offersOf (.offer msg :: l₁) = msg :: offersOf l₁ := rfl
      rw [List.cons_append, SavesMatch, SavesMatch, ih, hoffers, List.append_assoc, List.singleton_append]
    | commit => exact ih
    | save height => rw [List.cons_append, SavesMatch, SavesMatch, ih, and_assoc]; rfl

/-- After the first actions of a run, the messages below its checkpoint are among those it has offered. -/
theorem SavesMatch.covered {c : Nat} {checkpoint : UInt64} {offered : List Message}
    {actions : List HyperAction} (h : SavesMatch chain c offered actions)
    (hstart : between chain c checkpoint.toNat <+: offered) :
    between chain c (lastSave checkpoint actions).toNat <+: offered ++ offersOf actions := by
  induction actions generalizing checkpoint offered with
  | nil => simpa [lastSave, offersOf] using hstart
  | cons action actions ih =>
    cases action with
    | offer msg =>
      have hnext := ih h (hstart.trans (List.prefix_append _ _))
      rwa [List.append_assoc] at hnext
    | commit => exact ih h hstart
    | save height => exact ih h.2 (by rw [h.1])

/-- Every offer is followed by a commit. -/
def flushed : Bool → List HyperAction → Bool
  | pending, [] => !pending
  | _, .offer _ :: actions => flushed true actions
  | _, .commit :: actions => flushed false actions
  | pending, .save _ :: actions => flushed pending actions

theorem flushed_append {l₁ l₂ : List HyperAction} (h : flushed pending l₁ = true) :
    flushed pending (l₁ ++ l₂) = flushed false l₂ := by
  induction l₁ generalizing pending with
  | nil =>
    have hp : pending = false := by simpa [flushed] using h
    rw [hp]
    rfl
  | cons action l₁ ih => cases action <;> exact ih h

theorem HyperBackfill.done_flushed [Platform] {env : EngineEnv} {actions : List HyperAction}
    (h : done env shardId actions b = some b') (hflushed : flushed pending actions = true)
    (hb : pending = false → b.txnBatch = Batch.empty) : b'.txnBatch = Batch.empty := by
  induction actions generalizing b pending with
  | nil =>
    cases h
    exact hb (by simpa [flushed] using hflushed)
  | cons action actions ih =>
    rw [done, List.foldlM_cons] at h
    obtain ⟨next, hexec, hrest⟩ := Option.bind_eq_some_iff.1 h
    cases action with
    | offer msg => exact ih hrest hflushed fun h => nomatch h
    | commit =>
      cases hexec
      exact ih hrest hflushed fun _ => rfl
    | save height =>
      cases hexec
      exact ih hrest hflushed hb

/-! ### One range -/

theorem rangeActions_cases (stop : UInt64) (chunks : List ShardChunk) (n : Nat) :
    chunks = [] ∧ rangeActions stop chunks n = [] ∨ ∃ save, (save = [] ∨ save = [.save (stop + 1)]) ∧
      rangeActions stop chunks n = (chunks.flatMap (·.userMessages)).map .offer ++ .commit :: save := by
  unfold rangeActions
  by_cases hempty : chunks.isEmpty
  · exact .inl ⟨List.isEmpty_iff.1 hempty, if_pos hempty⟩
  · rw [if_neg hempty, List.append_assoc]
    refine .inr ⟨_, ?_, rfl⟩
    split
    · exact .inr rfl
    · exact .inl rfl

theorem offersOf_rangeActions (stop : UInt64) (chunks : List ShardChunk) (n : Nat) :
    offersOf (rangeActions stop chunks n) = chunks.flatMap (·.userMessages) := by
  rcases rangeActions_cases stop chunks n with ⟨rfl, heq⟩ | ⟨save, hsave, heq⟩
  · rw [heq]
    rfl
  · rw [heq, offersOf_append, offersOf_offers]
    rcases hsave with rfl | rfl <;> exact List.append_nil _

theorem savesMatch_offers (l : List Message) : SavesMatch chain c offered (l.map .offer) := by
  induction l generalizing offered with
  | nil => exact trivial
  | cons m l ih => exact ih

theorem savesMatch_rangeActions {stop : UInt64} {chunks : List ShardChunk} {n : Nat}
    (h : offered ++ chunks.flatMap (·.userMessages) = between chain c (stop + 1).toNat) :
    SavesMatch chain c offered (rangeActions stop chunks n) := by
  rcases rangeActions_cases stop chunks n with ⟨-, heq⟩ | ⟨save, hsave, heq⟩
  · rw [heq]
    exact trivial
  · rw [heq, SavesMatch.append, offersOf_offers]
    refine ⟨savesMatch_offers _, ?_⟩
    rcases hsave with rfl | rfl
    · exact trivial
    · exact ⟨h, trivial⟩

theorem flushed_rangeActions (stop : UInt64) (chunks : List ShardChunk) (n : Nat) :
    flushed false (rangeActions stop chunks n) = true := by
  have hoffers (l : List Message) (p : Bool) (rest : List HyperAction) :
      flushed p (l.map .offer ++ .commit :: rest) = flushed false rest := by
    induction l generalizing p with
    | nil => rfl
    | cons m l ih => exact ih true
  rcases rangeActions_cases stop chunks n with ⟨-, heq⟩ | ⟨save, hsave, heq⟩
  · rw [heq]
    rfl
  · rw [heq, hoffers]
    rcases hsave with rfl | rfl <;> rfl

/-! ### All ranges -/

/-- The state of the loop that collects the actions, at height `lo`: everything below is offered. -/
structure Collected (chain : Nat → List Message) (c lo : Nat) (actions : List HyperAction) : Prop where
  offers : offersOf actions = between chain c lo
  saves : SavesMatch chain c [] actions
  flushed : flushed false actions = true

/-- What a run needs of the chunks it reads: they are the chain's, and no message is at the end of a range. -/
structure Readable (chain : Nat → List Message) {store : RocksDB} (history : ChunkHistory store) (c : Nat) :
    Prop where
  agrees : ∀ h, h ≤ history.maxHeight → history.messagesAt h = chain h
  bound : history.maxHeight + 101 < 2 ^ 64
  /-- The chunks that were there before still are. -/
  grown : c ≤ history.maxHeight + 1
  ends : ∀ h, c ≤ h → h ≤ history.maxHeight → Windows.IsEnd 100 history.maxHeight c h → chain h = []

variable {store : RocksDB} {history : ChunkHistory store} {c : Nat}

/-- **One round.** -/
theorem Collected.step {lo stop : Nat} {s : Nat × List HyperAction} (h : Collected chain c lo s.2)
    (hlo : c ≤ lo) (hstop : lo ≤ stop) (hbound : stop + 1 < 2 ^ 64)
    (hagrees : ∀ h, h ≤ stop → history.messagesAt h = chain h) (hend : chain stop = []) :
    Collected chain c (stop + 1)
      (collect (.ofNat stop) ((List.range' lo (stop - lo)).filterMap history.chunkAt) s).2 := by
  have hmessages : ((List.range' lo (stop - lo)).filterMap history.chunkAt).flatMap (·.userMessages) =
      between chain lo stop := by
    rw [ChunkHistory.flatMap_userMessages, between]
    refine List.flatMap_congr fun x hx => hagrees x ?_
    rw [List.mem_range'_1] at hx
    omega
  have hall : between chain c lo ++ between chain lo stop = between chain c (stop + 1) := by
    rw [between_append hlo hstop, between_succ (Nat.le_trans hlo hstop) hend]
  have hnat : (UInt64.ofNat stop + 1).toNat = stop + 1 := by
    rw [UInt64.toNat_add, UInt64.toNat_ofNat_of_lt' (by show stop < 2 ^ 64; omega)]
    exact Nat.mod_eq_of_lt hbound
  refine ⟨?_, ?_, ?_⟩
  · rw [collect, offersOf_append, h.offers, offersOf_rangeActions, hmessages, hall]
  · rw [collect, SavesMatch.append, List.nil_append, h.offers]
    exact ⟨h.saves, savesMatch_rangeActions (by rw [hmessages, hall, hnat])⟩
  · rw [collect, flushed_append h.flushed]
    exact flushed_rangeActions _ _ _

theorem Collected.windows (hagrees : ∀ h, h ≤ history.maxHeight → history.messagesAt h = chain h)
    (hbound : history.maxHeight + 1 < 2 ^ 64) :
    ∀ {fuel lo : Nat} {s : Nat × List HyperAction}, history.maxHeight + 1 - lo ≤ fuel → c ≤ lo →
    lo ≤ history.maxHeight + 1 →
      (∀ h, lo ≤ h → h ≤ history.maxHeight → Windows.IsEnd 100 history.maxHeight lo h → chain h = []) →
      Collected chain c lo s.2 → Collected chain c (history.maxHeight + 1)
        ((Windows.windowsFuel 100 history.maxHeight fuel lo).foldl
          (fun s w => collect (.ofNat w.2) ((List.range' w.1 (w.2 - w.1)).filterMap history.chunkAt) s)
            s).2 := by
  intro fuel
  induction fuel with
  | zero =>
    intro lo s hfuel hlo hmax _ h
    have hlast : lo = history.maxHeight + 1 := by omega
    rw [← hlast]
    exact h
  | succ fuel ih =>
    intro lo s hfuel hlo hmax hends h
    rw [Windows.windowsFuel]
    by_cases hle : lo ≤ history.maxHeight
    · rw [if_pos hle, List.foldl_cons]
      have hend : chain (min (lo + 100) history.maxHeight) = [] :=
        hends _ (by omega) (Nat.min_le_right _ _) (Windows.isEnd_end lo)
      refine ih (by omega) (by omega) (by omega) (fun x hx hxmax hxend => ?_)
        (h.step hlo (by omega) (by omega) (fun x hx => hagrees x (by omega)) hend)
      -- there is something left only after a full window
      have hfull : min (lo + 100) history.maxHeight = lo + 100 := by omega
      rw [hfull] at hx hxend
      exact hends x (by omega) hxmax ((@Windows.next_window 100 history.maxHeight lo x hx).1.2 hxend)
    · have hlast : lo = history.maxHeight + 1 := by omega
      rw [if_neg hle, ← hlast]
      exact h

/-- **The actions on a shard**: they offer the messages from the checkpoint to the last height, and save no
    checkpoint before what is below it has been offered. -/
theorem shardActions_spec [Platform] [DbIterator.Exact] {checkpoint : UInt64}
    (h : Readable chain history checkpoint.toNat) :
    offersOf (shardActions store checkpoint) = between chain checkpoint.toNat (history.maxHeight + 1) ∧
      SavesMatch chain checkpoint.toNat [] (shardActions store checkpoint) ∧
      flushed false (shardActions store checkpoint) = true ∧
      (lastSave checkpoint (shardActions store checkpoint)).toNat = history.maxHeight + 1 := by
  have hmax := history.maxBlockNumber_eq
  have hbound := h.bound
  have hgrown := h.grown
  unfold shardActions
  by_cases hlt : maxBlockNumber store < checkpoint
  · -- nothing is left to do
    have hlt' := UInt64.lt_iff_toNat_lt.1 hlt
    have hlast : checkpoint.toNat = history.maxHeight + 1 := by omega
    rw [if_pos hlt, hlast]
    exact ⟨by simp [between, offersOf], trivial, rfl, hlast⟩
  · have hle := Nat.le_of_not_lt (mt UInt64.lt_iff_toNat_lt.2 hlt)
    have hnat : (maxBlockNumber store + 1).toNat = history.maxHeight + 1 := by
      rw [UInt64.toNat_add, hmax]
      exact Nat.mod_eq_of_lt (by show history.maxHeight + 1 < 2 ^ 64; omega)
    have hstart : Collected chain checkpoint.toNat checkpoint.toNat (0, ([] : List HyperAction)).2 :=
      ⟨by simp [between, offersOf], trivial, rfl⟩
    have hcollected := hstart.windows h.agrees (by omega) (Nat.le_refl _) (Nat.le_refl _) hgrown h.ends
    dsimp only
    rw [if_neg hlt, forChunkRanges_eq history (by omega), hmax]
    generalize List.foldl _ _ _ = collected at hcollected ⊢
    refine ⟨?_, ?_, ?_, ?_⟩
    · rw [offersOf_append, hcollected.offers]
      exact List.append_nil _
    · rw [SavesMatch.append, List.nil_append]
      exact ⟨hcollected.saves, by rw [hcollected.offers, hnat], trivial⟩
    · rw [flushed_append hcollected.flushed]
      rfl
    · rw [lastSave_append]
      exact hnat

end chain

/-! ## Runs -/

namespace HyperBackfill

variable [Platform] {env : EngineEnv} {shardId : UInt32}

theorem SameOn.backfillHyperShard {other : UInt32} (hne : shardId ≠ other) (store : RocksDB)
    (state : HyperBackfill × Option Nat) :
    SameOn shardId state.1 (backfillHyperShard env state (other, store)).1 := by
  obtain ⟨b, _ | time⟩ := state
  · exact SameOn.refl b
  · obtain ⟨first, rest, b', -, hdone, hend⟩ := @execAll_cases _ env other
      (shardActions store (loadShardCheckpoint b.apiDb hyperCheckpointName other)) time b.drop
    have hsame := (SameOn.drop b).trans ((done_performed hdone).other shardId hne)
    rcases hend with ⟨-, -, rfl⟩ | ⟨-, hend⟩
    · exact hsame
    · exact hsame.trans (hend ▸ SameOn.drop b')

theorem SameOn.foldl {shards : List (UInt32 × RocksDB)} (hnot : shardId ∉ shards.map Prod.fst)
    (state : HyperBackfill × Option Nat) :
    SameOn shardId state.1 (shards.foldl (Hypersnap.backfillHyperShard env) state).1 := by
  induction shards generalizing state with
  | nil => exact SameOn.refl _
  | cons shard shards ih =>
    rw [List.map_cons, List.mem_cons, not_or] at hnot
    exact (SameOn.backfillHyperShard hnot.1 shard.2 state).trans (ih hnot.2 _)

theorem foldl_none {shards : List (UInt32 × RocksDB)} {state : HyperBackfill × Option Nat}
    (h : state.2 = none) :
    (shards.foldl (Hypersnap.backfillHyperShard env) state).2 = none := by
  induction shards generalizing state with
  | nil => exact h
  | cons shard shards ih =>
    obtain ⟨b, _ | time⟩ := state
    · exact ih rfl
    · cases h

/-- **A run, seen from one shard**: it does the first of the shard's actions, from a state like the one it
    started in; and all of them if it returns. -/
theorem runHyperBackfill_cases {shardStores : List (UInt32 × RocksDB)}
    (hnodup : (shardStores.map Prod.fst).Nodup) {store : RocksDB} (hshard : (shardId, store) ∈ shardStores)
    (time : Nat) (b : HyperBackfill) :
    ∃ first rest b₁ b₂, shardActions store (b.checkpoint shardId) = first ++ rest ∧ SameOn shardId b b₁ ∧
      b₁.txnBatch = Batch.empty ∧ done env shardId first b₁ = some b₂ ∧
      SameOn shardId b₂ (runHyperBackfill env shardStores time b).1 ∧
      ((runHyperBackfill env shardStores time b).2.isSome → rest = []) := by
  obtain ⟨before, after, hsplit, hbefore, hafter⟩ := exists_split_shards hnodup hshard
  rw [runHyperBackfill, hsplit, List.foldl_append, List.foldl_cons]
  have hfirst := @SameOn.foldl _ env shardId before hbefore (b, some time)
  generalize List.foldl (Hypersnap.backfillHyperShard env) (b, some time) before = state at hfirst
  obtain ⟨b₁, _ | time₁⟩ := state
  · -- the process has ended before this shard
    refine ⟨[], _, b₁.drop, b₁.drop, rfl, hfirst.trans (SameOn.drop _), rfl, rfl, ?_, fun hsome => ?_⟩
    · exact @SameOn.foldl _ env shardId after hafter (b₁, none)
    · rw [foldl_none rfl] at hsome
      cases hsome
  · obtain ⟨first, rest, b₂, hactions, hdone, hend⟩ := @execAll_cases _ env shardId
      (shardActions store (b₁.checkpoint shardId)) time₁ b₁.drop
    have hlast := @SameOn.foldl _ env shardId after hafter
      (Hypersnap.backfillHyperShard env (b₁, some time₁) (shardId, store))
    have hcheckpoint : b₁.checkpoint shardId = b.checkpoint shardId := hfirst.2
    rw [hcheckpoint] at hactions
    refine ⟨first, rest, b₁.drop, b₂, hactions, hfirst.trans (SameOn.drop _), rfl, hdone, ?_, fun hsome => ?_⟩
    · rcases hend with ⟨-, -, hend⟩ | ⟨-, hend⟩
      · rw [← hend]
        exact hlast
      · exact (SameOn.drop b₂).trans (hend ▸ hlast)
    · rcases hend with ⟨-, hrest, -⟩ | ⟨hnone, -⟩
      · exact hrest
      · have hended : (Hypersnap.backfillHyperShard env (b₁, some time₁) (shardId, store)).2 = none := hnone
        rw [foldl_none hended] at hsome
        cases hsome

/-- What holds after any runs on a shard that started with empty shadow stores in `db₀`; `whole` says that all
    of them returned. -/
structure Covers (env : EngineEnv) (chain : Nat → List Message) (shardId : UInt32) (db₀ : RocksDB)
    (whole : Bool) (b : HyperBackfill) : Prop where
  covered : (between chain 0 (b.checkpoint shardId).toNat).Sublist (b.hyper shardId).offered
  exactly : whole = true → (b.hyper shardId).offered = between chain 0 (b.checkpoint shardId).toNat
  db : whole = true → (∀ m ∈ (b.hyper shardId).offered, m.seesOnlyView = true) →
    (b.hyper shardId).db = (b.hyper shardId).offered.foldl (offerAlone env) db₀

section runs
variable {chain : Nat → List Message} {db₀ : RocksDB} {whole : Bool} {b : HyperBackfill}
  {shardStores : List (UInt32 × RocksDB)} {store : RocksDB} {history : ChunkHistory store}

/-- **One run** keeps it, whether it returns or not, and one that returns moves the checkpoint after the last
    height. -/
theorem Covers.run [DbIterator.Exact] (h : Covers env chain shardId db₀ whole b)
    (hnodup : (shardStores.map Prod.fst).Nodup) (hshard : (shardId, store) ∈ shardStores)
    (hread : Readable chain history (b.checkpoint shardId).toNat) (time : Nat) :
    Covers env chain shardId db₀ (whole && (runHyperBackfill env shardStores time b).2.isSome)
        (runHyperBackfill env shardStores time b).1 ∧ ((runHyperBackfill env shardStores time b).2.isSome →
        ((runHyperBackfill env shardStores time b).1.checkpoint shardId).toNat = history.maxHeight + 1) := by
  obtain ⟨first, rest, b₁, b₂, hactions, hsame₁, hbatch, hdone, hsame₂, hreturns⟩ :=
    @runHyperBackfill_cases _ env shardId _ hnodup _ hshard time b
  obtain ⟨hoffers, hsaves, hflushed, hlast⟩ := shardActions_spec hread
  have hperformed := done_performed hdone
  generalize (runHyperBackfill env shardStores time b) = result at hsame₂ hreturns ⊢
  have hoffered' : (result.1.hyper shardId).offered = (b.hyper shardId).offered ++ offersOf first := by
    rw [hsame₂.1, hperformed.offered, hsame₁.1]
  have hcheckpoint' : result.1.checkpoint shardId = lastSave (b.checkpoint shardId) first := by
    rw [hsame₂.2, hperformed.checkpoint, hsame₁.2]
  have hcovered :
      (between chain 0 (result.1.checkpoint shardId).toNat).Sublist (result.1.hyper shardId).offered := by
    rw [hoffered', hcheckpoint']
    rw [hactions, SavesMatch.append] at hsaves
    have hpart := @SavesMatch.covered _ _ (b.checkpoint shardId) _ _ hsaves.1 (by simp [between])
    exact (between_sublist (b.checkpoint shardId).toNat _).trans (h.covered.append hpart.sublist)
  have hall :
      result.2.isSome → offersOf first = between chain (b.checkpoint shardId).toNat (history.maxHeight + 1) ∧
      (result.1.checkpoint shardId).toNat = history.maxHeight + 1 := by
    intro hsome
    rw [hreturns hsome, List.append_nil] at hactions
    rw [← hactions, hcheckpoint', ← hactions]
    exact ⟨hoffers, hlast⟩
  refine ⟨⟨hcovered, fun hwhole => ?_, fun hwhole hm => ?_⟩, fun hsome => (hall hsome).2⟩
  · obtain ⟨hwhole, hsome⟩ := Bool.and_eq_true_iff.1 hwhole
    rw [hoffered', h.exactly hwhole, (hall hsome).1, (hall hsome).2,
      between_append (Nat.zero_le _) hread.grown]
  · obtain ⟨hwhole, hsome⟩ := Bool.and_eq_true_iff.1 hwhole
    rw [hoffered'] at hm ⊢
    rw [hreturns hsome, List.append_nil] at hactions
    rw [hactions] at hflushed
    have hview := hperformed.view fun m hmem => hm m (List.mem_append_right _ hmem)
    rw [view, view, done_flushed hdone hflushed fun _ => hbatch, hbatch, commit_empty, commit_empty, hsame₁.1]
      at hview
    rw [List.foldl_append, ← h.db hwhole fun m hmem => hm m (List.mem_append_left _ hmem), ← hview, hsame₂.1]

/-- **The runs of the backfill on a shard**: any number of them, returned or interrupted, each on the chunks
    there are by then, with new processes in between. -/
inductive Backfilled (env : EngineEnv) (chain : Nat → List Message) (shardId : UInt32) (db₀ : RocksDB) :
    Bool → HyperBackfill → Prop
  | start {b : HyperBackfill} {generator : HubEventIdGenerator} : b.checkpoint shardId = 0 →
      b.hyper shardId = ⟨db₀, generator, []⟩ → Backfilled env chain shardId db₀ true b
  | restart {whole : Bool} {b : HyperBackfill} (generator : HubEventIdGenerator) :
    Backfilled env chain shardId db₀ whole b →
      Backfilled env chain shardId db₀ whole (b.setHyper shardId { b.hyper shardId with generator })
  | run {whole : Bool} {b : HyperBackfill} {shardStores : List (UInt32 × RocksDB)} {store : RocksDB}
      {history : ChunkHistory store} (time : Nat) : Backfilled env chain shardId db₀ whole b →
      (shardStores.map Prod.fst).Nodup → (shardId, store) ∈ shardStores →
      Readable chain history (b.checkpoint shardId).toNat →
      Backfilled env chain shardId db₀ (whole && (runHyperBackfill env shardStores time b).2.isSome)
        (runHyperBackfill env shardStores time b).1

theorem Backfilled.covers [DbIterator.Exact] (h : Backfilled env chain shardId db₀ whole b) :
    Covers env chain shardId db₀ whole b := by
  induction h with
  | start hzero hhyper =>
    have hnone : between chain 0 (0 : UInt64).toNat = [] := rfl
    refine ⟨?_, fun _ => ?_, fun _ _ => ?_⟩
    · rw [hzero, hhyper, hnone]
    · rw [hzero, hhyper, hnone]
    · rw [hhyper]
      rfl
  | restart generator _ ih =>
    refine ⟨?_, fun hw => ?_, fun hw hm => ?_⟩
    · simpa [setHyper, checkpoint] using ih.covered
    · simpa [setHyper, checkpoint] using ih.exactly hw
    · simpa [setHyper, checkpoint] using ih.db hw (by simpa [setHyper] using hm)
  | run time _ hnodup hshard hread ih => exact (ih.run hnodup hshard hread time).1

/-- **The backfill reproduces the history** in every run in which each of its runs so far, returned or
    interrupted, and this one find no user message at the end of a range: when it returns, all messages up to
    the last height have been offered, in chain order; and if all runs have returned and no message is a
    compact state or a lend of nothing, the shadow stores are those into which the messages were merged one by
    one. -/
theorem hyper_backfill_reproduces [DbIterator.Exact] (h : Backfilled env chain shardId db₀ whole b)
    (hnodup : (shardStores.map Prod.fst).Nodup) (hshard : (shardId, store) ∈ shardStores)
    (hread : Readable chain history (b.checkpoint shardId).toNat) (time : Nat)
    (hreturns : (runHyperBackfill env shardStores time b).2.isSome) :
    let all := between chain 0 (history.maxHeight + 1)
    let hyper := (runHyperBackfill env shardStores time b).1.hyper shardId
    all.Sublist hyper.offered ∧
      (whole = true → (∀ m ∈ all, m.seesOnlyView = true) → hyper.db = all.foldl (offerAlone env) db₀) := by
  intro all hyper
  obtain ⟨hcovers, hlast⟩ := h.covers.run hnodup hshard hread time
  have hcheckpoint := hlast hreturns
  refine ⟨?_, fun hwhole hm => ?_⟩
  · have hcovered := hcovers.covered
    rwa [hcheckpoint] at hcovered
  · have hboth :
        (whole && (runHyperBackfill env shardStores time b).2.isSome) = true := by rw [hwhole, hreturns]; rfl
    have hexactly := hcovers.exactly hboth
    rw [hcheckpoint] at hexactly
    have hdb := hcovers.db hboth (by rw [hexactly]; exact hm)
    rwa [hexactly] at hdb

end runs

end HyperBackfill

/-! ### Samples -/

namespace HyperBackfill

def sampleEnv : EngineEnv where
  shardId := 1
  network := .mainnet
  db := fun _ => none
  now := 0

def sampleStart : HyperBackfill where
  apiDb := fun _ => none
  hyper := fun _ => ⟨fun _ => none, ⟨0, 0⟩, []⟩

theorem sampleActions (messages₁ messages₂ : List Message) :
    @shardActions (samplePlatform sortedScan) (sampleShardDb messages₁ messages₂) 0 =
      messages₁.map .offer ++ [.commit, .save 3] := by
  let _ := samplePlatform sortedScan
  have _ : DbIterator.Exact := sortedScan_exact
  have hmax : maxBlockNumber (sampleShardDb messages₁ messages₂) = 2 :=
    UInt64.toNat_inj.1 (sampleHistory messages₁ messages₂).maxBlockNumber_eq
  unfold shardActions
  rw [hmax]
  dsimp only
  rw [forChunkRanges_eq (sampleHistory messages₁ messages₂) (by decide)]
  have hwindow : Windows.windowsFuel 100 (2 : UInt64).toNat ((2 : UInt64).toNat + 1 - (0 : UInt64).toNat)
      (0 : UInt64).toNat = [(0, 2)] := rfl
  have hchunks : (List.range' 0 (2 - 0)).filterMap (sampleHistory messages₁ messages₂).chunkAt =
      [sampleShardChunk 1 messages₁] := rfl
  have hmessages : [sampleShardChunk 1 messages₁].flatMap (·.userMessages) = messages₁ := by
    simp [sampleShardChunk, ShardChunk.userMessages]
  rw [hwindow, List.foldl_cons, List.foldl_nil, hchunks, collect, rangeActions, hmessages]
  simp

/-- No message at height 2. -/
def sampleChain (h : Nat) : List Message := if h = 1 then [sampleCast] else []

theorem sampleReadable : Readable sampleChain (sampleHistory [sampleCast] []) 0 where
  agrees h hle := by
    have hle' : h ≤ 2 := hle
    rcases h with _ | _ | _ | h
    · rfl
    · rfl
    · rfl
    · omega
  bound := by decide
  grown := Nat.zero_le _
  ends h _ hle hend := by
    have hle' : h ≤ 2 := hle
    have hend' : h = 2 ∨ (h - 0) % 101 = 100 := hend
    obtain rfl : h = 2 := by omega
    rfl

theorem sampleRun (messages₁ messages₂ : List Message) :
    @runHyperBackfill (samplePlatform sortedScan) sampleEnv
      [(1, sampleShardDb messages₁ messages₂)] 10 sampleStart =
      @execAll (samplePlatform sortedScan) sampleEnv 1
        (messages₁.map .offer ++ [.commit, .save 3]) 10 sampleStart.drop := by
  unfold runHyperBackfill
  rw [← sampleActions messages₁ messages₂, List.mergeSort_singleton]
  rfl

/-- A message below the last height ends up in the shadow stores. -/
theorem hyper_backfill_below_last :
    ((@runHyperBackfill (samplePlatform sortedScan) sampleEnv
      [(1, sampleShardDb [sampleCast] [])] 10 sampleStart).1.hyper 1).db =
      @offerAlone (samplePlatform sortedScan) sampleEnv (fun _ => none) sampleCast := by
  let _ := samplePlatform sortedScan
  have _ : DbIterator.Exact := sortedScan_exact
  have h := @hyper_backfill_reproduces _ sampleEnv 1 sampleChain (fun _ => none) true sampleStart
    [(1, sampleShardDb [sampleCast] [])] _ (sampleHistory [sampleCast] []) _ (.start rfl rfl)
    (by decide) (by simp) sampleReadable 10 (by rw [sampleRun]; rfl)
  exact h.2 rfl (by decide)

/-- **The message of the last height is skipped**: the run returns with the checkpoint after it, and nothing
    was offered. -/
theorem hyper_backfill_skips_last :
    let run := @runHyperBackfill (samplePlatform sortedScan) sampleEnv
      [(1, sampleShardDb [] [sampleCast])] 10 sampleStart
    run.2.isSome ∧ run.1.checkpoint 1 = 3 ∧ (sampleHistory [] [sampleCast]).messagesAt 2 = [sampleCast] ∧
      (run.1.hyper 1).offered = [] ∧ (run.1.hyper 1).db = (fun _ => none) ∧
      @offerAlone (samplePlatform sortedScan) sampleEnv (fun _ => none) sampleCast ≠ (fun _ => none) := by
  let _ := samplePlatform sortedScan
  rw [sampleRun]
  refine ⟨rfl, load_save_same .., rfl, rfl, rfl, fun h => ?_⟩
  have hkey :=
    congrFun h (makeMessagePrimaryKey (StateContext.hyper.rootPrefix .user) 1 UserPostfix.castMessage.toByte
    (toBeBytes 10 ++ List.replicate 20 10))
  have hstored : offerAlone sampleEnv (fun _ => none) sampleCast
      (makeMessagePrimaryKey (StateContext.hyper.rootPrefix .user)
      1 UserPostfix.castMessage.toByte (toBeBytes 10 ++ List.replicate 20 10)) =
        some (.message sampleCast) := rfl
  rw [hstored] at hkey
  cases hkey

end HyperBackfill

end Hypersnap
