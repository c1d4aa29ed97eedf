import Mathlib.Logic.Function.Basic

/-!
# `Store.Migrations` — starting the pending migrations

`MigrationRunner::run_pending_migrations`, called at every start of a node, marks the schema version it starts
from as running, **in the database**, and leaves the migrations to a background task that takes the mark back
in the end. A process that stops before that leaves the mark behind, and every later start takes it for a
migration that is running.
-/

namespace Hypersnap

/-- A migration, by the schema version it leads to. -/
structure AsyncMigration where
  toDbVersion : UInt32
  description : String

def latestSchemaVersion : UInt32 := 1

def m1FixFnameSecondaryIndex : AsyncMigration where
  toDbVersion := 1
  description :=
    "Fixes the secondary index for Farcaster name (fname) proofs by ensuring all proofs have a " ++
    "corresponding by-FID index entry."

def allMigrations : List AsyncMigration := [m1FixFnameSecondaryIndex]

/-- The background task: the version it started from, and the migrations that are left. -/
structure MigrationTask where
  startMigrationsAt : UInt32
  migrationsToRun : List AsyncMigration
  isSuffix : migrationsToRun <:+ allMigrations

/-- What a node has stored, its schema version and the marks (under the last byte of a version), and what its
    process is at: the version of a call that has set its mark and not yet started its task, and the task. -/
structure MigrationNode where
  schemaVersion : UInt32 := 0
  running : UInt8 → Bool := fun _ => false
  starting : Option UInt32 := none
  task : Option MigrationTask := none

namespace MigrationNode

def setMigrationRunning (self : MigrationNode) (version : UInt32) (running : Bool) : MigrationNode :=
  { self with running := Function.update self.running version.toUInt8 running }

/-- The first write of a call: the mark. -/
def markPending (self : MigrationNode) : MigrationNode :=
  { self.setMigrationRunning self.schemaVersion true with starting := some self.schemaVersion }

/-- Then the task is started, with the first pending migration and those after it. -/
def spawnTask (self : MigrationNode) (startMigrationsAt : UInt32) : MigrationNode :=
  { self with
    starting := none
    task := some ⟨startMigrationsAt, allMigrations.drop startMigrationsAt.toNat, List.drop_suffix _ _⟩ }

def startPending (self : MigrationNode) : MigrationNode := self.markPending.spawnTask self.schemaVersion

/-- The node with the task that was started, or `none` if nothing was. -/
def runPendingMigrations (self : MigrationNode) : Except String (Option MigrationNode) :=
  if latestSchemaVersion ≤ self.schemaVersion then .ok none
  else
    match allMigrations.zipIdx.find? fun (migration, i) => migration.toDbVersion.toNat ≠ i + 1 with
    | some (migration, i) =>
      .error ("Migration version mismatch for '" ++ migration.description ++ "': expected " ++
        toString (i + 1) ++ ", found " ++ toString migration.toDbVersion)
    | none =>
      if allMigrations.length ≤ self.schemaVersion.toNat then .error "Migration list and DB Schema mismatch!"
      else if self.running self.schemaVersion.toUInt8 then .ok none
      else .ok (some self.startPending)

/-- **The runs of a node** on a new database, from start to start, and whether a process has stopped after it
    had set a mark and before it took it back. A task ends if a migration fails or none is left; one that
    cannot write to the database stops. -/
inductive Reaches : Bool → MigrationNode → Prop
  | new : Reaches false {}
  | marked {i n started} (h : Reaches i n) (hcall : n.runPendingMigrations = .ok (some started)) :
      Reaches i n.markPending
  | spawned {i n start} (h : Reaches i n) (hstart : n.starting = some start) : Reaches i (n.spawnTask start)
  | migrated {i n start migration rest hsuffix} (h : Reaches i n)
      (htask : n.task = some ⟨start, migration :: rest, hsuffix⟩) :
      Reaches i { n with
        schemaVersion := migration.toDbVersion, task :=
          some ⟨start, rest, (List.suffix_cons _ _).trans hsuffix⟩ }
  | ended {i n task} (h : Reaches i n) (htask : n.task = some task) :
      Reaches i { n.setMigrationRunning task.startMigrationsAt false with task := none }
  | stopped {i n} (h : Reaches i n) :
      Reaches (i || n.starting.isSome || n.task.isSome) { n with starting := none, task := none }

variable {n : MigrationNode} {interrupted : Bool}

theorem runPendingMigrations_of_zero (h : n.schemaVersion = 0) :
    n.runPendingMigrations = .ok (if n.running 0 then none else some n.startPending) := by
  unfold runPendingMigrations
  rw [h, if_neg (by decide), show (allMigrations.zipIdx.find? fun (m, i) => m.toDbVersion.toNat ≠ i + 1) =
    none from rfl]
  change (if n.running 0 then _ else _) = _
  cases n.running 0 <;> rfl

/-- A call or its task is under way, from version 0 on. -/
def Busy (n : MigrationNode) : Prop :=
  n.starting = some 0 ∧ n.task = none ∨ n.starting = none ∧ ∃ task,
    n.task = some task ∧ task.startMigrationsAt = 0

/-- **The mark tells of a task or of an interruption**, as long as the migration is pending. -/
theorem Reaches.mark_eq (h : Reaches interrupted n) (hversion : n.schemaVersion = 0) :
    n.Busy ∧ n.running 0 = true ∧ interrupted = false ∨
      n.starting = none ∧ n.task = none ∧ n.running 0 = interrupted := by
  induction h with
  | new => exact .inr ⟨rfl, rfl, rfl⟩
  | @marked _ n started _ hcall ih =>
    have hzero : n.schemaVersion = 0 := hversion
    rw [runPendingMigrations_of_zero hzero] at hcall
    cases hmark : n.running 0 with
    | true => simp [hmark] at hcall
    | false =>
      rcases ih hzero with ⟨-, htrue, -⟩ | ⟨-, htask, hi⟩
      · simp [hmark] at htrue
      · refine .inl ⟨.inl ⟨congrArg some hzero, htask⟩, ?_, hi ▸ hmark⟩
        simp [markPending, setMigrationRunning, hzero]
  | spawned _ hstart ih =>
    rcases ih hversion with ⟨⟨hsome, -⟩ | ⟨hnone, -⟩, hmark, hi⟩ | ⟨hnone, -⟩ <;> cases hstart.symm.trans ‹_›
    exact .inl ⟨.inr ⟨rfl, _, rfl, rfl⟩, hmark, hi⟩
  | @migrated _ _ _ migration _ hsuffix =>
    -- every migration leads to version 1
    obtain rfl : migration = m1FixFnameSecondaryIndex := List.mem_singleton.1 (hsuffix.subset (.head _))
    cases hversion
  | ended _ htask ih =>
    rcases ih hversion with ⟨⟨-, hnone⟩ | ⟨hstarting, _, hsome, hstart⟩, -, hi⟩ | ⟨-, hnone, -⟩ <;>
      cases htask.symm.trans ‹_›
    exact .inr ⟨hstarting, rfl, by simp [setMigrationRunning, hstart, hi]⟩
  | stopped _ ih =>
    rcases ih hversion with ⟨⟨hsome, -⟩ | ⟨-, _, hsome, -⟩, hmark, -⟩ | ⟨hstarting, htask, hmark⟩
    · exact .inr ⟨rfl, rfl, by simpa [hsome] using hmark⟩
    · exact .inr ⟨rfl, rfl, by simpa [hsome] using hmark⟩
    · exact .inr ⟨rfl, rfl, by simpa [hstarting, htask] using hmark⟩

/-- **When a pending migration is started.** After any run, a call that finds a migration pending and no call
    or task of its own process starts the first one, unless a process has stopped after it had set the mark
    and before its task took it back: then it returns and starts nothing. -/
theorem pendingMigrations_started_iff (h : Reaches interrupted n)
    (hpending : n.schemaVersion < latestSchemaVersion) (hstarting : n.starting = none)
    (htask : n.task = none) :
    n.runPendingMigrations = .ok (if interrupted then none else some n.startPending) := by
  have hzero : n.schemaVersion = 0 :=
    UInt32.toNat_inj.1 (Nat.lt_one_iff.1 (UInt32.lt_iff_toNat_lt.1 hpending))
  rcases h.mark_eq hzero with ⟨⟨hsome, -⟩ | ⟨-, _, hsome, -⟩, -⟩ | ⟨-, -, hmark⟩
  · cases hstarting.symm.trans hsome
  · cases htask.symm.trans hsome
  · rw [runPendingMigrations_of_zero hzero, hmark]

/-- A migration that failed is started again by the next process. -/
theorem pendingMigrations_started_after_failure : ∃ n, Reaches false n ∧
    n.runPendingMigrations = .ok (some n.startPending) :=
  have h := ((Reaches.new.marked (runPendingMigrations_of_zero rfl)).spawned rfl).ended rfl
  ⟨_, h, pendingMigrations_started_iff h (by decide) rfl rfl⟩

/-- **One that was interrupted is not**, although it is pending and no task runs. -/
theorem pendingMigrations_not_resumed : ∃ n, Reaches true n ∧ n.schemaVersion < latestSchemaVersion ∧
    n.starting = none ∧ n.task = none ∧ n.runPendingMigrations = .ok none :=
  ⟨_, ((Reaches.new.marked (runPendingMigrations_of_zero rfl)).spawned rfl).stopped, by decide, rfl, rfl, rfl⟩

end MigrationNode

end Hypersnap
