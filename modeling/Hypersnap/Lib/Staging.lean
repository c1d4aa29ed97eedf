import Hypersnap.Lib.Overlay

/-!
# `Lib.Staging` — scripts of writes that may fail halfway

A writer that computes its keys as it goes is a **script**: a list of steps, each of which is a list of writes
or a failure. The writes before the first failing step are staged, the others are not. Nothing is undone, so a
script that fails leaves a batch as it was exactly if the batch held those writes already
(`writeAll_eq_self_iff`).
-/

namespace Overlay

variable {K V ε : Type}

/-- Steps that stage writes (a value, or none for a delete) or fail. -/
abbrev Script (ε K V : Type) := List (Except ε (List (K × Option V)))

namespace Script

def writes : Script ε K V → List (K × Option V)
  | [] => []
  | .ok ws :: rest => ws ++ writes rest
  | .error _ :: _ => []

def failure : Script ε K V → Option ε
  | [] => none
  | .ok _ :: rest => failure rest
  | .error e :: _ => some e

end Script

variable [DecidableEq K]

def Batch.writeAll (b : Batch K V) (ws : List (K × Option V)) : Batch K V :=
  ws.foldl (fun b w => Function.update b w.1 (some w.2)) b

theorem writeAll_append (b : Batch K V) (ws ws' : List (K × Option V)) :
    b.writeAll (ws ++ ws') = (b.writeAll ws).writeAll ws' := List.foldl_append

/-- The last write to a key. -/
def lastWrite (ws : List (K × Option V)) (k : K) : Option (Option V) := (ws.reverse.find? (·.1 = k)).map (·.2)

theorem writeAll_apply (b : Batch K V) (ws : List (K × Option V)) (k : K) :
    b.writeAll ws k = (lastWrite ws k).orElse fun _ => b k := by
  induction ws generalizing b with
  | nil => rfl
  | cons w ws ih =>
    have hlast :
        lastWrite (w :: ws) k = (lastWrite ws k).orElse fun _ => if w.1 = k then some w.2 else none := by
      unfold lastWrite
      rw [List.reverse_cons, List.find?_append]
      cases ws.reverse.find? (·.1 = k) with
      | some found => rfl
      | none => by_cases h : w.1 = k <;> simp [h]
    change (Batch.writeAll (Function.update b w.1 (some w.2)) ws) k = _
    rw [ih, hlast]
    cases lastWrite ws k with
    | some found => rfl
    | none =>
      by_cases h : w.1 = k
      · subst h
        simp
      · simp [h, Function.update_of_ne (Ne.symm h)]

/-- The batch holds the last write to each key. -/
def Batch.HoldsAll (b : Batch K V) (ws : List (K × Option V)) : Prop :=
  ∀ k w, lastWrite ws k = some w → b k = some w

theorem writeAll_eq_self_iff {b : Batch K V} {ws : List (K × Option V)} :
    b.writeAll ws = b ↔ b.HoldsAll ws := by
  constructor
  · intro h k w hlast
    rw [← h, writeAll_apply, hlast]
    rfl
  · intro h
    funext k
    rw [writeAll_apply]
    cases hlast : lastWrite ws k with
    | none => rfl
    | some w => exact (h k w hlast).symm

end Overlay
