import Mathlib.Logic.Function.Basic

/-!
# `Lib.Overlay` — a key-value map under a pending write batch

A key-value store is a partial function from keys to values. Writers do not touch it: they stage puts and
deletes in a **batch**, and a commit applies the whole batch at once. Between the two, a reader that looks
through the batch sees the *overlay*, i.e. the store as it will be after the commit.

Everything is a plain function, so two stores (or two batches) with the same lookups are equal, and every
operation is executable. The module is generic in the key and value types.
-/

namespace Overlay

/-- A key-value store, given by its lookup function. -/
abbrev KVMap (K V : Type) := K → Option V

/-- A write batch: for each key nothing (`none`), a staged delete (`some none`) or a staged put. -/
abbrev Batch (K V : Type) := K → Option (Option V)

variable {K V : Type}

namespace Batch

def empty : Batch K V := fun _ => none

def merge (b other : Batch K V) : Batch K V := fun k => (other k).orElse fun _ => b k

variable [DecidableEq K]

def put (b : Batch K V) (k : K) (v : V) : Batch K V := Function.update b k (some (some v))

def delete (b : Batch K V) (k : K) : Batch K V := Function.update b k (some none)

end Batch

/-- Apply a batch to a store. Read as a lookup it is also the **overlay**: the staged write when there is
    one, the stored value otherwise. -/
def commit (m : KVMap K V) (b : Batch K V) : KVMap K V := fun k => (b k).getD (m k)

section lemmas
variable (m : KVMap K V) (b b' : Batch K V) (k k' : K) {w : Option V}

@[simp] theorem commit_empty : commit m Batch.empty = m := rfl

theorem merge_of_none (h : b' k = none) : b.merge b' k = b k := by simp [Batch.merge, h]

theorem merge_of_some (h : b' k = some w) : b.merge b' k = some w := by
  simp [Batch.merge, h]

theorem commit_merge : commit m (b.merge b') = commit (commit m b) b' := by
  funext k
  cases h : b' k <;> simp [commit, Batch.merge, h]

theorem commit_of_none (h : b k = none) : commit m b k = m k := by simp [commit, h]

theorem commit_of_some (h : b k = some w) : commit m b k = w := by simp [commit, h]

variable [DecidableEq K] (v : V)

@[simp] theorem put_self : b.put k v k = some (some v) := by simp [Batch.put]

@[simp] theorem put_of_ne (h : k' ≠ k) : b.put k v k' = b k' := by simp [Batch.put, h]

@[simp] theorem delete_self : b.delete k k = some none := by simp [Batch.delete]

@[simp] theorem delete_of_ne (h : k' ≠ k) : b.delete k k' = b k' := by simp [Batch.delete, h]

@[simp] theorem commit_put : commit m (b.put k v) = Function.update (commit m b) k (some v) := by
  funext k'
  by_cases h : k' = k
  · subst h; simp [commit]
  · simp [commit, h]

@[simp] theorem commit_delete : commit m (b.delete k) = Function.update (commit m b) k none := by
  funext k'
  by_cases h : k' = k
  · subst h; simp [commit]
  · simp [commit, h]

end lemmas

/-! ## Several writes -/

section many
variable [DecidableEq K] {m : KVMap K V} {k : K} {es : List (K × V)} {ks : List K}

def putAll (m : KVMap K V) (es : List (K × V)) : KVMap K V :=
  es.foldl (fun m e => Function.update m e.1 (some e.2)) m

def eraseAll (m : KVMap K V) (ks : List K) : KVMap K V := fun k => if k ∈ ks then none else m k

theorem putAll_of_not_mem (h : k ∉ es.map Prod.fst) : putAll m es k = m k := by
  induction es generalizing m with
  | nil => rfl
  | cons e es ih =>
    simp only [List.map_cons, List.mem_cons, not_or] at h
    simp only [putAll, List.foldl_cons]
    exact (ih h.2).trans (Function.update_of_ne h.1 _ _)

theorem putAll_of_mem {v : V} (h : (k, v) ∈ es) (huniq : ∀ w, (k, w) ∈ es → w = v) :
    putAll m es k = some v := by
  induction es generalizing m with
  | nil => cases h
  | cons e es ih =>
    simp only [putAll, List.foldl_cons]
    by_cases hk : k ∈ es.map Prod.fst
    · obtain ⟨⟨_, w⟩, hw, rfl⟩ := List.mem_map.1 hk
      have hwv := huniq w (List.mem_cons_of_mem _ hw)
      exact ih (hwv ▸ hw) fun w' hw' => huniq w' (List.mem_cons_of_mem _ hw')
    · have he : e = (k, v) := by
        rcases List.mem_cons.1 h with rfl | h
        · rfl
        · exact absurd (List.mem_map_of_mem h) hk
      subst he
      exact (putAll_of_not_mem hk).trans (by simp)

theorem eraseAll_of_mem (h : k ∈ ks) : eraseAll m ks k = none := by simp [eraseAll, h]

theorem eraseAll_of_not_mem (h : k ∉ ks) : eraseAll m ks k = m k := by simp [eraseAll, h]

theorem eraseAll_eq_some {v : V} : eraseAll m ks k = some v ↔ k ∉ ks ∧ m k = some v := by
  by_cases h : k ∈ ks <;> simp [eraseAll, h]

@[simp] theorem eraseAll_nil : eraseAll m [] = m := by funext k; simp [eraseAll]

theorem eraseAll_eraseAll {ks' : List K} : eraseAll (eraseAll m ks) ks' = eraseAll m (ks ++ ks') := by
  funext k
  by_cases h : k ∈ ks <;> by_cases h' : k ∈ ks' <;> simp [eraseAll, h, h']

theorem commit_foldl_delete (b : Batch K V) (ks : List K) :
    commit m (ks.foldl Batch.delete b) = eraseAll (commit m b) ks := by
  induction ks generalizing b with
  | nil => simp
  | cons k ks ih =>
    rw [List.foldl_cons, ih, commit_delete]
    funext k'
    by_cases h : k' = k <;> simp [eraseAll, h]

end many

end Overlay
