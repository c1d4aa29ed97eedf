import Mathlib.Data.List.Flatten
import Mathlib.Data.List.Range
import Mathlib.Tactic.Common

/-!
# `Lib.Windows` — a counter that advances window by window

A loop runs a counter from `lo` to `max` in windows: it takes the numbers from `lo` up to, **but not
including**, the end `min (lo + size) max` of the window, and goes on after that end. So the end of every
window, and with it `max`, is left out; `flatMap_windows` says which numbers are taken, in closed form and in
order.
-/

namespace Windows

variable {α β : Type}

/-! ## Leaving elements out -/

theorem flatMap_filter_eq_iff {l : List α} {p : α → Bool} {f : α → List β} :
    (l.filter p).flatMap f = l.flatMap f ↔ ∀ x ∈ l, p x = false → f x = [] := by
  -- what is shown is what the elements kept show, and what those left out do
  have hlen :
      (l.flatMap f).length = ((l.filter p).flatMap f).length + ((l.filter (!p ·)).flatMap f).length := by
    rw [← List.length_append, ← List.flatMap_append]
    exact ((List.filter_append_perm p l).flatMap_right f).length_eq.symm
  have hnil : (l.filter p).flatMap f = l.flatMap f ↔ (l.filter (!p ·)).flatMap f = [] := by
    rw [← List.length_eq_zero_iff]
    constructor
    · intro heq
      rw [heq] at hlen
      omega
    · intro hzero
      exact (List.filter_sublist.flatMap f).eq_of_length (by omega)
  rw [hnil, List.flatMap_eq_nil_iff]
  simp

/-! ## Windows -/

variable (size max : Nat)

def windowsFuel : Nat → Nat → List (Nat × Nat)
  | 0, _ => []
  | fuel + 1, lo =>
    if lo ≤ max then (lo, min (lo + size) max) :: windowsFuel fuel (min (lo + size) max + 1) else []

/-- Every window moves the counter on, so there are no more windows than numbers. -/
def windows (lo : Nat) : List (Nat × Nat) := windowsFuel size max (max + 1 - lo) lo

/-- The first number of the window that a number falls into. -/
def base (lo h : Nat) : Nat := lo + (h - lo) / (size + 1) * (size + 1)

/-- The number is the end of a window. -/
def IsEnd (lo h : Nat) : Prop := h = max ∨ (h - lo) % (size + 1) = size

instance (lo h : Nat) : Decidable (IsEnd size max lo h) := inferInstanceAs (Decidable (_ ∨ _))

variable {size max}

theorem base_le {lo h : Nat} (hlo : lo ≤ h) : base size lo h ≤ h := by
  have := Nat.div_mul_le_self (h - lo) (size + 1)
  unfold base
  omega

theorem first_window {lo h : Nat} (hlo : lo ≤ h) (hhi : h < min (lo + size) max) :
    ¬ IsEnd size max lo h ∧ base size lo h = lo := by
  have hmod : (h - lo) % (size + 1) = h - lo := Nat.mod_eq_of_lt (by omega)
  have hdiv : (h - lo) / (size + 1) = 0 := Nat.div_eq_of_lt (by omega)
  refine ⟨?_, by simp [base, hdiv]⟩
  rw [IsEnd, hmod]
  omega

theorem isEnd_end (lo : Nat) : IsEnd size max lo (min (lo + size) max) := by
  rcases Nat.le_total (lo + size) max with h | h
  · rw [Nat.min_eq_left h]
    refine .inr ?_
    rw [Nat.add_sub_cancel_left, Nat.mod_eq_of_lt (Nat.lt_succ_self size)]
  · rw [Nat.min_eq_right h]
    exact .inl rfl

theorem next_window {lo h : Nat} (hlo : lo + size + 1 ≤ h) :
    (IsEnd size max lo h ↔ IsEnd size max (lo + size + 1) h) ∧
    base size lo h = base size (lo + size + 1) h := by
  have hsub : h - lo = h - (lo + size + 1) + (size + 1) := by omega
  refine ⟨by rw [IsEnd, IsEnd, hsub, Nat.add_mod_right], ?_⟩
  rw [base, base, hsub, Nat.add_div_right _ (Nat.succ_pos size), Nat.succ_mul]
  simp only [Nat.succ_eq_add_one]
  omega

/-- **What the windows take**: with a test on the window, the numbers of the windows that pass it, without the
    ends. -/
theorem flatMap_windowsFuel (p : Nat → Bool) {fuel lo : Nat} (hfuel : max + 1 - lo ≤ fuel) :
    ((windowsFuel size max fuel lo).filter fun w => p w.1).flatMap (fun w => List.range' w.1 (w.2 - w.1)) =
      (List.range' lo (max + 1 - lo)).filter fun h =>
        decide (¬ IsEnd size max lo h) && p (base size lo h) := by
  induction fuel generalizing lo with
  | zero =>
    have hzero : max + 1 - lo = 0 := by omega
    simp [windowsFuel, hzero]
  | succ fuel ih =>
    by_cases hlo : lo ≤ max
    · -- the numbers of the first window, its end, and the rest
      obtain ⟨hi, hhi⟩ : ∃ hi, hi = min (lo + size) max := ⟨_, rfl⟩
      have hsplit : List.range' lo (max + 1 - lo) =
          List.range' lo (hi - lo) ++ hi :: List.range' (hi + 1) (max + 1 - (hi + 1)) := by
        have hlen : max + 1 - lo = hi - lo + (max + 1 - hi) := by omega
        have hrest : max + 1 - hi = max + 1 - (hi + 1) + 1 := by omega
        rw [hlen, ← List.range'_append_1, hrest, List.range'_succ, show lo + (hi - lo) = hi by omega]
      have hfirst :
          ∀ h ∈ List.range' lo (hi - lo), (decide (¬ IsEnd size max lo h) && p (base size lo h)) = p lo := by
        intro h hmem
        rw [List.mem_range'_1] at hmem
        obtain ⟨hend, hbase⟩ := @first_window size max lo h hmem.1 (by omega)
        simp [hend, hbase]
      have hend : (decide (¬ IsEnd size max lo hi) && p (base size lo hi)) = false := by
        rw [hhi]
        simp [isEnd_end]
      have hthen : ∀ h ∈ List.range' (hi + 1) (max + 1 - (hi + 1)),
          (decide (¬ IsEnd size max lo h) && p (base size lo h)) =
            (decide (¬ IsEnd size max (hi + 1) h) && p (base size (hi + 1) h)) := by
        intro h hmem
        rw [List.mem_range'_1] at hmem
        -- there is something left only after a full window
        have hfull : hi = lo + size := by omega
        subst hfull
        obtain ⟨hiff, hbase⟩ := @next_window size max lo h hmem.1
        simp only [hiff, hbase]
      rw [hsplit, List.filter_append, List.filter_congr hfirst, List.filter_cons, hend,
        if_neg Bool.false_ne_true, List.filter_congr hthen, ← ih (by omega), windowsFuel, if_pos hlo, ← hhi]
      cases hp : p lo with
      | true => simp [hp]
      | false => simp [hp]
    · have hzero : max + 1 - lo = 0 := by omega
      simp [windowsFuel, hlo, hzero]

theorem flatMap_windows (p : Nat → Bool) (lo : Nat) :
    ((windows size max lo).filter fun w => p w.1).flatMap (fun w => List.range' w.1 (w.2 - w.1)) =
      (List.range' lo (max + 1 - lo)).filter fun h => decide (¬ IsEnd size max lo h) && p (base size lo h) :=
  flatMap_windowsFuel p (Nat.le_refl _)

end Windows
