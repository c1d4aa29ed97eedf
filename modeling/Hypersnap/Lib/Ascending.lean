import Mathlib.Data.List.TakeWhile

/-!
# `Lib.Ascending` — lists in order

In a list that ascends, the elements of a lower set stand in front, and a key that tells any two elements
apart finds each of them.
-/

namespace Ascending

variable {α κ : Type} {l : List α} {a : α}

theorem mem_takeWhile_iff {p : α → Bool} {R : α → α → Prop} (h : l.Pairwise R)
    (hp : ∀ a b, R a b → p b = true → p a = true) : a ∈ l.takeWhile p ↔ a ∈ l ∧ p a = true := by
  refine ⟨fun ha => ⟨(List.takeWhile_sublist p).subset ha, List.mem_takeWhile_imp ha⟩, ?_⟩
  rintro ⟨ha, hpa⟩
  induction l with
  | nil => cases ha
  | cons c l ih =>
    obtain ⟨hc, hl⟩ := List.pairwise_cons.1 h
    have hpc : p c = true := by
      rcases List.mem_cons.1 ha with rfl | ha
      · exact hpa
      · exact hp c a (hc a ha) hpa
    rw [List.takeWhile_cons_of_pos hpc]
    rcases List.mem_cons.1 ha with rfl | ha
    · exact List.mem_cons_self
    · exact List.mem_cons_of_mem _ (ih hl ha)

theorem find?_key_eq_some [DecidableEq κ] {key : α → κ} (h : l.Pairwise fun a b => key a ≠ key b) {k : κ} :
    l.find? (key · = k) = some a ↔ a ∈ l ∧ key a = k := by
  induction l with
  | nil => simp
  | cons c l ih =>
    obtain ⟨hc, hl⟩ := List.pairwise_cons.1 h
    by_cases hk : key c = k
    · rw [List.find?_cons_of_pos (by simpa using hk), Option.some.injEq, List.mem_cons]
      refine ⟨fun h => ⟨.inl h.symm, h ▸ hk⟩, ?_⟩
      rintro ⟨rfl | ha, ha'⟩
      · rfl
      · exact absurd (hk.trans ha'.symm) (hc a ha)
    · rw [List.find?_cons_of_neg (by simpa using hk), ih hl, List.mem_cons]
      refine ⟨fun h => ⟨.inr h.1, h.2⟩, ?_⟩
      rintro ⟨rfl | ha, ha'⟩
      · exact absurd ha' hk
      · exact ⟨ha, ha'⟩

end Ascending
