import Mathlib.Data.Finset.Card
import Mathlib.Data.Finset.Insert
import Mathlib.Data.List.Infix
import Mathlib.Order.Antichain

/-!
# `Lib.PrefixSet` — finite sets of strings, by their prefixes

The sets a digital search tree works with: `below p S` is the part of a set of strings that a node at path
`p` is responsible for. The lemmas say how this part splits at the next character and how it changes when
one string is added or removed. A set in which no string is a proper prefix of another is a Mathlib
antichain, `IsAntichain (· <+: ·)`.
-/

namespace PrefixSet

variable {α : Type} {p k : List α} {c : α} {S : Finset (List α)}

theorem snoc_isPrefix_iff : p ++ [c] <+: k ↔ p <+: k ∧ k[p.length]? = some c := by
  constructor
  · rintro ⟨t, rfl⟩
    exact ⟨⟨c :: t, by simp⟩, by simp⟩
  · rintro ⟨⟨t, rfl⟩, hc⟩
    cases t with
    | nil => simp at hc
    | cons d t =>
      rw [List.getElem?_append_right (Nat.le_refl _)] at hc
      simp only [Nat.sub_self, List.getElem?_cons_zero, Option.some.injEq] at hc
      exact ⟨t, by simp [hc]⟩

theorem exists_snoc_isPrefix (h : p <+: k) (hlen : p.length < k.length) : ∃ c, p ++ [c] <+: k :=
  ⟨k[p.length], snoc_isPrefix_iff.mpr ⟨h, List.getElem?_eq_getElem hlen⟩⟩

theorem isPrefix_of_snoc (h : p ++ [c] <+: k) : p <+: k := (snoc_isPrefix_iff.mp h).1

theorem snoc_inj {d : α} (h : p ++ [c] <+: k) (h' : p ++ [d] <+: k) : c = d := by
  have hc := (snoc_isPrefix_iff.mp h).2
  have hd := (snoc_isPrefix_iff.mp h').2
  exact Option.some.inj (hc.symm.trans hd)

theorem length_lt_of_snoc (h : p ++ [c] <+: k) : p.length < k.length := by
  have := h.length_le
  simp only [List.length_append, List.length_singleton] at this
  omega

/-- In an antichain a string that is in the set, or may be added to it, is longer than any path that
    another string of the set continues. -/
theorem length_lt_of_antichain {x : List α} (hanti : IsAntichain (· <+: ·) (S : Set (List α))) (hk : k ∈ S)
    (hx : x ∈ S) (hne : x ≠ k) (hpk : p <+: k) (hpx : p <+: x) : p.length < k.length := by
  rcases Nat.lt_or_ge p.length k.length with h | h
  · exact h
  · have hpk' : p = k := hpk.eq_of_length (Nat.le_antisymm hpk.length_le h)
    exact absurd (hpk' ▸ hpx) (hanti hk hx (Ne.symm hne))

/-- A property of strings that every string inherits from its proper extensions holds for all of them, if it
    holds for all strings beyond some length. -/
theorem extension_induction {P : List α → Prop} {n : Nat} (hlong : ∀ p, n < p.length → P p)
    (hstep : ∀ p, (∀ q, p <+: q → q ≠ p → P q) → P p) (p : List α) : P p := by
  induction hm : n + 1 - p.length using Nat.strong_induction_on generalizing p with
  | _ m ih =>
    rcases Nat.lt_or_ge n p.length with hlt | hge
    · exact hlong p hlt
    · refine hstep p fun q hpq hne => ih (n + 1 - q.length) ?_ q rfl
      have hlen : p.length ≠ q.length := fun heq => hne (hpq.eq_of_length heq).symm
      have := hpq.length_le
      omega

variable [DecidableEq α]

def below (p : List α) (S : Finset (List α)) : Finset (List α) := S.filter (p <+: ·)

theorem mem_below : k ∈ below p S ↔ k ∈ S ∧ p <+: k := Finset.mem_filter

theorem below_subset : below p S ⊆ S := Finset.filter_subset _ _

@[simp] theorem below_empty : below p (∅ : Finset (List α)) = ∅ := rfl

theorem below_eq_self (h : ∀ k ∈ S, p <+: k) : below p S = S := Finset.filter_true_of_mem h

theorem below_singleton (h : p <+: k) : below p {k} = {k} :=
  below_eq_self fun x hx => by rw [Finset.mem_singleton.mp hx]; exact h

theorem below_singleton_eq_empty_iff : below p {k} = ∅ ↔ ¬ p <+: k := by
  simp [below, Finset.filter_singleton]

theorem below_below {q : List α} (h : p <+: q) : below q (below p S) = below q S := by
  ext k
  simp only [mem_below]
  exact ⟨fun hk => ⟨hk.1.1, hk.2⟩, fun hk => ⟨⟨hk.1, h.trans hk.2⟩, hk.2⟩⟩

theorem below_erase : below p (S.erase k) = (below p S).erase k := by
  ext x
  simp only [mem_below, Finset.mem_erase]
  tauto

theorem below_nonempty_of_mem (hk : k ∈ S) (h : p <+: k) : (below p S).Nonempty :=
  ⟨k, mem_below.mpr ⟨hk, h⟩⟩

theorem exists_below_snoc_nonempty (hne : S.Nonempty) (hS : ∀ k ∈ S, ∃ c, p ++ [c] <+: k) :
    ∃ c, (below (p ++ [c]) S).Nonempty := by
  obtain ⟨k, hk⟩ := hne
  obtain ⟨c, hc⟩ := hS k hk
  exact ⟨c, below_nonempty_of_mem hk hc⟩

end PrefixSet
