import Mathlib.Data.Set.Insert

/-!
# `Lib.Champions` — the best element of each class, kept up to date

Elements arrive one by one; each belongs to a class (`key`) and has a `rank`. A keeper holds one element per
class and replaces it when a better one arrives. `Champions L H` says that `H` is what a keeper holds after it
has seen `L`. It is established by the two moves of a keeper (`Champions.reject`, `Champions.accept`), and it
determines `H` from `L` alone (`Champions.mem_iff`): in which order the elements came does not matter.
-/

namespace Lib

variable {M K α : Type} [Ord α] [Std.TransOrd α] (key : M → K) (rank : M → α)

/-- `m` is in `L` and no element of its class is above it. -/
def IsBest (L : Set M) (m : M) : Prop := m ∈ L ∧ ∀ x ∈ L, key x = key m → compare (rank x) (rank m) ≠ .gt

/-- `H` holds, of every class that occurs in `L`, one element of `L` that no other is above. -/
structure Champions (L H : Set M) : Prop where
  sub : H ⊆ L
  unique : ∀ a ∈ H, ∀ b ∈ H, key a = key b → a = b
  dominated : ∀ m ∈ L, ∃ w ∈ H, key w = key m ∧ compare (rank m) (rank w) ≠ .gt

namespace Champions

variable {key rank} {L H H' : Set M} {x : M}

omit [Std.TransOrd α] in
theorem empty : Champions key rank ∅ ∅ := ⟨fun _ h => h, fun _ h => h.elim, fun _ h => h.elim⟩

theorem compare_trans {a b c : α} (hab : compare a b ≠ .gt) (hbc : compare b c ≠ .gt) :
    compare a c ≠ .gt := by
  exact Ordering.isLE_iff_ne_gt.1
    (Std.TransCmp.isLE_trans (Ordering.isLE_iff_ne_gt.2 hab) (Ordering.isLE_iff_ne_gt.2 hbc))

omit [Std.TransOrd α] in
theorem reject (h : Champions key rank L H) {w : M} (hw : w ∈ H) (hkey : key w = key x)
    (hle : compare (rank x) (rank w) ≠ .gt) : Champions key rank (insert x L) H where
  sub := h.sub.trans (Set.subset_insert _ _)
  unique := h.unique
  dominated := by
    rintro m (rfl | hm)
    · exact ⟨w, hw, hkey, hle⟩
    · exact h.dominated m hm

theorem accept (h : Champions key rank L H)
    (hbest : ∀ w ∈ H, key w = key x → compare (rank w) (rank x) ≠ .gt) :
    Champions key rank (insert x L) (insert x {w ∈ H | key w ≠ key x}) where
  sub := Set.insert_subset_insert fun _ hw => h.sub hw.1
  unique := by
    rintro a (rfl | ha) b (rfl | hb) hab
    · rfl
    · exact absurd hab.symm hb.2
    · exact absurd hab ha.2
    · exact h.unique a ha.1 b hb.1 hab
  dominated := by
    rintro m (rfl | hm)
    · exact ⟨m, Set.mem_insert _ _, rfl, by simp [Std.ReflCmp.compare_self]⟩
    · obtain ⟨w, hw, hkey, hle⟩ := h.dominated m hm
      by_cases hx : key w = key x
      · exact ⟨x, Set.mem_insert _ _, hx.symm.trans hkey, compare_trans hle (hbest w hw hx)⟩
      · exact ⟨w, Set.mem_insert_of_mem _ ⟨hw, hx⟩, hkey, hle⟩

/-- **What is held is what is best**, when elements of one class with equal rank are equal. -/
theorem mem_iff (h : Champions key rank L H)
    (hinj : ∀ a ∈ L, ∀ b ∈ L, key a = key b → compare (rank a) (rank b) = .eq → a = b) {m : M} :
    m ∈ H ↔ IsBest key rank L m := by
  constructor
  · intro hm
    refine ⟨h.sub hm, fun y hy hkey => ?_⟩
    obtain ⟨w, hw, hwkey, hle⟩ := h.dominated y hy
    rwa [h.unique w hw m hm (hwkey.trans hkey)] at hle
  · rintro ⟨hm, hbest⟩
    obtain ⟨w, hw, hkey, hle⟩ := h.dominated m hm
    have hge := hbest w (h.sub hw) hkey
    -- neither is above the other
    have heq : compare (rank m) (rank w) = .eq := by
      cases hc : compare (rank m) (rank w) with
      | eq => rfl
      | gt => exact absurd hc hle
      | lt => exact absurd (Std.OrientedCmp.gt_iff_lt.2 hc) hge
    rwa [hinj m hm w (h.sub hw) hkey.symm heq]

end Champions

end Lib
