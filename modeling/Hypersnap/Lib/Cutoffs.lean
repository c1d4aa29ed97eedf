import Mathlib.Data.List.Induction
import Mathlib.Data.List.Perm.Basic
import Mathlib.Order.Basic
import Hypersnap.Lib.Champions

/-!
# `Lib.Cutoffs` — champions under cutoffs

Elements and cutoffs arrive one by one. A keeper holds the best element of each class, as in `Lib.Champions`.
A cutoff takes effect if it is later than the one in force: it discards the held elements it does not `keep`,
and from then on turns away arriving elements it does not `accept`. What is left at the end depends on the
order, even if the two tests agree: a discarded element has already displaced the others of its class.
`run_perm_iff` states exactly when it does not.
-/

namespace Lib

inductive Arrival (M C : Type) where
  | element (m : M)
  | cutoff (c : C)
  | other

/-- What a keeper holds, and the cutoff in force. -/
@[ext] structure Keeper (M C : Type) where
  held : Set M
  cutoff : Option C

/-- The classes and ranks of elements, the times of cutoffs, and their two tests. -/
structure CutoffRules (M K α C T : Type) where
  key : M → K
  rank : M → α
  time : C → T
  accepts : C → M → Prop
  keeps : C → M → Prop
  accepts_of_keeps : ∀ {c m}, keeps c m → accepts c m

theorem exists_perm_map {α β : Type} {f : α → β} {l : List α} {l' : List β} (h : l'.Perm (l.map f)) :
    ∃ l₀ : List α, l₀.Perm l ∧ l₀.map f = l' := by
  have himage : List.Forall₂ (fun b a => b = f a) (l.map f) l := by simp
  obtain ⟨l₀, heq, hperm⟩ := List.perm_comp_forall₂ h himage
  refine ⟨l₀, hperm, ?_⟩
  rw [← List.forall₂_map_right_iff, List.forall₂_eq_eq_eq] at heq
  exact heq.symm

namespace Keeper

variable {M K α C T : Type} [Ord α] [LinearOrder T] (R : CutoffRules M K α C T)

open Classical in
noncomputable def step (s : Keeper M C) : Arrival M C → Keeper M C
  | .element m =>
    if (∀ c, s.cutoff = some c → R.accepts c m) ∧
        ∀ w ∈ s.held, R.key w = R.key m → compare (R.rank w) (R.rank m) = .lt then
      { s with held := insert m {w ∈ s.held | R.key w ≠ R.key m} }
    else s
  | .cutoff c =>
    if ∀ c₀, s.cutoff = some c₀ → R.time c₀ < R.time c then ⟨{w ∈ s.held | R.keeps c w}, some c⟩ else s
  | .other => s

noncomputable def runFrom (s : Keeper M C) (l : List (Arrival M C)) : Keeper M C := l.foldl (step R) s

noncomputable def run (l : List (Arrival M C)) : Keeper M C := runFrom R ⟨∅, none⟩ l

def elements (l : List (Arrival M C)) : Set M := {m | .element m ∈ l}

def cutoffs (l : List (Arrival M C)) : Set C := {c | .cutoff c ∈ l}

def IsLatest (l : List (Arrival M C)) (c : C) : Prop := c ∈ cutoffs l ∧ ∀ c' ∈ cutoffs l, R.time c' ≤ R.time c

/-- One cutoff is the latest; and if it accepts any element of a class, then all cutoffs keep the best of the
    class. -/
structure Settled (l : List (Arrival M C)) : Prop where
  latest_unique : ∀ c c', IsLatest R l c → IsLatest R l c' → c = c'
  keeps_best : ∀ c, IsLatest R l c → ∀ m, IsBest R.key R.rank (elements l) m →
    (∃ m' ∈ elements l, R.key m' = R.key m ∧ R.accepts c m') → ∀ c' ∈ cutoffs l, R.keeps c' m

variable {R} {s : Keeper M C} {l l' : List (Arrival M C)} {a : Arrival M C} {m : M} {c : C}

@[simp] theorem runFrom_cons : runFrom R s (a :: l) = runFrom R (step R s a) l := rfl

@[simp] theorem runFrom_append : runFrom R s (l ++ l') = runFrom R (runFrom R s l) l' := List.foldl_append

theorem elements_perm (h : l'.Perm l) : elements l' = elements l := Set.ext fun _ => h.mem_iff

theorem cutoffs_perm (h : l'.Perm l) : cutoffs l' = cutoffs l := Set.ext fun _ => h.mem_iff

/-! ## Single steps -/

theorem step_element_of_accept (hacc : ∀ c, s.cutoff = some c → R.accepts c m)
    (hlt : ∀ w ∈ s.held, R.key w = R.key m → compare (R.rank w) (R.rank m) = .lt) :
    step R s (.element m) = { s with held := insert m {w ∈ s.held | R.key w ≠ R.key m} } := if_pos ⟨hacc, hlt⟩

theorem step_element_cases (s : Keeper M C) (m : M) : step R s (.element m) = s ∨
      (∀ c, s.cutoff = some c → R.accepts c m) ∧
        (∀ w ∈ s.held, R.key w = R.key m → compare (R.rank w) (R.rank m) = .lt) ∧
        step R s (.element m) = { s with held := insert m {w ∈ s.held | R.key w ≠ R.key m} } := by
  by_cases h : (∀ c, s.cutoff = some c → R.accepts c m) ∧
      ∀ w ∈ s.held, R.key w = R.key m → compare (R.rank w) (R.rank m) = .lt
  · exact .inr ⟨h.1, h.2, if_pos h⟩
  · exact .inl (if_neg h)

theorem step_cutoff_cases (s : Keeper M C) (c : C) :
    (∃ c₀, s.cutoff = some c₀ ∧ R.time c ≤ R.time c₀) ∧ step R s (.cutoff c) = s ∨
      (∀ c₀, s.cutoff = some c₀ → R.time c₀ < R.time c) ∧
        step R s (.cutoff c) = ⟨{w ∈ s.held | R.keeps c w}, some c⟩ := by
  by_cases h : ∀ c₀, s.cutoff = some c₀ → R.time c₀ < R.time c
  · exact .inr ⟨h, if_pos h⟩
  · obtain ⟨c₀, h₀⟩ := not_forall.1 h
    obtain ⟨hc₀, hle⟩ := Classical.not_imp.1 h₀
    exact .inl ⟨⟨c₀, hc₀, not_lt.1 hle⟩, if_neg h⟩

theorem step_cutoff_of_le {c₀ : C} (hc : s.cutoff = some c₀) (hle : R.time c ≤ R.time c₀) :
    step R s (.cutoff c) = s := if_neg fun h => not_lt.2 hle (h c₀ hc)

/-! ## What every run keeps -/

/-- The state after the arrivals `l`. -/
structure Kept (R : CutoffRules M K α C T) (l : List (Arrival M C)) (s : Keeper M C) : Prop where
  sub : s.held ⊆ elements l
  unique : ∀ a ∈ s.held, ∀ b ∈ s.held, R.key a = R.key b → a = b
  latest : ∀ c, s.cutoff = some c → IsLatest R l c
  none_of : s.cutoff = none → cutoffs l = ∅
  accepted : ∀ c, s.cutoff = some c → ∀ m ∈ s.held, R.accepts c m

theorem run_snoc : run R (l ++ [a]) = step R (run R l) a := runFrom_append

omit [Ord α] in
theorem Kept.same (h : Kept R l s) (hsub : l ⊆ l') (hcutoffs : cutoffs l' = cutoffs l) : Kept R l' s where
  sub := fun _ hm => hsub (h.sub hm)
  unique := h.unique
  latest := by simpa only [IsLatest, hcutoffs] using h.latest
  none_of := hcutoffs ▸ h.none_of
  accepted := h.accepted

theorem Kept.step (h : Kept R l s) (a : Arrival M C) : Kept R (l ++ [a]) (step R s a) := by
  have hsub : l ⊆ l ++ [a] := List.subset_append_left l [a]
  have same : (∀ c, a ≠ .cutoff c) → Kept R (l ++ [a]) s := fun hne =>
    h.same hsub (Set.ext fun c => by simp [cutoffs, (hne c).symm])
  cases a with
  | other => exact same fun c => by simp
  | element m =>
    rcases step_element_cases (R := R) s m with heq | ⟨hacc, hlt, heq⟩
    · rw [heq]
      exact same fun c => by simp
    · rw [heq]
      have hkept := same fun c => by simp
      refine ⟨?_, ?_, hkept.latest, hkept.none_of, ?_⟩
      · rintro w (rfl | hw)
        · exact List.mem_append_right _ List.mem_cons_self
        · exact hkept.sub hw.1
      · rintro x (rfl | hx) y (rfl | hy) hxy
        · rfl
        · exact absurd hxy.symm hy.2
        · exact absurd hxy hx.2
        · exact h.unique x hx.1 y hy.1 hxy
      · rintro c hc w (rfl | hw)
        · exact hacc c hc
        · exact h.accepted c hc w hw.1
  | cutoff c =>
    have hmem : ∀ {c'}, c' ∈ cutoffs (l ++ [.cutoff c]) ↔ c' ∈ cutoffs l ∨ c' = c := by
      intro c'
      simp [cutoffs]
    rcases step_cutoff_cases (R := R) s c with ⟨⟨c₀, hc₀, hle⟩, heq⟩ | ⟨hlt, heq⟩
    · rw [heq]
      refine ⟨fun w hw => hsub (h.sub hw), h.unique, fun c' hc' => ?_, fun hc' => ?_, h.accepted⟩
      · cases hc₀.symm.trans hc'
        refine ⟨hmem.2 (.inl (h.latest c₀ hc₀).1), fun c' hc' => ?_⟩
        rcases hmem.1 hc' with hc' | rfl
        · exact (h.latest c₀ hc₀).2 c' hc'
        · exact hle
      · cases hc₀.symm.trans hc'
    · rw [heq]
      refine ⟨fun w hw => hsub (h.sub hw.1), fun x hx y hy => h.unique x hx.1 y hy.1, fun c' hc' => ?_,
        fun hc' => (nomatch hc'), fun c' hc' w hw => ?_⟩
      · cases hc'
        refine ⟨hmem.2 (.inr rfl), fun c' hc' => ?_⟩
        rcases hmem.1 hc' with hc' | rfl
        · -- the cutoff before was the latest of the others
          cases hs : s.cutoff with
          | none =>
            rw [h.none_of hs] at hc'
            exact hc'.elim
          | some c₀ => exact ((h.latest c₀ hs).2 c' hc').trans (hlt c₀ hs).le
        · exact le_refl _
      · cases hc'
        exact R.accepts_of_keeps hw.2

omit [Ord α] in
theorem Kept.perm (h : Kept R l' s) (hperm : l'.Perm l) : Kept R l s :=
  h.same hperm.subset (cutoffs_perm hperm.symm)

theorem run_kept (R : CutoffRules M K α C T) (l : List (Arrival M C)) : Kept R l (run R l) := by
  induction l using List.reverseRec with
  | nil =>
    have hstart : run R [] = ⟨∅, none⟩ := rfl
    rw [hstart]
    exact {
      sub := fun _ h => h.elim
      unique := fun _ h => h.elim
      latest := fun _ h => nomatch h
      none_of := fun _ => by simp [cutoffs]
      accepted := fun _ h => nomatch h }
  | append_singleton l a ih =>
    rw [run_snoc]
    exact ih.step a

section orders
variable [Std.TransOrd α]

omit [LinearOrder T] in
theorem exists_isBest (R : CutoffRules M K α C T) (l : List (Arrival M C)) :
    ∃ H, Champions R.key R.rank (elements l) H := by
  induction l with
  | nil =>
    have hnil : elements ([] : List (Arrival M C)) = ∅ := by simp [elements]
    rw [hnil]
    exact ⟨∅, Champions.empty⟩
  | cons a l ih =>
    obtain ⟨H, hH⟩ := ih
    cases a with
    | element m =>
      have hcons : elements (.element m :: l) = insert m (elements l) := by
        ext x
        simp [elements]
      rw [hcons]
      by_cases hbest : ∀ w ∈ H, R.key w = R.key m → compare (R.rank w) (R.rank m) ≠ .gt
      · exact ⟨_, hH.accept hbest⟩
      · simp only [not_forall, not_not] at hbest
        obtain ⟨w, hw, hkey, hgt⟩ := hbest
        refine ⟨H, hH.reject hw hkey fun hgt' => ?_⟩
        exact absurd (hgt'.symm.trans (Std.OrientedCmp.gt_iff_lt.1 hgt)) (by decide)
    | cutoff c => exact ⟨H, by simpa [elements] using hH⟩
    | other => exact ⟨H, by simpa [elements] using hH⟩

variable (hinj : ∀ a ∈ elements l, ∀ b ∈ elements l, R.key a = R.key b → compare (R.rank a) (R.rank b) = .eq →
  a = b) {c' : C}
include hinj

omit [LinearOrder T] in
theorem exists_best (hm : m ∈ elements l) : ∃ b, IsBest R.key R.rank (elements l) b ∧ R.key b = R.key m := by
  obtain ⟨H, hH⟩ := exists_isBest R l
  obtain ⟨w, hw, hkey, -⟩ := hH.dominated m hm
  exact ⟨w, (hH.mem_iff hinj).1 hw, hkey⟩

/-- A best element that all cutoffs keep is held from its arrival on. -/
theorem mem_held_of_kept (hbest : IsBest R.key R.rank (elements l) m) (hkeeps : ∀ c ∈ cutoffs l, R.keeps c m)
    (done : List (Arrival M C)) (hdone : done ⊆ l) (hm : m ∈ elements done) : m ∈ (run R done).held := by
  -- induction on the arrivals so far
  induction done using List.reverseRec with
  | nil => exact (List.not_mem_nil hm).elim
  | append_singleton done a ih =>
    have hsub : done ⊆ l := fun x hx => hdone (List.mem_append_left _ hx)
    have ha : a ∈ l := hdone (by simp)
    have hkept := run_kept R done
    -- a held rival is strictly below the best element
    have hrival :
        ∀ w ∈ (run R done).held, w ≠ m → R.key w = R.key m → compare (R.rank w) (R.rank m) = .lt := by
      intro w hw hne hkey
      have hwl : w ∈ elements l := hsub (hkept.sub hw)
      cases hc : compare (R.rank w) (R.rank m) with
      | lt => rfl
      | eq => exact absurd (hinj w hwl m hbest.1 hkey hc) hne
      | gt => exact absurd hc (hbest.2 w hwl hkey)
    rw [run_snoc]
    by_cases hold : m ∈ elements done
    · have ih := ih hsub hold
      cases a with
      | other => exact ih
      | element x =>
        rcases step_element_cases (R := R) (run R done) x with heq | ⟨-, hlt, heq⟩
        · rwa [heq]
        · rw [heq]
          by_cases hx : m = x
          · exact .inl hx
          · refine .inr ⟨ih, fun hkey => ?_⟩
            have hgt := Std.OrientedCmp.gt_iff_lt.2 (hlt m ih hkey)
            exact hbest.2 x ha hkey.symm hgt
      | cutoff c =>
        rcases step_cutoff_cases (R := R) (run R done) c with ⟨-, heq⟩ | ⟨-, heq⟩
        · rwa [heq]
        · rw [heq]
          exact ⟨ih, hkeeps c ha⟩
    · -- it is the last arrival
      have hlast : a = .element m := by
        rcases List.mem_append.1 hm with hm | hm
        · exact absurd hm hold
        · exact (List.mem_singleton.1 hm).symm
      subst hlast
      rw [step_element_of_accept (fun c hc => R.accepts_of_keeps (hkeeps c (hsub (hkept.latest c hc).1)))
        fun w hw hkey => hrival w hw (fun heq => hold (heq ▸ hkept.sub hw)) hkey]
      exact .inl rfl

/-- **What is left in the end**, if the list is settled: the best elements that all cutoffs keep. -/
theorem mem_held_iff (hset : Settled R l) (hperm : l'.Perm l) :
    m ∈ (run R l').held ↔ IsBest R.key R.rank (elements l) m ∧ ∀ c ∈ cutoffs l, R.keeps c m := by
  have hkept := (run_kept R l').perm hperm
  constructor
  · intro hm
    have hml := hkept.sub hm
    obtain ⟨b, hb, hkey⟩ := exists_best hinj hml
    have hkeeps : ∀ c ∈ cutoffs l, R.keeps c b := by
      intro c hc
      cases hcut : (run R l').cutoff with
      | none =>
        rw [hkept.none_of hcut] at hc
        exact hc.elim
      | some c₀ =>
        exact hset.keeps_best c₀ (hkept.latest c₀ hcut) b hb
          ⟨m, hml, hkey.symm, hkept.accepted c₀ hcut m hm⟩ c hc
    have hbheld := mem_held_of_kept hinj hb hkeeps l' hperm.subset (elements_perm hperm ▸ hb.1)
    rw [hkept.unique m hm b hbheld hkey.symm]
    exact ⟨hb, hkeeps⟩
  · rintro ⟨hbest, hkeeps⟩
    exact mem_held_of_kept hinj hbest hkeeps l' hperm.subset (elements_perm hperm ▸ hbest.1)

omit [Std.TransOrd α] hinj

theorem Kept.cutoff_iff (h : Kept R l s) (hset : Settled R l) : s.cutoff = some c ↔ IsLatest R l c := by
  refine ⟨h.latest c, fun hc => ?_⟩
  cases hs : s.cutoff with
  | none =>
    have hmem := hc.1
    rw [h.none_of hs] at hmem
    exact hmem.elim
  | some c' => rw [hset.latest_unique c' c (h.latest c' hs) hc]

theorem cutoff_eq (hset : Settled R l) {l₁ l₂ : List (Arrival M C)} (h₁ : l₁.Perm l) (h₂ : l₂.Perm l) :
    (run R l₁).cutoff = (run R l₂).cutoff := by
  ext c
  rw [((run_kept R l₁).perm h₁).cutoff_iff hset, ((run_kept R l₂).perm h₂).cutoff_iff hset]

/-! ## Orders that end differently -/

theorem perm_middle {pre post : List (Arrival M C)} (heq : l = pre ++ a :: post) :
    (a :: (pre ++ post)).Perm l :=
  heq ▸ List.perm_middle.symm

theorem run_cons_cutoff : run R (.cutoff c :: l) = runFrom R ⟨∅, some c⟩ l := by
  have hstep : step R ⟨∅, none⟩ (.cutoff c) = ⟨∅, some c⟩ := by
    simp [step]
  rw [run, runFrom_cons, hstep]

/-- While the cutoff in force is the latest, it stays; an occupied class stays occupied, and an accepted
    element occupies its class. -/
theorem step_latest (hc : s.cutoff = some c) (hle : ∀ c', a = .cutoff c' → R.time c' ≤ R.time c) :
    (step R s a).cutoff = some c ∧
      ∀ x, ((∃ w ∈ s.held, R.key w = R.key x) ∨ a = .element x ∧ R.accepts c x) →
        ∃ w ∈ (step R s a).held, R.key w = R.key x := by
  cases a with
  | other => exact ⟨hc, fun x hx => hx.resolve_right (by simp)⟩
  | cutoff c' =>
    rw [step_cutoff_of_le hc (hle c' rfl)]
    exact ⟨hc, fun x hx => hx.resolve_right (by simp)⟩
  | element m =>
    have hcases := step_element_cases (R := R) s m
    refine ⟨?_, fun x hx => ?_⟩
    · rcases hcases with heq | ⟨-, -, heq⟩ <;> rw [heq] <;> exact hc
    by_cases hocc : ∃ w ∈ s.held, R.key w = R.key x
    · obtain ⟨w, hw, hkey⟩ := hocc
      rcases hcases with heq | ⟨-, -, heq⟩
      · rw [heq]
        exact ⟨w, hw, hkey⟩
      · rw [heq]
        by_cases hm : R.key w = R.key m
        · exact ⟨m, .inl rfl, hm.symm.trans hkey⟩
        · exact ⟨w, .inr ⟨hw, hm⟩, hkey⟩
    · -- nothing of its class turns the element away
      obtain ⟨hx, hacc⟩ := hx.resolve_left hocc
      cases hx
      rw [step_element_of_accept (fun c' hc' => by cases hc.symm.trans hc'; exact hacc)
        fun w hw hkey => absurd ⟨w, hw, hkey⟩ hocc]
      exact ⟨m, .inl rfl, rfl⟩

theorem runFrom_latest (hc : s.cutoff = some c) (hle : ∀ c' ∈ cutoffs l, R.time c' ≤ R.time c) :
    (runFrom R s l).cutoff = some c ∧
      ∀ x, ((∃ w ∈ s.held, R.key w = R.key x) ∨ x ∈ elements l ∧ R.accepts c x) →
        ∃ w ∈ (runFrom R s l).held, R.key w = R.key x := by
  induction l generalizing s with
  | nil => exact ⟨hc, fun x hx => hx.resolve_right fun h => List.not_mem_nil h.1⟩
  | cons a l ih =>
    obtain ⟨hcut, hocc⟩ := step_latest (R := R) (a := a) hc fun c' h => hle c' (h ▸ List.mem_cons_self)
    obtain ⟨hcut', hocc'⟩ := ih hcut fun c' hc' => hle c' (List.mem_cons_of_mem _ hc')
    refine ⟨hcut', fun x hx => hocc' x ?_⟩
    rcases hx with hx | ⟨hx, hacc⟩
    · exact .inl (hocc x (.inl hx))
    · rcases List.mem_cons.1 hx with hx | hx
      · exact .inl (hocc x (.inr ⟨hx.symm, hacc⟩))
      · exact .inr ⟨hx, hacc⟩

theorem runFrom_subset (hno : elements l = ∅) : (runFrom R s l).held ⊆ s.held := by
  induction l generalizing s with
  | nil => exact fun _ h => h
  | cons a l ih =>
    have hl : elements l = ∅ := Set.eq_empty_of_forall_notMem fun x hx =>
      Set.notMem_empty x (hno ▸ List.mem_cons_of_mem a hx)
    refine (ih hl).trans ?_
    cases a with
    | other => exact fun _ h => h
    | element m =>
      exact absurd (show m ∈ elements (.element m :: l) from List.mem_cons_self) (hno ▸ Set.notMem_empty m)
    | cutoff c =>
      rcases step_cutoff_cases (R := R) s c with ⟨-, heq⟩ | ⟨-, heq⟩
      · rw [heq]
      · rw [heq]
        exact fun _ h => h.1

theorem latest_unique_of_perm (h : ∀ l₁ l₂ : List (Arrival M C), l₁.Perm l → l₂.Perm l → run R l₁ = run R l₂)
    (hc : IsLatest R l c) (hc' : IsLatest R l c') : c = c' := by
  have first : ∀ {c}, IsLatest R l c → ∃ l', l'.Perm l ∧ (run R l').cutoff = some c := by
    intro c hc
    obtain ⟨pre, post, heq⟩ := List.append_of_mem hc.1
    have hperm := perm_middle heq
    refine ⟨_, hperm, ?_⟩
    rw [run_cons_cutoff]
    refine (runFrom_latest rfl fun c' hc' => hc.2 c' ?_).1
    rw [← cutoffs_perm hperm]
    exact List.mem_cons_of_mem _ hc'
  obtain ⟨l₁, h₁, hl₁⟩ := first hc
  obtain ⟨l₂, h₂, hl₂⟩ := first hc'
  rw [h l₁ l₂ h₁ h₂] at hl₁
  exact Option.some.inj (hl₁.symm.trans hl₂)

theorem exists_elements_first (l : List (Arrival M C)) : ∃ firsts rest : List (Arrival M C),
    (firsts ++ rest).Perm l ∧ elements firsts = elements l ∧ cutoffs firsts = ∅ ∧ elements rest = ∅ := by
  let isElement : Arrival M C → Bool := fun a => match a with | .element _ => true | _ => false
  refine ⟨l.filter isElement, l.filter (!isElement ·), List.filter_append_perm isElement l, ?_, ?_, ?_⟩ <;>
    ext x <;> simp [elements, cutoffs, isElement]

include hinj in
/-- If some cutoff does not keep the best element of a class, it can leave the class empty, whereas the latest
    cutoff, if it comes first, leaves it occupied by any element that it accepts. -/
theorem keeps_best_of_perm [Std.TransOrd α]
    (h : ∀ l₁ l₂ : List (Arrival M C), l₁.Perm l → l₂.Perm l → run R l₁ = run R l₂) (hc : IsLatest R l c)
    (hbest : IsBest R.key R.rank (elements l) m)
    (hacc : ∃ m' ∈ elements l, R.key m' = R.key m ∧ R.accepts c m') (hc' : c' ∈ cutoffs l) :
    R.keeps c' m := by
  obtain ⟨m', hm', hkey', hacc⟩ := hacc
  -- the latest cutoff first: the class of `m` is occupied in the end
  obtain ⟨pre, post, heq⟩ := List.append_of_mem hc.1
  have hperm := perm_middle heq
  have hocc : ∃ w ∈ (run R (.cutoff c :: (pre ++ post))).held, R.key w = R.key m' := by
    rw [run_cons_cutoff]
    refine (runFrom_latest rfl fun c₁ hc₁ => hc.2 c₁ ?_).2 m' (.inr ⟨?_, hacc⟩)
    · rw [← cutoffs_perm hperm]
      exact List.mem_cons_of_mem _ hc₁
    · have hin : Arrival.element m' ∈ Arrival.cutoff c :: (pre ++ post) := hperm.mem_iff.2 hm'
      exact (List.mem_cons.1 hin).resolve_left (by simp)
  -- all elements first, then `c'`
  obtain ⟨firsts, rest, hfirst, hfirsts, hnone, hrest⟩ := exists_elements_first l
  have hmem : Arrival.cutoff c' ∈ rest := by
    refine (List.mem_append.1 (hfirst.mem_iff.2 hc')).resolve_left fun hmem => ?_
    exact Set.notMem_empty c' (hnone ▸ hmem)
  obtain ⟨pre', post', heq'⟩ := List.append_of_mem hmem
  have hperm' : (firsts ++ .cutoff c' :: (pre' ++ post')).Perm l :=
    ((perm_middle heq').append_left firsts).trans hfirst
  rw [h _ _ hperm hperm'] at hocc
  obtain ⟨w, hw, hkey⟩ := hocc
  rw [run, runFrom_append, runFrom_cons] at hw
  have hothers : elements (pre' ++ post') = ∅ := by
    refine Set.eq_empty_of_forall_notMem fun x hx => Set.notMem_empty x ?_
    rw [← hrest, ← elements_perm (perm_middle heq')]
    exact List.mem_cons_of_mem _ hx
  have hw := runFrom_subset hothers hw
  have hkept := run_kept R firsts
  rcases step_cutoff_cases (R := R) (runFrom R ⟨∅, none⟩ firsts) c' with ⟨⟨c₀, hc₀, -⟩, -⟩ | ⟨-, hstep⟩
  · have hmem := (hkept.latest c₀ hc₀).1
    rw [hnone] at hmem
    exact hmem.elim
  · rw [hstep] at hw
    -- without cutoffs, only the best is held
    have hinj' : ∀ a ∈ elements firsts, ∀ b ∈ elements firsts, R.key a = R.key b →
        compare (R.rank a) (R.rank b) = .eq → a = b := hfirsts ▸ hinj
    have hheld :=
      mem_held_of_kept hinj' (hfirsts.symm ▸ hbest) (fun c hc => by rw [hnone] at hc; exact hc.elim) firsts
      (List.Subset.refl _) (hfirsts.symm ▸ hbest.1)
    have hwm := hkept.unique w hw.1 m hheld (hkey.trans hkey')
    exact hwm ▸ hw.2

include hinj in
/-- **When the order does not matter.** -/
theorem run_perm_iff [Std.TransOrd α] :
    (∀ l₁ l₂ : List (Arrival M C), l₁.Perm l → l₂.Perm l → run R l₁ = run R l₂) ↔ Settled R l := by
  constructor
  · intro h
    exact ⟨fun c c' => latest_unique_of_perm h, fun c hc m hbest hacc c' =>
      keeps_best_of_perm hinj h hc hbest hacc⟩
  · intro hset l₁ l₂ h₁ h₂
    refine Keeper.ext ?_ (cutoff_eq hset h₁ h₂)
    ext m
    rw [mem_held_iff hinj hset h₁, mem_held_iff hinj hset h₂]

end orders

end Keeper

end Lib
