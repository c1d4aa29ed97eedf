import Mathlib.Data.Finset.Card
import Mathlib.Data.Finset.Image
import Mathlib.Data.Finset.Lattice.Basic
import Mathlib.Data.List.Dedup

/-!
# `Lib.FirstSeen` — the elements of a list that are new to a set

`news S l` is what inserting the elements of `l` one after the other into a set `S` reports: for each element,
whether it is neither in `S` nor earlier in the list. `olds S l` is the report of deleting them. `select` is
the part of a list of reports that belongs to some of the elements. A report of the whole list is determined
by its parts (`eq_of_select`), and the parts of `news` are again `news` (`select_news`).

`weave` puts a list together again from parts of it, each part at the positions of its class; the `news` of
the whole are the `news` of the parts (`select_news_weave`).
-/

namespace FirstSeen

variable {α β : Type} [DecidableEq α] {S T : Finset α} {l : List α}

/-- For each element of the list, whether it is new: neither in `S` nor earlier in the list. -/
def news : Finset α → List α → List Bool
  | _, [] => []
  | S, x :: l => decide (x ∉ S) :: news (insert x S) l

@[simp] theorem news_nil : news S [] = [] := rfl

@[simp] theorem news_cons (x : α) : news S (x :: l) = decide (x ∉ S) :: news (insert x S) l := rfl

@[simp] theorem length_news : (news S l).length = l.length := by
  induction l generalizing S with
  | nil => rfl
  | cons x l ih => rw [news_cons, List.length_cons, List.length_cons, ih]

theorem news_congr (h : ∀ x ∈ l, x ∈ S ↔ x ∈ T) : news S l = news T l := by
  induction l generalizing S T with
  | nil => rfl
  | cons x l ih =>
    rw [news_cons, news_cons]
    congr 1
    · simp only [h x (.head _)]
    · refine ih fun y hy => ?_
      rw [Finset.mem_insert, Finset.mem_insert, h y (.tail _ hy)]

theorem news_append (l' : List α) : news S (l ++ l') = news S l ++ news (S ∪ l.toFinset) l' := by
  induction l generalizing S with
  | nil => simp
  | cons x l ih =>
    rw [List.cons_append, news_cons, news_cons, ih, List.cons_append, List.toFinset_cons, Finset.insert_union,
      Finset.union_insert]

theorem news_eq_false_iff : news S l = List.replicate l.length false ↔ ∀ x ∈ l, x ∈ S := by
  induction l generalizing S with
  | nil => simp
  | cons x l ih =>
    rw [news_cons, List.length_cons, List.replicate_succ, List.cons.injEq, ih, decide_eq_false_iff_not,
      not_not, List.forall_mem_cons]
    refine and_congr_right fun hx => ?_
    rw [Finset.insert_eq_of_mem hx]

theorem countP_news : (news S l).countP id = (l.toFinset \ S).card := by
  induction l generalizing S with
  | nil => simp
  | cons x l ih =>
    rw [news_cons, List.countP_cons, ih, List.toFinset_cons]
    by_cases hx : x ∈ S
    · rw [Finset.insert_eq_of_mem hx, Finset.insert_sdiff_of_mem _ hx]
      simp [hx]
    · have hsub : insert x l.toFinset \ S = insert x (l.toFinset \ insert x S) := by
        ext y
        simp only [Finset.mem_sdiff, Finset.mem_insert, not_or]
        by_cases hy : y = x
        · simp [hy, hx]
        · simp [hy]
      rw [hsub, Finset.card_insert_of_notMem fun hmem =>
        (Finset.mem_sdiff.1 hmem).2 (Finset.mem_insert_self _ _)]
      simp [hx]

/-- What deleting the elements one after the other reports: whether the element is in `S` and not earlier in
    the list. -/
def olds (S : Finset α) (l : List α) : List Bool := news (l.toFinset \ S) l

@[simp] theorem length_olds : (olds S l).length = l.length := length_news

theorem olds_congr (h : ∀ x ∈ l, x ∈ S ↔ x ∈ T) : olds S l = olds T l := by
  refine news_congr fun x hx => ?_
  rw [Finset.mem_sdiff, Finset.mem_sdiff, h x hx]

theorem olds_eq_false (h : ∀ x ∈ l, x ∉ S) : olds S l = List.replicate l.length false :=
  news_eq_false_iff.2 fun x hx => Finset.mem_sdiff.2 ⟨List.mem_toFinset.2 hx, h x hx⟩

theorem countP_olds : (olds S l).countP id = (S ∩ l.toFinset).card := by
  rw [olds, countP_news, sdiff_sdiff_right_self, Finset.inf_eq_inter, Finset.inter_comm]

theorem olds_singleton_split {x : α} {a b : List α} (hx : x ∉ a) :
    olds {x} (a ++ x :: b) = List.replicate a.length false ++ true :: List.replicate b.length false := by
  have hfalse : ∀ {c : List α} {U : Finset α}, (∀ y ∈ c, y ∈ U) → news U c = List.replicate c.length false :=
    fun h => news_eq_false_iff.2 h
  rw [olds, news_append, news_cons, hfalse, hfalse]
  · simp [hx]
  · intro y hy
    by_cases hyx : y = x <;> simp [hy, hyx]
  · intro y hy
    have hyx : y ≠ x := fun heq => hx (heq ▸ hy)
    simp [hy, hyx]

/-! ## Parts of a report -/

section select

variable {β : Type} {P Q : α → Prop} [DecidablePred P] [DecidablePred Q] {bs : List β}

/-- The entries of a report that belong to the elements with `P`. -/
def select (P : α → Prop) [DecidablePred P] : List α → List β → List β
  | x :: l, b :: bs => if P x then b :: select P l bs else select P l bs
  | _, _ => []

omit [DecidableEq α] in
@[simp] theorem select_cons (x : α) (b : β) :
    select P (x :: l) (b :: bs) = if P x then b :: select P l bs else select P l bs := rfl

omit [DecidableEq α] in
theorem select_of_forall (h : ∀ x ∈ l, P x) (hlength : bs.length = l.length) : select P l bs = bs := by
  induction l generalizing bs with
  | nil =>
    obtain rfl := List.length_eq_zero_iff.1 hlength
    rfl
  | cons x l ih =>
    obtain _ | ⟨b, bs⟩ := bs
    · cases hlength
    rw [select_cons, if_pos (h x (.head _)), ih (fun y hy => h y (.tail _ hy)) (Nat.succ.inj hlength)]

omit [DecidableEq α] in
theorem length_select (hlength : bs.length = l.length) :
    (select P l bs).length = (l.filter (P ·)).length := by
  induction l generalizing bs with
  | nil => cases bs <;> rfl
  | cons x l ih =>
    obtain _ | ⟨b, bs⟩ := bs
    · cases hlength
    rw [select_cons, List.filter_cons]
    by_cases hP : P x <;> simp [hP, ih (Nat.succ.inj hlength)]

omit [DecidableEq α] in
theorem select_eq_nil (h : ∀ x ∈ l, ¬ P x) : select P l bs = [] := by
  induction l generalizing bs with
  | nil => rfl
  | cons x l ih =>
    cases bs with
    | nil => rfl
    | cons b bs => rw [select_cons, if_neg (h x (.head _)), ih fun y hy => h y (.tail _ hy)]

omit [DecidableEq α] in
theorem select_congr (h : ∀ x ∈ l, P x ↔ Q x) : select P l bs = select Q l bs := by
  induction l generalizing bs with
  | nil => rfl
  | cons x l ih =>
    cases bs with
    | nil => rfl
    | cons b bs => simp only [select_cons, h x (.head _), ih fun y hy => h y (.tail _ hy)]

omit [DecidableEq α] in
theorem select_self : select P l l = l.filter (P ·) := by
  induction l with
  | nil => rfl
  | cons x l ih => rw [select_cons, ih, List.filter_cons]; simp

omit [DecidableEq α] in
theorem select_const (b : β) : select P l (l.map fun _ => b) = (l.filter (P ·)).map fun _ => b := by
  induction l with
  | nil => rfl
  | cons x l ih =>
    rw [List.map_cons, select_cons, ih, List.filter_cons]
    by_cases hP : P x <;> simp [hP]

omit [DecidableEq α] in
theorem select_comm :
    select P (l.filter (Q ·)) (select Q l bs) = select Q (l.filter (P ·)) (select P l bs) := by
  induction l generalizing bs with
  | nil => cases bs <;> rfl
  | cons x l ih =>
    cases bs with
    | nil => cases l.filter (P ·) <;> simp [select]
    | cons b bs => by_cases hP : P x <;> by_cases hQ : Q x <;> simp [hP, hQ, ih]

/-- The part of `news` that belongs to some of the elements is the `news` of these. -/
theorem select_news (h : ∀ x, P x → (x ∈ S ↔ x ∈ T)) : select P l (news S l) = news T (l.filter (P ·)) := by
  induction l generalizing S T with
  | nil => rfl
  | cons x l ih =>
    rw [news_cons, select_cons, List.filter_cons]
    by_cases hP : P x
    · rw [if_pos hP, if_pos (decide_eq_true hP), news_cons]
      congr 1
      · simp only [h x hP]
      · refine ih fun y hy => ?_
        rw [Finset.mem_insert, Finset.mem_insert, h y hy]
    · rw [if_neg hP, if_neg (by simpa using hP)]
      refine ih fun y hy => ?_
      rw [Finset.mem_insert, or_iff_right fun heq : y = x => hP (heq ▸ hy), h y hy]

theorem select_olds (h : ∀ x, P x → (x ∈ S ↔ x ∈ T)) : select P l (olds S l) = olds T (l.filter (P ·)) := by
  rw [olds, select_news (T := l.toFinset \ S) fun _ _ => Iff.rfl, olds]
  refine news_congr fun x hx => ?_
  obtain ⟨hmem, hP⟩ := List.mem_filter.1 hx
  rw [Finset.mem_sdiff, Finset.mem_sdiff, h x (of_decide_eq_true hP), List.mem_toFinset, List.mem_toFinset]
  exact and_congr_left' ⟨fun _ => hx, fun _ => hmem⟩

omit [DecidableEq α] in
/-- A report is determined by its parts, for any way to sort the elements into parts. -/
theorem eq_of_select {γ : Type} [DecidableEq γ] (f : α → γ) {bs' : List β} (hlength : bs.length = l.length)
    (hlength' : bs'.length = l.length) (h : ∀ x ∈ l, select (f · = f x) l bs = select (f · = f x) l bs') :
    bs = bs' := by
  induction l generalizing bs bs' with
  | nil => rw [List.length_eq_zero_iff.1 hlength, List.length_eq_zero_iff.1 hlength']
  | cons x l ih =>
    obtain _ | ⟨b, bs⟩ := bs
    · cases hlength
    obtain _ | ⟨b', bs'⟩ := bs'
    · cases hlength'
    have hx := h x (.head _)
    rw [select_cons, select_cons, if_pos rfl, if_pos rfl, List.cons.injEq] at hx
    rw [hx.1, ih (Nat.succ.inj hlength) (Nat.succ.inj hlength') fun y hy => ?_]
    by_cases hxy : f x = f y
    · rw [← hxy]
      exact hx.2
    · have hy := h y (.tail _ hy)
      rwa [select_cons, select_cons, if_neg hxy, if_neg hxy] at hy

end select

/-! ## Lists made of parts -/

section weave

variable {β γ : Type} [DecidableEq γ] {f : α → γ} {parts : γ → List α} {c : γ} {order : List α} {bs : List β}

/-- The list with every element replaced by the next one of the part for its class. -/
def weave (f : α → γ) (parts : γ → List α) : List α → List α
  | [] => []
  | x :: l => (parts (f x)).headD x :: weave f (Function.update parts (f x) (parts (f x)).tail) l

omit [DecidableEq α] in
@[simp] theorem length_weave : (weave f parts l).length = l.length := by
  induction l generalizing parts with
  | nil => rfl
  | cons x l ih => rw [weave, List.length_cons, ih, List.length_cons]

omit [DecidableEq α] in
theorem mem_weave {x : α} (h : x ∈ weave f parts l) : x ∈ l ∨ ∃ c, x ∈ parts c := by
  induction l generalizing parts with
  | nil => cases h
  | cons y l ih =>
    obtain h | h := List.mem_cons.1 h
    · cases hpart : parts (f y) with
      | nil =>
        rw [hpart] at h
        exact .inl (h ▸ .head _)
      | cons z part =>
        rw [hpart] at h
        exact .inr ⟨f y, by rw [hpart, h]; exact .head _⟩
    · obtain h | ⟨c, h⟩ := ih h
      · exact .inl (.tail _ h)
      · refine .inr ⟨c, ?_⟩
        by_cases hc : c = f y
        · subst hc
          rw [Function.update_self] at h
          exact List.mem_of_mem_tail h
        · rwa [Function.update_of_ne hc] at h

omit [DecidableEq α] in
/-- The parts stand where the elements of their class stood. -/
theorem select_weave (hlength : ∀ c, (parts c).length = (l.filter (f · = c)).length) :
    select (f · = c) l (weave f parts l) = parts c := by
  induction l generalizing parts with
  | nil => exact (List.length_eq_zero_iff.1 (hlength c)).symm
  | cons x l ih =>
    have hfirst : (x :: l).filter (f · = f x) = x :: l.filter (f · = f x) := by simp
    obtain ⟨y, part, hpart⟩ : ∃ y part, parts (f x) = y :: part := by
      refine List.exists_cons_of_length_pos ?_
      rw [hlength, hfirst]
      exact Nat.succ_pos _
    have hrest : select (f · = c) l (weave f (Function.update parts (f x) part) l) =
        Function.update parts (f x) part c := by
      refine ih fun d => ?_
      by_cases hd : d = f x
      · subst hd
        have := hlength (f x)
        rw [hpart, hfirst] at this
        rw [Function.update_self]
        exact Nat.succ.inj this
      · rw [Function.update_of_ne hd, hlength, List.filter_cons_of_neg (by simpa using fun h => hd h.symm)]
    rw [weave, hpart, List.headD_cons, List.tail_cons, select_cons, hrest]
    by_cases hc : f x = c
    · subst hc
      rw [if_pos rfl, Function.update_self, hpart]
    · rw [if_neg hc, Function.update_of_ne (Ne.symm hc)]

omit [DecidableEq α] in
theorem select_congr_class (h : order.map f = l.map f) :
    select (f · = c) order bs = select (f · = c) l bs := by
  induction l generalizing order bs with
  | nil =>
    rw [List.map_nil, List.map_eq_nil_iff] at h
    rw [h]
  | cons x l ih =>
    obtain ⟨y, order, rfl, hy, h⟩ := List.map_eq_cons_iff.1 h
    cases bs with
    | nil => rfl
    | cons b bs => rw [select_cons, select_cons, hy, ih h]

/-- **The `news` of a woven list**, class by class. -/
theorem select_news_weave (hlength : ∀ c, (parts c).length = (l.filter (f · = c)).length)
    (hclass : ∀ c, ∀ x ∈ parts c, f x = c) :
    select (f · = c) l (news S (weave f parts l)) = news S (parts c) := by
  have hmap : (weave f parts l).map f = l.map f := by
    clear hlength
    induction l generalizing parts with
    | nil => rfl
    | cons x l ih =>
      rw [weave, List.map_cons, List.map_cons, ih fun d y hy => ?_]
      · congr 1
        cases hpart : parts (f x) with
        | nil => rfl
        | cons y part => exact hclass (f x) y (hpart ▸ .head _)
      · by_cases hd : d = f x
        · subst hd
          rw [Function.update_self] at hy
          exact hclass _ y (List.mem_of_mem_tail hy)
        · rw [Function.update_of_ne hd] at hy
          exact hclass d y hy
  rw [← select_congr_class hmap, select_news (T := S) fun _ _ =>
    Iff.rfl, ← select_self, select_congr_class hmap, select_weave hlength]

end weave

end FirstSeen
