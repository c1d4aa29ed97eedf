import Mathlib.Data.List.Forall2
import Hypersnap.Lib.EState

/-!
# `Lib.Cursor` — reading a list page by page

A reader answers one page at a time, with a token for the next page or none. `Walk page token l`: the pages
from `token` on come to an end, and together they are `l`. A page is filled by a **selection** that keeps,
skips or refuses an entry, and is full once it has kept `limit` of them; the token of a full page is made from
its last entry.

If the token of every entry resumes the list right after that entry, the pages together are the selection from
the whole list (`walk_page_iff`): nothing is lost at a page boundary and nothing is read twice.
-/

namespace Cursor

variable {τ α β γ ε : Type} {l : List α} {l' : List β}

/-! ## Walks -/

/-- **The pages from a token on**, up to the first one without a token. -/
@[mk_iff] inductive Walk (page : Option τ → Except ε (List β × Option τ)) : Option τ → List β → Prop
  | last {token : Option τ} {bs : List β} (h : page token = .ok (bs, none)) : Walk page token bs
  | next {token : Option τ} {t : τ} {bs cs : List β} (h : page token = .ok (bs, some t))
    (hrest : Walk page (some t) cs) :
      Walk page token (bs ++ cs)

section walk
variable {page : Option τ → Except ε (List β × Option τ)} {token : Option τ} {bs l : List β}

theorem walk_of_last (h : page token = .ok (bs, none)) : Walk page token l ↔ l = bs := by
  rw [walk_iff, h]
  simp [eq_comm]

theorem walk_of_next {t : τ} (h : page token = .ok (bs, some t)) :
    Walk page token l ↔ ∃ cs, Walk page (some t) cs ∧ l = bs ++ cs := by
  rw [walk_iff, h]
  simp

theorem not_walk_of_error {e : ε} (h : page token = .error e) : ¬Walk page token l := by
  rw [walk_iff, h]
  simp

def follow (page : Option τ → Except ε (List β × Option τ)) : Nat → Option τ → Option (List β)
  | 0, _ => none
  | fuel + 1, token =>
    match page token with
    | .error _ => none
    | .ok (bs, none) => some bs
    | .ok (bs, some t) => (follow page fuel (some t)).map (bs ++ ·)

theorem walk_of_follow {fuel : Nat} (h : follow page fuel token = some l) : Walk page token l := by
  induction fuel generalizing token l with
  | zero => cases h
  | succ fuel ih =>
    rw [follow] at h
    split at h
    · cases h
    next bs hpage =>
      cases h
      exact .last hpage
    next bs t hpage =>
      obtain ⟨cs, hcs, rfl⟩ := Option.map_eq_some_iff.1 h
      exact .next hpage (ih hcs)

theorem Walk.unique (h : Walk page token l) (h' : Walk page token l') : l = l' := by
  induction h generalizing l' with
  | last hpage => exact ((walk_of_last hpage).1 h').symm
  | next hpage _ ih =>
    obtain ⟨cs, hcs, rfl⟩ := (walk_of_next hpage).1 h'
    rw [ih hcs]

end walk

/-! ## Selections -/

section select
variable (select : α → Except ε (Option β))

/-- What a selection keeps of a list; it is refused if an entry is. -/
def selectAll : List α → Except ε (List β)
  | [] => .ok []
  | a :: rest =>
    match select a with
    | .error e => .error e
    | .ok b =>
      match selectAll rest with
      | .error e => .error e
      | .ok bs => .ok (b.toList ++ bs)

def kept (a : α) : Option β :=
  match select a with
  | .error _ => none
  | .ok b => b

/-- **One page**: the kept entries up to a count of `limit`, of which `n` are there already, and the entry at
    which the page was full. -/
def selectPage (limit : Nat) : Nat → List α → Except ε (List β × Option α)
  | _, [] => .ok ([], none)
  | n, a :: rest =>
    match select a with
    | .error e => .error e
    | .ok none => selectPage limit n rest
    | .ok (some b) =>
      if limit ≤ n + 1 then .ok ([b], some a)
      else match selectPage limit (n + 1) rest with
        | .error e => .error e
        | .ok (bs, last) => .ok (b :: bs, last)

variable {select} {bs : List β}

theorem selectAll_eq_ok_iff :
    selectAll select l = .ok bs ↔ (∀ a ∈ l, ∃ b, select a = .ok b) ∧ bs = l.filterMap (kept select) := by
  induction l generalizing bs with
  | nil => simp [selectAll, eq_comm]
  | cons a rest ih =>
    cases ha : select a with
    | error e => simp [selectAll, ha]
    | ok b =>
      have hkept : (a :: rest).filterMap (kept select) = b.toList ++ rest.filterMap (kept select) := by
        cases b <;> simp [kept, ha]
      rw [hkept]
      cases hrest : selectAll select rest with
      | error e =>
        have hnot : ¬∀ a ∈ rest, ∃ b, select a = .ok b := by
          intro hall
          have := ih.2 ⟨hall, rfl⟩
          rw [hrest] at this
          cases this
        simp [selectAll, ha, hrest, hnot]
      | ok cs =>
        obtain ⟨hall, rfl⟩ := ih.1 hrest
        simp only [selectAll, ha, hrest, Except.ok.injEq, List.forall_mem_cons, exists_eq', true_and]
        exact ⟨fun h => ⟨hall, h.symm⟩, fun h => h.2.symm⟩

theorem selectAll_append_of_ok {l₁ l₂ : List α} (h : selectAll select l₁ = .ok bs) {l : List β} :
    selectAll select (l₁ ++ l₂) = .ok l ↔ ∃ cs, selectAll select l₂ = .ok cs ∧ l = bs ++ cs := by
  obtain ⟨hall, rfl⟩ := selectAll_eq_ok_iff.1 h
  simp only [selectAll_eq_ok_iff, List.filterMap_append, List.forall_mem_append]
  constructor
  · rintro ⟨⟨-, hall₂⟩, rfl⟩
    exact ⟨_, ⟨hall₂, rfl⟩, rfl⟩
  · rintro ⟨cs, ⟨hall₂, rfl⟩, rfl⟩
    exact ⟨⟨hall, hall₂⟩, rfl⟩

/-- **What a page can be**: the selection from the whole list; that from the front of it, full with the last
    entry; or refused. -/
theorem selectPage_cases (select : α → Except ε (Option β)) (limit n : Nat) (l : List α) :
    (∃ bs, selectPage select limit n l = .ok (bs, none) ∧ selectAll select l = .ok bs) ∨
    (∃ front a rest bs, l = front ++ a :: rest ∧ selectPage select limit n l = .ok (bs, some a) ∧
      selectAll select (front ++ [a]) = .ok bs) ∨
    (∃ e, selectPage select limit n l = .error e ∧ selectAll select l = .error e) := by
  induction l generalizing n with
  | nil => exact .inl ⟨[], rfl, rfl⟩
  | cons a rest ih =>
    cases ha : select a with
    | error e => exact .inr (.inr ⟨e, by simp [selectPage, ha], by simp [selectAll, ha]⟩)
    | ok b =>
      cases b with
      | none =>
        -- a skipped entry changes nothing
        have hpage :
            selectPage select limit n (a :: rest) = selectPage select limit n rest := by simp [selectPage, ha]
        have hskip (l : List α) : selectAll select (a :: l) = selectAll select l := by
          simp only [selectAll, ha]
          cases selectAll select l <;> rfl
        rw [hpage]
        rcases ih n with ⟨bs, h, hall⟩ | ⟨front, x, rest', bs, rfl, h, hall⟩ | ⟨e, h, hall⟩
        · exact .inl ⟨bs, h, (hskip _).trans hall⟩
        · exact .inr (.inl ⟨a :: front, x, rest', bs, rfl, h, (hskip _).trans hall⟩)
        · exact .inr (.inr ⟨e, h, (hskip _).trans hall⟩)
      | some b =>
        by_cases hfull : limit ≤ n + 1
        · exact .inr (.inl ⟨[], a, rest, [b], rfl, by simp [selectPage, ha, hfull], by simp [selectAll, ha]⟩)
        · rcases ih (n + 1) with ⟨bs, h, hall⟩ | ⟨front, x, rest', bs, rfl, h, hall⟩ | ⟨e, h, hall⟩
          · exact .inl ⟨b :: bs, by simp [selectPage, ha, hfull, h], by simp [selectAll, ha, hall]⟩
          · refine .inr (.inl ⟨a :: front, x, rest', b :: bs, rfl, by simp [selectPage, ha, hfull, h], ?_⟩)
            simp [selectAll, ha, hall]
          · exact .inr (.inr ⟨e, by simp [selectPage, ha, hfull, h], by simp [selectAll, ha, hall]⟩)

end select

/-! ## Walking through a list -/

section page
variable (source : Option τ → List α) (tokenOf : α → Option τ) (select : α → Except ε (Option β))
  (limit : Nat)

/-- The reader that selects from what is left after a token. -/
def page (token : Option τ) : Except ε (List β × Option τ) :=
  (selectPage select limit 0 (source token)).map fun r => (r.1, r.2.bind tokenOf)

variable {source tokenOf select limit} {l : List β}

/-- **Pages lose nothing**, if every entry has a token, and that resumes the list after it. -/
theorem walk_page_iff
    (hresume : ∀ {done a rest}, source none = done ++ a :: rest →
      ∃ t, tokenOf a = some t ∧ source (some t) = rest) :
    Walk (page source tokenOf select limit) none l ↔ selectAll select (source none) = .ok l := by
  -- for every token of the list; the part that is left gets shorter
  have hgen : ∀ (k : Nat) {done rest : List α} {token : Option τ} {l : List β}, rest.length = k →
      source none = done ++ rest → source token = rest →
      (Walk (page source tokenOf select limit) token l ↔ selectAll select rest = .ok l) := by
    intro k
    induction k using Nat.strongRecOn with
    | ind k ih =>
      intro done rest token l hlen hsplit htoken
      rcases selectPage_cases select limit 0 rest with
        ⟨bs, h, hall⟩ | ⟨front, a, rest', bs, rfl, h, hall⟩ | ⟨e, h, hall⟩
      · have hpage :
            page source tokenOf select limit token = .ok (bs, none) := by simp [page, htoken, h, Except.map]
        rw [walk_of_last hpage, hall, Except.ok.injEq, eq_comm]
      · have hsplit' : source none = (done ++ front) ++ a :: rest' := by rw [hsplit, List.append_assoc]
        have hrest : front ++ a :: rest' = (front ++ [a]) ++ rest' := by simp
        obtain ⟨t, ha, hafter⟩ := hresume hsplit'
        have hpage : page source tokenOf select limit token = .ok (bs, some t) := by
          simp [page, htoken, h, Except.map, ha]
        rw [walk_of_next hpage, hrest, selectAll_append_of_ok hall]
        have hlen' : rest'.length < k := by
          simp only [List.length_append, List.length_cons] at hlen
          omega
        have hsplit'' : source none = (done ++ front ++ [a]) ++ rest' := by rw [hsplit']; simp
        simp only [ih _ hlen' rfl hsplit'' hafter]
      · have hpage :
            page source tokenOf select limit token = .error e := by simp [page, htoken, h, Except.map]
        rw [hall]
        exact ⟨fun hwalk => absurd hwalk (not_walk_of_error hpage), fun h => nomatch h⟩
  exact hgen _ rfl (List.nil_append _).symm rfl

end page

/-! ## Pages that are read further -/

theorem mapM_eq_ok_iff_forall₂ {f : α → Except ε β} :
    l.mapM f = .ok l' ↔ List.Forall₂ (fun a b => f a = .ok b) l l' := by
  induction l generalizing l' with
  | nil => simp [pure, Except.pure, eq_comm]
  | cons a l ih =>
    rw [List.mapM_cons, EState.except_bind_eq_ok]
    constructor
    · rintro ⟨b, hb, h⟩
      obtain ⟨bs, hbs, h⟩ := EState.except_bind_eq_ok.1 h
      cases h
      exact .cons hb (ih.1 hbs)
    · intro h
      cases h with
      | cons hb hbs => exact ⟨_, hb, EState.except_bind_eq_ok.2 ⟨_, ih.2 hbs, rfl⟩⟩

theorem exists_left_of_forall₂ {R : α → β → Prop} (h : List.Forall₂ R l l') {b : β} (hb : b ∈ l') :
    ∃ a ∈ l, R a b := by
  induction h with
  | nil => cases hb
  | cons hab _ ih =>
    rcases List.mem_cons.1 hb with rfl | hb
    · exact ⟨_, List.mem_cons_self, hab⟩
    · obtain ⟨a, ha, hab⟩ := ih hb
      exact ⟨a, List.mem_cons_of_mem _ ha, hab⟩

section mapM
variable {page : Option τ → Except ε (List β × Option τ)} {f : β → Except ε γ} {token : Option τ}

/-- The page with every entry replaced by what it stands for. -/
def mapPage (page : Option τ → Except ε (List β × Option τ)) (f : β → Except ε γ) (token : Option τ) :
    Except ε (List γ × Option τ) :=
  match page token with
  | .error e => .error e
  | .ok (bs, t) => (bs.mapM f).map (·, t)

theorem mapPage_eq_ok_iff {cs : List γ} {t : Option τ} :
    mapPage page f token = .ok (cs, t) ↔ ∃ bs, page token = .ok (bs, t) ∧ bs.mapM f = .ok cs := by
  unfold mapPage
  cases hpage : page token with
  | error e => simp
  | ok r =>
    obtain ⟨bs, t'⟩ := r
    cases hmap : bs.mapM f with
    | error e => simp [hmap, Except.map]
    | ok l => simp [hmap, Except.map, and_comm]

theorem walk_mapPage_iff {l : List γ} :
    Walk (mapPage page f) token l ↔ ∃ bs, Walk page token bs ∧ bs.mapM f = .ok l := by
  constructor
  · intro h
    induction h with
    | last h =>
      obtain ⟨bs, hpage, hmap⟩ := mapPage_eq_ok_iff.1 h
      exact ⟨bs, .last hpage, hmap⟩
    | next h _ ih =>
      obtain ⟨bs, hpage, hmap⟩ := mapPage_eq_ok_iff.1 h
      obtain ⟨cs, hcs, hcmap⟩ := ih
      refine ⟨bs ++ cs, .next hpage hcs, ?_⟩
      rw [mapM_eq_ok_iff_forall₂] at hmap hcmap ⊢
      exact List.rel_append hmap hcmap
  · rintro ⟨bs, hwalk, hmap⟩
    induction hwalk generalizing l with
    | last h => exact .last (mapPage_eq_ok_iff.2 ⟨_, h, hmap⟩)
    | next h _ ih =>
      rw [List.mapM_append] at hmap
      obtain ⟨l₁, h₁, hmap⟩ := EState.except_bind_eq_ok.1 hmap
      obtain ⟨l₂, h₂, hmap⟩ := EState.except_bind_eq_ok.1 hmap
      cases hmap
      exact .next (mapPage_eq_ok_iff.2 ⟨_, h, h₁⟩) (ih h₂)

end mapM

end Cursor
