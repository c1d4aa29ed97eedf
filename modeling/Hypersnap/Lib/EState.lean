/-!
# `Lib.EState` — computations that may fail and keep what they wrote

`EStateM ε σ` threads a state through a computation that can stop with an error; the state at the error is
returned too, so nothing written before the failure is undone. The rules here take a run that succeeded apart:
a sequence succeeds when each of its parts does (`bind_eq_ok`), a loop over a list keeps an invariant that
each round keeps.
-/

namespace EState

variable {ε ε' σ τ α β : Type}

/-! ## Failing, narrowing, recovering -/

/-- How a computation stops early: with an error value that a caller may handle, or with a panic. -/
inductive Stop (ε : Type) where
  | err (e : ε)
  | panic
deriving DecidableEq, Repr

def mapError (f : ε → ε') (x : EStateM ε σ α) : EStateM ε' σ α := fun s =>
  match x s with
  | .ok a s' => .ok a s'
  | .error e s' => .error (f e) s'

def Stop.map (f : ε → ε') : Stop ε → Stop ε'
  | .err e => .err (f e)
  | .panic => .panic

/-- The computation with its error values renamed; a panic stays one. -/
def mapErr (f : ε → ε') (x : EStateM (Stop ε) σ α) : EStateM (Stop ε') σ α := mapError (Stop.map f) x

def raise : Except ε α → EStateM (Stop ε) σ α
  | .ok a => pure a
  | .error e => throw (.err e)

/-- Run a computation whose error value the caller handles: what it wrote stays. -/
def recover (x : EStateM (Stop ε) σ α) : EStateM (Stop ε') σ (Except ε α) := fun s =>
  match x s with
  | .ok a s' => .ok (.ok a) s'
  | .error (.err e) s' => .ok (.error e) s'
  | .error .panic s' => .error .panic s'

/-- Run a computation on a part of the state. -/
def zoom (part : σ → τ) (update : τ → σ → σ) (x : EStateM ε τ α) : EStateM ε σ α := fun s =>
  match x (part s) with
  | .ok a t => .ok a (update t s)
  | .error e t => .error e (update t s)

/-! ## Runs that succeed -/

variable {x : EStateM ε σ α} {f : α → EStateM ε σ β} {s s' : σ} {a : α} {b : β} {e : ε} {l : List α}
  {l' : List β} {r : EStateM.Result ε σ α}

theorem bind_eq_ok {s'' : σ} : (x >>= f) s = .ok b s'' ↔ ∃ a s', x s = .ok a s' ∧ f a s' = .ok b s'' := by
  show EStateM.bind x f s = _ ↔ _
  unfold EStateM.bind
  cases x s with
  | ok a s' => exact ⟨fun h => ⟨a, s', rfl, h⟩, fun ⟨_, _, h, hf⟩ => by cases h; exact hf⟩
  | error e s' => exact ⟨fun h => (by cases h), fun ⟨_, _, h, _⟩ => by cases h⟩

theorem except_bind_eq_ok {x : Except ε α} {f : α → Except ε β} :
    (x >>= f) = .ok b ↔ ∃ a, x = .ok a ∧ f a = .ok b := by
  cases x with
  | ok a => exact ⟨fun h => ⟨a, rfl, h⟩, fun ⟨_, h, hf⟩ => by cases h; exact hf⟩
  | error e => exact ⟨fun h => (by cases h), fun ⟨_, h, _⟩ => by cases h⟩

theorem except_bind_eq_error {x : Except ε α} {f : α → Except ε β} :
    (x >>= f) = .error e ↔ x = .error e ∨ ∃ a, x = .ok a ∧ f a = .error e := by
  cases x with
  | ok a => simp [bind, Except.bind]
  | error e' => simp [bind, Except.bind]

theorem except_eq_ok_of_toOption {x : Except ε α} (h : x.toOption = some a) : x = .ok a := by
  cases x with
  | error e => cases h
  | ok b =>
    cases h
    rfl

@[simp] theorem except_mapError_eq_ok {x : Except ε α} {f : ε → ε'} : x.mapError f = .ok a ↔ x = .ok a := by
  cases x with
  | ok b => exact ⟨fun h => congrArg Except.ok (Except.ok.inj h), fun h =>
    congrArg Except.ok (Except.ok.inj h)⟩
  | error e => exact ⟨fun h => (by cases h), fun h => (by cases h)⟩

theorem bind_of_ok (h : x s = .ok a s') : (x >>= f) s = f a s' := by
  show EStateM.bind x f s = _
  simp only [EStateM.bind, h]

theorem bind_of_error (h : x s = .error e s') : (x >>= f) s = .error e s' := by
  show EStateM.bind x f s = _
  simp only [EStateM.bind, h]

theorem bind_congr_run {x x' : EStateM ε σ α} {f f' : α → EStateM ε σ β} (hx : x s = x' s)
    (hf : ∀ a s', x' s = .ok a s' → f a s' = f' a s') : (x >>= f) s = (x' >>= f') s := by
  cases h : x' s with
  | ok a s' => rw [bind_of_ok h, bind_of_ok (hx.trans h), hf a s' h]
  | error e s' => rw [bind_of_error h, bind_of_error (hx.trans h)]

@[simp] theorem pure_eq_ok {a b : α} : (pure a : EStateM ε σ α) s = .ok b s' ↔ a = b ∧ s = s' := by
  show EStateM.Result.ok a s = _ ↔ _
  simp

@[simp] theorem throw_ne_ok {b : α} : (throw e : EStateM ε σ α) s ≠ .ok b s' := by
  intro h
  cases h

def fromExcept : Except ε α → EStateM ε σ α
  | .ok a => pure a
  | .error e => throw e

/-- The result of a step that fails where it stands or moves on to a state made from its value. -/
def resultOf (x : Except ε α) (s : σ) (f : α → σ) : EStateM.Result ε σ Unit :=
  match x with
  | .ok a => .ok () (f a)
  | .error e => .error e s

@[simp] theorem resultOf_ok {f : α → σ} : resultOf (.ok a : Except ε α) s f = .ok () (f a) := rfl

@[simp] theorem resultOf_error {f : α → σ} : resultOf (.error e) s f = .error e s := rfl

/-! ## Fallible maps over a list -/

theorem mem_of_mapM_eq_ok {f : α → Except ε β} (h : l.mapM f = .ok l') : b ∈ l' ↔ ∃ a ∈ l, f a = .ok b := by
  induction l generalizing l' with
  | nil =>
    cases h
    simp
  | cons a l ih =>
    rw [List.mapM_cons] at h
    obtain ⟨b', hb', h⟩ := except_bind_eq_ok.1 h
    obtain ⟨bs, hbs, h⟩ := except_bind_eq_ok.1 h
    cases h
    have hinj : b = b' ↔ f a = .ok b := by
      rw [hb', Except.ok.injEq, eq_comm]
    rw [List.mem_cons, ih hbs, hinj]
    simp only [List.mem_cons, exists_eq_or_imp]

theorem exists_of_mapM_eq_error {f : α → Except ε β} (h : l.mapM f = .error e) : ∃ a ∈ l, f a = .error e := by
  induction l with
  | nil => cases h
  | cons a l ih =>
    rw [List.mapM_cons] at h
    obtain ha | ⟨b, -, h⟩ := except_bind_eq_error.1 h
    · exact ⟨a, List.mem_cons_self, ha⟩
    obtain hl | ⟨bs, -, h⟩ := except_bind_eq_error.1 h
    · obtain ⟨a', hmem, ha'⟩ := ih hl
      exact ⟨a', List.mem_cons_of_mem _ hmem, ha'⟩
    · cases h

theorem mem_of_mapM_eq_some {f : α → Option β} (h : l.mapM f = some l') : b ∈ l' ↔ ∃ a ∈ l, f a = some b := by
  induction l generalizing l' with
  | nil =>
    cases h
    simp
  | cons a l ih =>
    rw [List.mapM_cons] at h
    obtain ⟨first, hfirst, h⟩ := Option.bind_eq_some_iff.1 h
    obtain ⟨rest, hrest, h⟩ := Option.bind_eq_some_iff.1 h
    cases h
    simp [ih hrest, hfirst, eq_comm]

/-! ## What a run keeps -/

def stateOf : EStateM.Result ε σ α → σ
  | .ok _ s => s
  | .error _ s => s

@[simp] theorem stateOf_ok (a : α) (s : σ) : stateOf (.ok a s : EStateM.Result ε σ α) = s := rfl

def isOk : EStateM.Result ε σ α → Bool
  | .ok _ _ => true
  | .error _ _ => false

theorem exists_of_isOk (h : isOk r = true) : ∃ a s, r = .ok a s := by
  cases r with
  | ok a s => exact ⟨a, s, rfl⟩
  | error e s => cases h

theorem exists_of_not_isOk (h : isOk r = false) : ∃ e s, r = .error e s := by
  cases r with
  | ok a s => cases h
  | error e s => exact ⟨e, s, rfl⟩

theorem stateOf_bind_pure {f : α → β} : stateOf ((x >>= fun a => pure (f a)) s) = stateOf (x s) := by
  cases h : x s with
  | ok a s' => rw [bind_of_ok h]; rfl
  | error e s' => rw [bind_of_error h]; rfl

/-- A property of the state that a run keeps, also when it fails. -/
def Keeps (P : σ → Prop) (x : EStateM ε σ α) : Prop := ∀ s, P s → P (stateOf (x s))

namespace Keeps

variable {P : σ → Prop} {p : Prop}

theorem pure (a : α) : Keeps P (pure a : EStateM ε σ α) := fun _ h => h

theorem throw (e : ε) : Keeps P (throw e : EStateM ε σ α) := fun _ h => h

theorem fromExcept (x : Except ε α) : Keeps P (fromExcept x : EStateM ε σ α) := by
  cases x with
  | ok a => exact pure a
  | error e => exact throw e

theorem raise (x : Except ε α) : Keeps P (raise x : EStateM (Stop ε) σ α) := by
  cases x with
  | ok a => exact pure a
  | error e => exact throw _

theorem modify {g : σ → σ} (h : ∀ s, P s → P (g s)) : Keeps P (modify g : EStateM ε σ PUnit) := h

theorem bind (hx : Keeps P x) (hf : ∀ a, Keeps P (f a)) : Keeps P (x >>= f) := by
  intro s hs
  have hs' := hx s hs
  cases h : x s with
  | ok a s' =>
    rw [h] at hs'
    rw [bind_of_ok h]
    exact hf a s' hs'
  | error e s' =>
    rw [h] at hs'
    rw [bind_of_error h]
    exact hs'

theorem ite_of [Decidable p] {x y : EStateM ε σ α} (hx : p → Keeps P x) (hy : ¬ p → Keeps P y) :
    Keeps P (if p then x else y) := by
  by_cases hp : p
  · rw [if_pos hp]
    exact hx hp
  · rw [if_neg hp]
    exact hy hp

theorem ite [Decidable p] {x y : EStateM ε σ α} (hx : Keeps P x) (hy : Keeps P y) :
    Keeps P (if p then x else y) := ite_of (fun _ => hx) fun _ => hy

theorem when_bind [Decidable p] {x : EStateM ε σ PUnit} {f : PUnit → EStateM ε σ β} (hx : p → Keeps P x)
    (hf : ∀ u, Keeps P (f u)) : Keeps P (if p then x >>= f else f ⟨⟩) :=
  ite_of (fun hp => bind (hx hp) hf) fun _ => hf ⟨⟩

theorem get_bind {f : σ → EStateM ε σ β} (hf : ∀ s, Keeps P (f s)) : Keeps P (get >>= f) :=
  fun s hs => hf s s hs

theorem fromExcept_bind {x : Except ε α} (hf : ∀ a, x = .ok a → Keeps P (f a)) :
    Keeps P (EState.fromExcept x >>= f) := by
  cases x with
  | ok a => exact fun s hs => hf a rfl s hs
  | error e => exact fun s hs => hs

theorem map {g : α → β} (hx : Keeps P x) : Keeps P (g <$> x) := by
  rw [map_eq_pure_bind]
  exact bind hx fun _ => pure _

theorem mapError (f : ε → ε') (hx : Keeps P x) : Keeps P (mapError f x) := by
  intro s hs
  have hs' := hx s hs
  unfold EState.mapError
  cases h : x s <;> rw [h] at hs' <;> exact hs'

theorem recover {x : EStateM (Stop ε) σ α} (hx : Keeps P x) :
    Keeps P (recover x : EStateM (Stop ε') σ _) := by
  intro s hs
  have hs' := hx s hs
  unfold EState.recover
  rcases h : x s with ⟨a, s'⟩ | ⟨_ | _, s'⟩ <;> rw [h] at hs' <;> exact hs'

theorem zoom {Q : τ → Prop} {part : σ → τ} {update : τ → σ → σ} {x : EStateM ε τ α} (hx : Keeps Q x)
    (hpart : ∀ s, P s → Q (part s)) (hupdate : ∀ s t, P s → Q t → P (update t s)) :
    Keeps P (zoom part update x) := by
  intro s hs
  have ht := hx _ (hpart s hs)
  unfold EState.zoom
  cases h : x (part s) <;> rw [h] at ht <;> exact hupdate s _ hs ht

end Keeps

/-! ## What a run ends with -/

/-- From this state the run ends with a value and state in `Q`, or with an error and state in `E`. -/
def Ends (x : EStateM ε σ α) (s : σ) (Q : α → σ → Prop) (E : ε → σ → Prop) : Prop :=
  match x s with
  | .ok a s' => Q a s'
  | .error e s' => E e s'

section ends
variable {Q Q' : α → σ → Prop} {E E' : ε → σ → Prop}

@[simp] theorem ends_pure : Ends (pure a : EStateM ε σ α) s Q E ↔ Q a s := Iff.rfl

theorem ends_bind {x : EStateM ε σ β} {f : β → EStateM ε σ α} :
    Ends (x >>= f) s Q E ↔ Ends x s (fun b s' => Ends (f b) s' Q E) E := by
  unfold Ends
  cases h : x s with
  | ok b s' => rw [bind_of_ok h]
  | error e s' => rw [bind_of_error h]

@[simp] theorem ends_get_bind {f : σ → EStateM ε σ α} : Ends (get >>= f) s Q E ↔ Ends (f s) s Q E := Iff.rfl

theorem ends_raise {x : Except ε α} {E : Stop ε → σ → Prop} :
    Ends (raise x) s Q E ↔ (∀ a, x = .ok a → Q a s) ∧ ∀ e, x = .error e → E (.err e) s := by
  cases x with
  | ok a => exact ⟨fun h => ⟨fun _ ha => Except.ok.inj ha ▸ h, fun _ he => nomatch he⟩, fun h => h.1 a rfl⟩
  | error e =>
    exact ⟨fun h => ⟨fun _ ha => (nomatch ha), fun _ he => Except.error.inj he ▸ h⟩, fun h => h.2 e rfl⟩

theorem Ends.mono (h : Ends x s Q E) (hQ : ∀ a s', Q a s' → Q' a s') (hE : ∀ e s', E e s' → E' e s') :
    Ends x s Q' E' := by
  unfold Ends at h ⊢
  cases hx : x s with
  | ok a s' => rw [hx] at h; exact hQ a s' h
  | error e s' => rw [hx] at h; exact hE e s' h

theorem ends_mapError {f : ε → ε'} {E : ε' → σ → Prop} :
    Ends (mapError f x) s Q E ↔ Ends x s Q fun e s' => E (f e) s' := by
  unfold Ends mapError
  cases x s <;> rfl

theorem ends_zoom {x : EStateM ε τ α} {part : σ → τ} {update : τ → σ → σ} : Ends (zoom part update x) s Q E ↔
      Ends x (part s) (fun a t => Q a (update t s)) fun e t => E e (update t s) := by
  unfold Ends zoom
  cases x (part s) <;> rfl

theorem ends_recover {x : EStateM (Stop ε) σ α} {Q : Except ε α → σ → Prop} {E : Stop ε' → σ → Prop} :
    Ends (recover x) s Q E ↔ Ends x s (fun a s' => Q (.ok a) s') fun e s' =>
      match e with
      | .err e => Q (.error e) s'
      | .panic => E .panic s' := by
  unfold Ends recover
  rcases x s with ⟨a, s'⟩ | ⟨_ | _, s'⟩ <;> rfl

theorem Keeps.ends {P : σ → Prop} (hx : Keeps P x) (hs : P s) :
    Ends x s (fun _ s' => P s') fun _ s' => P s' := by
  have hs' := hx s hs
  unfold Ends
  cases h : x s with
  | ok a s' => rw [h] at hs'; exact hs'
  | error e s' => rw [h] at hs'; exact hs'

theorem Ends.and (h : Ends x s Q E) (h' : Ends x s Q' E') :
    Ends x s (fun a s' => Q a s' ∧ Q' a s') fun e s' => E e s' ∧ E' e s' := by
  unfold Ends at h h' ⊢
  cases hx : x s with
  | ok a s' => rw [hx] at h h'; exact ⟨h, h'⟩
  | error e s' => rw [hx] at h h'; exact ⟨h, h'⟩

theorem ends_self : Ends x s (fun a s' => x s = .ok a s') fun e s' => x s = .error e s' := by
  unfold Ends
  cases hx : x s <;> rfl

theorem Ends.bind {x : EStateM ε σ β} {f : β → EStateM ε σ α} {Q' : β → σ → Prop} (hx : Ends x s Q' E)
    (hf : ∀ b s', x s = .ok b s' → Q' b s' → Ends (f b) s' Q E) : Ends (x >>= f) s Q E :=
  ends_bind.2 ((ends_self.and hx).mono (fun b s' h => hf b s' h.1 h.2) fun _ _ h => h.2)

theorem Ends.stateOf {P F : σ → Prop} (h : Ends x s (fun _ s' => P s') fun _ s' => F s') :
    F (stateOf (x s)) ∨ P (stateOf (x s)) := by
  unfold Ends at h
  cases hx : x s with
  | ok a s' => rw [hx] at h; exact .inr h
  | error e s' => rw [hx] at h; exact .inl h

end ends

end EState
