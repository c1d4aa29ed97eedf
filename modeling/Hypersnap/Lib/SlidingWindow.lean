import Mathlib.Algebra.Order.Monoid.Defs
import Mathlib.Data.List.Chain
import Mathlib.Tactic.Common

/-!
# `Lib.SlidingWindow` — a permission that each use renews

A permission is good for `ttl` after its last use. A use carries a stamp of its own and is checked at some
time; if it is accepted the stored time moves on to the stamp, unless that is a gain of no more than
`throttle`. So the stored time lags behind the stamps by up to `throttle`, and a run of uses is caught between
two bounds: a use within `ttl - throttle` of **some** earlier renewal is accepted (`Run.accepted_of_recent`),
and one that is accepted is within `ttl` of one (`Run.recent_of_accepted`).
-/

namespace SlidingWindow

/-- A use: the time that it carries, and the time at which it is checked. -/
structure Use (T : Type) where
  stamp : T
  now : T

variable {T : Type} [AddCommMonoid T] [LinearOrder T]

/-- The stored time after a use. -/
def renew (throttle last stamp : T) : T := if last + throttle < stamp then stamp else last

/-- **Runs of uses**, the latest first and each with its outcome, and the time that is stored after them. -/
inductive Run (ttl throttle start : T) : List (Use T × Bool) → T → Prop
  | start : Run ttl throttle start [] start
  | accepted {uses : List (Use T × Bool)} {last : T} (u : Use T) :
      Run ttl throttle start uses last → u.now ≤ last + ttl →
        Run ttl throttle start ((u, true) :: uses) (renew throttle last u.stamp)
  | rejected {uses : List (Use T × Bool)} {last : T} (u : Use T) :
      Run ttl throttle start uses last → last + ttl < u.now → Run ttl throttle start ((u, false) :: uses) last

/-- The times at which the permission was renewed: its start, and the stamps of the uses that were
    accepted. -/
def Renewed (start : T) (uses : List (Use T × Bool)) (t : T) : Prop :=
  t = start ∨ ∃ u, (u, true) ∈ uses ∧ u.stamp = t

/-- Each use comes soon after the stamp of the one before it, the first one after the start. -/
def Regular (ttl throttle start : T) (uses : List (Use T)) : Prop :=
  List.IsChain
    (fun later earlier : Use T => later.now + throttle ≤ earlier.stamp + ttl) (uses ++ [⟨start, start⟩])

namespace Run

variable {ttl throttle start last : T} {uses after : List (Use T × Bool)}

omit [AddCommMonoid T] [LinearOrder T] in
theorem renewed_cons {t : T} (x : Use T × Bool) (h : Renewed start uses t) : Renewed start (x :: uses) t := by
  rcases h with h | ⟨u, hu, ht⟩
  · exact .inl h
  · exact .inr ⟨u, List.mem_cons_of_mem _ hu, ht⟩

theorem renewed_last (h : Run ttl throttle start uses last) : Renewed start uses last := by
  induction h with
  | start => exact .inl rfl
  | @accepted uses last u _ _ ih =>
    unfold renew
    split
    · exact .inr ⟨u, List.mem_cons_self, rfl⟩
    · exact renewed_cons _ ih
  | rejected u _ _ ih => exact renewed_cons _ ih

theorem before {x : Use T × Bool} (h : Run ttl throttle start (after ++ x :: uses) last) :
    ∃ last', Run ttl throttle start (x :: uses) last' := by
  induction after generalizing last with
  | nil => exact ⟨last, h⟩
  | cons y after ih =>
    cases h with
    | accepted _ h _ => exact ih h
    | rejected _ h _ => exact ih h

theorem recent_of_accepted {u : Use T} (h : Run ttl throttle start (after ++ (u, true) :: uses) last) :
    ∃ t, Renewed start uses t ∧ u.now ≤ t + ttl := by
  obtain ⟨_, h⟩ := h.before
  cases h with
  | accepted _ h hnow => exact ⟨_, h.renewed_last, hnow⟩

variable [IsOrderedCancelAddMonoid T]

/-- **No renewal is further ahead than the throttle.** -/
theorem le_last_add_throttle (hthrottle : 0 ≤ throttle) (h : Run ttl throttle start uses last) {t : T}
    (ht : Renewed start uses t) : t ≤ last + throttle := by
  induction h with
  | start =>
    rcases ht with rfl | ⟨u, hu, -⟩
    · exact le_add_of_nonneg_right hthrottle
    · cases hu
  | @accepted uses last u _ _ ih =>
    -- the new stamp, or a renewal that the old time already covered
    have hold : Renewed start uses t → t ≤ renew throttle last u.stamp + throttle := by
      intro ht
      unfold renew
      split
      · next hlt => exact ((ih ht).trans hlt.le).trans (le_add_of_nonneg_right hthrottle)
      · exact ih ht
    rcases ht with ht | ⟨v, hv, ht⟩
    · exact hold (.inl ht)
    · rcases List.mem_cons.1 hv with hv | hv
      · cases hv
        rw [← ht]
        unfold renew
        split
        · exact le_add_of_nonneg_right hthrottle
        · next hle => exact not_lt.1 hle
      · exact hold (.inr ⟨v, hv, ht⟩)
  | rejected u _ _ ih =>
    rcases ht with ht | ⟨v, hv, ht⟩
    · exact ih (.inl ht)
    · exact ih (.inr ⟨v, (List.mem_cons.1 hv).resolve_left nofun, ht⟩)

theorem accepted_of_recent (hthrottle : 0 ≤ throttle) {u : Use T} {outcome : Bool}
    {after : List (Use T × Bool)} (h : Run ttl throttle start (after ++ (u, outcome) :: uses) last) {t : T}
    (ht : Renewed start uses t) (hrecent : u.now + throttle ≤ t + ttl) : outcome = true := by
  obtain ⟨stored, h⟩ := h.before
  cases h with
  | accepted => rfl
  | rejected _ h hexpired =>
    have hstored : t ≤ stored + throttle := h.le_last_add_throttle hthrottle ht
    have hle : u.now + throttle ≤ stored + ttl + throttle :=
      calc u.now + throttle ≤ t + ttl := hrecent
        _ ≤ stored + throttle + ttl := by gcongr
        _ = stored + ttl + throttle := add_right_comm _ _ _
    exact absurd (le_of_add_le_add_right hle) hexpired.not_ge

/-- **Regular use keeps the permission.** -/
theorem all_accepted (hthrottle : 0 ≤ throttle) (h : Run ttl throttle start uses last)
    (hgaps : Regular ttl throttle start (uses.map Prod.fst)) : ∀ x ∈ uses, x.2 = true := by
  induction uses generalizing last with
  | nil => exact fun _ hx => nomatch hx
  | cons x uses ih =>
    have hbefore : ∃ last', Run ttl throttle start uses last' := by
      cases h with
      | accepted _ h _ => exact ⟨_, h⟩
      | rejected _ h _ => exact ⟨_, h⟩
    obtain ⟨_, hrun⟩ := hbefore
    have hall := ih hrun (List.IsChain.tail hgaps)
    obtain ⟨u, outcome⟩ := x
    -- the use before this one was accepted, so its stamp is a renewal
    have hrecent : ∃ t, Renewed start uses t ∧ u.now + throttle ≤ t + ttl := by
      cases uses with
      | nil => exact ⟨start, .inl rfl, (List.isChain_cons_cons.1 hgaps).1⟩
      | cons y uses =>
        obtain ⟨v, accepted⟩ := y
        have hv : accepted = true := hall _ List.mem_cons_self
        exact ⟨v.stamp, .inr ⟨v, hv ▸ List.mem_cons_self, rfl⟩, (List.isChain_cons_cons.1 hgaps).1⟩
    obtain ⟨t, ht, hnow⟩ := hrecent
    have houtcome : outcome = true := @accepted_of_recent _ _ _ _ _ _ _ _ _ hthrottle u outcome [] h t ht hnow
    exact List.forall_mem_cons.2 ⟨houtcome, hall⟩

end Run

end SlidingWindow
