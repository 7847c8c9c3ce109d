import Mathlib.Logic.Basic

namespace GvmCore
set_option autoImplicit true

namespace Layout

/-- The places of units that stand one behind the other, where `next` is the place behind a
unit. -/
def lay (next : A → α → A) (a : A) : List α → List (A × α)
  | [] => []
  | u :: us => (a, u) :: lay next (next a u) us

variable {next : A → α → A}

theorem lay_append (us vs : List α) :
    lay next a (us ++ vs) = lay next a us ++ lay next (us.foldl next a) vs := by
  induction us generalizing a with
  | nil => rfl
  | cons u us ih => exact congrArg ((a, u) :: ·) ih

theorem map_snd_lay (us : List α) : (lay next a us).map Prod.snd = us := by
  induction us generalizing a with
  | nil => rfl
  | cons u us ih => exact congrArg (u :: ·) ih

theorem forall_lay_iff {P : A → α → Prop} {us : List α} : (∀ p ∈ lay next a us, P p.1 p.2) ↔
    ∀ before u after, us = before ++ u :: after → P (before.foldl next a) u := by
  constructor
  · rintro h before u after rfl
    rw [lay_append] at h
    exact h _ (List.mem_append_right _ List.mem_cons_self)
  · intro h
    induction us generalizing a with
    | nil => exact fun p hp => absurd hp List.not_mem_nil
    | cons v us ih =>
      intro p hp
      rcases List.mem_cons.mp hp with rfl | hp
      · exact h [] v us rfl
      · refine ih (fun before u after hus => ?_) p hp
        exact h (v :: before) u after (congrArg (v :: ·) hus)

end Layout
end GvmCore
