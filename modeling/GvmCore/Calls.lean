import GvmCore.Exec

namespace GvmCore
set_option autoImplicit true

/-- The outcome as far as `view` shows the state. -/
def Outcome.seen (view : σ → τ) : Outcome φ σ α → Outcome φ τ α
  | .ok a s => .ok a (view s)
  | .exit s => .exit (view s)
  | .fault e => .fault e

/-- Two outcomes of one kind and value, in related states. -/
inductive Outcome.Matched (R : σ → τ → Prop) : Outcome φ σ α → Outcome φ τ α → Prop
  | ok : R s t → Matched R (.ok a s) (.ok a t)
  | exit : R s t → Matched R (.exit s) (.exit t)
  | fault : Matched R (.fault e) (.fault e)

namespace Outcome.Matched

theorem mono {x : Outcome φ σ α} {y : Outcome φ τ α} (h : Matched R x y)
    (hRS : ∀ s t, R s t → S s t) : Matched S x y := by
  cases h with
  | ok h => exact .ok (hRS _ _ h)
  | exit h => exact .exit (hRS _ _ h)
  | fault => exact .fault

theorem ok_left {y : Outcome φ τ α} (h : Matched R (.ok a s) y) : ∃ t, y = .ok a t ∧ R s t := by
  cases h with
  | ok h => exact ⟨_, rfl, h⟩

theorem bind {m : Exec φ σ α} {m' : Exec φ τ α} {f : α → Exec φ σ β} {f' : α → Exec φ τ β}
    (h : Matched R (m s) (m' t)) (hRS : ∀ s t, R s t → S s t)
    (hf : ∀ a s t, R s t → Matched S (f a s) (f' a t)) :
    Matched S ((m >>= f) s) ((m' >>= f') t) := by
  rw [Exec.bind_def, Exec.bind_def]
  generalize m s = x at h ⊢
  generalize m' t = y at h ⊢
  cases h with
  | ok h => exact hf _ _ _ h
  | exit h => exact .exit (hRS _ _ h)
  | fault => exact .fault

end Outcome.Matched

namespace Exec

/-- What the call number `n` of calls one after the other does, as far as `view` shows it; the
first one has number zero. -/
def nthCall (view : σ → τ) (m : Exec φ σ α) : Nat → σ → Outcome φ τ α
  | 0, s => (m s).seen view
  | n + 1, s =>
    match m s with
    | .ok _ t => nthCall view m n t
    | .exit t => .exit (view t)
    | .fault e => .fault e

end Exec
end GvmCore
