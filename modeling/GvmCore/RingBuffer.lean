import Mathlib.Data.Fin.Basic
import Mathlib.Logic.Function.Basic

namespace GvmCore.RingBuffer
set_option autoImplicit true

variable {n : Nat} {α : Type}

/-- The index `i` places behind `r`, around the end of the array. -/
def around (r : Fin n) (i : Nat) : Fin n := ⟨(r + i) % n, Nat.mod_lt _ r.pos⟩

def next (r : Fin n) : Fin n := around r 1

/-- The cells from index `r` up to index `w` hold `l`. An empty list has no index to read at; a list
that fills the array has `r = w`. -/
inductive Holds (cells : Fin n → α) : Option (Fin n) → Fin n → List α → Prop
  | empty (w : Fin n) : Holds cells none w []
  | items (r : Fin n) (hne : l ≠ []) (hlen : l.length ≤ n)
      (hcells : ∀ i (h : i < l.length), cells (around r i) = l.get ⟨i, h⟩) :
      Holds cells (some r) (around r l.length) l

@[simp] theorem around_zero (r : Fin n) : around r 0 = r :=
  Fin.ext (Nat.mod_eq_of_lt r.isLt)

theorem around_around (r : Fin n) (i j : Nat) : around (around r i) j = around r (i + j) := by
  apply Fin.ext
  simp only [around, Nat.mod_add_mod, Nat.add_assoc]

theorem val_around (r : Fin n) (hi : i ≤ n) :
    (around r i : Nat) = if r + i < n then r + i else r + i - n := by
  have hr := r.isLt
  simp only [around]
  split
  · rename_i h
    exact Nat.mod_eq_of_lt h
  · rename_i h
    rw [Nat.mod_eq_sub_mod (by omega), Nat.mod_eq_of_lt (by omega)]

theorem around_inj (r : Fin n) (hi : i < n) (hj : j < n) : around r i = around r j ↔ i = j := by
  have hr := r.isLt
  rw [Fin.ext_iff, val_around r hi.le, val_around r hj.le]
  split <;> split <;> omega

theorem around_eq_self (r : Fin n) (hi : 0 < i) (hi' : i ≤ n) : around r i = r ↔ i = n := by
  have hr := r.isLt
  rw [Fin.ext_iff, val_around r hi']
  split <;> omega

namespace Holds

variable {cells : Fin n → α} {ro : Option (Fin n)} {r w : Fin n} {l : List α}

theorem isNone_iff (h : Holds cells ro w l) : ro = none ↔ l = [] := by
  cases h with
  | empty => simp
  | items r hne hlen hcells => simp [hne]

theorem full_iff (h : Holds cells ro w l) : ro = some w ↔ l.length = n := by
  cases h with
  | empty w =>
    have hn := w.pos
    simp only [reduceCtorEq, List.length_nil, false_iff]
    omega
  | items r hne hlen hcells =>
    rw [Option.some_inj, eq_comm]
    exact around_eq_self r (List.length_pos_iff.mpr hne) hlen

theorem head (h : Holds cells (some r) w (x :: l)) : cells r = x := by
  cases h with
  | items r hne hlen hcells => simpa using hcells 0 (Nat.succ_pos _)

theorem next_eq_iff (h : Holds cells (some r) w (x :: l)) : next r = w ↔ l = [] := by
  cases h with
  | items r hne hlen hcells =>
    rw [List.length_cons] at hlen ⊢
    by_cases hfull : l.length + 1 = n
    · have hself : around r (l.length + 1) = r := (around_eq_self r (by omega) hlen).mpr hfull
      have hone : next r = r ↔ 1 = n := around_eq_self r (by omega) (by omega)
      rw [hself, hone, ← List.length_eq_zero_iff]
      omega
    · have hone : next r = around r (l.length + 1) ↔ 1 = l.length + 1 :=
        around_inj r (by omega) (by omega)
      rw [hone, ← List.length_eq_zero_iff]
      omega

theorem tail (h : Holds cells (some r) w (x :: l)) :
    Holds cells (if next r = w then none else some (next r)) w l := by
  have hiff := h.next_eq_iff
  by_cases hl : l = []
  · rw [if_pos (hiff.mpr hl), hl]
    exact .empty w
  · rw [if_neg fun hw => hl (hiff.mp hw)]
    cases h with
    | items r hne hlen hcells =>
      rw [List.length_cons] at hlen ⊢
      have hw : around r (l.length + 1) = around (next r) l.length := by
        rw [next, around_around, Nat.add_comm]
      rw [hw]
      refine .items (next r) hl (by omega) ?_
      intro i hi
      have hcell := hcells (i + 1) (Nat.succ_lt_succ hi)
      rw [next, around_around, Nat.add_comm]
      exact hcell

theorem concat (h : Holds cells ro w l) (hfull : l.length ≠ n) (v : α) :
    Holds (Function.update cells w v) (some (ro.getD w)) (next w) (l ++ [v]) := by
  cases h with
  | empty w =>
    refine .items (l := [v]) w (by simp) w.pos ?_
    intro i hi
    obtain rfl : i = 0 := by simpa using hi
    simp
  | items r hne hlen hcells =>
    have hw : next (around r l.length) = around r (l ++ [v]).length := by
      rw [next, around_around, List.length_append, List.length_singleton]
    rw [hw, Option.getD_some]
    have hlen' : (l ++ [v]).length = l.length + 1 := by simp
    refine .items r (by simp) (by omega) ?_
    intro i hi
    by_cases hil : i < l.length
    · have hother : around r i ≠ around r l.length := fun he => by
        rw [around_inj r (by omega) (by omega)] at he
        omega
      rw [Function.update_of_ne hother, hcells i hil]
      simp [hil]
    · obtain rfl : i = l.length := by omega
      simp

end Holds

end GvmCore.RingBuffer
