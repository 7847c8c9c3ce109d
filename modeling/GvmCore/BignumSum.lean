import GvmCore.BignumProduct
import GvmCore.Functions

namespace GvmCore
open Digits
set_option autoImplicit true

namespace VBignum

theorem carry_eq (ht : t < 2 ^ 17) : (if t > 0xFFFF then 1 else 0) = t / 2 ^ 16 := by
  split <;> omega

theorem value_addCarry (hc : c ≤ 1) (x : VBig) :
    value (addCarry x c) = (value x + c) % 2 ^ (16 * x.length) := by
  induction x generalizing c with
  | nil => exact (Nat.mod_one _).symm
  | cons x xs ih =>
    have hx := x.isLt
    by_cases h0 : c = 0
    · rw [h0, Nat.add_zero, Nat.mod_eq_of_lt (value_lt _)]
      rfl
    · simp only [addCarry, if_neg h0, value_cons]
      rw [carry_eq (by omega), ih (by omega), digit_add_carry_mod, pow_length_cons]
      ring_nf

theorem value_addLoop (hc : c ≤ 1) (x y : VBig) (hl : y.length ≤ x.length) :
    value (addLoop x y c) = (value x + value y + c) % 2 ^ (16 * x.length) := by
  induction x generalizing y c with
  | nil =>
    have hy : y = [] := List.length_eq_zero_iff.mp (Nat.le_zero.mp hl)
    subst hy
    rw [addLoop, value_addCarry hc]
    · rfl
    · simp
  | cons x xs ih =>
    cases y with
    | nil =>
      rw [addLoop, value_addCarry hc, value_nil, Nat.add_zero]
      simp
    | cons y ys =>
      have hx := x.isLt
      have hy := y.isLt
      simp only [addLoop, value_cons]
      rw [carry_eq (by omega), ih (by omega) ys (Nat.le_of_succ_le_succ hl), digit_add_carry_mod,
        pow_length_cons]
      ring_nf

theorem value_add (hl : y.length ≤ x.length) :
    value (add x y) = (value x + value y) % 2 ^ (16 * x.length) :=
  value_addLoop (Nat.zero_le 1) x y hl

theorem value_sub_mod (hl : y.length ≤ x.length) :
    value (sub x y) = (value x + 2 ^ (16 * x.length) - value y) % 2 ^ (16 * x.length) := by
  have hlt := value_lt (sub x y)
  rw [length_sub] at hlt
  by_cases h : value y ≤ value x
  · have hsub := value_sub hl h
    have he : value x + 2 ^ (16 * x.length) - value y =
        value (sub x y) + 2 ^ (16 * x.length) := by omega
    rw [he, Nat.add_mod_right, Nat.mod_eq_of_lt hlt]
  · have hwrap := value_sub_wrap hl (Nat.lt_of_not_le h)
    have he : value x + 2 ^ (16 * x.length) - value y = value (sub x y) := by omega
    rw [he, Nat.mod_eq_of_lt hlt]

end VBignum

open VBignum

def expRound (tmp2 : VBig) (p : VBig × VBig) : VBig × VBig := (mul p.1 tmp2, sub p.2 (setOne p.2))

section Power

variable {a b tmp2 : VBig}

theorem ne_nil_of_value (h : value b ≠ 0) : b ≠ [] := by
  rintro rfl
  exact h rfl

theorem expRounds_spec (a : VBig) {b : VBig} (tmp2 : VBig) (hk : k < value b) :
    value ((expRound tmp2)^[k] (a, b)).2 = value b - k ∧
    ((expRound tmp2)^[k] (a, b)).1.length = a.length ∧
    value ((expRound tmp2)^[k] (a, b)).1 = value a * value tmp2 ^ k % 2 ^ (16 * a.length) := by
  induction k with
  | zero =>
    refine ⟨rfl, rfl, ?_⟩
    rw [Nat.pow_zero, Nat.mul_one, Nat.mod_eq_of_lt (value_lt a)]
    rfl
  | succ k ih =>
    obtain ⟨hb, hlen, ha⟩ := ih (by omega)
    rw [Function.iterate_succ_apply']
    generalize (expRound tmp2)^[k] (a, b) = p at *
    have hne : p.2 ≠ [] := ne_nil_of_value (by omega)
    have hone := value_setOne hne
    have hsub := value_sub (x := p.2) (y := setOne p.2) (length_setOne p.2).le (by omega)
    refine ⟨?_, ?_, ?_⟩
    · change value (sub p.2 (setOne p.2)) = _
      omega
    · change (mul p.1 tmp2).length = _
      rw [length_mul, hlen]
    · change value (mul p.1 tmp2) = _
      rw [value_mul, hlen, ha, Nat.mod_mul_mod, Nat.mul_assoc, ← Nat.pow_succ]

theorem expRounds_guard (a tmp2 : VBig) (hk : k < value b) :
    eqOne ((expRound tmp2)^[k] (a, b)).2 = true ↔ k + 1 = value b := by
  obtain ⟨hb, -, -⟩ := expRounds_spec a tmp2 hk
  rw [eqOne_iff (ne_nil_of_value (by omega)), hb]
  omega

theorem expLoop_eq (hb : value b = n + 1) :
    expLoop a tmp2 b = ((expRound tmp2)^[n] (a, b)).1 := by
  induction n generalizing a b with
  | zero =>
    have hone : eqOne b = true := (eqOne_iff (ne_nil_of_value (by omega))).mpr hb
    rw [expLoop, if_pos hone]
    rfl
  | succ n ih =>
    have hne : b ≠ [] := ne_nil_of_value (by omega)
    have hone : ¬ eqOne b = true := by
      rw [eqOne_iff hne]
      omega
    have hsub :=
      value_sub (x := b) (y := setOne b) (length_setOne b).le (by rw [value_setOne hne]; omega)
    rw [value_setOne hne] at hsub
    rw [expLoop, if_neg hone, ih (by omega), Function.iterate_succ_apply]
    rfl

theorem length_expLoop (hb : value b ≠ 0) : (expLoop a tmp2 b).length = a.length := by
  obtain ⟨n, hn⟩ := Nat.exists_eq_succ_of_ne_zero hb
  rw [expLoop_eq hn]
  exact (expRounds_spec a tmp2 (by omega)).2.1

theorem value_expLoop (hb : value b ≠ 0) :
    value (expLoop a a b) = value a ^ value b % 2 ^ (16 * a.length) := by
  obtain ⟨n, hn⟩ := Nat.exists_eq_succ_of_ne_zero hb
  rw [expLoop_eq hn, (expRounds_spec a a (by omega)).2.2, hn, Nat.pow_succ']

end Power

end GvmCore
