import Mathlib.Algebra.Order.Ring.Nat
import Mathlib.Data.Nat.ModEq
import Mathlib.Tactic.Linarith
import Mathlib.Tactic.Ring

namespace GvmCore.Barrett
set_option autoImplicit true

/-- The estimate of `x / m` from the high part of `x` and the reciprocal `mu` of `m`, scaled by
`B * R`: two divisions by radices in place of one by the modulus. -/
def estimate (B R mu x : Nat) : Nat := x / B * mu / R

section Estimate

variable {B R m mu x : Nat}

theorem estimate_mul_le (hR : 0 < R) (hmu : mu * m ≤ B * R) : estimate B R mu x * m ≤ x := by
  have hq : estimate B R mu x * R ≤ x / B * mu := Nat.div_mul_le_self _ R
  have hx : x / B * B ≤ x := Nat.div_mul_le_self x B
  have hscaled : estimate B R mu x * m * R ≤ x * R :=
    calc estimate B R mu x * m * R = estimate B R mu x * R * m := by ring
      _ ≤ x / B * mu * m := Nat.mul_le_mul_right m hq
      _ = x / B * (mu * m) := by ring
      _ ≤ x / B * (B * R) := Nat.mul_le_mul_left _ hmu
      _ = x / B * B * R := by ring
      _ ≤ x * R := Nat.mul_le_mul_right R hx
  exact Nat.le_of_mul_le_mul_right hscaled hR

theorem sub_estimate_lt (hB : 0 < B) (hR : 0 < R) (hm : B ≤ m) (hx : x < B * R)
    (hmu : B * R ≤ (mu + 1) * m) : x < (estimate B R mu x + 3) * m := by
  have hm0 : 0 < m := hB.trans_le hm
  have hq : x / B * mu < (estimate B R mu x + 1) * R :=
    Nat.lt_mul_of_div_lt (Nat.lt_succ_self _) hR
  have hhigh : x < (x / B + 1) * B := Nat.lt_mul_of_div_lt (Nat.lt_succ_self _) hB
  have hlt : x / B < R := Nat.div_lt_of_lt_mul hx
  have hscaled : x / B * B * R < (estimate B R mu x + 2) * m * R :=
    calc x / B * B * R = x / B * (B * R) := by ring
      _ ≤ x / B * ((mu + 1) * m) := Nat.mul_le_mul_left _ hmu
      _ = x / B * mu * m + x / B * m := by ring
      _ < (estimate B R mu x + 1) * R * m + R * m :=
        Nat.add_lt_add_of_le_of_lt (Nat.mul_le_mul_right m hq.le)
          (Nat.mul_lt_mul_of_pos_right hlt hm0)
      _ = (estimate B R mu x + 2) * m * R := by ring
  have hlow : x / B * B < (estimate B R mu x + 2) * m := Nat.lt_of_mul_lt_mul_right hscaled
  calc x < x / B * B + B := by rw [← Nat.succ_mul]; exact hhigh
    _ ≤ (estimate B R mu x + 2) * m + m := Nat.add_le_add hlow.le hm
    _ = (estimate B R mu x + 3) * m := by ring

end Estimate

section Difference

variable {x p T N : Nat}

/-- With room for a sign the wrapped difference of two residues shows by its size whether it is
negative, and one period more makes it the difference of the numbers. -/
theorem difference_of_residues (hp : p ≤ x) (hT : x - p < T) (hN : 2 * T ≤ N) :
    let r := (x % T + N - p % T) % N
    (if N ≤ 2 * r then (r + T) % N else r) = x - p := by
  have hT0 : 0 < T := by omega
  have hxT := Nat.mod_lt x hT0
  have hpT := Nat.mod_lt p hT0
  have hsum : (p % T + (x - p)) % T = x % T := by
    rw [Nat.mod_add_mod, Nat.add_sub_cancel' hp]
  -- the sum of the residues passes the period at most once
  have hcases : x % T = p % T + (x - p) ∨ x % T + T = p % T + (x - p) := by
    by_cases hlt : p % T + (x - p) < T
    · exact .inl (by rw [← hsum, Nat.mod_eq_of_lt hlt])
    · right
      rw [← hsum, Nat.mod_eq_sub_mod (by omega), Nat.mod_eq_of_lt (by omega)]
      omega
  rcases hcases with hdiff | hdiff
  · have hr : (x % T + N - p % T) % N = x - p := by
      have hshift : x % T + N - p % T = x - p + N := by omega
      rw [hshift, Nat.add_mod_right, Nat.mod_eq_of_lt (by omega)]
    simp only [hr]
    rw [if_neg (by omega)]
  · have hr : (x % T + N - p % T) % N = N + (x - p) - T := by
      have hshift : x % T + N - p % T = N + (x - p) - T := by omega
      rw [hshift, Nat.mod_eq_of_lt (by omega)]
    simp only [hr]
    rw [if_pos (by omega), Nat.sub_add_cancel (by omega), Nat.add_mod_left,
      Nat.mod_eq_of_lt (by omega)]

/-- Without that room nothing is cut off, and the added period is a multiple of the modulus. -/
theorem difference_without_period (hp : p ≤ x) (hx : x < N) (hT : N ∣ T) (hT0 : 0 < T) :
    let r := (x % T + N - p % T) % N
    r = x - p ∧ (r + T) % N = x - p := by
  have hNT : N ≤ T := Nat.le_of_dvd hT0 hT
  have hr : (x % T + N - p % T) % N = x - p := by
    rw [Nat.mod_eq_of_lt (hx.trans_le hNT), Nat.mod_eq_of_lt ((hp.trans_lt hx).trans_le hNT)]
    have hshift : x + N - p = x - p + N := by omega
    rw [hshift, Nat.add_mod_right, Nat.mod_eq_of_lt (by omega)]
  obtain ⟨c, rfl⟩ := hT
  refine ⟨hr, ?_⟩
  simp only [hr]
  rw [Nat.add_mul_mod_self_left, Nat.mod_eq_of_lt (by omega)]

end Difference

end GvmCore.Barrett
