import Mathlib.Algebra.Order.Ring.Int
import Mathlib.Tactic.Positivity
import Mathlib.Tactic.Ring
import Mathlib.Tactic.Zify

namespace GvmCore.Signed
set_option autoImplicit true

theorem ofInt_sub (z k : Int) : BitVec.ofInt w (z - k) = BitVec.ofInt w z - BitVec.ofInt w k := by
  rw [Int.sub_eq_add_neg, BitVec.ofInt_add, BitVec.ofInt_neg, BitVec.sub_eq_add_neg]

theorem ofInt_add_ofNat (z : Int) (n : Nat) :
    BitVec.ofInt w z + BitVec.ofNat w n = BitVec.ofInt w (z + n) := by
  rw [BitVec.ofInt_add, BitVec.ofInt_natCast]

theorem ofInt_sub_ofNat (z : Int) (n : Nat) :
    BitVec.ofInt w z - BitVec.ofNat w n = BitVec.ofInt w (z - n) := by
  rw [ofInt_sub, BitVec.ofInt_natCast]

theorem two_pow_le (hw : 32 ≤ w) : (2 : Int) ^ 32 ≤ 2 ^ w :=
  pow_le_pow_right₀ (by decide) hw

theorem toNat_ofInt_of_nonneg (hw : 32 ≤ w) (h0 : 0 ≤ z) (h1 : z < 2 ^ 32) :
    ((BitVec.ofInt w z).toNat : Int) = z := by
  have hp := two_pow_le hw
  rw [BitVec.toNat_ofInt, Nat.cast_pow, Nat.cast_ofNat, Int.emod_eq_of_lt h0 (by omega)]
  exact Int.toNat_of_nonneg h0

theorem toNat_ofInt_of_neg (hw : 32 ≤ w) (h0 : z < 0) (h1 : -2 ^ 31 - 2 ^ 10 ≤ z) :
    2 ^ 30 ≤ ((BitVec.ofInt w z).toNat : Int) := by
  have hp := two_pow_le hw
  rw [BitVec.toNat_ofInt, Nat.cast_pow, Nat.cast_ofNat]
  have he : z % 2 ^ w = z + 2 ^ w := by
    rw [← Int.add_emod_right]
    exact Int.emod_eq_of_lt (by omega) (by omega)
  rw [he, Int.toNat_of_nonneg (by omega)]
  omega

theorem setWidth_ofInt (hw : v ≤ w) (z : Int) :
    (BitVec.ofInt w z).setWidth v = BitVec.ofInt v z := by
  apply BitVec.eq_of_toNat_eq
  have hdvd : (2 : Int) ^ v ∣ 2 ^ w := pow_dvd_pow 2 hw
  have hw0 : (2 : Int) ^ w ≠ 0 := by positivity
  have hv0 : (2 : Int) ^ v ≠ 0 := by positivity
  rw [BitVec.toNat_setWidth, BitVec.toNat_ofInt, BitVec.toNat_ofInt]
  zify
  rw [Int.toNat_of_nonneg (Int.emod_nonneg _ hw0), Int.toNat_of_nonneg (Int.emod_nonneg _ hv0)]
  exact Int.emod_emod_of_dvd z hdvd

theorem toInt_ofInt_of_small (h0 : -2 ^ 31 ≤ z) (h1 : z < 2 ^ 31) :
    (BitVec.ofInt 32 z).toInt = z := by
  rw [BitVec.toInt_ofInt]
  exact Int.bmod_eq_of_le (by omega) (by omega)

end GvmCore.Signed
