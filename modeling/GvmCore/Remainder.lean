import GvmCore.BignumDivision
import GvmCore.BignumProduct
import GvmCore.Covered

namespace GvmCore
open Exec VBignum Digits
set_option autoImplicit true

theorem bitMsb_neg_iff (x : VBig) : bitMsb x < 0 ↔ value x = 0 := by
  rw [bitMsb_eq, ← Nat.size_eq_zero]
  omega

theorem divPair_of_zero (hy : value y = 0) (x rem : VBig) : divPair x y rem = (setZero x, rem) := by
  have hneg := (bitMsb_neg_iff y).mpr hy
  have hle : ¬ bitMsb y > bitMsb x := by
    rw [bitMsb_eq, bitMsb_eq, hy, Nat.size_zero]
    omega
  rw [divPair, if_neg hle, if_pos hneg]

theorem value_lt_of_bitMsb {x y : VBig} (h : bitMsb y > bitMsb x) : value x < value y := by
  rw [bitMsb_eq, bitMsb_eq] at h
  by_contra hge
  have := Nat.size_le_size (Nat.le_of_not_lt hge)
  omega

theorem value_divPair_fst (hl : y.length = x.length) (hx : 16 * x.length < 2 ^ 32) (rem : VBig) :
    value (divPair x y rem).1 = value x / value y := by
  by_cases hy : value y = 0
  · rw [divPair_of_zero hy, value_setZero, hy, Nat.div_zero]
  · have hneg := (bitMsb_neg_iff y).not.mpr hy
    unfold divPair
    by_cases hm : bitMsb y > bitMsb x
    · rw [if_pos hm, value_setZero, Nat.div_eq_of_lt (value_lt_of_bitMsb hm)]
    · have hq := (divLong_spec hl (Nat.pos_of_ne_zero hy) (by omega) hx).1
      rw [if_neg hm, if_neg hneg, value_setBignum, hq, Nat.mod_eq_of_lt]
      exact (Nat.div_le_self _ _).trans_lt (value_lt x)

/-- A remainder that needs the top bit of the width loses it, unless the short exit is taken. -/
theorem value_divPair_snd (hl : y.length = x.length) (hr : rem.length = x.length)
    (hx : 16 * x.length < 2 ^ 32) (hy : value y ≠ 0) :
    value (divPair x y rem).2 = if 2 ^ (16 * x.length - 1) ≤ value x ∧ value x < value y
      then value x - 2 ^ (16 * x.length - 1) else value x % value y := by
  have hneg := (bitMsb_neg_iff y).not.mpr hy
  have hxlt := value_lt x
  have hylt := value_lt y
  have hlen : 0 < 16 * x.length := by
    apply Nat.pos_of_ne_zero
    intro h0
    rw [hl, h0] at hylt
    omega
  have hpow : 2 ^ (16 * x.length) = 2 * 2 ^ (16 * x.length - 1) := by
    rw [← Nat.pow_succ', Nat.succ_eq_add_one, Nat.sub_add_cancel hlen]
  unfold divPair
  by_cases hm : bitMsb y > bitMsb x
  · have hsmall : value x < 2 ^ (16 * x.length - 1) := by
      apply Nat.size_le.mp
      have hysize : (value y).size ≤ 16 * y.length := Nat.size_le.mpr hylt
      have hsizes := hm
      rw [bitMsb_eq, bitMsb_eq] at hsizes
      omega
    rw [if_pos hm, if_neg (by omega), value_setBignum, hr, Nat.mod_eq_of_lt hxlt,
      Nat.mod_eq_of_lt (value_lt_of_bitMsb hm)]
  · have hrem := (divLong_spec hl (Nat.pos_of_ne_zero hy) (by omega) hx).2
    have hmod : value x % value y < 2 ^ (16 * x.length) :=
      (Nat.mod_le _ _).trans_lt hxlt
    rw [if_neg hm, if_neg hneg, value_setBignum, hrem, hr,
      Nat.mod_eq_of_lt ((Nat.mod_le _ _).trans_lt hmod)]
    split
    · rename_i hcase
      rw [Nat.mod_eq_of_lt hcase.2, Nat.mod_eq_sub_mod hcase.1, Nat.mod_eq_of_lt (by omega)]
    · rename_i hcase
      apply Nat.mod_eq_of_lt
      by_cases hlt : value x < value y
      · rw [Nat.mod_eq_of_lt hlt]
        omega
      · -- the remainder is below the divisor, and below the dividend without it
        have hbelow := Nat.mod_lt (value x) (Nat.pos_of_ne_zero hy)
        have hsub := Nat.mod_le (value x - value y) (value y)
        rw [← Nat.mod_eq_sub_mod (by omega)] at hsub
        omega

theorem setBignum_congr (h : rem.length = rem'.length) (x : VBig) :
    setBignum rem x = setBignum rem' x := by
  rw [setBignum, setBignum, h]

theorem divPair_congr (hy : value y ≠ 0) (h : rem.length = rem'.length) (x : VBig) :
    divPair x y rem = divPair x y rem' := by
  have hneg := (bitMsb_neg_iff y).not.mpr hy
  simp only [divPair, if_neg hneg, setBignum_congr h]

theorem setBignum_self_length (h : x.length = y.length) : setBignum x y = y := by
  rw [setBignum, h, List.take_length, Nat.sub_self]
  exact List.append_nil y

theorem modDigits_of_zero (hy : value y = 0) (h : x.length = rem.length) :
    modDigits x y rem = rem := by
  rw [modDigits, divPair_of_zero hy]
  exact setBignum_self_length (by rw [length_setZero, h])

theorem value_modDigits (hl : y.length = x.length) (hr : rem.length = x.length)
    (hx : 16 * x.length < 2 ^ 32) (hy : value y ≠ 0) :
    value (modDigits x y rem) = if 2 ^ (16 * x.length - 1) ≤ value x ∧ value x < value y
      then value x - 2 ^ (16 * x.length - 1) else value x % value y := by
  rw [← value_divPair_snd hl hr hx hy, modDigits, setBignum_self_length]
  rw [length_divPair_snd, hr, length_divPair_fst]

theorem modDigits_congr (hy : value y ≠ 0) (h : rem.length = rem'.length) (x : VBig) :
    modDigits x y rem = modDigits x y rem' := by
  rw [modDigits, divPair_congr hy h, modDigits]

theorem bignumToReg_injective (hx : x.length = 16) (hy : y.length = 16)
    (h : bignumToReg x = bignumToReg y) : x = y := by
  have hv := congrArg regValue h
  rw [regValue_bignumToReg hx, regValue_bignumToReg hy] at hv
  exact value_injective (hx.trans hy.symm) hv

theorem value_signum (a : VBig) :
    value (signum a) = if bitTest a 255 then 2 ^ 256 - 1 else 1 := by
  have hzero : value (setZero vbignum256) = 0 := value_setZero _
  have hone : value (setOne vbignum256) = 1 := value_setOne (by decide)
  unfold signum
  split
  · have hwrap := value_sub_wrap (x := setZero vbignum256) (y := setOne vbignum256) (by decide)
      (by rw [hzero, hone]; decide)
    rw [hzero, hone, length_setZero, length_vbignum256, Nat.zero_add] at hwrap
    exact Nat.eq_sub_of_add_eq hwrap
  · exact hone

theorem coprime_signum (a : VBig) : Nat.gcd (2 ^ 256) (value (signum a)) = 1 := by
  rw [value_signum]
  split
  · exact (Nat.coprime_self_sub_right (Nat.one_le_two_pow)).mpr (Nat.coprime_one_right _)
  · exact Nat.gcd_one_right _

theorem mul_signum_injective (hx : x.length = 16) (hy : y.length = 16)
    (h : mul x (signum a) = mul y (signum a)) : x = y := by
  have hv := congrArg value h
  rw [value_mul, value_mul, hx, hy] at hv
  have hmod : value x ≡ value y [MOD 2 ^ 256] :=
    Nat.ModEq.cancel_right_of_coprime (coprime_signum a) hv
  have hxlt := value_lt x
  have hylt := value_lt y
  rw [hx] at hxlt
  rw [hy] at hylt
  exact value_injective (hx.trans hy.symm) (hmod.eq_of_lt_of_lt hxlt hylt)

end GvmCore
