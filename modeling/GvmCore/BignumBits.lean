import GvmCore.BignumLength
import Mathlib.Data.List.GetD
import Mathlib.Data.Nat.Size

namespace GvmCore

namespace Digits
set_option autoImplicit true

theorem testBit_value (hk : 0 < k) (ds : List (BitVec k)) (i : Nat) :
    (value ds).testBit i = (ds.getD (i / k) 0).getLsbD (i % k) := by
  induction ds generalizing i with
  | nil => simp
  | cons d ds ih =>
    rw [value_cons, Nat.add_comm, Nat.testBit_two_pow_mul_add _ d.isLt]
    by_cases hi : i < k
    · rw [if_pos hi, Nat.div_eq_of_lt hi, Nat.mod_eq_of_lt hi]
      rfl
    · obtain ⟨j, rfl⟩ : ∃ j, i = j + k := ⟨i - k, by omega⟩
      rw [if_neg hi, Nat.add_sub_cancel, ih, Nat.add_div_right j hk, Nat.add_mod_right]
      rfl

end Digits

namespace VBignum
open Digits
set_option autoImplicit true

theorem and_bit_ne_zero (d : VBigDig) (hj : j < 16) : (d &&& 1#16 <<< j != 0) = d.getLsbD j := by
  cases hd : d.getLsbD j with
  | true =>
    apply bne_iff_ne.mpr
    intro hzero
    have hget : d.getLsbD j = false := by
      simpa [hj] using congrArg (BitVec.getLsbD · j) hzero
    rw [hd] at hget
    cases hget
  | false =>
    apply bne_eq_false_iff_eq.mpr
    apply BitVec.eq_of_getLsbD_eq
    intro i hi
    by_cases hij : i = j
    · simp [hij, hd]
    · have hne : i - j ≠ 0 ∨ i < j := by omega
      rcases hne with h | h <;> simp [h]

theorem bitTest_eq (x : VBig) (n : Nat) : bitTest x n = (value x).testBit n := by
  rw [testBit_value (by decide), bitTest]
  by_cases h : n / 16 < x.length
  · rw [if_pos h, and_bit_ne_zero _ (Nat.mod_lt n (by decide))]
  · rw [if_neg h, List.getD_eq_default _ _ (by omega)]
    simp

theorem getLsbD_bit (h : n / 16 = i / 16) :
    (1#16 <<< (n % 16)).getLsbD (i % 16) = decide (i = n) := by
  by_cases hin : i = n
  · subst hin
    simp [Nat.mod_lt i (show 16 > 0 by decide)]
  · have hne : i % 16 < n % 16 ∨ i % 16 - n % 16 ≠ 0 := by omega
    rcases hne with hlt | hlt <;> simp [hlt, hin]

theorem testBit_modify {x : VBig} {f : VBigDig → VBigDig} (hn : n < 16 * x.length) (i : Nat) :
    (value (x.modify (n / 16) f)).testBit i =
      if n / 16 = i / 16 then (f (x.getD (i / 16) 0)).getLsbD (i % 16)
      else (value x).testBit i := by
  rw [testBit_value (by decide), testBit_value (by decide), List.getD_eq_getElem?_getD,
    List.getElem?_modify, List.getD_eq_getElem?_getD]
  by_cases h : n / 16 = i / 16
  · have hi : i / 16 < x.length := by omega
    simp [h, hi]
  · simp [h]

theorem testBit_bitSet {x : VBig} (hn : n < 16 * x.length) (i : Nat) :
    (value (bitSet x n)).testBit i = ((value x).testBit i || decide (i = n)) := by
  rw [bitSet, if_neg (by omega), testBit_modify hn]
  by_cases h : n / 16 = i / 16
  · rw [if_pos h, BitVec.getLsbD_or, getLsbD_bit h, testBit_value (by decide)]
  · have hin : i ≠ n := fun e => h (by rw [e])
    simp [h, hin]

theorem testBit_foldl_bitSet (p : Nat → Bool) (hn : n ≤ 16 * x.length) (i : Nat) :
    (value ((List.range n).foldl
      (fun z i => if p i then bitSet z i else z) (setZero x))).testBit i =
      (decide (i < n) && p i) := by
  induction n with
  | zero => simp
  | succ n ih =>
    rw [List.range_succ, List.foldl_concat]
    have hlen : ((List.range n).foldl (fun z i => if p i then bitSet z i else z)
        (setZero x)).length = x.length := by
      rw [length_foldl _, length_setZero]
      intro z i
      split
      · exact length_bitSet z i
      · rfl
    have ih := ih (by omega)
    cases hp : p n with
    | true =>
      rw [if_pos rfl, testBit_bitSet (by rw [hlen]; omega), ih]
      by_cases hin : i = n
      · subst hin
        simp [hp]
      · have hiff : i < n + 1 ↔ i < n := by omega
        simp [hin, hiff]
    | false =>
      rw [if_neg (by decide), ih]
      by_cases hin : i = n
      · subst hin
        simp [hp]
      · have hiff : i < n + 1 ↔ i < n := by omega
        simp [hiff]

theorem value_setBignumPart (hb : bits ≤ msb + 1) (hy : msb < 16 * y.length)
    (hx : bits ≤ 16 * x.length) (hm : msb < 2 ^ 32) :
    value (setBignumPart x y msb bits) = value y / 2 ^ (msb + 1 - bits) % 2 ^ bits := by
  apply Nat.eq_of_testBit_eq
  intro i
  rw [setBignumPart, if_neg (by omega), testBit_foldl_bitSet _ hx, Nat.testBit_mod_two_pow,
    Nat.testBit_div_two_pow]
  by_cases hi : i < bits
  · have hindex : (msb + 2 ^ 32 + 1 - bits + i) % 2 ^ 32 = i + (msb + 1 - bits) := by omega
    rw [hindex, bitTest_eq]
  · simp [hi]

theorem size_add_mul (hv : v < 2 ^ m) (hd : d ≠ 0) : (v + 2 ^ m * d).size = m + d.size := by
  have hpos : 0 < d.size := Nat.size_pos.mpr (Nat.pos_of_ne_zero hd)
  apply Nat.le_antisymm
  · apply Nat.size_le.mpr
    have hlt := Nat.mul_le_mul_left (2 ^ m) (Nat.succ_le_of_lt (Nat.lt_size_self d))
    rw [Nat.mul_succ] at hlt
    rw [Nat.pow_add]
    omega
  · have hle : 2 ^ (d.size - 1) ≤ d := Nat.lt_size.mp (by omega)
    have hlt : m + (d.size - 1) < (v + 2 ^ m * d).size := by
      apply Nat.lt_size.mpr
      rw [Nat.pow_add]
      exact (Nat.mul_le_mul_left (2 ^ m) hle).trans (Nat.le_add_left _ _)
    omega

theorem maskScan_eq (d : VBigDig) (hk : k ≤ 16) :
    maskScan d k = ((d.toNat % 2 ^ k).size : Int) - 1 := by
  induction k with
  | zero => simp [maskScan, Nat.mod_one]
  | succ k ih =>
    have hlt : d.toNat % 2 ^ k < 2 ^ k := Nat.mod_lt _ (Nat.two_pow_pos k)
    rw [maskScan, and_bit_ne_zero d (by omega), ← BitVec.testBit_toNat, Nat.mod_pow_succ,
      ← Nat.toNat_testBit]
    cases d.toNat.testBit k with
    | true =>
      rw [if_pos rfl, Bool.toNat_true, size_add_mul hlt (by decide), Nat.size_one]
      omega
    | false =>
      rw [if_neg (by decide), ih (by omega)]
      rfl

theorem bitMsbBelow_eq (x : VBig) (n : Nat) :
    bitMsbBelow x n = ((value (x.take n)).size : Int) - 1 := by
  induction n with
  | zero => simp [bitMsbBelow]
  | succ n ih =>
    rw [bitMsbBelow, value_take_succ]
    by_cases hd : x.getD n 0 = 0
    · rw [if_neg (by rw [hd]; decide), ih, hd]
      rfl
    · have hne : (x.getD n 0).toNat ≠ 0 := fun h => hd (BitVec.eq_of_toNat_eq h)
      have hscan := maskScan_eq (x.getD n 0) (Nat.le_refl 16)
      rw [Nat.mod_eq_of_lt (x.getD n 0).isLt] at hscan
      rw [if_pos (bne_iff_ne.mpr hd), hscan, size_add_mul (value_take_lt x n) hne]
      omega

theorem bitMsb_eq (x : VBig) : bitMsb x = ((value x).size : Int) - 1 := by
  rw [bitMsb, bitMsbBelow_eq, List.take_length]

theorem gte_iff (hl : y.length ≤ x.length) : gte x y = true ↔ value y ≤ value x := by
  have hlast : decide (x.length ≥ y.length) = true := decide_eq_true hl
  rw [gte, hlast, compareUsed_eq]
  simp
  omega

theorem value_appendBit (x : VBig) (b : Bool) :
    value (if b then orLow (bitShiftLeft1 x) 1 else bitShiftLeft1 x) =
      (2 * value x + b.toNat) % 2 ^ (16 * x.length) := by
  have hbit : (if b then orLow (bitShiftLeft1 x) 1 else bitShiftLeft1 x) =
      shiftBits 1 b.toNat x := by
    cases b with
    | true => exact orLow_shiftBits (by decide) (by decide) x
    | false => rfl
  have hlt : b.toNat < 2 ^ 1 := b.toNat_lt
  rw [hbit, value_shiftBits hlt, Nat.pow_one]

theorem shiftDown_digit (hc : count ≤ 16) (x r : Nat) (hx : x < 2 ^ 16) :
    ((x <<< 16) >>> count) ||| (r * 2 ^ (32 - count)) = 2 ^ (16 - count) * (2 ^ 16 * r + x) := by
  have h16 : 2 ^ 16 = 2 ^ (16 - count) * 2 ^ count := by
    rw [← Nat.pow_add, Nat.sub_add_cancel hc]
  have h32 : 2 ^ (32 - count) = 2 ^ (16 - count) * 2 ^ 16 := by
    rw [← Nat.pow_add]
    congr 1
    omega
  have hshift : (x <<< 16) >>> count = 2 ^ (16 - count) * x := by
    rw [Nat.shiftLeft_eq, Nat.shiftRight_eq_div_pow, h16, Nat.mul_comm x, Nat.mul_right_comm,
      Nat.mul_div_cancel _ (Nat.two_pow_pos count)]
  have hlt : 2 ^ (16 - count) * x < 2 ^ (32 - count) := by
    rw [h32]
    exact Nat.mul_lt_mul_of_pos_left hx (Nat.two_pow_pos _)
  rw [hshift, Nat.or_comm, Nat.mul_comm r, ← Nat.two_pow_add_eq_or_of_lt hlt, h32]
  ring

theorem shiftDown_eq (hc : count ≤ 16) (x : VBig) :
    value (shiftDown count x).1 = value x / 2 ^ count ∧
      (shiftDown count x).2 = value x % 2 ^ count * 2 ^ (32 - count) := by
  have h16 : 2 ^ 16 = 2 ^ (16 - count) * 2 ^ count := by
    rw [← Nat.pow_add, Nat.sub_add_cancel hc]
  have hpos : 0 < 2 ^ (16 - count) := Nat.two_pow_pos _
  have hcpos : 0 < 2 ^ count := Nat.two_pow_pos _
  induction x with
  | nil => simp [shiftDown]
  | cons x xs ih =>
    obtain ⟨ihv, ihc⟩ := ih
    have hx := x.isLt
    have hr : value xs % 2 ^ count < 2 ^ count := Nat.mod_lt _ hcpos
    have hsplit := Nat.div_add_mod (value xs) (2 ^ count)
    simp only [shiftDown, value_cons, ihv, ihc, shiftDown_digit hc _ _ hx]
    generalize value xs % 2 ^ count = r at *
    generalize value xs / 2 ^ count = q at *
    have hsum : x.toNat + 2 ^ 16 * value xs = 2 ^ 16 * r + x.toNat + 2 ^ count * (2 ^ 16 * q) := by
      rw [← hsplit]
      ring
    constructor
    · have hdigit : (2 ^ (16 - count) * (2 ^ 16 * r + x.toNat)) >>> 16 =
          (2 ^ 16 * r + x.toNat) / 2 ^ count := by
        rw [Nat.shiftRight_eq_div_pow, h16, Nat.mul_div_mul_left _ _ hpos]
      have hlt : (2 ^ 16 * r + x.toNat) / 2 ^ count < 2 ^ 16 := by
        apply Nat.div_lt_of_lt_mul
        have hle := Nat.mul_le_mul_left (2 ^ 16) (Nat.succ_le_of_lt hr)
        rw [Nat.mul_succ] at hle
        rw [Nat.mul_comm (2 ^ count)]
        omega
      rw [hdigit, BitVec.toNat_ofNat, Nat.mod_eq_of_lt hlt, hsum, Nat.add_mul_div_left _ _ hcpos]
    · have hlow : (2 ^ (16 - count) * (2 ^ 16 * r + x.toNat)) &&& 0xFFFF =
          2 ^ (16 - count) * ((2 ^ 16 * r + x.toNat) % 2 ^ count) := by
        have hand := Nat.and_two_pow_sub_one_eq_mod (2 ^ (16 - count) * (2 ^ 16 * r + x.toNat)) 16
        rw [← Nat.mul_mod_mul_left, ← h16]
        exact hand
      have h32 : 2 ^ (32 - count) = 2 ^ (16 - count) * 2 ^ 16 := by
        rw [← Nat.pow_add]
        congr 1
        omega
      rw [hlow, hsum, Nat.add_mul_mod_self_left, Nat.shiftLeft_eq, h32]
      ring

theorem value_bitShiftRight_one (x : VBig) : value (bitShiftRight x 1) = value x / 2 :=
  (shiftDown_eq (by decide) x).1

end VBignum

end GvmCore
