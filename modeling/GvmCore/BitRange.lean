import Mathlib.Algebra.Ring.Nat
import Mathlib.Data.Nat.Bitwise

namespace GvmCore
set_option autoImplicit true

namespace BitRange

def lowMask (w n : Nat) : BitVec w := if n = w then BitVec.allOnes w else (1#w <<< n) - 1#w

def putBits (x : BitVec w) (lo n : Nat) (v : BitVec w) : BitVec w :=
  (x &&& ~~~(lowMask w n <<< lo)) ||| ((v &&& lowMask w n) <<< lo)

def getBits (x : BitVec w) (lo n : Nat) : BitVec w := (x >>> lo) &&& lowMask w n

theorem toNat_lowMask (h : n ≤ w) : (lowMask w n).toNat = 2 ^ n - 1 := by
  by_cases hw : n = w
  · rw [lowMask, if_pos hw, BitVec.toNat_allOnes, hw]
  · have hlt : 2 ^ n < 2 ^ w := Nat.pow_lt_pow_right (by decide) (Nat.lt_of_le_of_ne h hw)
    have hone : 1 < 2 ^ w := Nat.one_lt_two_pow (by omega)
    have hpos : 0 < 2 ^ n := Nat.two_pow_pos n
    have hshift : (1#w <<< n).toNat = 2 ^ n := by
      rw [BitVec.toNat_shiftLeft, BitVec.toNat_ofNat, Nat.mod_eq_of_lt hone, Nat.one_shiftLeft,
        Nat.mod_eq_of_lt hlt]
    have hle : 1#w ≤ 1#w <<< n := by
      rw [BitVec.le_def, hshift, BitVec.toNat_ofNat, Nat.mod_eq_of_lt hone]
      exact hpos
    rw [lowMask, if_neg hw, BitVec.toNat_sub_of_le hle, hshift, BitVec.toNat_ofNat,
      Nat.mod_eq_of_lt hone]

theorem getLsbD_lowMask (h : n ≤ w) : (lowMask w n).getLsbD i = decide (i < n) := by
  rw [BitVec.getLsbD, toNat_lowMask h, Nat.testBit_two_pow_sub_one]

theorem getLsbD_putBits {x v : BitVec w} (h : n ≤ w) (hi : i < w) :
    (putBits x lo n v).getLsbD i =
      if lo ≤ i ∧ i < lo + n then v.getLsbD (i - lo) else x.getLsbD i := by
  simp only [putBits, BitVec.getLsbD_or, BitVec.getLsbD_and, BitVec.getLsbD_not,
    BitVec.getLsbD_shiftLeft, getLsbD_lowMask h, hi, decide_true, Bool.true_and]
  by_cases hlo : lo ≤ i
  · by_cases hn : i < lo + n
    · simp [hlo, hn, show ¬ i < lo by omega, show i - lo < n by omega]
    · simp [hn, show ¬ i < lo by omega, show ¬ i - lo < n by omega]
  · simp [hlo, show i < lo by omega]

theorem getLsbD_getBits {x : BitVec w} (h : n ≤ w) :
    (getBits x lo n).getLsbD i = (x.getLsbD (lo + i) && decide (i < n)) := by
  rw [getBits, BitVec.getLsbD_and, BitVec.getLsbD_ushiftRight, getLsbD_lowMask h]

theorem toNat_getBits_putBits {x v : BitVec w} (h : lo + n ≤ w) (hk : k ≤ n) :
    (getBits (putBits x lo n v) lo k).toNat = v.toNat % 2 ^ k := by
  apply Nat.eq_of_testBit_eq
  intro i
  rw [Nat.testBit_mod_two_pow]
  change (getBits (putBits x lo n v) lo k).getLsbD i = (decide (i < k) && v.getLsbD i)
  rw [getLsbD_getBits (by omega)]
  by_cases hik : i < k
  · rw [getLsbD_putBits (by omega) (by omega), if_pos ⟨by omega, by omega⟩, Nat.add_sub_cancel_left,
      Bool.and_comm]
  · simp [hik]

theorem putBits_eq_putBits_iff {x v : BitVec w} (h : lo + n ≤ w) (hk : k ≤ n) :
    putBits x lo n v = putBits x lo k v ↔
      ∀ i, lo + k ≤ i → i < lo + n → x.getLsbD i = v.getLsbD (i - lo) := by
  constructor
  · intro heq i hlo hhi
    have hbit := congrArg (BitVec.getLsbD · i) heq
    simp only [getLsbD_putBits (show n ≤ w by omega) (show i < w by omega),
      getLsbD_putBits (show k ≤ w by omega) (show i < w by omega)] at hbit
    rw [if_pos ⟨by omega, hhi⟩, if_neg (by omega)] at hbit
    exact hbit.symm
  · intro hbits
    apply BitVec.eq_of_getLsbD_eq
    intro i hi
    rw [getLsbD_putBits (by omega) hi, getLsbD_putBits (by omega) hi]
    by_cases hlow : lo ≤ i ∧ i < lo + k
    · rw [if_pos hlow, if_pos ⟨hlow.1, by omega⟩]
    · rw [if_neg hlow]
      by_cases hin : lo ≤ i ∧ i < lo + n
      · rw [if_pos hin]
        exact (hbits i (by omega) hin.2).symm
      · rw [if_neg hin]

theorem getBits_eq_getBits_iff {x : BitVec w} (h : lo + n ≤ w) (hk : k ≤ n) :
    getBits x lo n = getBits x lo k ↔ ∀ i, lo + k ≤ i → i < lo + n → x.getLsbD i = false := by
  constructor
  · intro heq i hlo hhi
    have hbit := congrArg (BitVec.getLsbD · (i - lo)) heq
    simp only [getLsbD_getBits (show n ≤ w by omega), getLsbD_getBits (show k ≤ w by omega),
      show lo + (i - lo) = i by omega, show i - lo < n by omega, show ¬ i - lo < k by omega,
      decide_true, decide_false, Bool.and_true, Bool.and_false] at hbit
    exact hbit
  · intro hbits
    apply BitVec.eq_of_getLsbD_eq
    intro i _
    rw [getLsbD_getBits (by omega), getLsbD_getBits (by omega)]
    by_cases hik : i < k
    · simp [hik, show i < n by omega]
    · by_cases hin : i < n
      · simp [hbits (lo + i) (by omega) (by omega)]
      · simp [hik, hin]

theorem mod_two_pow_eq_iff {v : BitVec w} (hk : k ≤ n) :
    v.toNat % 2 ^ k = v.toNat % 2 ^ n ↔ ∀ i, k ≤ i → i < n → v.getLsbD i = false := by
  constructor
  · intro heq i hki hin
    have hbit := congrArg (Nat.testBit · i) heq
    simp only [Nat.testBit_mod_two_pow, hin, show ¬ i < k by omega, decide_true, decide_false,
      Bool.true_and, Bool.false_and] at hbit
    exact hbit.symm
  · intro hbits
    apply Nat.eq_of_testBit_eq
    intro i
    rw [Nat.testBit_mod_two_pow, Nat.testBit_mod_two_pow]
    by_cases hik : i < k
    · simp [hik, show i < n by omega]
    · by_cases hin : i < n
      · have hzero : v.toNat.testBit i = false := hbits i (by omega) hin
        simp [hzero]
      · simp [hik, hin]

end BitRange
end GvmCore
