import GvmCore.BignumBits
import GvmCore.Functions
import GvmCore.TwosComplement

namespace GvmCore
open Digits
set_option autoImplicit true

namespace VBignum

section Bitwise

variable {f : VBigDig → VBigDig → VBigDig} {x y : VBig}

@[simp] theorem length_onCommon (f : VBigDig → VBigDig → VBigDig) (x y : VBig) :
    (onCommon f x y).length = x.length := by
  induction x generalizing y with
  | nil => cases y <;> rfl
  | cons x xs ih =>
    cases y with
    | nil => rfl
    | cons y ys => exact congrArg (· + 1) (ih ys)

theorem getD_onCommon (hf : f 0 0 = 0) (hl : x.length = y.length) (i : Nat) :
    (onCommon f x y).getD i 0 = f (x.getD i 0) (y.getD i 0) := by
  induction x generalizing y i with
  | nil =>
    have hy : y = [] := List.length_eq_zero_iff.mp hl.symm
    subst hy
    exact hf.symm
  | cons x xs ih =>
    cases y with
    | nil => cases hl
    | cons y ys =>
      cases i with
      | zero => rfl
      | succ i => exact ih (Nat.succ.inj hl) i

theorem testBit_onCommon {g : Bool → Bool → Bool} (hf : f 0 0 = 0) (hl : x.length = y.length)
    (hg : ∀ d e j, (f d e).getLsbD j = g (d.getLsbD j) (e.getLsbD j)) (i : Nat) :
    (value (onCommon f x y)).testBit i = g ((value x).testBit i) ((value y).testBit i) := by
  simp only [testBit_value (show 0 < 16 by decide), getD_onCommon hf hl, hg]

theorem value_and (hl : x.length = y.length) : value (VBignum.and x y) = value x &&& value y := by
  apply Nat.eq_of_testBit_eq
  intro i
  rw [Nat.testBit_and]
  exact testBit_onCommon rfl hl (fun d e j => BitVec.getLsbD_and) i

theorem value_or (hl : x.length = y.length) : value (VBignum.or x y) = value x ||| value y := by
  apply Nat.eq_of_testBit_eq
  intro i
  rw [Nat.testBit_or]
  exact testBit_onCommon rfl hl (fun d e j => BitVec.getLsbD_or) i

theorem value_xor (hl : x.length = y.length) : value (VBignum.xor x y) = value x ^^^ value y := by
  apply Nat.eq_of_testBit_eq
  intro i
  rw [Nat.testBit_xor]
  exact testBit_onCommon rfl hl (fun d e j => BitVec.getLsbD_xor) i

theorem value_not (x : VBig) : value (VBignum.not x) = 2 ^ (16 * x.length) - 1 - value x := by
  have hsum : value (VBignum.not x) + value x + 1 = 2 ^ (16 * x.length) := by
    induction x with
    | nil => rfl
    | cons d ds ih =>
      have hd := d.isLt
      have hnot : (~~~d).toNat = 2 ^ 16 - 1 - d.toNat := BitVec.toNat_not
      rw [pow_length_cons, ← ih]
      simp only [VBignum.not, List.map_cons, value_cons, hnot]
      omega
  omega

end Bitwise

theorem eq_iff (hl : x.length = y.length) : eq x y = true ↔ value x = value y := by
  rw [eq, if_pos hl, beq_iff_eq]
  exact ⟨congrArg value, value_injective hl⟩

theorem testBit_bitClear {x : VBig} (hn : n < 16 * x.length) (i : Nat) :
    (value (bitClear x n)).testBit i = ((value x).testBit i && decide (i ≠ n)) := by
  rw [bitClear, if_neg (by omega), testBit_modify hn]
  by_cases h : n / 16 = i / 16
  · rw [if_pos h, BitVec.getLsbD_and, BitVec.getLsbD_not, getLsbD_bit h, testBit_value (by decide)]
    simp [Nat.mod_lt i (show 16 > 0 by decide)]
  · have hin : i ≠ n := fun e => h (by rw [e])
    simp [h, hin]

@[simp] theorem length_bitClear (x : VBig) (bit : Nat) : (bitClear x bit).length = x.length := by
  unfold bitClear
  split
  · rfl
  · exact List.length_modify _ _ _

def bitPut (b : Bool) (x : VBig) (n : Nat) : VBig := if b then bitSet x n else bitClear x n

@[simp] theorem length_bitPut (b : Bool) (x : VBig) (n : Nat) :
    (bitPut b x n).length = x.length := by
  cases b with
  | true => exact length_bitSet x n
  | false => exact length_bitClear x n

theorem testBit_bitPut (b : Bool) {x : VBig} (hn : n < 16 * x.length) (i : Nat) :
    (value (bitPut b x n)).testBit i = if i = n then b else (value x).testBit i := by
  cases b with
  | true =>
    refine (testBit_bitSet hn i).trans ?_
    by_cases hin : i = n <;> simp [hin]
  | false =>
    refine (testBit_bitClear hn i).trans ?_
    by_cases hin : i = n <;> simp [hin]

theorem testBit_foldl_bitPut (b : Bool) (hn : m + n ≤ 16 * x.length) (i : Nat) :
    (value ((List.range' m n).foldl (bitPut b) x)).testBit i =
      if m ≤ i ∧ i < m + n then b else (value x).testBit i := by
  induction n with
  | zero =>
    rw [if_neg (by omega)]
    rfl
  | succ n ih =>
    have hlen : ((List.range' m n).foldl (bitPut b) x).length = x.length :=
      length_foldl (length_bitPut b) _ x
    rw [List.range'_concat, List.foldl_concat, Nat.one_mul, testBit_bitPut b (by rw [hlen]; omega),
      ih (by omega)]
    by_cases hin : i = m + n
    · rw [if_pos hin, if_pos (by omega)]
    · have hiff : m ≤ i ∧ i < m + (n + 1) ↔ m ≤ i ∧ i < m + n := by omega
      rw [if_neg hin, if_congr hiff rfl rfl]

end VBignum

open VBignum TwosComplement

theorem value_boolToBignum (b : Bool) (ha : a ≠ []) : value (boolToBignum b a) = b.toNat := by
  cases b with
  | true => exact value_setOne ha
  | false => exact value_setZero a

@[simp] theorem length_boolToBignum (b : Bool) (a : VBig) :
    (boolToBignum b a).length = a.length := by
  cases b with
  | true => exact length_setOne a
  | false => exact length_setZero a

theorem signExtend_eq (b : VBig) (hk : k < 31) : signExtend b k =
    (List.range' (8 * k + 8) (248 - 8 * k)).foldl (bitPut (bitTest b (8 * k + 7))) b := by
  have hcount : 255 - (8 * k + 7) = 248 - 8 * k := by omega
  simp only [signExtend, if_pos hk, hcount]
  rfl

@[simp] theorem length_signExtend (b : VBig) (k : Nat) : (signExtend b k).length = b.length := by
  by_cases hk : k < 31
  · rw [signExtend_eq b hk]
    exact length_foldl (length_bitPut _) _ b
  · rw [signExtend, if_neg hk]

theorem testBit_signExtend (hb : b.length = 16) (hk : k < 31) (i : Nat) :
    (value (signExtend b k)).testBit i =
      if 8 * k + 8 ≤ i ∧ i < 256 then (value b).testBit (8 * k + 7) else (value b).testBit i := by
  have hiff : 8 * k + 8 ≤ i ∧ i < 8 * k + 8 + (248 - 8 * k) ↔ 8 * k + 8 ≤ i ∧ i < 256 := by omega
  rw [signExtend_eq b hk, testBit_foldl_bitPut _ (by omega), if_congr hiff rfl rfl, bitTest_eq]

theorem value_signExtend (hb : b.length = 16) (hk : k < 31) :
    value (signExtend b k) = extended (2 ^ 255) (8 * k + 7) (value b) := by
  have hlt := value_lt b
  rw [hb] at hlt
  apply Nat.eq_of_testBit_eq
  intro i
  have hiff : 8 * k + 8 ≤ i ∧ i < 256 ↔ 8 * k + 7 < i ∧ i ≤ 255 := by omega
  rw [testBit_signExtend hb hk, testBit_extended (by omega) hlt, if_congr hiff rfl rfl]

end GvmCore
