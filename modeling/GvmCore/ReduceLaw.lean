import GvmCore.Barrett
import GvmCore.BignumDivision
import GvmCore.BignumPower
import GvmCore.BignumProduct
import GvmCore.BignumSum

namespace GvmCore
open Digits VBignum
set_option autoImplicit true

namespace VBignum

theorem value_clearFrom (x : VBig) (n : Nat) : value (clearFrom x n) = value x % 2 ^ (16 * n) := by
  have hzeros : value (List.replicate (x.length - n) (0 : VBigDig)) = 0 := value_replicate_zero _
  rw [clearFrom, value_append, hzeros, Nat.mul_zero, Nat.add_zero]
  by_cases hn : n ≤ x.length
  · exact value_take n x hn
  · have hlt : value x < 2 ^ (16 * n) :=
      (value_lt x).trans_le (Nat.pow_le_pow_right (by decide) (by omega))
    rw [List.take_of_length_le (by omega), Nat.mod_eq_of_lt hlt]

@[simp] theorem length_clearFrom (x : VBig) (n : Nat) : (clearFrom x n).length = x.length := by
  rw [clearFrom, List.length_append, List.length_take, List.length_replicate]
  omega

theorem value_bitShiftRight_digits (x : VBig) (p : Nat) :
    value (bitShiftRight x (16 * p)) = value x / 2 ^ (16 * p) := by
  unfold bitShiftRight
  by_cases hp : 16 ≤ 16 * p
  · have hplaces : 16 * p / 16 = p := by omega
    rw [if_pos hp]
    simp only [hplaces]
    by_cases hlen : p > x.length
    · have hlt : value x < 2 ^ (16 * p) :=
        (value_lt x).trans_le (Nat.pow_le_pow_right (by decide) (by omega))
      rw [if_pos hlen, value_setZero, Nat.div_eq_of_lt hlt]
    · have hzeros : value (List.replicate p (0 : VBigDig)) = 0 := value_replicate_zero _
      have hsplit := value_take_add_drop p x (by omega)
      have hlow := value_take_lt x p
      rw [if_neg hlen, if_pos (by omega), value_append, hzeros, Nat.mul_zero, Nat.add_zero, hsplit,
        Nat.add_mul_div_left _ _ (by positivity), Nat.div_eq_of_lt hlow, Nat.zero_add]
  · obtain rfl : p = 0 := by omega
    rw [if_neg hp]
    exact (shiftDown_eq (by decide) x).1

theorem addLoop_take (x y : VBig) (c : Nat) : addLoop x (y.take x.length) c = addLoop x y c := by
  induction x generalizing y c with
  | nil => cases y <;> rfl
  | cons x xs ih =>
    cases y with
    | nil => rfl
    | cons y ys => simp only [List.length_cons, List.take_succ_cons, addLoop, ih]

theorem value_add_mod (x y : VBig) :
    value (add x y) = (value x + value y) % 2 ^ (16 * x.length) := by
  have hlen : (y.take x.length).length ≤ x.length := by
    rw [List.length_take]
    exact Nat.min_le_left _ _
  have hmod : value (y.take x.length) % 2 ^ (16 * x.length) = value y % 2 ^ (16 * x.length) := by
    by_cases hn : x.length ≤ y.length
    · rw [value_take _ y hn, Nat.mod_mod]
    · rw [List.take_of_length_le (by omega)]
  rw [add, ← addLoop_take, ← add, value_add hlen, Nat.add_mod, hmod, ← Nat.add_mod]

theorem value_bitSet_zero (h : b < 16 * n) : value (bitSet (List.replicate n 0) b) = 2 ^ b := by
  have hzeros : value (List.replicate n (0 : VBigDig)) = 0 := value_replicate_zero _
  apply Nat.eq_of_testBit_eq
  intro i
  rw [testBit_bitSet (by rwa [List.length_replicate]), hzeros, Nat.zero_testBit, Bool.false_or,
    Nat.testBit_two_pow]
  simp [eq_comm]

theorem bitTest_top {x : VBig} (hx : x ≠ []) :
    bitTest x (16 * x.length - 1) = true ↔ 2 ^ (16 * x.length) ≤ 2 * value x := by
  have hpos : 0 < x.length := List.length_pos_iff.mpr hx
  have hlt := value_lt x
  obtain ⟨n, hn⟩ : ∃ n, 16 * x.length = n + 1 := ⟨16 * x.length - 1, by omega⟩
  rw [hn, Nat.pow_succ] at hlt
  rw [bitTest_eq, hn, Nat.add_sub_cancel, Nat.pow_succ, Nat.testBit_eq_decide_div_mod_eq,
    decide_eq_true_iff]
  have hdiv : value x / 2 ^ n < 2 := Nat.div_lt_of_lt_mul hlt
  have hone : value x / 2 ^ n % 2 = 1 ↔ 1 ≤ value x / 2 ^ n := by
    generalize value x / 2 ^ n = d at hdiv
    omega
  rw [hone, Nat.le_div_iff_mul_le (by positivity)]
  omega

section Reciprocal

variable {x y q work : VBig} {k rest : Nat}

/-- A power of two on its way through the division. A divisor with more digits than the dividend is
not subtracted from its equal, so that `rest` may be as large as the divisor. -/
structure NearlyDivided (x y : VBig) (k : Nat) (q work : VBig) (rest : Nat) : Prop where
  lengthQuotient : q.length = x.length
  lengthWork : work.length = x.length
  split : value x / 2 ^ k = value q * value y + rest
  rest_le : 2 * rest + (nextBit (value x) k).toNat ≤ 2 * value y
  work : value work = (2 * rest + (nextBit (value x) k).toNat) % 2 ^ (16 * x.length)

namespace NearlyDivided

theorem of_divided (h : Divided x y k q work) (hy : 0 < value y) :
    NearlyDivided x y k q work (value x / 2 ^ k % value y) := by
  have hlt := Nat.mod_lt (value x / 2 ^ k) hy
  have hbit := (nextBit (value x) k).toNat_le
  refine ⟨h.lengthQuotient, h.lengthWork, ?_, by omega, h.remainder⟩
  rw [h.quotient, Nat.div_add_mod']

theorem work_eq (h : NearlyDivided x y (k + 1) q work rest) :
    value work = 2 * rest + (nextBit (value x) (k + 1)).toNat := by
  have hprefix := append_nextBit (value x) k
  have hsplit := h.split
  have hdiv := Nat.div_le_self (value x) (2 ^ k)
  have hlt := value_lt x
  rw [h.work]
  apply Nat.mod_eq_of_lt
  omega

theorem step (h : NearlyDivided x y (k + 1) q work rest) (hy : 0 < value y)
    (hx : 16 * x.length < 2 ^ 32) (hk : k ≤ 16 * x.length)
    (hbit : nextBit (value x) k = false) :
    let big := gte work y
    let work' := bitShiftLeft1 (if big then sub work y else work)
    ∃ rest', NearlyDivided x y k (if big then orLow (bitShiftLeft1 q) 1 else bitShiftLeft1 q)
      (if bitTest x (((k : Int) - 1) % 2 ^ 32).toNat then orLow work' 1 else work') rest' := by
  intro big work'
  have hwork := h.work_eq
  have hle := h.rest_le
  have hprefix := append_nextBit (value x) k
  rw [h.split, Nat.mul_add, Nat.add_assoc, ← hwork] at hprefix
  rw [← hwork] at hle
  -- the two cases of the comparison
  have hrest : value (if big then sub work y else work) ≤ value y ∧
      value x / 2 ^ k = (2 * value q + big.toNat) * value y +
        value (if big then sub work y else work) := by
    by_cases hbig : big = true
    · have hge : value y ≤ value work := value_le_of_gte hbig
      rw [if_pos hbig, value_sub_of_le hge, hbig, Bool.toNat_true, Nat.add_mul, Nat.mul_assoc]
      omega
    · have hge : value work ≤ value y := by
        by_contra hlt
        apply hbig
        simp only [big, gte, compareUsed_eq]
        simp [Nat.lt_of_not_le hlt]
      rw [if_neg hbig, Bool.eq_false_iff.mpr hbig, Bool.toNat_false, Nat.add_zero, Nat.mul_assoc]
      exact ⟨hge, hprefix.symm⟩
  have hrlen : (if big then sub work y else work).length = x.length := by
    split
    · rw [length_sub, h.lengthWork]
    · exact h.lengthWork
  refine ⟨value (if big then sub work y else work), ?_, ?_, ?_, ?_, ?_⟩
  · split <;> simp [bitShiftLeft1, h.lengthQuotient]
  · have hl' : work'.length = x.length := (length_shiftBits 1 0 _).trans hrlen
    split
    · rw [length_orLow, hl']
    · exact hl'
  · have hquotient : 2 * value q + big.toNat < 2 ^ (16 * x.length) := by
      have hdiv := Nat.div_le_self (value x) (2 ^ k)
      have hmul := Nat.le_mul_of_pos_right (2 * value q + big.toNat) hy
      have hlt := value_lt x
      omega
    rw [value_appendBit, h.lengthQuotient, Nat.mod_eq_of_lt hquotient]
    exact hrest.2
  · rw [hbit, Bool.toNat_false]
    exact Nat.mul_le_mul_left 2 hrest.1
  · rw [value_appendBit, hrlen, bitTest_next hx hk]

theorem loop (h : NearlyDivided x y k q work rest) (hy : 0 < value y)
    (hx : 16 * x.length < 2 ^ 32) (hk : k ≤ 16 * x.length + 1)
    (hbits : ∀ i < k, nextBit (value x) i = false) :
    ∃ rest', NearlyDivided x y 0 (divLoop x y k ((k : Int) - 2) q work).1
      (divLoop x y k ((k : Int) - 2) q work).2 rest' := by
  induction k generalizing q work rest with
  | zero => exact ⟨rest, h⟩
  | succ k ih =>
    have hnext : ((k + 1 : Nat) : Int) - 2 = (k : Int) - 1 := by omega
    have hnext' : (k : Int) - 1 - 1 = (k : Int) - 2 := by omega
    rw [divLoop, hnext, hnext']
    obtain ⟨rest', hstep⟩ := h.step hy hx (by omega) (hbits k (Nat.lt_succ_self k))
    exact ih hstep (by omega) fun i hi => hbits i (by omega)

end NearlyDivided

/-- The reciprocal of a number of any length: the quotient of a power of two is right or, where the
power is a multiple of the number, one less. -/
theorem divLong_two_pow (hvalue : value x = 2 ^ n) (hy : 0 < value y) (hm : bitMsb y ≤ bitMsb x)
    (hx : 16 * x.length < 2 ^ 32) :
    value (divLong x y).1 * value y ≤ 2 ^ n ∧
      2 ^ n ≤ (value (divLong x y).1 + 1) * value y := by
  have hypos : 0 < (value y).size := Nat.size_pos.mpr hy
  have hxsize : (value x).size ≤ 16 * x.length := Nat.size_le.mpr (value_lt x)
  have hsize : (value x).size = n + 1 := by rw [hvalue, Nat.size_pow]
  rw [bitMsb_eq, bitMsb_eq] at hm
  have hbits : ∀ i < (value x).size - (value y).size + 1, nextBit (value x) i = false := by
    intro i hi
    cases i with
    | zero => rfl
    | succ i =>
      rw [nextBit, hvalue, Nat.testBit_two_pow]
      exact decide_eq_false (by omega)
  have hstart := NearlyDivided.of_divided (Divided.start (x := x) hy (by omega) hx) hy
  obtain ⟨rest, hend⟩ := hstart.loop hy hx (by omega) hbits
  have hsplit := hend.split
  have hle := hend.rest_le
  rw [Nat.pow_zero, Nat.div_one] at hsplit
  rw [divLong_eq hy (by omega), ← hvalue, Nat.add_mul]
  dsimp only
  omega

end Reciprocal

/-- The quotient estimate of `v_bignum_reduce`. -/
def barrettQuotient (k : Nat) (x mu : VBig) : VBig :=
  let q := setBignum (List.replicate (x.length + mu.length - (k - 1)) 0) x
  bitShiftRight (mul (bitShiftRight q (16 * (k - 1))) mu) (16 * (k + 1))

/-- The difference of the two residues, before its sign is looked at. -/
def barrettDifference (k : Nat) (x q m : VBig) : VBig :=
  sub (setBignum x (clearFrom (setBignum (setZero x) x) (k + 1)))
    (clearFrom (mul (setBignum (setZero x) q) m) (k + 1))

def barrettSigned (k : Nat) (r : VBig) : VBig :=
  if bitTest r (16 * r.length - 1) then
    add r (bitSet (List.replicate (k + 16) 0) (16 * (k + 1)))
  else r

@[simp] theorem length_barrettDifference (k : Nat) (x q m : VBig) :
    (barrettDifference k x q m).length = x.length := by
  rw [barrettDifference, length_sub, length_setBignum]

@[simp] theorem length_barrettSigned (k : Nat) (r : VBig) :
    (barrettSigned k r).length = r.length := by
  unfold barrettSigned
  split <;> simp

theorem value_barrettDifference {x q m : VBig} (hp : value q * value m ≤ value x) :
    value (barrettDifference k x q m) =
      (value x % 2 ^ (16 * (k + 1)) + 2 ^ (16 * x.length) -
        value q * value m % 2 ^ (16 * (k + 1))) % 2 ^ (16 * x.length) := by
  have hx := value_lt x
  have hself : value (setBignum (setZero x) x) = value x := by
    rw [value_setBignum, length_setZero, Nat.mod_eq_of_lt hx]
  have hproduct : value (mul (setBignum (setZero x) q) m) = value q * value m := by
    rw [value_mul, length_setBignum, length_setZero, value_setBignum, length_setZero,
      Nat.mod_mul_mod, Nat.mod_eq_of_lt (hp.trans_lt hx)]
  have hsmall : value x % 2 ^ (16 * (k + 1)) < 2 ^ (16 * x.length) := (Nat.mod_le _ _).trans_lt hx
  rw [barrettDifference, value_sub_mod (by simp), length_setBignum, value_setBignum,
    value_clearFrom, value_clearFrom, hself, hproduct, Nat.mod_eq_of_lt hsmall]

theorem value_barrettSigned {x q m : VBig} (hx : x ≠ []) (hp : value q * value m ≤ value x)
    (hk : value x - value q * value m < 2 ^ (16 * (k + 1))) :
    value (barrettSigned k (barrettDifference k x q m)) = value x - value q * value m := by
  have hr := value_barrettDifference (k := k) hp
  have hlen := length_barrettDifference k x q m
  have hterm : value (bitSet (List.replicate (k + 16) 0) (16 * (k + 1))) = 2 ^ (16 * (k + 1)) :=
    value_bitSet_zero (by omega)
  have hne : barrettDifference k x q m ≠ [] := by
    rw [ne_eq, ← List.length_eq_zero_iff, hlen, List.length_eq_zero_iff]
    exact hx
  have htop := bitTest_top hne
  have hadd := value_add_mod (barrettDifference k x q m)
    (bitSet (List.replicate (k + 16) 0) (16 * (k + 1)))
  rw [hterm, hlen] at hadd
  rw [hlen] at htop
  have hcases : value (barrettSigned k (barrettDifference k x q m)) =
      if 2 ^ (16 * x.length) ≤ 2 * value (barrettDifference k x q m) then
        (value (barrettDifference k x q m) + 2 ^ (16 * (k + 1))) % 2 ^ (16 * x.length)
      else value (barrettDifference k x q m) := by
    unfold barrettSigned
    rw [hlen]
    by_cases h : bitTest (barrettDifference k x q m) (16 * x.length - 1) = true
    · rw [if_pos h, if_pos (htop.mp h), hadd]
    · rw [if_neg h, if_neg (mt htop.mpr h)]
  rw [hcases, hr]
  by_cases hroom : k + 1 < x.length
  · refine Barrett.difference_of_residues hp hk ?_
    rw [← Nat.pow_succ']
    exact Nat.pow_le_pow_right (by decide) (by omega)
  · have hdvd : 2 ^ (16 * x.length) ∣ 2 ^ (16 * (k + 1)) := Nat.pow_dvd_pow 2 (by omega)
    obtain ⟨h1, h2⟩ := Barrett.difference_without_period hp (value_lt x) hdvd (by positivity)
    rw [h2, h1, ite_self]

end VBignum

namespace Modulus

variable (m : Modulus)

theorem value_take_used : value (m.digits.take m.used) = value m.digits :=
  (value_take_usedBelow _ _).trans (value_take_length _)

theorem used_spec : 1 ≤ m.used ∧ 2 ^ (16 * (m.used - 1)) ≤ value m.digits := by
  have hall := m.value_take_used
  rcases usedBelow_digit m.digits m.digits.length with hzero | ⟨k, hk, hle⟩
  · change m.used = 0 at hzero
    rw [hzero] at hall
    exact absurd hall.symm m.ne_zero
  · change m.used = k + 1 at hk
    rw [← hk, hall] at hle
    rw [hk]
    exact ⟨Nat.le_add_left 1 k, hle⟩

theorem value_lt_used : value m.digits < 2 ^ (16 * m.used) := by
  rw [← m.value_take_used]
  exact value_take_lt _ _

theorem used_le : m.used ≤ m.digits.length := by
  by_contra hlt
  have hle := m.used_spec.2
  have hpow : 2 ^ (16 * m.digits.length) ≤ 2 ^ (16 * (m.used - 1)) :=
    Nat.pow_le_pow_right (by decide) (by omega)
  exact absurd (hpow.trans hle) (Nat.not_le.mpr (value_lt _))

theorem radix_mul :
    2 ^ (16 * (m.used - 1)) * 2 ^ (16 * (m.used + 1)) = 2 ^ (16 * (2 * m.used)) := by
  have hk := m.used_spec.1
  rw [← Nat.pow_add]
  congr 1
  omega

variable {m}

theorem reduceLoop_spec (r : VBig) (hl : m.digits.length ≤ r.length) :
    value (reduceLoop m r) = value r % value m.digits ∧ (reduceLoop m r).length = r.length := by
  fun_induction reduceLoop m r with
  | case1 r hge ih =>
    have hle := value_le_of_gte hge
    obtain ⟨hvalue, hlen⟩ := ih (by rwa [length_sub])
    rw [length_sub] at hlen
    exact ⟨by rw [hvalue, value_sub_of_le hle, ← Nat.mod_eq_sub_mod hle], hlen⟩
  | case2 r hlt =>
    rw [gte_iff hl, Nat.not_le] at hlt
    exact ⟨(Nat.mod_eq_of_lt hlt).symm, rfl⟩

/-- What `v_bignum_reduce_begin` computes for the modulus: the quotient of its comment or, for a
modulus with more leading zeros than digits that divides the power, one less. -/
structure Helper (m : Modulus) (mu : VBig) : Prop where
  length : mu.length = 2 * m.used + 1
  low : value mu * value m.digits ≤ 2 ^ (16 * (2 * m.used))
  high : 2 ^ (16 * (2 * m.used)) ≤ (value mu + 1) * value m.digits

section Reduction

variable {x mu : VBig}

theorem value_barrettQuotient (h : m.Helper mu) :
    value (barrettQuotient m.used x mu) = Barrett.estimate (2 ^ (16 * (m.used - 1)))
      (2 ^ (16 * (m.used + 1))) (value mu) (value x) := by
  obtain ⟨hk, -⟩ := m.used_spec
  have hlen := h.length
  have hwide : value x % 2 ^ (16 * (x.length + mu.length - (m.used - 1))) = value x :=
    Nat.mod_eq_of_lt ((value_lt x).trans_le (Nat.pow_le_pow_right (by decide) (by omega)))
  have hfits : value x / 2 ^ (16 * (m.used - 1)) * value mu <
      2 ^ (16 * (x.length + mu.length - (m.used - 1))) := by
    refine Nat.lt_of_mul_lt_mul_right (a := 2 ^ (16 * (m.used - 1))) ?_
    have hproduct : value x * value mu < 2 ^ (16 * x.length) * 2 ^ (16 * mu.length) :=
      Nat.mul_lt_mul'' (value_lt x) (value_lt mu)
    have hpow : 2 ^ (16 * x.length) * 2 ^ (16 * mu.length) =
        2 ^ (16 * (x.length + mu.length - (m.used - 1))) * 2 ^ (16 * (m.used - 1)) := by
      rw [← Nat.pow_add, ← Nat.pow_add]
      congr 1
      omega
    rw [← hpow]
    refine lt_of_le_of_lt ?_ hproduct
    rw [Nat.mul_right_comm]
    exact Nat.mul_le_mul_right _ (Nat.div_mul_le_self _ _)
  rw [barrettQuotient, value_bitShiftRight_digits, value_mul, length_bitShiftRight,
    length_setBignum, List.length_replicate, value_bitShiftRight_digits, value_setBignum,
    List.length_replicate, hwide, Nat.mod_eq_of_lt hfits, Barrett.estimate]

def reduced (m : Modulus) (mu x : VBig) : VBig :=
  reduceLoop m (barrettSigned m.used
    (barrettDifference m.used x (barrettQuotient m.used x mu) m.digits))

theorem reduced_spec (h : m.Helper mu) (hl : m.digits.length ≤ x.length)
    (hx : value x < 2 ^ (16 * (2 * m.used))) :
    value (m.reduced mu x) = value x % value m.digits ∧ (m.reduced mu x).length = x.length := by
  obtain ⟨hk, hB⟩ := m.used_spec
  have hm := m.value_lt_used
  have hne : x ≠ [] := by
    rintro rfl
    have := m.used_le
    simp only [List.length_nil] at hl
    omega
  have hq := value_barrettQuotient (x := x) h
  have hlow := h.low
  have hhigh := h.high
  rw [← m.radix_mul] at hx hlow hhigh
  have hle : value (barrettQuotient m.used x mu) * value m.digits ≤ value x := by
    rw [hq]
    exact Barrett.estimate_mul_le (by positivity) hlow
  have hlt : value x < (value (barrettQuotient m.used x mu) + 3) * value m.digits := by
    rw [hq]
    exact Barrett.sub_estimate_lt (by positivity) (by positivity) hB hx hhigh
  have hsmall : value x - value (barrettQuotient m.used x mu) * value m.digits <
      2 ^ (16 * (m.used + 1)) := by
    have hpow : 2 ^ (16 * (m.used + 1)) = 2 ^ 16 * 2 ^ (16 * m.used) := by
      rw [← Nat.pow_add]
      congr 1
      omega
    rw [Nat.add_mul] at hlt
    omega
  obtain ⟨hvalue, hlen⟩ := reduceLoop_spec (m := m) (barrettSigned m.used
    (barrettDifference m.used x (barrettQuotient m.used x mu) m.digits)) (by simpa using hl)
  rw [value_barrettSigned hne hle hsmall, Nat.mul_comm, Nat.sub_mul_mod (by rwa [Nat.mul_comm])]
    at hvalue
  exact ⟨hvalue, hlen.trans (by simp)⟩

end Reduction

end Modulus
end GvmCore
