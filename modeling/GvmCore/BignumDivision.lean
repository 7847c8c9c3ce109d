import GvmCore.BignumBits

namespace GvmCore.VBignum
open Digits
set_option autoImplicit true

theorem div_mod_append {a d b : Nat} (hd : 0 < d) (hb : b ≤ 1) :
    (2 * a + b) / d = 2 * (a / d) + (if d ≤ 2 * (a % d) + b then 1 else 0) ∧
      (2 * a + b) % d = 2 * (a % d) + b - (if d ≤ 2 * (a % d) + b then d else 0) := by
  have hsplit := Nat.div_add_mod a d
  have hlt := Nat.mod_lt a hd
  apply (Nat.div_mod_unique hd).mpr
  generalize a % d = r at *
  split
  · have hq : d * (2 * (a / d) + 1) = 2 * (d * (a / d)) + d := by ring
    omega
  · have hq : d * (2 * (a / d) + 0) = 2 * (d * (a / d)) := by ring
    omega

def nextBit (v : Nat) : Nat → Bool
  | 0 => false
  | k + 1 => v.testBit k

theorem append_nextBit (v k : Nat) :
    2 * (v / 2 ^ (k + 1)) + (nextBit v (k + 1)).toNat = v / 2 ^ k := by
  have hhalf : v / 2 ^ (k + 1) = v / 2 ^ k / 2 := by
    rw [Nat.pow_succ, Nat.div_div_eq_div_mul]
  rw [nextBit, Nat.toNat_testBit, hhalf]
  exact Nat.div_add_mod (v / 2 ^ k) 2

theorem bitTest_next {x : VBig} (hx : 16 * x.length < 2 ^ 32) (hk : k ≤ 16 * x.length) :
    bitTest x (((k : Int) - 1) % 2 ^ 32).toNat = nextBit (value x) k := by
  rw [bitTest_eq]
  cases k with
  | zero =>
    apply Nat.testBit_lt_two_pow
    exact (value_lt x).trans_le (Nat.pow_le_pow_right (by decide) (by omega))
  | succ k =>
    have hindex : (((k + 1 : Nat) : Int) - 1) % 2 ^ 32 = k := by omega
    rw [hindex]
    rfl

/-- The quotient and the working value when `k` bits of the dividend are left. -/
structure Divided (x y : VBig) (k : Nat) (q work : VBig) : Prop where
  lengthQuotient : q.length = x.length
  lengthWork : work.length = x.length
  quotient : value q = value x / 2 ^ k / value y
  remainder : value work =
    (2 * (value x / 2 ^ k % value y) + (nextBit (value x) k).toNat) % 2 ^ (16 * x.length)

/-- While bits are left the working value keeps its top bit: it is a part of the dividend. -/
theorem Divided.work_eq (h : Divided x y (k + 1) q work) :
    value work = 2 * (value x / 2 ^ (k + 1) % value y) + (nextBit (value x) (k + 1)).toNat := by
  have hprefix := append_nextBit (value x) k
  have hle := Nat.mod_le (value x / 2 ^ (k + 1)) (value y)
  have hdiv := Nat.div_le_self (value x) (2 ^ k)
  have hlt := value_lt x
  rw [h.remainder]
  apply Nat.mod_eq_of_lt
  omega

theorem Divided.step (h : Divided x y (k + 1) q work) (hl : y.length = x.length)
    (hy : 0 < value y) (hx : 16 * x.length < 2 ^ 32) (hk : k ≤ 16 * x.length) :
    let big := gte work y
    let work' := bitShiftLeft1 (if big then sub work y else work)
    Divided x y k (if big then orLow (bitShiftLeft1 q) 1 else bitShiftLeft1 q)
      (if bitTest x (((k : Int) - 1) % 2 ^ 32).toNat then orLow work' 1 else work') := by
  intro big work'
  have hlen : y.length = work.length := hl.trans h.lengthWork.symm
  have hwork := h.work_eq
  obtain ⟨hdiv, hmod⟩ :=
    div_mod_append (a := value x / 2 ^ (k + 1)) hy (nextBit (value x) (k + 1)).toNat_le
  rw [append_nextBit, ← hwork] at hdiv hmod
  have hbig : big = decide (value y ≤ value work) := by
    rw [Bool.eq_iff_iff, decide_eq_true_iff]
    exact gte_iff hlen.le
  have hrest : value (if big then sub work y else work) = value x / 2 ^ k % value y := by
    rw [hmod, hbig]
    by_cases hge : value y ≤ value work
    · simp only [hge, decide_true, if_true]
      exact value_sub hlen.le hge
    · simp [hge]
  have hrlen : (if big then sub work y else work).length = x.length := by
    split
    · rw [length_sub, h.lengthWork]
    · exact h.lengthWork
  refine ⟨?_, ?_, ?_, ?_⟩
  · split <;> simp [bitShiftLeft1, h.lengthQuotient]
  · have hl' : work'.length = x.length := (length_shiftBits 1 0 _).trans hrlen
    split
    · rw [length_orLow, hl']
    · exact hl'
  · have hle := Nat.div_le_self (value x / 2 ^ k) (value y)
    have hle' := Nat.div_le_self (value x) (2 ^ k)
    have hlt := value_lt x
    have hbit : (if value y ≤ value work then 1 else 0) = big.toNat := by
      rw [hbig]
      by_cases hge : value y ≤ value work <;> simp [hge]
    rw [hbit, ← h.quotient] at hdiv
    rw [value_appendBit, h.lengthQuotient, hdiv]
    apply Nat.mod_eq_of_lt
    omega
  · rw [value_appendBit, hrest, hrlen, bitTest_next hx hk]

theorem Divided.loop (h : Divided x y k q work) (hl : y.length = x.length) (hy : 0 < value y)
    (hx : 16 * x.length < 2 ^ 32) (hk : k ≤ 16 * x.length + 1) :
    Divided x y 0 (divLoop x y k ((k : Int) - 2) q work).1
      (divLoop x y k ((k : Int) - 2) q work).2 := by
  induction k generalizing q work with
  | zero => exact h
  | succ k ih =>
    have hnext : ((k + 1 : Nat) : Int) - 2 = (k : Int) - 1 := by omega
    have hnext' : (k : Int) - 1 - 1 = (k : Int) - 2 := by omega
    rw [divLoop, hnext, hnext']
    exact ih (h.step hl hy hx (by omega)) (by omega)

theorem Divided.start (hy : 0 < value y) (hs : (value y).size ≤ (value x).size)
    (hx : 16 * x.length < 2 ^ 32) :
    Divided x y ((value x).size - (value y).size + 1) (setZero x)
      (setBignumPart (setZero x) x ((value x).size - 1) (value y).size) := by
  have hypos : 0 < (value y).size := Nat.size_pos.mpr hy
  have hxsize : (value x).size ≤ 16 * x.length := Nat.size_le.mpr (value_lt x)
  have hsplit := append_nextBit (value x) ((value x).size - (value y).size)
  have htop : value x / 2 ^ ((value x).size - (value y).size) < 2 ^ (value y).size := by
    apply Nat.div_lt_of_lt_mul
    rw [← Nat.pow_add, Nat.sub_add_cancel hs]
    exact Nat.lt_size_self _
  have hbelow : value x / 2 ^ ((value x).size - (value y).size + 1) < value y := by
    have hle : 2 ^ ((value y).size - 1) ≤ value y := Nat.lt_size.mp (by omega)
    have hpow : 2 ^ (value y).size = 2 * 2 ^ ((value y).size - 1) := by
      rw [← Nat.pow_succ', Nat.succ_eq_add_one, Nat.sub_add_cancel hypos]
    omega
  refine ⟨length_setZero x, by simp, ?_, ?_⟩
  · rw [value_setZero, Nat.div_eq_of_lt hbelow]
  · have hpart : (value x).size - 1 + 1 - (value y).size = (value x).size - (value y).size := by
      omega
    have hle := Nat.div_le_self (value x) (2 ^ ((value x).size - (value y).size))
    have hlt := value_lt x
    rw [value_setBignumPart (by omega) (by omega) (by rw [length_setZero]; omega) (by omega), hpart,
      Nat.mod_eq_of_lt htop, Nat.mod_eq_of_lt hbelow, hsplit, Nat.mod_eq_of_lt (by omega)]

theorem divLong_eq (hy : 0 < value y) (hs : (value y).size ≤ (value x).size) :
    divLong x y =
      let k := (value x).size - (value y).size + 1
      let r := divLoop x y k ((k : Int) - 2) (setZero x)
        (setBignumPart (setZero x) x ((value x).size - 1) (value y).size)
      (r.1, bitShiftRight r.2 1) := by
  have hypos : 0 < (value y).size := Nat.size_pos.mpr hy
  have hmsb : (bitMsb x).toNat = (value x).size - 1 := by
    rw [bitMsb_eq]
    omega
  have hbits : (bitMsb y + 1).toNat = (value y).size := by
    rw [bitMsb_eq]
    omega
  have hcount : (bitMsb x - bitMsb y + 1).toNat = (value x).size - (value y).size + 1 := by
    rw [bitMsb_eq, bitMsb_eq]
    omega
  have hnext : bitMsb x - (bitMsb y + 1) =
      (((value x).size - (value y).size + 1 : Nat) : Int) - 2 := by
    rw [bitMsb_eq, bitMsb_eq]
    omega
  simp only [divLong, hmsb, hbits, hcount, hnext]

/-- The long path of `v_bignum_div`. The quotient is right at every width; the working value is
shifted once too often, and the top bit it loses there is gone when the shift is undone. -/
theorem divLong_spec (hl : y.length = x.length) (hy : 0 < value y) (hm : bitMsb y ≤ bitMsb x)
    (hx : 16 * x.length < 2 ^ 32) :
    value (divLong x y).1 = value x / value y ∧
      value (divLong x y).2 = value x % value y % 2 ^ (16 * x.length - 1) := by
  have hypos : 0 < (value y).size := Nat.size_pos.mpr hy
  have hxsize : (value x).size ≤ 16 * x.length := Nat.size_le.mpr (value_lt x)
  rw [bitMsb_eq, bitMsb_eq] at hm
  have hend := (Divided.start (x := x) hy (by omega) hx).loop hl hy hx (by omega)
  have hpow : 2 ^ (16 * x.length) = 2 * 2 ^ (16 * x.length - 1) := by
    rw [← Nat.pow_succ', Nat.succ_eq_add_one, Nat.sub_add_cancel (by omega)]
  rw [divLong_eq hy (by omega)]
  constructor
  · rw [hend.quotient, Nat.pow_zero, Nat.div_one]
  · rw [value_bitShiftRight_one, hend.remainder, Nat.pow_zero, Nat.div_one, nextBit,
      Bool.toNat_false, Nat.add_zero, hpow, Nat.mul_mod_mul_left,
      Nat.mul_div_cancel_left _ (by decide)]

end GvmCore.VBignum
