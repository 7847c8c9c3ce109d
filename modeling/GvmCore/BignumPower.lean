import GvmCore.BignumBits
import GvmCore.Functions

namespace GvmCore
open Exec VBignum Digits
set_option autoImplicit true

namespace VBignum

theorem subLoop_take (x y : VBig) (c : Nat) : subLoop x (y.take x.length) c = subLoop x y c := by
  induction x generalizing y c with
  | nil => cases y <;> rfl
  | cons x xs ih =>
    cases y with
    | nil => rfl
    | cons y ys => simp only [List.length_cons, List.take_succ_cons, subLoop, ih]

theorem value_take_of_lt {y : VBig} (h : value y < 2 ^ (16 * n)) : value (y.take n) = value y := by
  by_cases hn : n ≤ y.length
  · rw [value_take n y hn, Nat.mod_eq_of_lt h]
  · rw [List.take_of_length_le (by omega)]

theorem value_sub_of_le {x y : VBig} (h : value y ≤ value x) :
    value (sub x y) = value x - value y := by
  have htake : value (y.take x.length) = value y := value_take_of_lt (h.trans_lt (value_lt x))
  have hlen : (y.take x.length).length ≤ x.length := by
    rw [List.length_take]
    exact Nat.min_le_left _ _
  rw [sub, ← subLoop_take, ← sub, value_sub hlen (htake.trans_le h), htake]

theorem value_le_of_gte {x y : VBig} (h : gte x y = true) : value y ≤ value x := by
  rw [gte, compareUsed_eq, Bool.or_eq_true, Bool.and_eq_true, decide_eq_true_iff,
    decide_eq_true_iff] at h
  omega

/-- One row of the square: twice the product with one digit is added to `w`, with a 33 bit sum. The
second component is the carry left at its end. -/
def squareRow (d : Nat) : VBig → List Nat → Nat → List Nat × Nat
  | x :: xs, w :: ws, c =>
    let uv := x.toNat * d
    let high := if uv &&& 0x80000000 ≠ 0 then 1 else 0
    let ouv := uv * 2 % 2 ^ 32
    let uv := (ouv + (w + c) % 2 ^ 32) % 2 ^ 32
    let high := high ||| (if uv < ouv then 1 else 0)
    let (row, last) := squareRow d xs ws (uv >>> 16 ||| high <<< 16)
    ((uv &&& 0xFFFF) :: row, last)
  | _, ws, c => (ws, c)

def squareRows (t : Nat) : VBig → Nat → List Nat → List Nat
  | [], _, w => w
  | x :: xs, i, w =>
    let uv := (w.getD (2 * i) 0 + x.toNat * x.toNat) % 2 ^ 32
    let (row, last) := squareRow x.toNat xs (w.drop (2 * i + 1)) (uv >>> 16)
    squareRows t xs (i + 1) ((w.take (2 * i) ++ (uv &&& 0xFFFF) :: row).set (i + t) last)

def squareDigits (x : VBig) (t : Nat) : VBig :=
  (squareRows t (x.take t) 0 (List.replicate (2 * t) 0)).map (BitVec.ofNat 16) ++
    List.replicate (x.length - 2 * t) 0

def clearFrom (x : VBig) (n : Nat) : VBig := x.take n ++ List.replicate (x.length - n) 0

end VBignum

/-- The modulus of a reduction. For zero the last loop of `v_bignum_reduce` would subtract nothing
for ever. -/
structure Modulus where
  digits : VBig
  ne_zero : value digits ≠ 0

/-- The significant digits, which the source counts down from the top. -/
def Modulus.used (m : Modulus) : Nat := usedBelow m.digits m.digits.length

def reduceLoop (m : Modulus) (r : VBig) : VBig :=
  if gte r m.digits then reduceLoop m (sub r m.digits) else r
termination_by value r
decreasing_by
  have hle := value_le_of_gte ‹_›
  have hne := m.ne_zero
  rw [value_sub_of_le hle]
  omega

/-- Besides the faults of the digit heap: a product or a square is longer than the local array `w`
it is collected in. -/
inductive PowerFault where
  | core (f : Fault)
  | buffer
  deriving DecidableEq, Repr

abbrev PowerM (w c : Nat) := Exec PowerFault (Core w c)

def bignumMul (x y : VBig) : PowerM w c VBig :=
  if x.length + y.length + 1 > 2048 then fault .buffer else pure (mul x y)

def bignumSquareHalf (x : VBig) : PowerM w c VBig :=
  if x.length / 2 = 0 then pure x
  else
    let t := usedBelow x (x.length / 2)
    if 2 * t > 256 then fault .buffer else pure (squareDigits x t)

def bignumReduceBegin (E : Engine w c) (m : Modulus) : PowerM w c VBig := do
  let k := m.used
  let pos ← mapFault .core (bignumAlloc E (2 * k + 1))
  let mu := bitSet (List.replicate (2 * k + 1) 0) (16 * 2 * k)
  -- the remainder is `NULL`
  let q ← mapFault .core (bignumDiv E mu m.digits [])
  mapFault .core (bignumStore pos q.1)
  return q.1

def bignumReduceEnd (mu : VBig) : PowerM w c Unit := mapFault .core (bignumFree mu.length)

def reduceSign (E : Engine w c) (k : Nat) (r : VBig) : PowerM w c VBig :=
  if bitTest r (16 * r.length - 1) then do
    let pos ← mapFault .core (bignumAlloc E (k + 16))
    let term := bitSet (List.replicate (k + 16) 0) (16 * (k + 1))
    mapFault .core (bignumStore pos term)
    mapFault .core (bignumFree (k + 16))
    return add r term
  else return r

/-- `x % m` by Barrett reduction, for the helper value `mu` of `m`. -/
def bignumReduce (E : Engine w c) (x : VBig) (m : Modulus) (mu : VBig) : PowerM w c VBig := do
  let k := m.used
  let n := x.length + mu.length - (k - 1)
  let qpos ← mapFault .core (bignumAlloc E n)
  let q := setBignum (List.replicate n 0) x
  let q ← bignumMul (bitShiftRight q (16 * (k - 1))) mu
  let q := bitShiftRight q (16 * (k + 1))
  let r1pos ← mapFault .core (bignumAlloc E x.length)
  let r2pos ← mapFault .core (bignumAlloc E x.length)
  let r1 := clearFrom (setBignum (setZero x) x) (k + 1)
  let r2 ← bignumMul (setBignum (setZero x) q) m.digits
  let r2 := clearFrom r2 (k + 1)
  let r ← reduceSign E k (sub (setBignum x r1) r2)
  mapFault .core (bignumStore r2pos r2)
  mapFault .core (bignumFree x.length)
  mapFault .core (bignumStore r1pos r1)
  mapFault .core (bignumFree x.length)
  mapFault .core (bignumStore qpos q)
  mapFault .core (bignumFree n)
  return reduceLoop m r

def powLoop (E : Engine w c) (x y : VBig) (n : Modulus) (mu : VBig) : Nat → VBig → PowerM w c VBig
  | 0, tmp => return tmp
  | i + 1, tmp => do
    let tmp ← bignumSquareHalf tmp
    let tmp ← bignumReduce E tmp n mu
    if bitTest y i then
      let tmp ← bignumMul tmp x
      let tmp ← bignumReduce E tmp n mu
      powLoop E x y n mu i tmp
    else powLoop E x y n mu i tmp

def bignumPowMod (E : Engine w c) (x y : VBig) (n : Modulus) : PowerM w c VBig := do
  let pos ← mapFault .core (bignumAlloc E (2 * x.length))
  let tmp := setBignum (List.replicate (2 * x.length) 0) x
  let k := bitMsb y
  let mu ← bignumReduceBegin E n
  let tmp ← powLoop E x y n mu k.toNat tmp
  bignumReduceEnd mu
  mapFault .core (bignumStore pos tmp)
  mapFault .core (bignumFree (2 * x.length))
  return setBignum x tmp

end GvmCore
