import GvmCore.Bignum
import GvmCore.Digits

namespace GvmCore.VBignum
open Digits
set_option autoImplicit true

@[simp] theorem length_setZero (x : VBig) : (setZero x).length = x.length := List.length_replicate

@[simp] theorem length_setOne (x : VBig) : (setOne x).length = x.length := by
  cases x <;> simp [setOne]

@[simp] theorem length_setBignum (x y : VBig) : (setBignum x y).length = x.length := by
  simp only [setBignum, List.length_append, List.length_take, List.length_replicate]
  omega

@[simp] theorem length_orLow (x : VBig) (d : Nat) : (orLow x d).length = x.length := by
  cases x <;> rfl

@[simp] theorem length_shiftBits (count carry : Nat) (x : VBig) :
    (shiftBits count carry x).length = x.length := by
  induction x generalizing carry with
  | nil => rfl
  | cons x xs ih => exact congrArg (· + 1) (ih _)

@[simp] theorem value_setZero (x : VBig) : value (setZero x) = 0 := value_replicate_zero x.length

theorem value_setOne {x : VBig} (hx : x ≠ []) : value (setOne x) = 1 := by
  cases x with
  | nil => exact absurd rfl hx
  | cons x xs => simp [setOne]

theorem value_setBignum (x y : VBig) : value (setBignum x y) = value y % 2 ^ (16 * x.length) := by
  have hz : value (List.replicate (x.length - y.length) (0 : VBigDig)) = 0 :=
    value_replicate_zero _
  rw [setBignum, value_append, hz, Nat.mul_zero, Nat.add_zero]
  by_cases h : x.length ≤ y.length
  · exact value_take x.length y h
  · rw [List.take_of_length_le (by omega), Nat.mod_eq_of_lt]
    exact (value_lt y).trans_le (Nat.pow_le_pow_right (by decide) (by omega))

theorem value_shiftBits {count carry : Nat} (hc : carry < 2 ^ count) (x : VBig) :
    value (shiftBits count carry x) =
      (2 ^ count * value x + carry) % 2 ^ (16 * x.length) := by
  induction x generalizing carry with
  | nil => simp [shiftBits, Nat.mod_one]
  | cons x xs ih =>
    have ht : (x.toNat <<< count) ||| carry = 2 ^ count * x.toNat + carry := by
      rw [← Nat.shiftLeft_add_eq_or_of_lt hc, Nat.shiftLeft_eq, Nat.mul_comm]
    have hlt : (2 ^ count * x.toNat + carry) / 2 ^ 16 < 2 ^ count := by
      rw [Nat.div_lt_iff_lt_mul (by decide)]
      have hx : x.toNat + 1 ≤ 2 ^ 16 := x.isLt
      have hm := Nat.mul_le_mul_left (2 ^ count) hx
      rw [Nat.mul_add] at hm
      omega
    simp only [shiftBits, value_cons]
    rw [ht, Nat.shiftRight_eq_div_pow, ih hlt, pow_length_cons, digit_add_carry_mod]
    congr 1
    ring

theorem orLow_shiftBits {d count : Nat} (hc : count ≤ 16) (hd : d < 2 ^ count) (x : VBig) :
    orLow (shiftBits count 0 x) d = shiftBits count d x := by
  cases x with
  | nil => rfl
  | cons x xs =>
    have hd16 : d < 2 ^ 16 := hd.trans_le (Nat.pow_le_pow_right (by decide) hc)
    have hs : x.toNat <<< count >>> 16 = (x.toNat <<< count ||| d) >>> 16 := by
      rw [Nat.shiftRight_or_distrib, Nat.shiftRight_eq_div_pow d, Nat.div_eq_of_lt hd16,
        Nat.or_zero]
    simp only [shiftBits, orLow, Nat.or_zero, hs, List.cons.injEq, and_true]
    apply BitVec.eq_of_toNat_eq
    rw [BitVec.toNat_or, BitVec.toNat_ofNat, BitVec.toNat_ofNat, BitVec.toNat_ofNat,
      Nat.or_mod_two_pow]

theorem length_setStringDigits (x : VBig) (string : List Char) :
    (setStringDigits x string).length = x.length := by
  induction string generalizing x with
  | nil => rfl
  | cons c cs ih =>
    simp only [setStringDigits]
    split
    · rw [ih, length_orLow]
      simp [bitShiftLeft]
    · rfl

theorem value_setStringDigits {string : List Char} (h : ∀ c ∈ string, isxdigit c = true)
    (x : VBig) : value (setStringDigits x string) =
      (value x * 16 ^ string.length + hexValue string) % 2 ^ (16 * x.length) := by
  induction string generalizing x with
  | nil => simpa [setStringDigits] using (Nat.mod_eq_of_lt (value_lt x)).symm
  | cons c cs ih =>
    have hc := h c List.mem_cons_self
    have hcs := fun d hd => h d (List.mem_cons_of_mem c hd)
    have hd := xdigitValue_lt c
    have hs : bitShiftLeft x 4 = shiftBits 4 0 x := rfl
    rw [setStringDigits, if_pos hc, hs, orLow_shiftBits (by decide) hd, ih hcs, length_shiftBits,
      value_shiftBits (show _ < 2 ^ 4 from hd), hexValue_cons, List.length_cons]
    rw [Nat.add_mod, Nat.mod_mul_mod, ← Nat.add_mod]
    congr 1
    ring

theorem length_setStringHex (x : VBig) (string : List Char) :
    (setStringHex x string).length = x.length := by
  unfold setStringHex
  split <;> simp [length_setStringDigits]

theorem value_setStringHex {string : List Char} (h : ∀ c ∈ string, isxdigit c = true) (x : VBig) :
    value (setStringHex x ('0' :: 'x' :: string)) =
      hexValue string % 2 ^ (16 * x.length) := by
  rw [setStringHex, value_setStringDigits h]
  simp

/-- A borrow loop: what it leaves and what it takes off add up to the number it started from,
up to one borrow out of the top digit. -/
theorem value_subCarry {c : Nat} (hc : c ≤ 1) (x : VBig) :
    ∃ b ≤ 1, value (subCarry x c) + c = value x + 2 ^ (16 * x.length) * b := by
  induction x generalizing c with
  | nil => exact ⟨c, hc, by simp [subCarry]⟩
  | cons x xs ih =>
    have hx := x.isLt
    rw [pow_length_cons]
    by_cases h0 : c = 0
    · exact ⟨0, by decide, by simp [subCarry, h0]⟩
    have h1 : c = 1 := by omega
    subst h1
    by_cases hz : x.toNat = 0
    · obtain ⟨b, hb, he⟩ := ih (c := 1) le_rfl
      refine ⟨b, hb, ?_⟩
      simp only [subCarry, hz, value_cons]
      norm_num
      linarith
    · have ht : (x.toNat + 2 ^ 32 - 1) % 2 ^ 32 = x.toNat - 1 := by omega
      refine ⟨0, by decide, ?_⟩
      have hs : subCarry xs 0 = xs := by cases xs <;> simp [subCarry]
      simp only [subCarry, ht, one_ne_zero, if_false, value_cons]
      rw [if_neg (by omega), hs, BitVec.toNat_ofNat, Nat.mod_eq_of_lt (by omega)]
      omega

theorem value_subLoop {c : Nat} (hc : c ≤ 1) (x y : VBig) (hl : y.length ≤ x.length) :
    ∃ b ≤ 1, value (subLoop x y c) + value y + c = value x + 2 ^ (16 * x.length) * b := by
  induction x generalizing y c with
  | nil =>
    have hy : y = [] := List.length_eq_zero_iff.mp (Nat.le_zero.mp hl)
    subst hy
    exact ⟨c, hc, by simp [subLoop, subCarry]⟩
  | cons x xs ih =>
    cases y with
    | nil => simpa [subLoop] using value_subCarry hc (x :: xs)
    | cons y ys =>
      have hx := x.isLt
      have hy := y.isLt
      have hl' : ys.length ≤ xs.length := by simpa using hl
      rw [pow_length_cons]
      by_cases hle : y.toNat + c ≤ x.toNat
      · have ht : (x.toNat + 2 ^ 32 - y.toNat - c) % 2 ^ 32 = x.toNat - y.toNat - c := by omega
        obtain ⟨b, hb, he⟩ := ih (c := 0) (by decide) ys hl'
        refine ⟨b, hb, ?_⟩
        simp only [subLoop, ht, value_cons]
        rw [if_neg (by omega), BitVec.toNat_ofNat, Nat.mod_eq_of_lt (by omega)]
        linarith [Nat.sub_add_cancel hle, Nat.sub_sub x.toNat y.toNat c]
      · have ht : (x.toNat + 2 ^ 32 - y.toNat - c) % 2 ^ 32 = x.toNat + 2 ^ 32 - y.toNat - c :=
          Nat.mod_eq_of_lt (by omega)
        have hm : (x.toNat + 2 ^ 32 - y.toNat - c) % 2 ^ 16 + y.toNat + c = x.toNat + 2 ^ 16 := by
          omega
        obtain ⟨b, hb, he⟩ := ih (c := 1) le_rfl ys hl'
        refine ⟨b, hb, ?_⟩
        simp only [subLoop, ht, value_cons]
        rw [if_pos (by omega), BitVec.toNat_ofNat]
        linarith

@[simp] theorem length_subCarry (x : VBig) (c : Nat) : (subCarry x c).length = x.length := by
  induction x generalizing c with
  | nil => rfl
  | cons x xs ih =>
    simp only [subCarry]
    split
    · rfl
    · exact congrArg (· + 1) (ih _)

@[simp] theorem length_sub (x y : VBig) : (sub x y).length = x.length := by
  suffices h : ∀ c, (subLoop x y c).length = x.length from h 0
  induction x generalizing y with
  | nil => intro c; cases y <;> rfl
  | cons x xs ih =>
    intro c
    cases y with
    | nil => simp [subLoop]
    | cons y ys => exact congrArg (· + 1) (ih ys _)

theorem value_sub {x y : VBig} (hl : y.length ≤ x.length) (h : value y ≤ value x) :
    value (sub x y) = value x - value y := by
  obtain ⟨b, hb, he⟩ := value_subLoop (c := 0) (by decide) x y hl
  have hlt := value_lt (sub x y)
  rw [length_sub] at hlt
  change value (sub x y) + value y + 0 = _ at he
  have hb0 : b = 0 := by
    by_contra hne
    have h1 : b = 1 := by omega
    rw [h1] at he
    omega
  rw [hb0] at he
  omega

theorem value_sub_wrap {x y : VBig} (hl : y.length ≤ x.length) (h : value x < value y) :
    value (sub x y) + value y = value x + 2 ^ (16 * x.length) := by
  obtain ⟨b, hb, he⟩ := value_subLoop (c := 0) (by decide) x y hl
  change value (sub x y) + value y + 0 = _ at he
  have hb1 : b = 1 := by
    by_contra hne
    have h0 : b = 0 := by omega
    rw [h0] at he
    omega
  rw [hb1] at he
  omega

theorem value_take_length (x : VBig) : value (x.take x.length) = value x := by
  rw [List.take_length]

theorem value_take_usedBelow (x : VBig) (n : Nat) :
    value (x.take (usedBelow x n)) = value (x.take n) := by
  induction n with
  | zero => rfl
  | succ n ih =>
    rw [usedBelow]
    split
    · rfl
    · rename_i h
      have hz : x.getD n 0 = 0 := by simpa using h
      rw [ih, value_take_succ, hz]
      simp

theorem usedBelow_digit (x : VBig) (n : Nat) :
    usedBelow x n = 0 ∨ ∃ k, usedBelow x n = k + 1 ∧ 2 ^ (16 * k) ≤ value (x.take (k + 1)) := by
  induction n with
  | zero => exact .inl rfl
  | succ n ih =>
    rw [usedBelow]
    split
    · rename_i h
      have hd : (x.getD n 0).toNat ≠ 0 := by
        intro hz
        have := BitVec.eq_of_toNat_eq (y := 0#16) (by simpa using hz)
        simp [this] at h
      refine .inr ⟨n, rfl, ?_⟩
      rw [value_take_succ]
      exact (Nat.le_mul_of_pos_right _ (Nat.pos_of_ne_zero hd)).trans (Nat.le_add_left _ _)
    · exact ih

theorem value_take_lt (x : VBig) (n : Nat) : value (x.take n) < 2 ^ (16 * n) :=
  (value_lt (x.take n)).trans_le (Nat.pow_le_pow_right (by decide)
    (Nat.mul_le_mul_left 16 (List.length_take_le n x)))

theorem compareBelow_eq (x y : VBig) (last : Bool) (n : Nat) :
    compareBelow x y last n = (decide (value (y.take n) < value (x.take n)) ||
      (decide (value (x.take n) = value (y.take n)) && last)) := by
  induction n with
  | zero => simp [compareBelow]
  | succ n ih =>
    have hx := value_take_lt x n
    have hy := value_take_lt y n
    rw [compareBelow, value_take_succ, value_take_succ, ih]
    generalize hX : (x.getD n 0) = X
    generalize hY : (y.getD n 0) = Y
    -- the digits at `n` decide unless they are equal; then the lower ones do
    rcases lt_trichotomy X.toNat Y.toNat with h | h | h
    · have hm := Nat.mul_le_mul_left (2 ^ (16 * n)) (Nat.succ_le_of_lt h)
      rw [Nat.mul_succ] at hm
      have hlt : X < Y := h
      rw [if_pos hlt, decide_eq_false (by omega), decide_eq_false (by omega)]
      rfl
    · have he : X = Y := BitVec.eq_of_toNat_eq h
      subst he
      rw [if_neg (BitVec.lt_irrefl X), if_neg (BitVec.lt_irrefl X)]
      simp only [Nat.add_lt_add_iff_right, Nat.add_right_cancel_iff]
    · have hm := Nat.mul_le_mul_left (2 ^ (16 * n)) (Nat.succ_le_of_lt h)
      rw [Nat.mul_succ] at hm
      have hlt : ¬ X < Y := fun h' => absurd (show X.toNat < Y.toNat from h') (by omega)
      have hgt : X > Y := h
      rw [if_neg hlt, if_pos hgt, decide_eq_true (by omega)]
      rfl

/-- The comparisons order numbers by value; `last` decides between equal non-zero ones and `zero`
between two zeros. -/
theorem compareUsed_eq (x y : VBig) (zero last : Bool) :
    compareUsed x y zero last = (decide (value y < value x) ||
      (decide (value x = value y) && if value x = 0 then zero else last)) := by
  have hx := value_take_usedBelow x x.length
  have hy := value_take_usedBelow y y.length
  rw [value_take_length] at hx hy
  have hxlt := value_take_lt x (usedBelow x x.length)
  have hylt := value_take_lt y (usedBelow y y.length)
  have hxd := usedBelow_digit x x.length
  have hyd := usedBelow_digit y y.length
  simp only [compareUsed]
  generalize usedBelow x x.length = i at *
  generalize usedBelow y y.length = j at *
  have hmono : ∀ k l, k + 1 ≤ l + 1 → 2 ^ (16 * k) ≤ 2 ^ (16 * l) := fun k l h =>
    Nat.pow_le_pow_right (by decide) (by omega)
  rcases hxd with rfl | ⟨k, rfl, hk⟩ <;> rcases hyd with rfl | ⟨l, rfl, hl⟩
  · have hx0 : value x = 0 := by simpa using hx.symm
    have hy0 : value y = 0 := by simpa using hy.symm
    simp [hx0, hy0]
  · have hx0 : value x = 0 := by simpa using hx.symm
    have hp := Nat.two_pow_pos (16 * l)
    rw [if_neg (by omega), if_pos (by omega), decide_eq_false (by omega),
      decide_eq_false (by omega)]
    rfl
  · have hy0 : value y = 0 := by simpa using hy.symm
    have hp := Nat.two_pow_pos (16 * k)
    rw [if_neg (by omega), if_neg (by omega), if_pos (by omega), decide_eq_true (by omega)]
    rfl
  · rw [if_neg (by omega)]
    rcases lt_trichotomy k l with h | h | h
    · have hle := hmono (k + 1) l (by omega)
      rw [if_pos (by omega), decide_eq_false (by omega), decide_eq_false (by omega)]
      rfl
    · subst h
      have hp := Nat.two_pow_pos (16 * k)
      rw [if_neg (by omega), if_neg (by omega), compareBelow_eq, hx, hy,
        if_neg (c := value x = 0) (by omega)]
    · have hle := hmono (l + 1) k (by omega)
      rw [if_neg (by omega), if_pos (by omega), decide_eq_true (by omega)]
      rfl

theorem gt_iff {x y : VBig} (hl : x.length ≤ y.length) : gt x y = true ↔ value y < value x := by
  have hlast : decide (x.length > y.length) = false := decide_eq_false (by omega)
  simp [gt, compareUsed_eq, hlast]

theorem eqZero_iff {x : VBig} : eqZero x = true ↔ value x = 0 := by
  rw [value_eq_zero, eqZero, List.all_eq_true]
  simp

theorem eqOne_iff {x : VBig} (hx : x ≠ []) : eqOne x = true ↔ value x = 1 := by
  cases x with
  | nil => exact absurd rfl hx
  | cons x xs =>
    have hlt := x.isLt
    simp only [eqOne, Bool.and_eq_true, beq_iff_eq, eqZero_iff, value_cons]
    constructor
    · rintro ⟨rfl, hz⟩
      simp [hz]
    · intro h
      have hz : value xs = 0 := by omega
      exact ⟨BitVec.eq_of_toNat_eq (by simpa [hz] using h), hz⟩

end GvmCore.VBignum
