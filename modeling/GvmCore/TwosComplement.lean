import Mathlib.Data.Nat.ModEq
import Mathlib.Tactic.Ring
import Mathlib.Tactic.Zify

namespace GvmCore.TwosComplement
set_option autoImplicit true

variable {a b h m n : Nat}

/-- The signed reading of a number below `2 * h`. -/
def reading (h a : Nat) : Int := if a < h then a else (a : Int) - 2 * h

/-- The number below `2 * h` that stands for `i`. -/
def wrapped (h : Nat) (i : Int) : Nat := (i % (2 * h : Nat)).toNat

theorem reading_of_lt (ha : a < h) : reading h a = a := if_pos ha

theorem reading_of_ge (ha : h ≤ a) (ha' : a < 2 * h) :
    reading h a = -((2 * h - a : Nat) : Int) := by
  rw [reading, if_neg (by omega)]
  omega

theorem wrapped_natCast (hn : n < 2 * h) : wrapped h n = n := by
  rw [wrapped, ← Int.natCast_mod, Int.toNat_natCast, Nat.mod_eq_of_lt hn]

theorem wrapped_neg (h0 : 0 < n) (hn : n ≤ 2 * h) : wrapped h (-(n : Int)) = 2 * h - n := by
  have he : (-(n : Int)) % (2 * h : Nat) = ((2 * h - n : Nat) : Int) := by
    rw [← Int.add_emod_right, Int.emod_eq_of_lt] <;> omega
  rw [wrapped, he, Int.toNat_natCast]

theorem wrapped_neg_zero : wrapped h (-((0 : Nat) : Int)) = 0 := by simp [wrapped]

theorem wrapped_neg_injective (hm : m < 2 * h) (hn : n < 2 * h)
    (he : wrapped h (-(m : Int)) = wrapped h (-(n : Int))) : m = n := by
  rcases Nat.eq_zero_or_pos m with rfl | hm0
  · rcases Nat.eq_zero_or_pos n with rfl | hn0
    · rfl
    · rw [wrapped_neg_zero, wrapped_neg hn0 hn.le] at he
      omega
  · rcases Nat.eq_zero_or_pos n with rfl | hn0
    · rw [wrapped_neg_zero, wrapped_neg hm0 hm.le] at he
      omega
    · rw [wrapped_neg hm0 hm.le, wrapped_neg hn0 hn.le] at he
      omega

/-- The unsigned quotient is the signed one when both operands are not negative, and otherwise by
coincidence only. -/
theorem wrapped_tdiv_eq_div_iff (hh : 1 < h) (ha : a < 2 * h) (hb : b < 2 * h) :
    a / b = wrapped h ((reading h a).tdiv (reading h b)) ↔
      b = 0 ∨ (a < h ∧ (b < h ∨ a + b < 2 * h)) ∨ (h ≤ a ∧ (b = 1 ∨ a = b)) := by
  by_cases hb0 : b = 0
  · subst hb0
    rw [reading_of_lt (show 0 < h by omega), Nat.div_zero, Nat.cast_zero, Int.tdiv_zero]
    simp [wrapped]
  have hb' : 0 < b := Nat.pos_of_ne_zero hb0
  rcases Nat.lt_or_ge a h with hah | hah <;> rcases Nat.lt_or_ge b h with hbh | hbh
  · rw [reading_of_lt hah, reading_of_lt hbh, ← Int.ofNat_tdiv,
      wrapped_natCast ((Nat.div_le_self a b).trans_lt ha)]
    omega
  · -- a positive number by a negative one: the unsigned quotient is zero
    have hq : a / b = 0 := Nat.div_eq_of_lt (by omega)
    have hle : a / (2 * h - b) ≤ a := Nat.div_le_self _ _
    rw [reading_of_lt hah, reading_of_ge hbh hb, Int.tdiv_neg, ← Int.ofNat_tdiv, hq]
    rcases Nat.lt_or_ge a (2 * h - b) with hlt | hge
    · rw [Nat.div_eq_of_lt hlt, wrapped_neg_zero]
      omega
    · have hpos : 0 < a / (2 * h - b) := Nat.div_pos hge (by omega)
      rw [wrapped_neg hpos (by omega)]
      omega
  · have hle : (2 * h - a) / b ≤ 2 * h - a := Nat.div_le_self _ _
    have hpos : 0 < a / b := Nat.div_pos (by omega) hb'
    rw [reading_of_ge hah ha, reading_of_lt hbh, Int.neg_tdiv, ← Int.ofNat_tdiv]
    by_cases hb1 : b = 1
    · subst hb1
      rw [Nat.div_one, Nat.div_one, wrapped_neg (by omega) (by omega)]
      omega
    · have hhalf : a / b ≤ a / 2 := Nat.div_le_div_left (by omega) (by decide)
      rcases Nat.eq_zero_or_pos ((2 * h - a) / b) with hz | hpos'
      · rw [hz, wrapped_neg_zero]
        omega
      · rw [wrapped_neg hpos' (by omega)]
        omega
  · have hle : (2 * h - a) / (2 * h - b) ≤ 2 * h - a := Nat.div_le_self _ _
    rw [reading_of_ge hah ha, reading_of_ge hbh hb, Int.neg_tdiv, Int.tdiv_neg, Int.neg_neg,
      ← Int.ofNat_tdiv, wrapped_natCast (by omega)]
    rcases Nat.lt_trichotomy a b with hlt | rfl | hgt
    · have hpos : 0 < (2 * h - a) / (2 * h - b) := Nat.div_pos (by omega) (by omega)
      rw [Nat.div_eq_of_lt hlt]
      omega
    · rw [Nat.div_self hb', Nat.div_self (by omega)]
      omega
    · have hpos : 0 < a / b := Nat.div_pos hgt.le hb'
      rw [Nat.div_eq_of_lt (show 2 * h - a < 2 * h - b by omega)]
      omega

def magnitude (h a : Nat) : Nat := if a < h then a else 2 * h - a

theorem magnitude_lt (ha : a < 2 * h) : magnitude h a < 2 * h := by
  unfold magnitude
  split <;> omega

theorem tmod_magnitude (x : Int) (hb : b < 2 * h) :
    x.tmod (reading h b) = x.tmod (magnitude h b) := by
  unfold magnitude
  split
  · rename_i hbh
    rw [reading_of_lt hbh]
  · rename_i hbh
    rw [reading_of_ge (by omega) hb, Int.tmod_neg]

def withSign (h a n : Nat) : Nat := if a < h then n else wrapped h (-(n : Int))

theorem withSign_zero (h a : Nat) : withSign h a 0 = 0 := by
  unfold withSign
  split
  · rfl
  · exact wrapped_neg_zero

theorem withSign_inj (hm : m < 2 * h) (hn : n < 2 * h) :
    withSign h a m = withSign h a n ↔ m = n := by
  constructor
  · unfold withSign
    split
    · exact id
    · exact wrapped_neg_injective hm hn
  · exact congrArg (withSign h a)

theorem withSign_eq_zero (hm : m < 2 * h) : withSign h a m = 0 ↔ m = 0 := by
  rw [← withSign_inj (a := a) hm (by omega), withSign_zero]

theorem wrapped_tmod (ha : a < 2 * h) (hb : b < 2 * h) :
    wrapped h ((reading h a).tmod (reading h b)) =
      withSign h a (magnitude h a % magnitude h b) := by
  rw [tmod_magnitude _ hb, withSign]
  split
  · rename_i hah
    have hmag : magnitude h a = a := if_pos hah
    rw [reading_of_lt hah, ← Int.ofNat_tmod, wrapped_natCast ((Nat.mod_le a _).trans_lt ha), hmag]
  · rename_i hah
    have hmag : magnitude h a = 2 * h - a := if_neg hah
    rw [reading_of_ge (by omega) ha, Int.neg_tmod, ← Int.ofNat_tmod, hmag]

theorem testBit_iff (ha : a < 2 * 2 ^ k) : a.testBit k = true ↔ ¬ a < 2 ^ k := by
  by_cases hlt : a < 2 ^ k
  · rw [Nat.testBit_lt_two_pow hlt]
    exact iff_of_false (by decide) (not_not.mpr hlt)
  · obtain ⟨m, rfl⟩ : ∃ m, a = 2 ^ k + m := ⟨a - 2 ^ k, by omega⟩
    rw [Nat.testBit_two_pow_add_eq, Nat.testBit_lt_two_pow (by omega)]
    exact iff_of_true rfl hlt

theorem mul_pred_mod (hn : n < 2 * h) : n * (2 * h - 1) % (2 * h) = wrapped h (-(n : Int)) := by
  rcases Nat.eq_zero_or_pos n with rfl | h0
  · rw [wrapped_neg_zero, Nat.zero_mul, Nat.zero_mod]
  · have he : n * (2 * h - 1) = (2 * h - n) + 2 * h * (n - 1) := by
      obtain ⟨k, rfl⟩ : ∃ k, n = k + 1 := ⟨n - 1, by omega⟩
      obtain ⟨j, hj⟩ : ∃ j, 2 * h = j + 1 := ⟨2 * h - 1, by omega⟩
      have hsub : j + 1 - (k + 1) = j - k := by omega
      rw [hj, Nat.add_sub_cancel, Nat.add_sub_cancel, hsub]
      zify [show k ≤ j by omega]
      ring
    rw [he, Nat.add_mul_mod_self_left, Nat.mod_eq_of_lt (by omega), wrapped_neg h0 hn.le]

/-- A remainder that lost its top bit is wrong. -/
theorem lost_bit_iff (hh : 0 < h) :
    (if h ≤ a ∧ a < b then a - h else a % b) = a % b ↔ ¬ (h ≤ a ∧ a < b) := by
  by_cases hc : h ≤ a ∧ a < b
  · rw [if_pos hc, Nat.mod_eq_of_lt hc.2]
    omega
  · rw [if_neg hc]
    exact iff_of_true rfl hc

theorem mod_eq_magnitude_mod_iff (hb0 : b ≠ 0) (ha : a < 2 * h) (hb : b < 2 * h) :
    (if h ≤ a ∧ a < b then a - h else a % b) = magnitude h a % magnitude h b ↔
      (a < h ∧ (b < h ∨ a + b < 2 * h)) ∨ (h ≤ a ∧ b < h ∧ b ∣ 2 * a - 2 * h) ∨
      (h ≤ b ∧ (a = b ∨ (b < a ∧ 2 * a = 2 * h + b) ∨
        (h ≤ a ∧ a < b ∧ (2 * h - a) % (2 * h - b) = a - h))) := by
  unfold magnitude
  rcases Nat.lt_or_ge a h with hah | hah <;> rcases Nat.lt_or_ge b h with hbh | hbh
  · rw [if_neg (by omega), if_pos hah, if_pos hbh]
    omega
  · rw [if_neg (by omega), if_pos hah, if_neg (by omega), Nat.mod_eq_of_lt (show a < b by omega)]
    rcases Nat.lt_or_ge a (2 * h - b) with hlt | hge
    · rw [Nat.mod_eq_of_lt hlt]
      omega
    · have hmod := Nat.mod_lt a (show 0 < 2 * h - b by omega)
      omega
  · have hdvd : 2 * h - a ≡ a [MOD b] ↔ b ∣ 2 * a - 2 * h := by
      rw [Nat.modEq_iff_dvd' (by omega), show a - (2 * h - a) = 2 * a - 2 * h by omega]
    rw [if_neg (by omega), if_neg (by omega), if_pos hbh, ← hdvd]
    simp only [Nat.ModEq]
    omega
  · rw [if_neg (show ¬ a < h by omega), if_neg (show ¬ b < h by omega)]
    rcases Nat.lt_trichotomy a b with hlt | rfl | hgt
    · rw [if_pos ⟨hah, hlt⟩]
      omega
    · rw [if_neg (by omega), Nat.mod_self, Nat.mod_self]
      omega
    · rw [if_neg (by omega), Nat.mod_eq_sub_mod hgt.le, Nat.mod_eq_of_lt (show a - b < b by omega),
        Nat.mod_eq_of_lt (show 2 * h - a < 2 * h - b by omega)]
      omega

theorem mod_eq_mod_iff_dvd (hx : x ≤ m) (hr : r ≤ x) (hr' : r % d = r') :
    r' = m % d ↔ d ∣ m - r := by
  rw [← hr', ← Nat.modEq_iff_dvd' (hr.trans hx)]
  rfl

theorem cut_off_mod_iff (d m : Nat) :
    (if h ≤ m % (2 * h) ∧ m % (2 * h) < d then m % (2 * h) - h else m % (2 * h) % d) = m % d ↔
      d ∣ 2 * h * (m / (2 * h)) + if h ≤ m % (2 * h) ∧ m % (2 * h) < d then h else 0 := by
  have hle := Nat.mod_le m (2 * h)
  have hsplit := Nat.div_add_mod m (2 * h)
  by_cases hlost : h ≤ m % (2 * h) ∧ m % (2 * h) < d
  · have he : m - (m % (2 * h) - h) = 2 * h * (m / (2 * h)) + h := by omega
    rw [if_pos hlost, if_pos hlost,
      mod_eq_mod_iff_dvd hle (Nat.sub_le _ h) (Nat.mod_eq_of_lt (by omega)),
      he]
  · have he : m - m % (2 * h) = 2 * h * (m / (2 * h)) := by omega
    rw [if_neg hlost, if_neg hlost, mod_eq_mod_iff_dvd hle le_rfl rfl, he, Nat.add_zero]

theorem lt_iff_reading_lt (ha : a < 2 * h) (hb : b < 2 * h) :
    (a < b ↔ reading h a < reading h b) ↔ (a < h ↔ b < h) := by
  unfold reading
  split <;> split <;> omega

/-- Bit `t` of `x` and the bits below it as a signed number, at the width of `2 * h`. -/
def extended (h t x : Nat) : Nat := wrapped h (reading (2 ^ t) (x % 2 ^ (t + 1)))

theorem mod_two_pow_succ (x t : Nat) :
    x % 2 ^ (t + 1) = x % 2 ^ t + 2 ^ t * (x.testBit t).toNat := by
  rw [Nat.mod_pow_succ, Nat.testBit_eq_decide_div_mod_eq]
  rcases Nat.mod_two_eq_zero_or_one (x / 2 ^ t) with h0 | h1
  · rw [h0]
    rfl
  · rw [h1]
    rfl

theorem extended_of_clear (ht : 2 ^ t ≤ h) (hx : x.testBit t = false) :
    extended h t x = x % 2 ^ t := by
  have hlt := Nat.mod_lt x (Nat.two_pow_pos t)
  rw [extended, mod_two_pow_succ, hx, Bool.toNat_false, Nat.mul_zero, Nat.add_zero,
    reading_of_lt hlt,
    wrapped_natCast (by omega)]

theorem extended_of_set (ht : 2 ^ t ≤ h) (hx : x.testBit t = true) :
    extended h t x = 2 * h - 2 ^ t + x % 2 ^ t := by
  have hlt := Nat.mod_lt x (Nat.two_pow_pos t)
  rw [extended, mod_two_pow_succ, hx, Bool.toNat_true, Nat.mul_one,
    reading_of_ge (by omega) (by omega),
    wrapped_neg (by omega) (by omega)]
  omega

theorem testBit_extended (ht : t ≤ m) (hx : x < 2 ^ (m + 1)) (i : Nat) :
    (extended (2 ^ m) t x).testBit i = if t < i ∧ i ≤ m then x.testBit t else x.testBit i := by
  have hpow : 2 ^ t ≤ 2 ^ m := Nat.pow_le_pow_right (by decide) ht
  have hhigh : m < i → x.testBit i = false := by
    intro hi
    exact Nat.testBit_lt_two_pow (hx.trans_le (Nat.pow_le_pow_right (by decide) hi))
  cases hs : x.testBit t with
  | false =>
    rw [extended_of_clear hpow hs, Nat.testBit_mod_two_pow]
    rcases lt_trichotomy i t with hi | rfl | hi
    · rw [if_neg (by omega), decide_eq_true hi, Bool.true_and]
    · rw [if_neg (by omega), hs, Bool.and_false]
    · rw [decide_eq_false (by omega), Bool.false_and]
      by_cases him : i ≤ m
      · rw [if_pos ⟨hi, him⟩]
      · rw [if_neg (by omega), hhigh (by omega)]
  | true =>
    have hlt := Nat.mod_lt x (Nat.two_pow_pos t)
    have hsplit : 2 * 2 ^ m - 2 ^ t = 2 ^ t * (2 ^ (m + 1 - t) - 1) := by
      rw [Nat.mul_sub_one, ← Nat.pow_add, Nat.add_sub_cancel' (by omega), Nat.pow_succ']
    rw [extended_of_set hpow hs, hsplit, Nat.testBit_two_pow_mul_add _ hlt, Nat.testBit_mod_two_pow,
      Nat.testBit_two_pow_sub_one]
    by_cases hi : i < t
    · rw [if_pos hi, if_neg (by omega), decide_eq_true hi, Bool.true_and]
    · rw [if_neg hi]
      by_cases him : i ≤ m
      · rw [decide_eq_true (by omega)]
        by_cases hit : t < i
        · rw [if_pos ⟨hit, him⟩]
        · have he : i = t := by omega
          rw [if_neg (by omega), he, hs]
      · rw [decide_eq_false (by omega), if_neg (by omega), hhigh (by omega)]

end GvmCore.TwosComplement
