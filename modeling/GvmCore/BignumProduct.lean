import GvmCore.BignumLength
import Mathlib.Data.Nat.Digits.Lemmas
import Mathlib.Tactic.LinearCombination

namespace GvmCore.VBignum
open Digits
set_option autoImplicit true

def base : Nat := 2 ^ 16

theorem base_pow (n : Nat) : base ^ n = 2 ^ (16 * n) := by rw [base, ← pow_mul]

theorem mulDigit_lt (hx : x < base) (hy : y < base) (hw : d < base) (hc : c < base) :
    d + x * y + c < 2 ^ 32 := by
  unfold base at *
  have hxy : x * y ≤ (2 ^ 16 - 1) * (2 ^ 16 - 1) := Nat.mul_le_mul (by omega) (by omega)
  omega

/-- One row adds the product with one digit; the carry belongs right above the row. -/
theorem mulRow_spec {y c : Nat} {w : List Nat} (x : VBig) (hy : y < base) (hw : ∀ d ∈ w, d < base)
    (hc : c < base) (hl : x.length ≤ w.length) :
    (∀ d ∈ (mulRow x y w c).1, d < base) ∧ (mulRow x y w c).2 < base ∧
      Nat.ofDigits base (mulRow x y w c).1 + base ^ x.length * (mulRow x y w c).2 =
        Nat.ofDigits base w + value x * y + c := by
  induction x generalizing w c with
  | nil => exact ⟨hw, hc, by simp [mulRow]⟩
  | cons x xs ih =>
    cases w with
    | nil => simp at hl
    | cons d ws =>
      have hd : d < base := hw d List.mem_cons_self
      have huv : (d + x.toNat * y + c) % 2 ^ 32 = d + x.toNat * y + c :=
        Nat.mod_eq_of_lt (mulDigit_lt x.isLt hy hd hc)
      have hcarry : (d + x.toNat * y + c) / base < base := by
        rw [Nat.div_lt_iff_lt_mul (by decide)]
        exact mulDigit_lt x.isLt hy hd hc
      obtain ⟨hrow, hlast, hsum⟩ := ih (fun e he => hw e (List.mem_cons_of_mem d he)) hcarry
        (by simpa using hl)
      have hlow : (d + x.toNat * y + c) &&& 0xFFFF = (d + x.toNat * y + c) % base :=
        Nat.and_two_pow_sub_one_eq_mod _ 16
      have hhigh : (d + x.toNat * y + c) >>> 16 = (d + x.toNat * y + c) / base :=
        Nat.shiftRight_eq_div_pow _ 16
      simp only [mulRow, huv, hlow, hhigh]
      refine ⟨?_, hlast, ?_⟩
      · intro e he
        rcases List.mem_cons.mp he with rfl | he
        · exact Nat.mod_lt _ (by decide)
        · exact hrow e he
      · have hsplit := Nat.mod_add_div (d + x.toNat * y + c) base
        rw [Nat.ofDigits_cons, Nat.ofDigits_cons, value_cons, List.length_cons, pow_succ]
        have hbase : 2 ^ 16 = base := rfl
        rw [hbase]
        zify at hsum hsplit ⊢
        linear_combination (base : Int) * hsum + hsplit

theorem ofDigits_split {w : List Nat} (hn : n ≤ w.length) : Nat.ofDigits base w =
    Nat.ofDigits base (w.take n) + base ^ n * Nat.ofDigits base (w.drop n) := by
  have happend : Nat.ofDigits base (w.take n ++ w.drop n) = _ := Nat.ofDigits_append
  rwa [List.take_append_drop, List.length_take_of_le hn] at happend

theorem ofDigits_modEq_take (w : List Nat) (n : Nat) :
    Nat.ofDigits base w ≡ Nat.ofDigits base (w.take n) [MOD base ^ n] := by
  by_cases hn : n ≤ w.length
  · rw [ofDigits_split hn]
    simp [Nat.ModEq]
  · rw [List.take_of_length_le (by omega)]

theorem ofDigits_set_modEq (w : List Nat) (h : n ≤ j) (c : Nat) :
    Nat.ofDigits base (w.set j c) ≡ Nat.ofDigits base w [MOD base ^ n] := by
  refine (ofDigits_modEq_take _ n).trans ?_
  rw [List.take_set_of_le h]
  exact (ofDigits_modEq_take w n).symm

theorem mulRows_spec (x ys : VBig) {w : List Nat} (hw : ∀ d ∈ w, d < base)
    (hl : i + ys.length + x.length ≤ w.length) :
    (∀ d ∈ mulRows x ys i w, d < base) ∧
      Nat.ofDigits base (mulRows x ys i w) ≡
        Nat.ofDigits base w + base ^ i * (value x * value ys) [MOD base ^ x.length] := by
  induction ys generalizing i w with
  | nil => exact ⟨hw, by simp [mulRows, Nat.ModEq]⟩
  | cons y ys ih =>
    rw [List.length_cons] at hl
    obtain ⟨hrow, hlast, hsum⟩ := mulRow_spec x (w := w.drop i) (c := 0) y.isLt
      (fun d hd => hw d (List.mem_of_mem_drop hd)) (by decide)
      (by rw [List.length_drop]; omega)
    have hlen := length_mulRow x y.toNat (w.drop i) 0
    unfold mulRows
    generalize mulRow x y.toNat (w.drop i) 0 = r at hrow hlast hsum hlen
    obtain ⟨row, last⟩ := r
    dsimp only at hrow hlast hsum hlen ⊢
    have hdigits : ∀ d ∈ (w.take i ++ row).set (i + x.length + 1) last, d < base := by
      intro d hd
      rcases List.mem_or_eq_of_mem_set hd with hd | rfl
      · rcases List.mem_append.mp hd with hd | hd
        · exact hw d (List.mem_of_mem_take hd)
        · exact hrow d hd
      · exact hlast
    obtain ⟨hall, hmod⟩ := ih (i := i + 1) hdigits (by
      rw [List.length_set, List.length_append, List.length_take, hlen, List.length_drop]
      omega)
    refine ⟨hall, hmod.trans ?_⟩
    have hset : Nat.ofDigits base ((w.take i ++ row).set (i + x.length + 1) last) ≡
        Nat.ofDigits base w + base ^ i * (value x * y.toNat) [MOD base ^ x.length] := by
      refine (ofDigits_set_modEq _ (by omega) last).trans ?_
      have hi : i ≤ w.length := by omega
      rw [Nat.ofDigits_append, ofDigits_split hi, List.length_take_of_le hi]
      refine (Nat.modEq_iff_dvd.mpr ⟨base ^ i * last, ?_⟩)
      push_cast
      zify at hsum
      linear_combination (-(base : Int) ^ i) * hsum
    have hcons : value (y :: ys) = y.toNat + base * value ys := rfl
    have hsplit : base ^ i * (value x * value (y :: ys)) =
        base ^ i * (value x * y.toNat) + base ^ (i + 1) * (value x * value ys) := by
      rw [hcons]
      ring
    rw [hsplit, ← Nat.add_assoc]
    exact hset.add_right _

theorem value_map_ofNat {l : List Nat} (h : ∀ d ∈ l, d < base) :
    value (l.map (BitVec.ofNat 16)) = Nat.ofDigits base l := by
  induction l with
  | nil => rfl
  | cons d l ih =>
    have hd : (BitVec.ofNat 16 d).toNat = d := Nat.mod_eq_of_lt (h d List.mem_cons_self)
    rw [List.map_cons, value_cons, hd, ih fun e he => h e (List.mem_cons_of_mem d he),
      Nat.ofDigits_cons]
    rfl

/-- The product is right in the digits that are kept, wherever the carries of its rows go. -/
theorem value_mul (x y : VBig) : value (mul x y) = value x * value y % 2 ^ (16 * x.length) := by
  obtain ⟨hall, hmod⟩ := mulRows_spec x y (i := 0)
    (w := List.replicate (x.length + y.length + 1) 0)
    (fun d hd => by rw [List.eq_of_mem_replicate hd]; decide) (by rw [List.length_replicate]; omega)
  have hlt := value_lt (mul x y)
  rw [length_mul] at hlt
  rw [← Nat.mod_eq_of_lt hlt, ← base_pow]
  have hvalue : value (mul x y) = Nat.ofDigits base ((mulRows x y 0
      (List.replicate (x.length + y.length + 1) 0)).take x.length) :=
    value_map_ofNat fun d hd => hall d (List.mem_of_mem_take hd)
  rw [hvalue]
  rw [Nat.ofDigits_replicate_zero, pow_zero, Nat.one_mul, Nat.zero_add] at hmod
  exact (ofDigits_modEq_take _ _).symm.trans hmod

end GvmCore.VBignum
