import Mathlib.Data.List.Basic
import Mathlib.Tactic.Ring
import Mathlib.Tactic.Linarith

namespace GvmCore.Digits
set_option autoImplicit true

/-- The number a little-endian list of `k`-bit digits stands for. -/
def value : List (BitVec k) → Nat
  | [] => 0
  | d :: ds => d.toNat + 2 ^ k * value ds

@[simp] theorem value_nil : value ([] : List (BitVec k)) = 0 := rfl

@[simp] theorem value_cons (d : BitVec k) (ds : List (BitVec k)) :
    value (d :: ds) = d.toNat + 2 ^ k * value ds := rfl

theorem pow_length_cons (d : BitVec k) (ds : List (BitVec k)) :
    2 ^ (k * (d :: ds).length) = 2 ^ k * 2 ^ (k * ds.length) := by
  rw [← Nat.pow_add, List.length_cons]
  ring_nf

theorem value_lt (ds : List (BitVec k)) : value ds < 2 ^ (k * ds.length) := by
  induction ds with
  | nil => simp
  | cons d ds ih =>
    have hd := d.isLt
    rw [value_cons, pow_length_cons]
    nlinarith

theorem value_append (xs ys : List (BitVec k)) :
    value (xs ++ ys) = value xs + 2 ^ (k * xs.length) * value ys := by
  induction xs with
  | nil => simp
  | cons x xs ih =>
    rw [List.cons_append, value_cons, value_cons, ih, pow_length_cons]
    ring

@[simp] theorem value_replicate_zero (n : Nat) : value (List.replicate n 0#k) = 0 := by
  induction n with
  | zero => rfl
  | succ n ih => simp [List.replicate_succ, ih]

theorem value_take_add_drop (n : Nat) (ds : List (BitVec k)) (hn : n ≤ ds.length) :
    value ds = value (ds.take n) + 2 ^ (k * n) * value (ds.drop n) := by
  have h := value_append (ds.take n) (ds.drop n)
  rwa [List.take_append_drop, List.length_take_of_le hn] at h

theorem value_take (n : Nat) (ds : List (BitVec k)) (hn : n ≤ ds.length) :
    value (ds.take n) = value ds % 2 ^ (k * n) := by
  have hlt := value_lt (ds.take n)
  rw [List.length_take_of_le hn] at hlt
  rw [value_take_add_drop n ds hn, Nat.add_mul_mod_self_left, Nat.mod_eq_of_lt hlt]

theorem value_take_succ (ds : List (BitVec k)) (n : Nat) :
    value (ds.take (n + 1)) = value (ds.take n) + 2 ^ (k * n) * (ds.getD n 0).toNat := by
  rw [List.getD_eq_getElem?_getD]
  by_cases hn : n < ds.length
  · rw [List.take_add_one, List.getElem?_eq_getElem hn, value_append,
      List.length_take_of_le hn.le]
    simp
  · rw [List.take_of_length_le (by omega), List.take_of_length_le (by omega),
      List.getElem?_eq_none (by omega)]
    simp

theorem value_digit (ds : List (BitVec k)) (i : Nat) :
    value ds / 2 ^ (k * i) % 2 ^ k = (ds.getD i 0).toNat := by
  rw [List.getD_eq_getElem?_getD]
  by_cases hi : i < ds.length
  · have hlt := value_lt (ds.take i)
    rw [List.length_take_of_le hi.le] at hlt
    rw [value_take_add_drop i ds hi.le, Nat.add_mul_div_left _ _ (Nat.two_pow_pos _),
      Nat.div_eq_of_lt hlt, Nat.zero_add, List.drop_eq_getElem_cons hi, value_cons,
      Nat.add_mul_mod_self_left, Nat.mod_eq_of_lt (ds[i]).isLt, List.getElem?_eq_getElem hi]
    rfl
  · have hlt : value ds < 2 ^ (k * i) :=
      (value_lt ds).trans_le (Nat.pow_le_pow_right (by decide) (Nat.mul_le_mul_left k (by omega)))
    rw [Nat.div_eq_of_lt hlt, Nat.zero_mod, List.getElem?_eq_none (by omega)]
    rfl

theorem value_eq_zero {ds : List (BitVec k)} : value ds = 0 ↔ ∀ d ∈ ds, d = 0 := by
  induction ds with
  | nil => simp
  | cons d ds ih =>
    have hk : 0 < 2 ^ k := Nat.two_pow_pos k
    simp only [value_cons, Nat.add_eq_zero_iff, Nat.mul_eq_zero, hk.ne', false_or, ih,
      List.forall_mem_cons]
    exact and_congr_left fun _ => ⟨fun h => BitVec.eq_of_toNat_eq (by simpa using h),
      fun h => by simp [h]⟩

theorem value_injective {xs ys : List (BitVec k)} (hl : xs.length = ys.length)
    (h : value xs = value ys) : xs = ys := by
  induction xs generalizing ys with
  | nil => exact (List.length_eq_zero_iff.mp hl.symm).symm
  | cons x xs ih =>
    cases ys with
    | nil => cases hl
    | cons y ys =>
      rw [value_cons, value_cons] at h
      have hx : x.toNat = y.toNat := by
        have hm := congrArg (· % 2 ^ k) h
        simpa only [Nat.add_mul_mod_self_left, BitVec.toNat_mod_cancel] using hm
      have hv : value xs = value ys := by
        rw [hx] at h
        exact Nat.eq_of_mul_eq_mul_left (Nat.two_pow_pos k) (Nat.add_left_cancel h)
      rw [BitVec.eq_of_toNat_eq hx, ih (Nat.succ.inj hl) hv]

theorem digit_add_carry_mod (k t v m : Nat) :
    (BitVec.ofNat k t).toNat + 2 ^ k * ((v + t / 2 ^ k) % m) = (t + 2 ^ k * v) % (2 ^ k * m) := by
  rw [Nat.mod_mul, Nat.add_mul_mod_self_left, Nat.add_mul_div_left _ _ (Nat.two_pow_pos k),
    BitVec.toNat_ofNat, Nat.add_comm v]

end GvmCore.Digits
