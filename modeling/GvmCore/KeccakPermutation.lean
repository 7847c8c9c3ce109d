import Mathlib.Data.FinEnum
import Mathlib.Data.ZMod.Basic

namespace GvmCore
set_option autoImplicit true

namespace KeccakP

/-- The state of the permutation: a lane for each column and row. -/
abbrev Lanes := ZMod 5 → ZMod 5 → BitVec 64

def parity (a : Lanes) (x : ZMod 5) : BitVec 64 := a x 0 ^^^ a x 1 ^^^ a x 2 ^^^ a x 3 ^^^ a x 4

/-- Every column takes in the parities of its two neighbours. -/
def theta (a : Lanes) : Lanes := fun x y =>
  a x y ^^^ (parity a (x - 1) ^^^ (parity a (x + 1)).rotateLeft 1)

/-- The walk over the 24 lanes other than the first. -/
def walk : Nat → ZMod 5 × ZMod 5
  | 0 => (1, 0)
  | t + 1 => ((walk t).2, 2 * (walk t).1 + 3 * (walk t).2)

/-- The lane that the walk meets at time `t` is rotated by the triangular number of `t + 1`. -/
def offset (x y : ZMod 5) : Nat :=
  match (List.range 24).find? fun t => walk t = (x, y) with
  | some t => (t + 1) * (t + 2) / 2 % 64
  | none => 0

def rho (a : Lanes) : Lanes := fun x y => (a x y).rotateLeft (offset x y)

def pi (a : Lanes) : Lanes := fun x y => a (x + 3 * y) x

def chi (a : Lanes) : Lanes := fun x y => a x y ^^^ (~~~a (x + 1) y &&& a (x + 2) y)

/-- The shift register that the round constants are read from. -/
def register : Nat → BitVec 8
  | 0 => 1
  | t + 1 => register t <<< 1 ^^^ if (register t).getLsbD 7 then 0x71 else 0

def roundConstant (n : Nat) : BitVec 64 :=
  (List.range 7).foldl (fun c j =>
    if (register (j + 7 * n)).getLsbD 0 then c ||| 1 <<< (2 ^ j - 1) else c) 0

def iota (n : Nat) (a : Lanes) : Lanes := fun x y =>
  if x = 0 ∧ y = 0 then a x y ^^^ roundConstant n else a x y

def round (n : Nat) (a : Lanes) : Lanes := iota n (chi (pi (rho (theta a))))

def permute (a : Lanes) : Lanes := (List.range 24).foldl (fun a n => round n a) a

theorem rotateLeft_rotateLeft (v : BitVec w) (m n : Nat) :
    (v.rotateLeft m).rotateLeft n = v.rotateLeft (m + n) := by
  apply BitVec.eq_of_getMsbD_eq
  intro i hi
  have hmod : (m + (n + i) % w) % w = (m + n + i) % w := by
    rw [Nat.add_mod_mod, Nat.add_assoc]
  simp only [BitVec.getMsbD_rotateLeft, hi, decide_true, Bool.true_and, hmod,
    Nat.mod_lt _ (Nat.zero_lt_of_lt hi)]

theorem rotateLeft_xor (u v : BitVec w) (n : Nat) :
    (u ^^^ v).rotateLeft n = u.rotateLeft n ^^^ v.rotateLeft n := by
  apply BitVec.eq_of_getMsbD_eq
  intro i hi
  simp only [BitVec.getMsbD_rotateLeft, BitVec.getMsbD_xor, hi, decide_true, Bool.true_and]

theorem rotateLeft_of_dvd (v : BitVec w) (h : w ∣ n) : v.rotateLeft n = v := by
  apply BitVec.eq_of_getMsbD_eq
  intro i hi
  obtain ⟨k, rfl⟩ := h
  simp only [BitVec.getMsbD_rotateLeft, hi, decide_true, Bool.true_and, Nat.mul_add_mod,
    Nat.mod_eq_of_lt hi]

theorem rotateLeft_injective (n : Nat) :
    Function.Injective fun v : BitVec 64 => v.rotateLeft n := by
  intro u v h
  have hback : ∀ x : BitVec 64, (x.rotateLeft n).rotateLeft (63 * n) = x := by
    intro x
    rw [rotateLeft_rotateLeft]
    exact rotateLeft_of_dvd x ⟨n, by omega⟩
  rw [← hback u, ← hback v]
  exact congrArg (BitVec.rotateLeft · (63 * n)) h

theorem xor_left_comm (u v x : BitVec w) : u ^^^ (v ^^^ x) = v ^^^ (u ^^^ x) := by
  rw [← BitVec.xor_assoc, BitVec.xor_comm u, BitVec.xor_assoc]

theorem xor_cancel_left (u v : BitVec w) : u ^^^ (u ^^^ v) = v := by
  rw [← BitVec.xor_assoc, BitVec.xor_self, BitVec.zero_xor]

theorem xor_right_cancel {u v : BitVec w} (h : u ^^^ x = v ^^^ x) : u = v := by
  have := congrArg (x ^^^ ·) h
  simpa only [BitVec.xor_comm _ x, xor_cancel_left] using this

/-- What `theta` does to the parities, with its neighbours `k` columns and `k` bits away. -/
def mix (k : Nat) (p : ZMod 5 → BitVec 64) (x : ZMod 5) : BitVec 64 :=
  p x ^^^ (p (x - k) ^^^ (p (x + k)).rotateLeft k)

theorem parity_theta (a : Lanes) : parity (theta a) = mix 1 (parity a) := by
  funext x
  have hfive : ∀ p q r s t d : BitVec 64, (p ^^^ d) ^^^ (q ^^^ d) ^^^ (r ^^^ d) ^^^ (s ^^^ d) ^^^
      (t ^^^ d) = p ^^^ q ^^^ r ^^^ s ^^^ t ^^^ d := by
    intro p q r s t d
    simp only [BitVec.xor_comm, xor_left_comm, xor_cancel_left]
  exact (hfive _ _ _ _ _ _).trans (by simp only [mix, parity, Nat.cast_one])

theorem mix_mix (k : Nat) (p : ZMod 5 → BitVec 64) : mix k (mix k p) = mix (k + k) p := by
  funext x
  have hcancel : ∀ a b c d e f : BitVec 64, (a ^^^ (b ^^^ c)) ^^^ ((b ^^^ (d ^^^ e)) ^^^
      (c ^^^ (e ^^^ f))) = a ^^^ (d ^^^ f) := by
    intro a b c d e f
    simp only [BitVec.xor_assoc, xor_left_comm, xor_cancel_left]
  simp only [mix, rotateLeft_xor, rotateLeft_rotateLeft, sub_add_cancel, add_sub_cancel_right,
    sub_sub, add_assoc, ← Nat.cast_add]
  exact hcancel _ _ _ _ _ _

theorem iterate_mix (j : Nat) (p : ZMod 5 → BitVec 64) : (mix 1)^[2 ^ j] p = mix (2 ^ j) p := by
  induction j generalizing p with
  | zero => rfl
  | succ j ih => rw [Nat.pow_succ, Nat.mul_two, Function.iterate_add_apply, ih, ih, mix_mix]

/-- After 64 times the rotation is gone, and what is left has order three. -/
theorem iterate_mix_192 (p : ZMod 5 → BitVec 64) : (mix 1)^[2 ^ 7 + 2 ^ 6] p = p := by
  rw [Function.iterate_add_apply, iterate_mix, iterate_mix]
  funext x
  have hcancel : ∀ a b c d e : BitVec 64, (a ^^^ (b ^^^ c)) ^^^ ((d ^^^ (e ^^^ b)) ^^^
      (e ^^^ (c ^^^ d))) = a := by
    intro a b c d e
    simp only [BitVec.xor_assoc, xor_left_comm, xor_cancel_left, BitVec.xor_self, BitVec.xor_zero]
  have h128 : ((2 ^ 7 : Nat) : ZMod 5) = 3 := by decide
  have h64 : ((2 ^ 6 : Nat) : ZMod 5) = 4 := by decide
  have hrot : ∀ (j : Nat) (_ : 6 ≤ j) (v : BitVec 64), v.rotateLeft (2 ^ j) = v := by
    intro j hj v
    exact rotateLeft_of_dvd v (pow_dvd_pow 2 hj)
  simp only [mix, h128, h64, hrot 6 le_rfl, hrot 7 (by decide)]
  revert p
  fin_cases x <;> intro p <;> exact hcancel _ _ _ _ _

theorem mix_injective : Function.Injective (mix 1) := by
  intro p q h
  rw [← iterate_mix_192 p, ← iterate_mix_192 q]
  change (mix 1)^[191] (mix 1 p) = (mix 1)^[191] (mix 1 q)
  rw [h]

theorem theta_injective : Function.Injective theta := by
  intro a b h
  have hparity : parity a = parity b := by
    apply mix_injective
    rw [← parity_theta, ← parity_theta, h]
  funext x y
  have hxy := congrFun (congrFun h x) y
  simp only [theta, hparity] at hxy
  exact xor_right_cancel hxy

theorem rho_injective : Function.Injective rho := by
  intro a b h
  funext x y
  exact rotateLeft_injective _ (congrFun (congrFun h x) y)

theorem pi_injective : Function.Injective pi := by
  intro a b h
  funext x y
  have hx : y + 3 * (2 * (x - y)) = x := by
    revert x y
    decide
  have hxy := congrFun (congrFun h y) (2 * (x - y))
  simpa only [pi, hx] using hxy

def chiRow (r : ZMod 5 → Bool) : ZMod 5 → Bool := fun x => r x ^^ (!r (x + 1) && r (x + 2))

theorem chiRow_injective : Function.Injective chiRow := by
  decide +kernel

theorem chi_injective : Function.Injective chi := by
  intro a b h
  funext x y
  apply BitVec.eq_of_getLsbD_eq
  intro i hi
  have hrow : chiRow (fun x => (a x y).getLsbD i) = chiRow fun x => (b x y).getLsbD i := by
    funext x
    have hbit := congrArg (BitVec.getLsbD · i) (congrFun (congrFun h x) y)
    simpa only [chi, chiRow, BitVec.getLsbD_xor, BitVec.getLsbD_and, BitVec.getLsbD_not, hi,
      decide_true, Bool.true_and] using hbit
  exact congrFun (chiRow_injective hrow) x

theorem iota_injective (n : Nat) : Function.Injective (iota n) := by
  intro a b h
  funext x y
  have hxy := congrFun (congrFun h x) y
  simp only [iota] at hxy
  split at hxy
  · exact xor_right_cancel hxy
  · exact hxy

theorem round_injective (n : Nat) : Function.Injective (round n) :=
  (iota_injective n).comp <| chi_injective.comp <| pi_injective.comp <|
    rho_injective.comp theta_injective

theorem permute_bijective : Function.Bijective permute := by
  apply Finite.injective_iff_bijective.mp
  have hfold : ∀ l : List Nat, Function.Injective fun a => l.foldl (fun a n => round n a) a := by
    intro l
    induction l with
    | nil => exact Function.injective_id
    | cons n l ih => exact ih.comp (round_injective n)
  exact hfold _

end KeccakP

end GvmCore
