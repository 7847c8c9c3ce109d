import Mathlib.Data.List.Basic
import Mathlib.Tactic.IntervalCases
import Mathlib.Tactic.Ring

namespace GvmCore
set_option autoImplicit true

abbrev Word := BitVec 64

def byteAt (v : Word) (i : Nat) : Word := (v >>> (8 * i)) &&& 0xFF

def swapBytes (v : Word) : Word :=
  (List.range 8).foldl (fun r i => r ||| byteAt v i <<< (8 * (7 - i))) 0

theorem toNat_byteAt (v : Word) (i : Nat) : (byteAt v i).toNat = v.toNat / 256 ^ i % 256 := by
  have h : (255 : Nat) = 2 ^ 8 - 1 := rfl
  rw [byteAt, BitVec.toNat_and, BitVec.toNat_ushiftRight, Nat.shiftRight_eq_div_pow,
    show (0xFF : Word).toNat = 255 from rfl, h, Nat.and_two_pow_sub_one_eq_mod, Nat.pow_mul]

theorem toNat_byteAt_lt (v : Word) (i : Nat) : (byteAt v i).toNat < 256 := by
  rw [toNat_byteAt]
  exact Nat.mod_lt _ (by decide)

theorem toNat_or_byte {r b : Word} {s n : Nat} (hs : s + 8 ≤ 64) (hb : b.toNat < 256)
    (hr : r.toNat = 2 ^ (s + 8) * n) : (r ||| b <<< s).toNat = 2 ^ s * (256 * n + b.toNat) := by
  have hp : 2 ^ (s + 8) ≤ 2 ^ 64 := Nat.pow_le_pow_right (by decide) hs
  have he : 2 ^ (s + 8) = 256 * 2 ^ s := by rw [Nat.pow_add, Nat.mul_comm]
  have hlt : b.toNat * 2 ^ s < 2 ^ (s + 8) := by
    rw [he]
    exact Nat.mul_lt_mul_of_pos_right hb (Nat.two_pow_pos s)
  rw [BitVec.toNat_or, BitVec.toNat_shiftLeft, Nat.shiftLeft_eq, Nat.mod_eq_of_lt (by omega), hr,
    ← Nat.two_pow_add_eq_or_of_lt hlt, he]
  ring

theorem toNat_swapBytes (v : Word) :
    (swapBytes v).toNat = ((List.range 8).map fun i => (byteAt v i).toNat).foldl
      (fun n b => 256 * n + b) 0 := by
  have h0 := toNat_or_byte (r := 0) (s := 56) (n := 0) (by decide) (toNat_byteAt_lt v 0) rfl
  have h1 := toNat_or_byte (s := 48) (by decide) (toNat_byteAt_lt v 1) h0
  have h2 := toNat_or_byte (s := 40) (by decide) (toNat_byteAt_lt v 2) h1
  have h3 := toNat_or_byte (s := 32) (by decide) (toNat_byteAt_lt v 3) h2
  have h4 := toNat_or_byte (s := 24) (by decide) (toNat_byteAt_lt v 4) h3
  have h5 := toNat_or_byte (s := 16) (by decide) (toNat_byteAt_lt v 5) h4
  have h6 := toNat_or_byte (s := 8) (by decide) (toNat_byteAt_lt v 6) h5
  have h7 := toNat_or_byte (s := 0) (by decide) (toNat_byteAt_lt v 7) h6
  rw [Nat.pow_zero, Nat.one_mul] at h7
  exact h7

theorem byteAt_swapBytes (v : Word) {i : Nat} (hi : i < 8) :
    byteAt (swapBytes v) i = byteAt v (7 - i) := by
  apply BitVec.eq_of_toNat_eq
  have hb := fun j => toNat_byteAt_lt v j
  rw [toNat_byteAt, toNat_swapBytes]
  simp only [List.range, List.range.loop, List.map_cons, List.map_nil, List.foldl_cons,
    List.foldl_nil]
  have h0 := hb 0
  have h1 := hb 1
  have h2 := hb 2
  have h3 := hb 3
  have h4 := hb 4
  have h5 := hb 5
  have h6 := hb 6
  have h7 := hb 7
  interval_cases i <;> simp only [Nat.reduceSub, Nat.reducePow] <;> omega

theorem toNat_eq_bytes (v : Word) :
    v.toNat = ((List.range 8).map fun i => (byteAt v (7 - i)).toNat).foldl
      (fun n b => 256 * n + b) 0 := by
  have hv := v.isLt
  simp only [List.range, List.range.loop, List.map_cons, List.map_nil, List.foldl_cons,
    List.foldl_nil, toNat_byteAt]
  omega

@[simp] theorem swapBytes_swapBytes (v : Word) : swapBytes (swapBytes v) = v := by
  apply BitVec.eq_of_toNat_eq
  rw [toNat_swapBytes, toNat_eq_bytes v]
  congr 1
  apply List.map_congr_left
  intro i hi
  rw [byteAt_swapBytes v (List.mem_range.mp hi)]

@[simp] theorem swapBytes_zero : swapBytes 0 = 0 := by decide

theorem swapBytes_inj {v u : Word} (h : swapBytes v = swapBytes u) : v = u := by
  rw [← swapBytes_swapBytes v, h, swapBytes_swapBytes]

end GvmCore
