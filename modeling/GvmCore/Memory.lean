import GvmCore.Digits

namespace GvmCore
open Digits
set_option autoImplicit true

/-- A memory of bytes without an end. -/
abbrev Memory := Nat → BitVec 8

namespace Memory

def write (m : Memory) (a : Nat) (bs : List (BitVec 8)) : Memory := fun i =>
  if a ≤ i ∧ i < a + bs.length then bs.getD (i - a) 0 else m i

def read (m : Memory) (a n : Nat) : List (BitVec 8) := (List.range n).map fun i => m (a + i)

def bigEndian (n v : Nat) : List (BitVec 8) :=
  (List.range n).map fun i => BitVec.ofNat 8 (v / 256 ^ (n - 1 - i))

theorem length_bigEndian (n v : Nat) : (bigEndian n v).length = n := by simp [bigEndian]

theorem length_read (m : Memory) (a n : Nat) : (m.read a n).length = n := by simp [read]

theorem write_bigEndian (m : Memory) (a n v b : Nat) : m.write a (bigEndian n v) b =
    if a ≤ b ∧ b < a + n then BitVec.ofNat 8 (v / 256 ^ (n - 1 - (b - a))) else m b := by
  unfold write
  rw [length_bigEndian]
  by_cases hb : a ≤ b ∧ b < a + n
  · rw [if_pos hb, if_pos hb, List.getD_eq_getElem?_getD]
    simp [bigEndian, show b - a < n by omega]
  · rw [if_neg hb, if_neg hb]

theorem read_add (m : Memory) (a n k : Nat) :
    m.read a (n + k) = m.read a n ++ m.read (a + n) k := by
  unfold read
  rw [List.range_add, List.map_append, List.map_map]
  congr 1
  apply List.map_congr_left
  intro i _
  simp only [Function.comp, Nat.add_assoc]

theorem value_reverse_read_add (m : Memory) (a n k : Nat) : value (m.read a (n + k)).reverse =
    value (m.read (a + n) k).reverse + 2 ^ (8 * k) * value (m.read a n).reverse := by
  rw [read_add, List.reverse_append, value_append, List.length_reverse, length_read]

end Memory

end GvmCore
