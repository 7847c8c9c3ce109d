import GvmCore.Bytes
import GvmCore.Digits

namespace GvmCore
open Digits
set_option autoImplicit true

def wordOfBytes (bs : List (BitVec 8)) : Word := BitVec.ofNat 64 (value bs)

theorem value_lt_word {bs : List (BitVec 8)} (h : bs.length ≤ 8) : value bs < 2 ^ 64 :=
  (value_lt bs).trans_le (Nat.pow_le_pow_right (by decide) (by omega))

theorem toNat_wordOfBytes {bs : List (BitVec 8)} (h : bs.length ≤ 8) :
    (wordOfBytes bs).toNat = value bs := by
  rw [wordOfBytes, BitVec.toNat_ofNat, Nat.mod_eq_of_lt (value_lt_word h)]

theorem toNat_byteAt_wordOfBytes {bs : List (BitVec 8)} (h : bs.length ≤ 8) (i : Nat) :
    (byteAt (wordOfBytes bs) i).toNat = (bs.getD i 0).toNat := by
  have hpow : 256 ^ i = 2 ^ (8 * i) := (Nat.pow_mul 2 8 i).symm
  rw [toNat_byteAt, toNat_wordOfBytes h, hpow]
  exact value_digit bs i

theorem byteAt_wordOfBytes {bs : List (BitVec 8)} (h : bs.length ≤ 8) (i : Nat) :
    byteAt (wordOfBytes bs) i = (bs.getD i 0).setWidth 64 := by
  apply BitVec.eq_of_toNat_eq
  have hlt := (bs.getD i 0).isLt
  rw [toNat_byteAt_wordOfBytes h, BitVec.toNat_setWidth, Nat.mod_eq_of_lt (by omega)]

theorem wordOfBytes_eq_foldl (f : Nat → BitVec 8) (hn : n ≤ 8) :
    (List.range n).foldl (fun d i => d ||| (f i).setWidth 64 <<< (8 * i)) 0 =
      wordOfBytes ((List.range n).map f) := by
  induction n with
  | zero => rfl
  | succ n ih =>
    have hlen : ((List.range n).map f).length = n := by simp
    have hlt := value_lt ((List.range n).map f)
    rw [hlen] at hlt
    have hf := (f n).isLt
    have hpow : 2 ^ (8 * n) * 2 ^ 8 ≤ 2 ^ 64 := by
      rw [← Nat.pow_add]
      exact Nat.pow_le_pow_right (by decide) (by omega)
    have hshift : (f n).toNat * 2 ^ (8 * n) < 2 ^ 64 := by
      have := Nat.mul_lt_mul_of_pos_right hf (Nat.two_pow_pos (8 * n))
      omega
    apply BitVec.eq_of_toNat_eq
    rw [List.range_succ, List.foldl_concat, ih (by omega), List.map_append, List.map_cons,
      List.map_nil, toNat_wordOfBytes (by simp; omega), value_append, hlen, value_cons, value_nil,
      Nat.mul_zero, Nat.add_zero, BitVec.toNat_or, toNat_wordOfBytes (by omega),
      BitVec.toNat_shiftLeft, BitVec.toNat_setWidth,
      Nat.mod_eq_of_lt (show (f n).toNat < 2 ^ 64 by omega), Nat.shiftLeft_eq,
      Nat.mod_eq_of_lt hshift, Nat.or_comm, Nat.mul_comm, ← Nat.two_pow_add_eq_or_of_lt hlt,
      Nat.add_comm]

theorem swapBytes_wordOfBytes {bs : List (BitVec 8)} (h : bs.length = n) (hn : n ≤ 8) :
    swapBytes (wordOfBytes bs) = (List.range n).foldl
      (fun a i => a ||| (bs.getD i 0).setWidth 64 <<< (8 * (7 - i))) 0 := by
  have hsplit : List.range 8 = List.range n ++ (List.range (8 - n)).map (n + ·) := by
    rw [← List.range_add, Nat.add_sub_cancel' hn]
  have hrest : ∀ (l : List Nat) (a : Word), (l.map (n + ·)).foldl
      (fun a i => a ||| (bs.getD i 0).setWidth 64 <<< (8 * (7 - i))) a = a := by
    intro l a
    induction l with
    | nil => rfl
    | cons i l ih =>
      have hget : bs[n + i]? = none := List.getElem?_eq_none (by omega)
      simpa [hget] using ih
  unfold swapBytes
  simp only [byteAt_wordOfBytes (h.le.trans hn)]
  rw [hsplit, List.foldl_append, hrest]

theorem toNat_swapBytes_wordOfBytes {bs : List (BitVec 8)} (h : bs.length = 8) :
    (swapBytes (wordOfBytes bs)).toNat = value bs.reverse := by
  rw [toNat_swapBytes]
  simp only [toNat_byteAt_wordOfBytes h.le]
  match bs, h with
  | [b0, b1, b2, b3, b4, b5, b6, b7], _ =>
    simp only [List.range, List.range.loop, List.map_cons, List.map_nil, List.foldl_cons,
      List.foldl_nil, List.getD_cons_zero, List.getD_cons_succ, List.reverse_cons, List.reverse_nil,
      List.nil_append, List.cons_append, value_cons, value_nil]
    omega

end GvmCore
