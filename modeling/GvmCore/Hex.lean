import Mathlib.Data.List.Basic
import Mathlib.Data.Nat.Digits.Defs
import Mathlib.Tactic.Ring

namespace GvmCore
set_option autoImplicit true

def hexPad (width n : Nat) : List Char :=
  let digits := Nat.toDigits 16 n
  List.replicate (width - digits.length) '0' ++ digits

def isxdigit (c : Char) : Bool :=
  ('0' ≤ c && c ≤ '9') || ('a' ≤ c && c ≤ 'f') || ('A' ≤ c && c ≤ 'F')

def xdigitValue (c : Char) : Nat :=
  let d := c.toLower.toNat - '0'.toNat
  (if d > 9 then d - ('a'.toNat - '0'.toNat - 10) else d) % 16

def hexValue (string : List Char) : Nat := string.foldl (fun n c => 16 * n + xdigitValue c) 0

theorem xdigitValue_lt (c : Char) : xdigitValue c < 16 := Nat.mod_lt _ (by decide)

theorem isxdigit_digitChar : ∀ d < 16, isxdigit (Nat.digitChar d) = true := by decide

theorem xdigitValue_digitChar : ∀ d < 16, xdigitValue (Nat.digitChar d) = d := by decide

theorem hexFold_eq (string : List Char) (n : Nat) :
    string.foldl (fun n c => 16 * n + xdigitValue c) n =
      n * 16 ^ string.length + hexValue string := by
  induction string generalizing n with
  | nil => simp [hexValue]
  | cons c cs ih =>
    have h0 := ih (xdigitValue c)
    simp only [hexValue, List.foldl_cons, List.length_cons, Nat.mul_zero, Nat.zero_add]
    rw [ih, h0]
    ring

@[simp] theorem hexValue_nil : hexValue [] = 0 := rfl

theorem hexValue_cons (c : Char) (cs : List Char) :
    hexValue (c :: cs) = xdigitValue c * 16 ^ cs.length + hexValue cs := by
  have h := hexFold_eq cs (xdigitValue c)
  simpa only [hexValue, List.foldl_cons, Nat.mul_zero, Nat.zero_add] using h

theorem hexValue_append (xs ys : List Char) :
    hexValue (xs ++ ys) = hexValue xs * 16 ^ ys.length + hexValue ys := by
  rw [hexValue, List.foldl_append]
  exact hexFold_eq ys _

theorem hexValue_lt (string : List Char) : hexValue string < 16 ^ string.length := by
  induction string with
  | nil => simp
  | cons c cs ih =>
    have hc := xdigitValue_lt c
    rw [hexValue_cons, List.length_cons, Nat.pow_succ]
    have hm : (xdigitValue c + 1) * 16 ^ cs.length ≤ 16 * 16 ^ cs.length :=
      Nat.mul_le_mul_right _ hc
    rw [Nat.add_mul] at hm
    omega

theorem hexValue_toDigits (n : Nat) : hexValue (Nat.toDigits 16 n) = n := by
  induction n using Nat.strongRecOn with
  | ind n ih =>
    rw [Nat.toDigits_eq_if (by decide)]
    split
    · rename_i h
      simp [hexValue_cons, xdigitValue_digitChar n h]
    · rename_i h
      rw [hexValue_append, ih (n / 16) (by omega), hexValue_cons,
        xdigitValue_digitChar _ (Nat.mod_lt n (by decide))]
      simp only [List.length_nil, List.length_cons, hexValue_nil]
      omega

theorem isxdigit_of_mem_toDigits (n : Nat) : ∀ c ∈ Nat.toDigits 16 n, isxdigit c = true := by
  induction n using Nat.strongRecOn with
  | ind n ih =>
    rw [Nat.toDigits_eq_if (by decide)]
    split
    · rename_i h
      simp only [List.forall_mem_singleton]
      exact isxdigit_digitChar n h
    · rename_i h
      simp only [List.forall_mem_append, List.forall_mem_singleton]
      exact ⟨ih (n / 16) (by omega), isxdigit_digitChar _ (Nat.mod_lt n (by decide))⟩

theorem hexValue_replicate_zero (n : Nat) : hexValue (List.replicate n '0') = 0 := by
  induction n with
  | zero => rfl
  | succ n ih =>
    rw [List.replicate_succ, hexValue_cons, ih, show xdigitValue '0' = 0 by decide]
    simp

theorem hexValue_hexPad (width n : Nat) : hexValue (hexPad width n) = n := by
  rw [hexPad, hexValue_append, hexValue_replicate_zero, hexValue_toDigits]
  simp

theorem length_hexPad {width n : Nat} (hw : 0 < width) (h : n < 16 ^ width) :
    (hexPad width n).length = width := by
  have hl := (Nat.length_toDigits_le_iff (by decide) hw).mpr h
  simp only [hexPad, List.length_append, List.length_replicate]
  omega

theorem isxdigit_of_mem_hexPad (width n : Nat) : ∀ c ∈ hexPad width n, isxdigit c = true := by
  simp only [hexPad, List.forall_mem_append]
  refine ⟨?_, isxdigit_of_mem_toDigits n⟩
  intro c hc
  rw [List.eq_of_mem_replicate hc]
  decide

end GvmCore
