import Mathlib.Data.List.Basic
import Mathlib.Data.Nat.Digits.Defs

namespace GvmCore.Strtol
set_option autoImplicit true

def isspace (c : Char) : Bool := c = ' ' || ('\t' ≤ c && c ≤ '\r')

/-- The value of a digit or letter; every other character has 36, which is no digit in any base. -/
def digitVal (c : Char) : Nat :=
  if '0' ≤ c ∧ c ≤ '9' then c.toNat - '0'.toNat
  else if 'a' ≤ c ∧ c ≤ 'z' then c.toNat - 'a'.toNat + 10
  else if 'A' ≤ c ∧ c ≤ 'Z' then c.toNat - 'A'.toNat + 10
  else 36

/-- Reads digits up to the first character that is none. -/
def digitsValue (base : Nat) : List Char → Nat → Nat
  | [], n => n
  | c :: cs, n => if digitVal c < base then digitsValue base cs (base * n + digitVal c) else n

/-- `0x` counts as a prefix only before a digit. -/
def isHexPrefix : List Char → Bool
  | z :: x :: d :: _ => z = '0' && (x = 'x' || x = 'X') && digitVal d < 16
  | _ => false

def magnitude (base : Nat) (s : List Char) : Nat :=
  if (base = 0 ∨ base = 16) ∧ isHexPrefix s = true then digitsValue 16 (s.drop 2) 0
  else if base = 0 then digitsValue (if s.head? = some '0' then 8 else 10) s 0
  else digitsValue base s 0

def signed (base : Nat) : List Char → Int
  | [] => 0
  | c :: cs =>
    if c = '-' then max (-2 ^ 63) (-(magnitude base cs : Int))
    else if c = '+' then min (2 ^ 63 - 1) (magnitude base cs : Int)
    else min (2 ^ 63 - 1) (magnitude base (c :: cs) : Int)

/-- `strtol` with a 64-bit `long`: out of range the nearest bound. -/
def strtol (base : Nat) (s : List Char) : Int := signed base (s.dropWhile isspace)

theorem digitVal_digitChar : ∀ d < 16, digitVal (Nat.digitChar d) = d := by decide

theorem not_space_or_sign : ∀ d < 16, isspace (Nat.digitChar d) = false ∧
    Nat.digitChar d ≠ '-' ∧ Nat.digitChar d ≠ '+' := by
  decide

theorem digitChar_eq_zero : ∀ d < 16, Nat.digitChar d = '0' → d = 0 := by decide

theorem digitsValue_eq_foldl (h : ∀ c ∈ s, digitVal c < base) (n : Nat) :
    digitsValue base s n = s.foldl (fun n c => base * n + digitVal c) n := by
  induction s generalizing n with
  | nil => rfl
  | cons c cs ih =>
    obtain ⟨hc, hcs⟩ := List.forall_mem_cons.mp h
    rw [digitsValue, if_pos hc, ih hcs]
    rfl

section Spelling

variable {b : Nat} (hb : 1 < b) (hb' : b ≤ 16)

include hb

theorem mem_toDigits (n : Nat) (hc : c ∈ Nat.toDigits b n) : ∃ d < b, c = Nat.digitChar d := by
  induction n using Nat.strongRecOn with
  | ind n ih =>
    rw [Nat.toDigits_eq_if hb] at hc
    split at hc
    · rename_i hn
      exact ⟨n, hn, List.mem_singleton.mp hc⟩
    · rename_i hn
      rcases List.mem_append.mp hc with hc | hc
      · exact ih (n / b) (Nat.div_lt_self (by omega) hb) hc
      · exact ⟨n % b, Nat.mod_lt n (by omega), List.mem_singleton.mp hc⟩

theorem toDigits_eq_cons (hn : 0 < n) :
    ∃ d cs, 0 < d ∧ d < b ∧ Nat.toDigits b n = Nat.digitChar d :: cs := by
  induction n using Nat.strongRecOn with
  | ind n ih =>
    rw [Nat.toDigits_eq_if hb]
    split
    · rename_i hlt
      exact ⟨n, [], hn, hlt, rfl⟩
    · rename_i hge
      have hdiv : 0 < n / b := Nat.div_pos (by omega) (by omega)
      obtain ⟨d, cs, hd, hdb, hcs⟩ := ih (n / b) (Nat.div_lt_self hn hb) hdiv
      exact ⟨d, cs ++ [Nat.digitChar (n % b)], hd, hdb, by rw [hcs]; rfl⟩

include hb'

theorem digitVal_of_mem_toDigits (n : Nat) : ∀ c ∈ Nat.toDigits b n, digitVal c < b := by
  intro c hc
  obtain ⟨d, hd, rfl⟩ := mem_toDigits hb n hc
  rw [digitVal_digitChar d (by omega)]
  exact hd

theorem foldl_toDigits (n : Nat) :
    (Nat.toDigits b n).foldl (fun n c => b * n + digitVal c) 0 = n := by
  induction n using Nat.strongRecOn with
  | ind n ih =>
    rw [Nat.toDigits_eq_if hb]
    split
    · rename_i hn
      simp [digitVal_digitChar n (by omega)]
    · rename_i hn
      have hmod : n % b < b := Nat.mod_lt n (by omega)
      rw [List.foldl_append, ih (n / b) (Nat.div_lt_self (by omega) hb)]
      simp [digitVal_digitChar _ (show n % b < 16 by omega), Nat.div_add_mod]

theorem digitsValue_toDigits (n : Nat) : digitsValue b (Nat.toDigits b n) 0 = n := by
  rw [digitsValue_eq_foldl (digitVal_of_mem_toDigits hb hb' n), foldl_toDigits hb hb']

end Spelling

theorem strtol_of_digit (hd : d < 16) (base : Nat) (cs : List Char) :
    strtol base (Nat.digitChar d :: cs) =
      min (2 ^ 63 - 1) (magnitude base (Nat.digitChar d :: cs) : Int) := by
  obtain ⟨hspace, hminus, hplus⟩ := not_space_or_sign d hd
  rw [strtol, List.dropWhile_cons_of_neg (by simp [hspace]), signed, if_neg hminus, if_neg hplus]

theorem strtol_decimal (hn : 0 < n) (hlt : n < 2 ^ 63) (hbase : base = 0 ∨ base = 10) :
    strtol base (Nat.toDigits 10 n) = n := by
  obtain ⟨d, cs, hd, hd10, hcs⟩ := toDigits_eq_cons (show 1 < 10 by decide) hn
  have hvalue := digitsValue_toDigits (show 1 < 10 by decide) (by decide) n
  have hzero : Nat.digitChar d ≠ '0' := by
    intro h
    have := digitChar_eq_zero d (by omega) h
    omega
  have hpre : isHexPrefix (Nat.digitChar d :: cs) = false := by
    unfold isHexPrefix
    split
    · rename_i heq
      cases heq
      simp [hzero]
    · rfl
  rw [hcs] at hvalue ⊢
  rw [strtol_of_digit (by omega), magnitude, hpre]
  rcases hbase with rfl | rfl
  · simp only [List.head?_cons, Option.some.injEq, hzero, if_false, if_true, and_false,
      Bool.false_eq_true, hvalue]
    omega
  · simp only [Bool.false_eq_true, and_false, if_false, hvalue, show ¬ (10 = 0) by decide]
    omega

theorem strtol_hex (hn : 0 < n) (hlt : n < 2 ^ 63) (hbase : base = 0 ∨ base = 16) :
    strtol base ('0' :: 'x' :: Nat.toDigits 16 n) = n := by
  obtain ⟨d, cs, hd, hd16, hcs⟩ := toDigits_eq_cons (show 1 < 16 by decide) hn
  have hvalue := digitsValue_toDigits (show 1 < 16 by decide) le_rfl n
  have hpre : isHexPrefix ('0' :: 'x' :: Nat.toDigits 16 n) = true := by
    rw [hcs]
    simp [isHexPrefix, digitVal_digitChar d hd16, hd16]
  have hstart := strtol_of_digit (show 0 < 16 by decide) base ('x' :: Nat.toDigits 16 n)
  rw [show Nat.digitChar 0 = '0' from rfl] at hstart
  rw [hstart, magnitude, if_pos ⟨hbase, hpre⟩]
  simp only [List.drop_succ_cons, List.drop_zero, hvalue]
  omega

end GvmCore.Strtol
