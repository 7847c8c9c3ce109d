import GvmCore.GasAccounting
import GvmCore.Strtol

namespace GvmCore
open Strtol
set_option autoImplicit true

/-- The text of `printf("%d", v)` for a 64-bit `v`: the format takes its low 32 bits. -/
def printfD (v : Word) : List Char :=
  let i := (v.setWidth 32).toInt
  if i < 0 then '-' :: Nat.toDigits 10 i.natAbs else Nat.toDigits 10 i.natAbs

def printfX (v : Word) : List Char := Nat.toDigits 16 (v.setWidth 32).toNat

/-- `GasMaxLimitValue` and `GAS_DEFAULT_VALUE`. -/
def gasMaxLimitValue : Word := 0xffffffffffffffff

/-- The `-gas` branch of `main`: the value of `GasLimitValue`, or the message before `exit(-1)`. -/
def Evm.gasOption : Option (List Char) → Except String Word
  | none => .error "no GAS limit was set\n"
  | some arg =>
    let isDecimal := arg.head? ≠ some '0' ∨ arg.tail.head? ≠ some 'x'
    let v := BitVec.ofInt 64 (strtol (if isDecimal then 10 else 16) arg)
    let gasLimitString := if isDecimal then printfD v else printfX v
    let isHexValue := if isDecimal then 0 else 2
    if gasLimitString.length ≠ arg.length - isHexValue then
      .error "invalid GAS limit value syntax\n"
    else .ok (if v = 0 then gasMaxLimitValue else v)

def Qemu.gasOption (optarg : List Char) : Word :=
  let gas := BitVec.ofInt 64 (strtol 0 optarg)
  if gas = 0 then gasMaxLimitValue else gas

structure Core.HasGas (s : Core w c) (n : Nat) : Prop where
  gas : s.gas = n
  words : s.gasAvailable = ![swapBytes (BitVec.ofNat 64 n), 0, 0, 0]

/-- Both engines take the argument and start every program with `n` units of gas. -/
def StartsWithGas (n : Nat) (arg : List Char) : Prop :=
  (∃ v, Evm.gasOption (some arg) = .ok v ∧
    ∀ text, ((Evm.init v).loadElf text).core.HasGas n) ∧
  ∀ text, (Qemu.reset text (Qemu.gasOption arg)).env.HasGas n

section Values

variable {n : Nat} (hn : 0 < n) (hlt : n < 2 ^ 63)

include hn hlt

theorem ofNat_ne_zero : BitVec.ofNat 64 n ≠ 0 := by
  intro h
  have hnat := congrArg BitVec.toNat h
  rw [BitVec.toNat_ofNat, Nat.mod_eq_of_lt (by omega)] at hnat
  exact hn.ne' hnat

theorem hasGas_ofNat {s : Core w c} (h : s.gasAvailable = gasWords (BitVec.ofNat 64 n)) :
    s.HasGas n := by
  refine ⟨?_, h⟩
  rw [Core.gas, h, regValue_gasWords, BitVec.toNat_ofNat, Nat.mod_eq_of_lt (by omega)]

theorem qemu_hasGas (hread : strtol 0 arg = n) (text : List Char) :
    (Qemu.reset text (Qemu.gasOption arg)).env.HasGas n := by
  apply hasGas_ofNat hn hlt
  have hvalue : Qemu.gasOption arg = BitVec.ofNat 64 n := by
    simp only [Qemu.gasOption, hread, BitVec.ofInt_natCast]
    exact if_neg (ofNat_ne_zero hn hlt)
  rw [hvalue]
  rfl

theorem cemu_hasGas_iff [Decidable p] (h : Evm.gasOption (some arg) =
      if p then .ok (BitVec.ofNat 64 n) else .error message) :
    (∃ v, Evm.gasOption (some arg) = .ok v ∧ ∀ text, ((Evm.init v).loadElf text).core.HasGas n) ↔
      p := by
  rw [h]
  constructor
  · rintro ⟨v, hv, -⟩
    by_contra hp
    rw [if_neg hp] at hv
    cases hv
  · intro hp
    exact ⟨_, if_pos hp, fun text => hasGas_ofNat hn hlt rfl⟩

theorem gasOption_decimal : Evm.gasOption (some (Nat.toDigits 10 n)) =
    if (printfD (BitVec.ofNat 64 n)).length = (Nat.toDigits 10 n).length then
      .ok (BitVec.ofNat 64 n)
    else .error "invalid GAS limit value syntax\n" := by
  obtain ⟨d, cs, hd, hd10, hcs⟩ := toDigits_eq_cons (show 1 < 10 by decide) hn
  have hread : strtol 10 (Nat.toDigits 10 n) = n := strtol_decimal hn hlt (.inr rfl)
  have hdecimal : (Nat.toDigits 10 n).head? ≠ some '0' := by
    rw [hcs, List.head?_cons]
    intro h
    have := digitChar_eq_zero d (by omega) (Option.some.inj h)
    omega
  simp only [Evm.gasOption, hdecimal, ne_eq, not_false_eq_true, true_or, if_true, hread,
    BitVec.ofInt_natCast, if_neg (ofNat_ne_zero hn hlt), Nat.sub_zero, ite_not]

theorem gasOption_hex : Evm.gasOption (some ('0' :: 'x' :: Nat.toDigits 16 n)) =
    if (printfX (BitVec.ofNat 64 n)).length = (Nat.toDigits 16 n).length then
      .ok (BitVec.ofNat 64 n)
    else .error "invalid GAS limit value syntax\n" := by
  have hread : strtol 16 ('0' :: 'x' :: Nat.toDigits 16 n) = n := strtol_hex hn hlt (.inr rfl)
  simp only [Evm.gasOption, List.head?_cons, List.tail_cons, ne_eq, not_true_eq_false, or_self,
    if_false, hread, BitVec.ofInt_natCast, if_neg (ofNat_ne_zero hn hlt), List.length_cons,
    Nat.reduceSubDiff, ite_not]

omit hn hlt

theorem length_printfX_iff :
    (printfX (BitVec.ofNat 64 n)).length = (Nat.toDigits 16 n).length ↔ n < 2 ^ 32 := by
  have h8 := Nat.length_toDigits_le_iff (n := n) (show 1 < 16 by decide) (show 0 < 8 by decide)
  have hlow : ((BitVec.ofNat 64 n).setWidth 32).toNat = n % 2 ^ 32 := by
    rw [BitVec.toNat_setWidth, BitVec.toNat_ofNat, Nat.mod_mod_of_dvd _ (by decide)]
  have hlow8 := (Nat.length_toDigits_le_iff (n := n % 2 ^ 32) (show 1 < 16 by decide)
    (show 0 < 8 by decide)).mpr (by omega)
  rw [printfX, hlow]
  constructor
  · intro h
    rw [h] at hlow8
    exact h8.mp hlow8
  · intro h
    rw [Nat.mod_eq_of_lt h]

theorem length_printfD_iff (h : n < 2 ^ 32) :
    (printfD (BitVec.ofNat 64 n)).length = (Nat.toDigits 10 n).length ↔
      n < 2 ^ 31 ∨ 3294967297 ≤ n ∧ n ≤ 4194967296 := by
  have hlow : ((BitVec.ofNat 64 n).setWidth 32).toNat = n := by
    rw [BitVec.toNat_setWidth, BitVec.toNat_ofNat]
    omega
  rw [printfD, BitVec.toInt_eq_toNat_cond, hlow]
  by_cases hsmall : n < 2 ^ 31
  · rw [if_pos (show 2 * n < 2 ^ 32 by omega)]
    have hpos : ¬ (n : Int) < 0 := by omega
    simp only [if_neg hpos, Int.natAbs_natCast]
    exact iff_of_true trivial (.inl hsmall)
  · rw [if_neg (show ¬ 2 * n < 2 ^ 32 by omega)]
    have hneg : (n : Int) - ((2 ^ 32 : Nat) : Int) < 0 := by omega
    have habs : ((n : Int) - ((2 ^ 32 : Nat) : Int)).natAbs = 2 ^ 32 - n := by omega
    have hten := Nat.length_toDigits_le_iff (n := n) (show 1 < 10 by decide) (show 0 < 10 by decide)
    have hnine := Nat.length_toDigits_le_iff (n := n) (show 1 < 10 by decide) (show 0 < 9 by decide)
    have hnine' := Nat.length_toDigits_le_iff (n := 2 ^ 32 - n) (show 1 < 10 by decide)
      (show 0 < 9 by decide)
    have height' := Nat.length_toDigits_le_iff (n := 2 ^ 32 - n) (show 1 < 10 by decide)
      (show 0 < 8 by decide)
    simp only [if_pos hneg, habs, List.length_cons]
    omega

end Values

/-- Both spellings of `n` start both engines with `n` units of gas exactly when the
interpreter's check of the length passes for them. -/
theorem gas_argument_iff (hn : 0 < n) (hlt : n < 2 ^ 63) :
    (StartsWithGas n (Nat.toDigits 10 n) ∧ StartsWithGas n ('0' :: 'x' :: Nat.toDigits 16 n)) ↔
      n < 2 ^ 31 ∨ 3294967297 ≤ n ∧ n ≤ 4194967296 := by
  have hqemu := qemu_hasGas hn hlt (strtol_decimal hn hlt (.inl rfl))
  have hqemu' := qemu_hasGas hn hlt (strtol_hex hn hlt (.inl rfl))
  have hcemu := cemu_hasGas_iff hn hlt (gasOption_decimal hn hlt)
  have hcemu' := (cemu_hasGas_iff hn hlt (gasOption_hex hn hlt)).trans length_printfX_iff
  simp only [StartsWithGas, hqemu, hqemu', implies_true, and_true, hcemu, hcemu']
  constructor
  · rintro ⟨hlength, h32⟩
    exact (length_printfD_iff h32).mp hlength
  · intro h
    have h32 : n < 2 ^ 32 := by omega
    exact ⟨(length_printfD_iff h32).mpr h, h32⟩

theorem gas_argument_thousand :
    StartsWithGas 1000 "1000".toList ∧ StartsWithGas 1000 "0x3e8".toList :=
  (gas_argument_iff (n := 1000) (by decide) (by decide)).mpr (.inl (by decide))

/-- The limit `2 ^ 31` in decimal is printed as a negative number and rejected. -/
theorem gas_argument_rejected : Evm.gasOption (some "2147483648".toList) =
    .error "invalid GAS limit value syntax\n" := by
  decide

end GvmCore
