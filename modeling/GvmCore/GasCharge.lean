import GvmCore.Effects

namespace GvmCore
open Exec VBignum Digits
set_option autoImplicit true

@[simp] theorem length_vbignum256 : vbignum256.length = 16 := rfl

@[simp] theorem length_bigOf (r : Reg) : (bigOf r).length = 16 := by simp [bigOf]

theorem value_bigOf (r : Reg) : value (bigOf r) = regValue r :=
  value_setBignum_regToBignum rfl r

/-- The charge as the 64-bit number that is compared and subtracted. -/
def chargeDigits (v : Word) : VBig :=
  setStringHex vbignum64 ('0' :: 'x' :: Nat.toDigits 16 v.toNat)

@[simp] theorem length_chargeDigits (v : Word) : (chargeDigits v).length = 4 :=
  length_setStringHex vbignum64 _

theorem value_chargeDigits (v : Word) : value (chargeDigits v) = v.toNat := by
  rw [chargeDigits, value_setStringHex (isxdigit_of_mem_toDigits v.toNat), hexValue_toDigits]
  exact Nat.mod_eq_of_lt v.isLt

/-- The gas words after a charge that is covered. -/
def gasSub (g : Reg) (v : Word) : Reg := bignumToReg (sub (bigOf g) (chargeDigits v))

theorem regValue_gasSub {g : Reg} {v : Word} (h : v.toNat ≤ regValue g) :
    regValue (gasSub g v) = regValue g - v.toNat := by
  rw [gasSub, regValue_bignumToReg (by simp), value_sub (by simp), value_bigOf, value_chargeDigits]
  rwa [value_bigOf, value_chargeDigits]

theorem regValue_zero : regValue (fun _ => 0) = 0 := by
  rw [regValue, swapBytes_zero]
  rfl

theorem bignumToReg_setZero {x : VBig} (hx : x.length = 16) :
    bignumToReg (setZero x) = fun _ => 0 := by
  apply regValue_injective
  rw [regValue_bignumToReg (by simpa using hx), value_setZero, regValue_zero]

namespace Core

def gas (s : Core w c) : Nat := regValue s.gasAvailable

def charged (s : Core w c) (v : Word) : Core w c :=
  { s.converted s.gasAvailable with gasAvailable := gasSub s.gasAvailable v }

def drained (s : Core w c) : Core w c :=
  { s.converted s.gasAvailable with
    gasAvailable := fun _ => 0
    console := s.console ++ [.outOfGas] }

theorem gas_charged {s : Core w c} (h : v.toNat ≤ s.gas) : (s.charged v).gas = s.gas - v.toNat :=
  regValue_gasSub h

theorem gas_drained (s : Core w c) : s.drained.gas = 0 := regValue_zero

end Core

theorem gt_chargeDigits (g : Reg) (v : Word) :
    gt (chargeDigits v) (bigOf g) = true ↔ regValue g < v.toNat := by
  rw [gt_iff (by simp), value_bigOf, value_chargeDigits]

theorem argument_gas_eq_ok {E : Engine w c} {s t : Core w c} :
    argument E (read Core.gasAvailable) s = .ok x t ↔ E.HeapServes s.heapPos 65 ∧
      bigOf s.gasAvailable = x ∧ s.converted s.gasAvailable = t := by
  have hread : ∀ (u : Core w c) r u',
      (read Core.gasAvailable : M w c Reg) u = .ok r u' → u' = u := by
    rintro u r u' h
    cases h
    rfl
  rw [argument_eq_ok hread]
  simp

theorem useGas_of_room {E : Engine w c} {s : Core w c} (h : E.HeapServes s.heapPos 65) :
    useGas E v s = if s.gas < v.toNat then checkError E s.drained else .ok () (s.charged v) := by
  have hx := argument_gas_eq_ok.mpr ⟨h, rfl, rfl⟩
  have hgt := gt_chargeDigits s.gasAvailable v
  unfold useGas
  rw [bind_of_ok hx]
  by_cases hlt : s.gas < v.toNat
  · have hc : gt (setStringHex vbignum64 ('0' :: 'x' :: Nat.toDigits 16 v.toNat))
        (bigOf s.gasAvailable) = true := hgt.mpr hlt
    rw [if_pos hlt, if_pos hc, bignumToReg_setZero (length_bigOf _)]
    rfl
  · have hc : ¬ gt (setStringHex vbignum64 ('0' :: 'x' :: Nat.toDigits 16 v.toNat))
        (bigOf s.gasAvailable) = true := fun hc => hlt (hgt.mp hc)
    rw [if_neg hlt, if_neg hc]
    rfl

theorem useGas_room {E : Engine w c} {s t : Core w c}
    (h : (∃ u, useGas E v s = .ok u t) ∨ useGas E v s = .exit t) : E.HeapServes s.heapPos 65 := by
  rcases h with ⟨u, h⟩ | h
  · obtain ⟨_, _, hx, _⟩ := bind_eq_ok.mp h
    exact (argument_gas_eq_ok.mp hx).1
  · rcases bind_eq_exit.mp h with h | ⟨_, _, hx, _⟩
    · exact absurd h ((returnsOr_argument E (.read _)).noExit _ _)
    · exact (argument_gas_eq_ok.mp hx).1

/-- A charge that is made: it is covered, or nobody stops. -/
theorem useGas_eq_ok {E : Engine w c} {s t : Core w c} :
    useGas E v s = .ok u t ↔ E.HeapServes s.heapPos 65 ∧
      (v.toNat ≤ s.gas ∧ t = s.charged v ∨
        s.gas < v.toNat ∧ E.checkErrorThrows = false ∧ t = s.drained) := by
  by_cases hroom : E.HeapServes s.heapPos 65
  · rw [useGas_of_room hroom]
    by_cases hlt : s.gas < v.toNat
    · rw [if_pos hlt, checkError]
      cases E.checkErrorThrows <;> simp [hroom, hlt, eq_comm (a := t)]
    · simp [hroom, hlt, not_lt.mp hlt, eq_comm (a := t)]
  · exact iff_of_false (fun h => hroom (useGas_room (.inl ⟨u, h⟩))) fun h => hroom h.1

theorem useGas_eq_exit {E : Engine w c} {s t : Core w c} :
    useGas E v s = .exit t ↔ E.HeapServes s.heapPos 65 ∧ s.gas < v.toNat ∧
      E.checkErrorThrows = true ∧ t = s.drained := by
  by_cases hroom : E.HeapServes s.heapPos 65
  · rw [useGas_of_room hroom]
    by_cases hlt : s.gas < v.toNat
    · rw [if_pos hlt, checkError]
      cases E.checkErrorThrows <;> simp [hroom, hlt, eq_comm (a := t)]
    · simp [hlt]
  · exact iff_of_false (fun h => hroom (useGas_room (.inr h))) fun h => hroom h.1

end GvmCore
