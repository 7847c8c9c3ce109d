import Mathlib.Algebra.BigOperators.Fin
import GvmCore.OperandLaws
import GvmCore.Remainder

namespace GvmCore
open Exec VBignum Digits
set_option autoImplicit true

/-- `v_bignum_reg_to_bignum`: the place of the number, which stays on the digit heap. -/
def vBignumRegToBignum (E : Engine w c) (reg : Reg) : M w c Nat := do
  let x ← bignumAlloc E 64
  bignumStore x (regToBignum reg)
  return x

theorem vBignumRegToBignum_eq_ok {E : Engine w c} {s t : Core w c} :
    vBignumRegToBignum E reg s = .ok pos t ↔
      E.HeapServes s.heapPos 65 ∧ s.heapPos = pos ∧ s.converted reg = t := by
  simp only [vBignumRegToBignum, bind_eq_ok, bignumAlloc_eq_ok, bignumStore, update_apply,
    pure_apply, Outcome.ok.injEq]
  constructor
  · rintro ⟨_, _, ⟨hroom, rfl, rfl⟩, _, _, ⟨-, rfl⟩, rfl, rfl⟩
    exact ⟨hroom, rfl, rfl⟩
  · rintro ⟨hroom, rfl, rfl⟩
    exact ⟨_, _, ⟨hroom, rfl, rfl⟩, (), _, ⟨trivial, rfl⟩, rfl, rfl⟩

theorem loadDigits_storeDigits (heap : Nat → VBigDig) (pos : Nat) {x : VBig} (hn : n ≤ x.length) :
    loadDigits (storeDigits heap pos x) pos n = x.take n := by
  apply List.ext_getElem
  · rw [loadDigits, List.length_map, List.length_range, List.length_take_of_le hn]
  · intro i h _
    rw [loadDigits, List.length_map, List.length_range] at h
    simp only [loadDigits, List.getElem_map, List.getElem_range, List.getElem_take]
    rw [storeDigits, if_pos (by omega), show pos + 1 + i - pos - 1 = i by omega,
      List.getD_eq_getElem?_getD, List.getElem?_eq_getElem (by omega)]
    rfl

theorem Core.loadDigits_converted (s : Core w c) (reg : Reg) (hn : n ≤ 64) :
    loadDigits (s.converted reg).heap s.heapPos n = (regToBignum reg).take n :=
  loadDigits_storeDigits _ _ (by rwa [length_regToBignum])

theorem value_take_regToBignum (reg : Reg) : value ((regToBignum reg).take 16) = regValue reg := by
  rw [value_take 16 _ (by simp), value_regToBignum]
  exact Nat.mod_eq_of_lt (regValue_lt reg)

theorem bignumToReg_take_regToBignum (reg : Reg) :
    bignumToReg ((regToBignum reg).take 16) = reg := by
  apply regValue_injective
  rw [regValue_bignumToReg (by simp), value_take_regToBignum]

theorem take_regToBignum_bignumToReg {x : VBig} (hx : x.length = 16) :
    (regToBignum (bignumToReg x)).take 16 = x := by
  apply value_injective
  · rw [List.length_take_of_le (by simp), hx]
  · rw [value_take_regToBignum, regValue_bignumToReg hx]

theorem regValue_eq_sum (reg : Reg) :
    regValue reg = ∑ i : Fin 4, (swapBytes (reg i)).toNat * 2 ^ (64 * (i : Nat)) := by
  rw [Fin.sum_univ_four]
  simp only [regValue, value_cons, value_nil, Fin.val_zero, Fin.val_one, Fin.val_two,
    show ((3 : Fin 4) : Nat) = 3 from rfl]
  ring

/-- The two conversions are inverse to each other, the heap being able to serve them. -/
theorem conversion_round_trip (E : Engine w c) (s : Core w c) (reg : Reg)
    (h : E.HeapServes s.heapPos 65) :
    (∃ t, vBignumRegToBignum E reg s = .ok s.heapPos t ∧ t.heap s.heapPos = 64 ∧
      value (loadDigits t.heap s.heapPos 64) =
        ∑ i : Fin 4, (swapBytes (reg i)).toNat * 2 ^ (64 * (i : Nat)) ∧
      bignumToReg (loadDigits t.heap s.heapPos 16) = reg) ∧
    ∀ x : VBig, x.length = 16 → ∃ t, vBignumRegToBignum E (bignumToReg x) s = .ok s.heapPos t ∧
      value (loadDigits t.heap s.heapPos 64) = value x ∧ loadDigits t.heap s.heapPos 16 = x := by
  have hall : ∀ r : Reg, value (loadDigits (s.converted r).heap s.heapPos 64) = regValue r := by
    intro r
    rw [s.loadDigits_converted r le_rfl, List.take_of_length_le (by simp), value_regToBignum]
  constructor
  · refine ⟨_, vBignumRegToBignum_eq_ok.mpr ⟨h, rfl, rfl⟩, ?_, ?_, ?_⟩
    · simp only [Core.converted]
      rw [storeDigits, if_neg (by omega), Function.update_self]
    · rw [hall, regValue_eq_sum]
    · rw [s.loadDigits_converted reg (by decide), bignumToReg_take_regToBignum]
  · intro x hx
    refine ⟨_, vBignumRegToBignum_eq_ok.mpr ⟨h, rfl, rfl⟩, ?_, ?_⟩
    · rw [hall, regValue_bignumToReg hx]
    · rw [s.loadDigits_converted _ (by decide), take_regToBignum_bignumToReg hx]

theorem conversion_of_five : ∃ t, vBignumRegToBignum (cemu .zero) (numberReg 5) (stackOf []) =
      .ok (stackOf []).heapPos t ∧
    bignumToReg (loadDigits t.heap (stackOf []).heapPos 16) = numberReg 5 := by
  have h : (cemu .zero).HeapServes (stackOf []).heapPos 65 := heapServes_stackOf _ (by decide)
  obtain ⟨⟨t, ht, -, -, hreg⟩, -⟩ := conversion_round_trip (cemu .zero) (stackOf []) (numberReg 5) h
  exact ⟨t, ht, hreg⟩

end GvmCore
