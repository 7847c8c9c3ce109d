import GvmCore.Decoding
import GvmCore.Report

namespace GvmCore
open Exec Signed
set_option autoImplicit true

theorem SpAt.congr {s t : Core w c} (h : SpAt s z) (hsp : t.sp = s.sp) : SpAt t z :=
  ⟨hsp.trans h.sp, h.lower, h.upper⟩

theorem swapBytes_eq_zero_iff (v : Word) : (swapBytes v).toNat = 0 ↔ v = 0 := by
  constructor
  · intro h
    apply swapBytes_inj
    rw [swapBytes_zero]
    exact BitVec.eq_of_toNat_eq h
  · rintro rfl
    rw [swapBytes_zero]
    rfl

namespace Core

/-- The printer finds an empty range. -/
def PrintsNothing (s : Core w c) (z : Int) : Prop :=
  InStack (z - 3) ∧ InStack (z - 7) ∧ s.word (z - 7) = 0

theorem printsNothing_iff (s : Core w c) (z : Int) : s.PrintsNothing z ↔
    s.Printable z ∧ s.bytes (s.printOffs z) (s.printSize z) = [] := by
  unfold PrintsNothing Printable bytes
  rw [List.map_eq_nil_iff, List.range_eq_nil, printSize, swapBytes_eq_zero_iff]
  constructor
  · rintro ⟨h3, h7, h0⟩
    refine ⟨⟨h3, h7, fun i hi => ?_⟩, h0⟩
    rw [(swapBytes_eq_zero_iff _).mpr h0] at hi
    omega
  · rintro ⟨⟨h3, h7, -⟩, h0⟩
    exact ⟨h3, h7, h0⟩

def Returns (s : Core w c) (z : Int) (offs size : Nat) : Prop :=
  InStack (z - 7) ∧ InStack z ∧ regValue (s.element z 0) = offs ∧ regValue (s.element z 1) = size ∧
    offs + size ≤ 1024

theorem Returns.print {s : Core w c} (h : s.Returns z offs size) :
    s.printOffs z = offs ∧ s.printSize z = size ∧ s.Printable z := by
  obtain ⟨h7, hz, rfl, rfl, hle⟩ := h
  have hoffs : s.printOffs z = regValue (s.element z 0) := by
    rw [printOffs, ← s.element_zero]
    exact toNat_swapBytes_low (by omega)
  have hsize : s.printSize z = regValue (s.element z 1) := by
    rw [printSize, ← s.element_one]
    exact toNat_swapBytes_low (by omega)
  refine ⟨hoffs, hsize, ?_, h7, fun i hi => by omega⟩
  simp only [InStack] at *
  omega

end Core

namespace Driver

variable (D : Driver w c σ)

/-- The run that ended with the instruction at `d`, in `d'`, printed what it should have. -/
structure ReturnedRight (d d' : σ) : Prop where
  returned : D.code d = 0xf3 → ∀ offs size, (D.core d).Returns (D.core d).spInt32 offs size →
    ∃ u, resultMessage (D.core d') = .ok (.result ((D.core d).bytes offs size)) u
  stopped : D.code d = 0x00 → ∃ u, resultMessage (D.core d') = .ok (.result []) u

variable {D}

theorem insn_of_return (h : D.code d = 0xf3) : D.insn d = .returnInst :=
  (Engine.resolve_eq_returnInst _ _).mpr ((decode_eq_returnInst _).mpr h)

theorem insn_of_stop (h : D.code d = 0x00) : D.insn d = .arithm 0 :=
  (resolve_of_listed _ _ (by rw [h]; decide)).trans ((decode_eq_stop _).mpr h)

theorem returned_print (hz : SpAt (D.core d) z) (hcode : D.code d = 0xf3)
    (hexit : D.step d = .exit d') (hgas : (D.core d').gasAvailable 0 ≠ 0)
    (h : (D.core d).Returns z offs size) :
    ∃ u, resultMessage (D.core d') = .ok (.result ((D.core d).bytes offs size)) u := by
  obtain ⟨t, pc, hends, hcore⟩ := exit_facts hz hexit
  rw [insn_of_return hcode] at hends
  obtain ⟨hoffs, hsize, hprint⟩ := h.print
  rw [hcore] at hgas ⊢
  cases hends with
  | returned =>
    have hz' : SpAt { (D.core d).charged 0 with pc := pc } z := hz.congr rfl
    refine ⟨_, (resultMessage_eq_ok D.engine hz' hgas).mpr ⟨hprint, ?_, rfl⟩⟩
    rw [← hoffs, ← hsize]
    rfl
  | outOfGas _ hex =>
    obtain ⟨v, hv, hlt⟩ := hex
    cases hv
    exact absurd hlt (Nat.not_lt_zero _)

/-- STOP has moved `sp`: the printer looks at the top words of the two elements. -/
theorem stopped_print (hz : Bounded (D.core d) z) (hcode : D.code d = 0x00)
    (hexit : D.step d = .exit d') (hgas : (D.core d').gasAvailable 0 ≠ 0) :
    (∃ u, resultMessage (D.core d') = .ok (.result []) u) ↔ (D.core d).PrintsNothing (z + 3) := by
  have hsp := hz.spAt
  obtain ⟨t, pc, hends, hcore⟩ := exit_facts hsp hexit
  rw [insn_of_stop hcode] at hends
  rw [hcore] at hgas ⊢
  cases hends with
  | stopped =>
    have hz' : SpAt { (D.core d).withSp (z + 3) with pc := pc } (z + 3) := by
      have := hz.high
      have := hsp.lower
      exact ⟨rfl, by omega, by omega⟩
    simp only [resultMessage_eq_ok D.engine hz' hgas, Line.result.injEq, exists_and_left]
    rw [Core.printsNothing_iff]
    simp only [exists_eq', and_true]
    exact Iff.rfl
  | outOfGas _ hex =>
    obtain ⟨v, hv, -⟩ := hex
    cases hv

/-- A run that ends with gas left prints what it should, unless it ended by STOP and the top words
of the two elements on the stack do not describe an empty range. -/
theorem returned_data_iff (h : Started D limit d₀) (hrun : Run D.step d₀ hist d)
    (hexit : D.step d = .exit d') (hgas : (D.core d').gas ≠ 0) :
    D.ReturnedRight d d' ↔
      (D.code d = 0x00 → (D.core d).PrintsNothing ((D.core d).spInt32 + 3)) := by
  obtain ⟨z, hz⟩ := h.bounded hrun
  have hacc := (accounted_run h hrun).step (charges_step hz.spAt (.inr hexit))
  have hword : (D.core d').gasAvailable 0 ≠ 0 :=
    fun h0 => hgas ((gasWord_eq_zero_iff hacc.gas_lt).mp h0)
  have hint := hz.spAt.spInt32 D.engine
  rw [hint]
  constructor
  · intro hr hcode
    exact (stopped_print hz hcode hexit hword).mp (hr.stopped hcode)
  · intro hstop
    refine ⟨fun hcode offs size hret => ?_, fun hcode => ?_⟩
    · rw [hint] at hret
      exact returned_print hz.spAt hcode hexit hword hret
    · exact (stopped_print hz hcode hexit hword).mpr (hstop hcode)

section Ended

/-- PUSH1 7; PUSH1 0; MSTORE8; PUSH1 1; PUSH1 0; RETURN. -/
def returnSeven : Evm := (Evm.init 1000).loadElf "600760005360016000f3".toList

theorem returned_data_seven : ∃ hist d d', Run (Evm.driver (cemu .zero)).step returnSeven hist d ∧
    (Evm.driver (cemu .zero)).step d = .exit d' ∧
    ∃ u, resultMessage d'.core = .ok (.result [7]) u := by
  have hfacts : (iterate (Evm.clock (cemu .zero)) 5 returnSeven).isOk = true ∧
      (Evm.driver (cemu .zero)).code (after (Evm.clock (cemu .zero)) returnSeven 5) = 0xf3 ∧
      (Evm.clock (cemu .zero) (after (Evm.clock (cemu .zero)) returnSeven 5)).isExit = true ∧
      ((Evm.clock (cemu .zero) (after (Evm.clock (cemu .zero)) returnSeven 5)).get
        returnSeven).core.gas ≠ 0 ∧
      (after (Evm.clock (cemu .zero)) returnSeven 5).core.spInt32 = 7 ∧
      regValue ((after (Evm.clock (cemu .zero)) returnSeven 5).core.element 7 0) = 0 ∧
      regValue ((after (Evm.clock (cemu .zero)) returnSeven 5).core.element 7 1) = 1 ∧
      (after (Evm.clock (cemu .zero)) returnSeven 5).core.bytes 0 1 = [7] := by
    decide +kernel
  obtain ⟨hok, hcode, hisExit, hgas, hsp, hoffs, hsize, hbytes⟩ := hfacts
  have hrun := Evm.driver_run hok
  have hstarted : Started (Evm.driver (cemu .zero)) 1000 returnSeven := .init .zero 1000 _
  have hexit := Outcome.eq_exit_of_isExit (d := returnSeven) hisExit
  rw [← Evm.driver_step] at hexit
  generalize after (Evm.clock (cemu .zero)) returnSeven 5 = d at *
  have hright := (returned_data_iff hstarted hrun hexit hgas).mpr fun hstop => by
    rw [hcode] at hstop
    cases hstop
  refine ⟨_, _, _, hrun, hexit, ?_⟩
  rw [← hbytes]
  refine hright.returned hcode 0 1 ?_
  change d.core.Returns d.core.spInt32 0 1
  rw [hsp]
  exact ⟨⟨by decide, by decide⟩, ⟨by decide, by decide⟩, hoffs, hsize, by decide⟩

/-- PUSH32 of a number whose eighth byte is one, PUSH1 0 and STOP. -/
def stopPrints : Evm := (Evm.init 1000).loadElf
  "7f0000000000000001000000000000000000000000000000000000000000000000600000".toList

def stopPrintsEnd : Evm := (iterate (Evm.clock (cemu .zero)) 2 stopPrints).get stopPrints

/-- The run ends by STOP and prints a byte. -/
theorem stop_prints_a_byte : ∃ hist d',
    Run (Evm.clock (cemu .zero)) stopPrints hist stopPrintsEnd ∧
    (Evm.driver (cemu .zero)).code stopPrintsEnd = 0x00 ∧
    Evm.clock (cemu .zero) stopPrintsEnd = .exit d' ∧
    ∃ u, resultMessage d'.core = .ok (.result [0]) u := by
  have hiter : iterate (Evm.clock (cemu .zero)) 2 stopPrints = .ok () stopPrintsEnd :=
    Outcome.eq_ok_of_isOk (by decide +kernel)
  have hexit : Evm.clock (cemu .zero) stopPrintsEnd =
      .exit ((Evm.clock (cemu .zero) stopPrintsEnd).get stopPrints) :=
    Outcome.eq_exit_of_isExit (by decide +kernel)
  obtain ⟨hist, -, hrun⟩ := Run.of_iterate hiter
  exact ⟨hist, _, hrun, by decide +kernel, hexit, Outcome.eq_ok_of_value (by decide +kernel)⟩

end Ended

end Driver

end GvmCore
