import GvmCore.Decoding
import GvmCore.Runs

namespace GvmCore
open Exec
set_option autoImplicit true

def Core.AtEnd (s : Core w c) : Prop := s.elfSize.toNat ≤ s.pc.toNat

namespace Driver

variable (D : Driver w c σ)

/-- The next instruction should be the last one: it is STOP, RETURN, REVERT or SUICIDE, it costs
more than is left, or it is not in the code. -/
def HaltEvent (d : σ) : Prop :=
  D.code d ∈ [0x00, 0xf3, 0xfd, 0xff] ∨ (D.insn d).Exceeds (D.core d) ∨ (D.core d).AtEnd

/-- The instructions that do end a run. RETURN does in both engines; STOP and a charge that is not
covered do where `CheckError` throws. -/
def EndsRun (d : σ) : Prop :=
  D.code d = 0xf3 ∨
    D.engine.checkErrorThrows = true ∧ (D.code d = 0x00 ∨ (D.insn d).Exceeds (D.core d))

variable {D}

theorem endsRun_iff (h : Started D limit d₀) (d : σ) :
    D.EndsRun d ↔ (D.insn d).Unwinds D.engine (D.core d) := by
  have hreturn : D.code d = 0xf3 ↔ D.insn d = .returnInst :=
    ((Engine.resolve_eq_returnInst _ _).trans (decode_eq_returnInst _)).symm
  unfold EndsRun Insn.Unwinds
  rw [hreturn]
  refine or_congr_right (and_congr_right fun hthrows => or_congr_left ?_)
  cases h with
  | cemu W limit text d₀ hd =>
    have hinsn : (Evm.driver (cemu W)).insn d = Insn.decode ((Evm.driver (cemu W)).code d) :=
      cemuWith_resolve _ W _ _
    rw [hinsn]
    exact (decode_eq_stop _).symm
  | qemu argList W limits limit text => cases hthrows

/-- In every state a run reaches, what should halt it does so exactly when it is one of the ends the
engine has. -/
theorem halting_final_iff (h : Started D limit d₀) (hrun : Run D.step d₀ hist d)
    (hdef : ∀ f, D.step d ≠ .fault f) :
    (D.HaltEvent d → ∃ d', ∀ k, iterate D.step (hist.length + 1 + k) d₀ = .exit d') ↔
      (D.HaltEvent d → D.EndsRun d) := by
  obtain ⟨z, hz⟩ := h.bounded hrun
  rw [hrun.ends_iff, step_exits_iff hz.spAt hdef, endsRun_iff h]

/-- PUSH1 1; PUSH1 0; RETURN. -/
def returnByte : Evm := (Evm.init 1000).loadElf "60016000f3".toList

theorem halting_final_return : ∃ hist d, Run (Evm.driver (cemu .zero)).step returnByte hist d ∧
    hist.length = 2 ∧ ∃ d', ∀ k,
      iterate (Evm.driver (cemu .zero)).step (hist.length + 1 + k) returnByte = .exit d' := by
  have hfacts : (iterate (Evm.clock (cemu .zero)) 2 returnByte).isOk = true ∧
      (Evm.driver (cemu .zero)).code (after (Evm.clock (cemu .zero)) returnByte 2) = 0xf3 ∧
      (Evm.clock (cemu .zero) (after (Evm.clock (cemu .zero)) returnByte 2)).isExit = true := by
    decide +kernel
  obtain ⟨hok, hcode, hexit⟩ := hfacts
  obtain ⟨hist, hlen, hrun⟩ := Run.of_iterate (Outcome.eq_ok_of_isOk (d := returnByte) hok)
  have hstarted : Started (Evm.driver (cemu .zero)) 1000 returnByte := .init .zero 1000 _
  change Run (Evm.driver (cemu .zero)).step returnByte hist
    (after (Evm.clock (cemu .zero)) returnByte 2) at hrun
  generalize after (Evm.clock (cemu .zero)) returnByte 2 = d at hrun hcode hexit
  have hevent : (Evm.driver (cemu .zero)).HaltEvent d := .inl (by rw [hcode]; decide)
  refine ⟨hist, d, hrun, hlen, (halting_final_iff hstarted hrun fun f hf => ?_).mpr
    (fun _ => .inl hcode) hevent⟩
  rw [Evm.driver_step] at hf
  rw [hf] at hexit
  cases hexit

/-- REVERT is matched by the pattern of the system calls, which has no case for it. -/
theorem revert_goes_on :
    ¬ ((Evm.driver (cemu .zero)).HaltEvent ((Evm.init 1000).loadElf "fd6001".toList) →
      ∃ d', ∀ k, iterate (Evm.driver (cemu .zero)).step (0 + 1 + k)
        ((Evm.init 1000).loadElf "fd6001".toList) = .exit d') := by
  intro h
  obtain ⟨d', h⟩ := h (.inl (by decide))
  cases h 0

end Driver

end GvmCore
