import GvmCore.Runs
import GvmCore.StackNumbers

namespace GvmCore
open Exec Digits
set_option autoImplicit true

theorem regValue_gasWords (limit : Word) : regValue (gasWords limit) = limit.toNat :=
  regValue_lowWord limit

theorem gasWord_eq_zero_iff {r : Reg} (h : regValue r < 2 ^ 64) : r 0 = 0 ↔ regValue r = 0 := by
  have hmod := regValue_mod r
  rw [Nat.mod_eq_of_lt h] at hmod
  rw [hmod]
  constructor
  · intro h0
    rw [h0, swapBytes_zero]
    rfl
  · intro h0
    have hs : swapBytes (r 0) = swapBytes 0 := by
      rw [swapBytes_zero]
      exact BitVec.eq_of_toNat_eq h0
    exact swapBytes_inj hs

theorem resultMessage_of_zero {s : Core w c} (h : s.gasAvailable 0 = 0) :
    resultMessage s = .ok .gasLimitError s := by
  unfold resultMessage
  rw [bind_of_ok (read_apply _ _), if_pos h]
  rfl

theorem resultMessage_gasLimitError {s u : Core w c} (h : resultMessage s = .ok l u) :
    l = .gasLimitError ↔ s.gasAvailable 0 = 0 := by
  by_cases hg : s.gasAvailable 0 = 0
  · rw [resultMessage_of_zero hg] at h
    cases h
    exact iff_of_true rfl hg
  · unfold resultMessage at h
    rw [bind_of_ok (read_apply _ _), if_neg hg] at h
    obtain ⟨_, _, -, h⟩ := bind_eq_ok.mp h
    obtain ⟨_, _, -, h⟩ := bind_eq_ok.mp h
    obtain ⟨_, _, -, h⟩ := bind_eq_ok.mp h
    obtain ⟨_, _, -, h⟩ := bind_eq_ok.mp h
    obtain ⟨_, _, -, h⟩ := bind_eq_ok.mp h
    cases h
    exact iff_of_false (fun h => by cases h) hg

namespace Insn

def cost (I : Insn) : Nat := (I.charge.map BitVec.toNat).getD 0

/-- What an instruction does to the gas, whether it returns or unwinds. -/
structure Charges (I : Insn) (s t : Core w c) : Prop where
  covered : ¬ I.Exceeds s → t.gas + I.cost = s.gas
  exceeded : I.Exceeds s → t.gas = 0

theorem Charges.gas_le {s t : Core w c} (h : Charges I s t) : t.gas ≤ s.gas := by
  by_cases hex : I.Exceeds s
  · have := h.exceeded hex
    omega
  · have := h.covered hex
    omega

theorem Charges.of_free {s t : Core w c} (hc : I.charge = none)
    (h : t.gasAvailable = s.gasAvailable) : Charges I s t := by
  have hgas : t.gas = s.gas := congrArg regValue h
  constructor
  · intro _
    simp [cost, hc, hgas]
  · rintro ⟨v, hv, -⟩
    rw [hc] at hv
    cases hv

theorem Charges.of_covered {s t : Core w c} (hc : I.charge = some v) (hle : v.toNat ≤ s.gas)
    (h : t.gasAvailable = gasSub s.gasAvailable v) : Charges I s t := by
  have hgas : t.gas = s.gas - v.toNat := (congrArg regValue h).trans (regValue_gasSub hle)
  constructor
  · intro _
    simp only [cost, hc, Option.map_some, Option.getD_some]
    omega
  · rintro ⟨v', hv', hlt⟩
    rw [hc] at hv'
    cases hv'
    omega

theorem Charges.of_exceeded {s t : Core w c} (hex : I.Exceeds s) (h : t.gas = 0) : Charges I s t :=
  ⟨fun hn => absurd hex hn, fun _ => h⟩

theorem Charges.of_gasAfter {E : Engine w c} {s t : Core w c}
    (h : GasAfter E s.gasAvailable t.gasAvailable I.charge) : Charges I s t := by
  cases hc : I.charge with
  | none =>
    rw [hc] at h
    exact .of_free hc h
  | some v =>
    rw [hc] at h
    obtain ⟨hle, hg⟩ | ⟨hlt, -, hg⟩ := h
    · exact .of_covered hc hle hg
    · exact .of_exceeded ⟨v, hc, hlt⟩ ((congrArg regValue hg).trans regValue_zero)

theorem Charges.of_ends {E : Engine w c} {s t : Core w c} (h : Ends E s z I t) : Charges I s t := by
  cases h with
  | returned => exact .of_covered rfl (Nat.zero_le _) rfl
  | stopped => exact .of_free rfl rfl
  | outOfGas _ hex => exact .of_exceeded hex (Core.gas_drained _)

end Insn

namespace Driver

variable (D : Driver w c σ)

def charges (hist : List σ) : Nat := (hist.map fun d => (D.insn d).cost).sum

def SomeExceeds (hist : List σ) : Prop := ∃ d ∈ hist, (D.insn d).Exceeds (D.core d)

/-- The gas after a history: the limit less its charges, or nothing once one was not covered. -/
structure Accounted (limit : Word) (hist : List σ) (s : Core w c) : Prop where
  covered : ¬ D.SomeExceeds hist → s.gas + D.charges hist = limit.toNat
  exceeded : D.SomeExceeds hist → s.gas = 0

variable {D}

theorem someExceeds_cons :
    D.SomeExceeds (d :: hist) ↔ (D.insn d).Exceeds (D.core d) ∨ D.SomeExceeds hist := by
  simp [SomeExceeds]

theorem charges_step (hz : SpAt (D.core d) z) (h : D.step d = .ok () d' ∨ D.step d = .exit d') :
    (D.insn d).Charges (D.core d) (D.core d') := by
  rcases h with h | h
  · obtain ⟨t, pc, hf, hcore⟩ := step_facts hz h
    have ht := Insn.Charges.of_gasAfter hf.gas
    rw [hcore]
    exact ⟨ht.covered, ht.exceeded⟩
  · obtain ⟨t, pc, hends, hcore⟩ := exit_facts hz h
    have ht := Insn.Charges.of_ends hends
    rw [hcore]
    exact ⟨ht.covered, ht.exceeded⟩

theorem Accounted.step (h : D.Accounted limit hist (D.core d))
    (hc : (D.insn d).Charges (D.core d) s) : D.Accounted limit (d :: hist) s := by
  constructor
  · intro hn
    rw [someExceeds_cons, not_or] at hn
    have hs := hc.covered hn.1
    have hd := h.covered hn.2
    simp only [charges, List.map_cons, List.sum_cons] at hd ⊢
    omega
  · intro hex
    by_cases hnow : (D.insn d).Exceeds (D.core d)
    · exact hc.exceeded hnow
    · have hs := hc.covered hnow
      have hd := h.exceeded ((someExceeds_cons.mp hex).resolve_left hnow)
      omega

theorem Accounted.gas_lt {s : Core w c} (h : D.Accounted limit hist s) : s.gas < 2 ^ 64 := by
  have hlimit := limit.isLt
  by_cases hex : D.SomeExceeds hist
  · have := h.exceeded hex
    omega
  · have := h.covered hex
    omega

theorem accounted_run (h : Started D limit d₀) (hrun : Run D.step d₀ hist d) :
    D.Accounted limit hist (D.core d) := by
  induction hrun with
  | start =>
    constructor
    · intro _
      rw [Core.gas, h.start.gas, regValue_gasWords]
      rfl
    · rintro ⟨d, hd, -⟩
      cases hd
  | step hrun hstep ih =>
    obtain ⟨z, hz⟩ := h.bounded hrun
    exact ih.step (charges_step hz.spAt (.inl hstep))

/-- Along every run the gas is what the charges leave of the limit and never grows. The report
at the end is right unless the charges come to exactly the limit. -/
theorem gas_accounting (h : Started D limit d₀) (hrun : Run D.step d₀ hist d) :
    D.Accounted limit hist (D.core d) ∧
    (∀ d', D.step d = .ok () d' ∨ D.step d = .exit d' →
      (D.core d').gas ≤ (D.core d).gas ∧ D.Accounted limit (d :: hist) (D.core d')) ∧
    ∀ d' l u, D.step d = .exit d' → resultMessage (D.core d') = .ok l u →
      ((l = .gasLimitError ↔ D.SomeExceeds (d :: hist)) ↔
        (D.charges (d :: hist) = limit.toNat → D.SomeExceeds (d :: hist))) := by
  obtain ⟨z, hz⟩ := h.bounded hrun
  have hacc := accounted_run h hrun
  refine ⟨hacc, fun d' hd' => ?_, fun d' l u hd' hl => ?_⟩
  · have hc := charges_step hz.spAt hd'
    exact ⟨hc.gas_le, hacc.step hc⟩
  · have hend := hacc.step (charges_step hz.spAt (.inr hd'))
    rw [resultMessage_gasLimitError hl, gasWord_eq_zero_iff hend.gas_lt]
    by_cases hex : D.SomeExceeds (d :: hist)
    · exact iff_of_true (iff_of_true (hend.exceeded hex) hex) fun _ => hex
    · have hgas := hend.covered hex
      have hzero : regValue (D.core d').gasAvailable = 0 ↔
          D.charges (d :: hist) = limit.toNat := by
        have hdef : (D.core d').gas = regValue (D.core d').gasAvailable := rfl
        omega
      rw [hzero]
      tauto

theorem reported_of_exact (h : Started D limit d₀) (hrun : Run D.step d₀ hist d)
    (hexit : D.step d = .exit d') (hcovered : ¬ D.SomeExceeds (d :: hist))
    (hsum : D.charges (d :: hist) = limit.toNat) :
    resultMessage (D.core d') = .ok .gasLimitError (D.core d') := by
  obtain ⟨z, hz⟩ := h.bounded hrun
  have hend := (accounted_run h hrun).step (charges_step hz.spAt (.inr hexit))
  have hgas := hend.covered hcovered
  have hzero : regValue (D.core d').gasAvailable = 0 := by
    have hdef : (D.core d').gas = regValue (D.core d').gasAvailable := rfl
    omega
  exact resultMessage_of_zero ((gasWord_eq_zero_iff hend.gas_lt).mpr hzero)

section Ended

/-- JUMPDEST; PUSH1 1; PUSH1 0; RETURN. -/
def jumpdestReturn : Evm := (Evm.init 1000).loadElf "5b60016000f3".toList

theorem gas_accounting_jumpdest : ∃ hist d d' l u,
    Run (Evm.driver (cemu .zero)).step jumpdestReturn hist d ∧
    (Evm.driver (cemu .zero)).step d = .exit d' ∧ resultMessage d'.core = .ok l u ∧
    (Evm.driver (cemu .zero)).Accounted 1000 (d :: hist) d'.core ∧
    (l = .gasLimitError ↔ (Evm.driver (cemu .zero)).SomeExceeds (d :: hist)) := by
  have hfacts : (iterate (Evm.clock (cemu .zero)) 3 jumpdestReturn).isOk = true ∧
      (Evm.clock (cemu .zero) (after (Evm.clock (cemu .zero)) jumpdestReturn 3)).isExit = true ∧
      (resultMessage ((Evm.clock (cemu .zero)
        (after (Evm.clock (cemu .zero)) jumpdestReturn 3)).get jumpdestReturn).core).value =
          some (.result [0]) ∧
      (Evm.driver (cemu .zero)).charges (after (Evm.clock (cemu .zero)) jumpdestReturn 3 ::
        (List.range 3).reverse.map (after (Evm.clock (cemu .zero)) jumpdestReturn)) = 7 := by
    decide +kernel
  obtain ⟨hok, hisExit, hvalue, hcharges⟩ := hfacts
  have hrun := Evm.driver_run hok
  have hexit := Outcome.eq_exit_of_isExit (d := jumpdestReturn) hisExit
  rw [← Evm.driver_step] at hexit
  generalize (List.range 3).reverse.map (after (Evm.clock (cemu .zero)) jumpdestReturn) = hist at *
  generalize after (Evm.clock (cemu .zero)) jumpdestReturn 3 = d at *
  obtain ⟨u, hprint⟩ := Outcome.eq_ok_of_value hvalue
  have hstarted : Started (Evm.driver (cemu .zero)) 1000 jumpdestReturn := .init .zero 1000 _
  obtain ⟨-, hstep, hreport⟩ := gas_accounting hstarted hrun
  refine ⟨_, _, _, _, u, hrun, hexit, hprint, (hstep _ (.inr hexit)).2, ?_⟩
  refine (hreport _ _ u hexit hprint).mpr fun hsum => ?_
  cases hcharges.symm.trans hsum

end Ended

section ExactLimit

/-- JUMPDEST and RETURN, with a limit that JUMPDEST uses up. -/
def exactLimit : Evm := (Evm.init 1).loadElf "5bf3".toList

theorem exactLimit_started : Started (Evm.driver (cemu .zero)) 1 exactLimit :=
  .init .zero 1 "5bf3".toList

def exactLimitSpent : Evm := (Evm.clock (cemu .zero) exactLimit).get exactLimit

theorem exactLimit_step : Evm.clock (cemu .zero) exactLimit = .ok () exactLimitSpent :=
  Outcome.eq_ok_of_isOk (by decide +kernel)

def exactLimitEnd : Evm := (Evm.clock (cemu .zero) exactLimitSpent).get exactLimit

theorem exactLimit_exit : Evm.clock (cemu .zero) exactLimitSpent = .exit exactLimitEnd :=
  Outcome.eq_exit_of_isExit (by decide +kernel)

theorem exactLimit_insn : (Evm.driver (cemu .zero)).insn exactLimit = .mem false 11 := by
  decide +kernel

theorem exactLimitSpent_insn : (Evm.driver (cemu .zero)).insn exactLimitSpent = .returnInst := by
  decide +kernel

theorem exactLimit_covered :
    ¬ (Evm.driver (cemu .zero)).SomeExceeds [exactLimitSpent, exactLimit] := by
  have hgas : exactLimit.core.gas = 1 := regValue_gasWords 1
  rw [someExceeds_cons, someExceeds_cons]
  rintro (⟨v, hv, hlt⟩ | ⟨v, hv, hlt⟩ | ⟨d, hd, -⟩)
  · rw [exactLimitSpent_insn] at hv
    cases hv
    exact Nat.not_lt_zero _ hlt
  · rw [exactLimit_insn] at hv
    cases hv
    have hlt' : exactLimit.core.gas < 1 := hlt
    omega
  · cases hd

/-- The gas error is reported although every charge was covered. -/
theorem exact_limit_reported : ∃ hist d d', Run (Evm.driver (cemu .zero)).step exactLimit hist d ∧
    (Evm.driver (cemu .zero)).step d = .exit d' ∧
    resultMessage ((Evm.driver (cemu .zero)).core d') =
      .ok .gasLimitError ((Evm.driver (cemu .zero)).core d') ∧
    ¬ (Evm.driver (cemu .zero)).SomeExceeds (d :: hist) := by
  have hrun : Run (Evm.clock (cemu .zero)) exactLimit [exactLimit] exactLimitSpent :=
    .step .start exactLimit_step
  have hcharges : (Evm.driver (cemu .zero)).charges [exactLimitSpent, exactLimit] = 1 := by
    simp only [charges, List.map_cons, exactLimitSpent_insn, exactLimit_insn]
    rfl
  have hexit : (Evm.driver (cemu .zero)).step exactLimitSpent = .exit exactLimitEnd :=
    (Evm.driver_step _ _).trans exactLimit_exit
  exact ⟨_, _, _, hrun, hexit,
    reported_of_exact exactLimit_started hrun hexit exactLimit_covered hcharges, exactLimit_covered⟩

end ExactLimit

end Driver

end GvmCore
