import GvmCore.Covered

namespace GvmCore
open Exec VBignum Signed
set_option autoImplicit true

namespace Insn

/-- The charge is more than the gas that is left. -/
def Exceeds (I : Insn) (s : Core w c) : Prop := ∃ v ∈ I.charge, s.gas < v.toNat

instance (I : Insn) (s : Core w c) : Decidable (I.Exceeds s) :=
  inferInstanceAs (Decidable (∃ v ∈ I.charge, _))

theorem covered_iff (I : Insn) (s : Core w c) : I.Covered s ↔ ¬ I.Exceeds s := by
  simp only [Covered, Exceeds, not_exists, not_and, not_lt]

/-- The instruction ends the run. -/
def Unwinds (E : Engine w c) (I : Insn) (s : Core w c) : Prop :=
  I = .returnInst ∨ E.checkErrorThrows = true ∧ (I = .arithm 0 ∨ I.Exceeds s)

/-- The three ways a run ends, and the state each one leaves. -/
inductive Ends (E : Engine w c) (s : Core w c) (z : Int) : Insn → Core w c → Prop
  | returned : Ends E s z .returnInst (s.charged 0)
  | stopped : E.checkErrorThrows = true → Ends E s z (.arithm 0) (s.withSp (z + 3))
  | outOfGas : E.checkErrorThrows = true → I.Exceeds s → Ends E s z I (I.entry s z).drained

theorem payGas_eq_exit {E : Engine w c} {s t : Core w c} (h : payGas E v s = .exit t) :
    E.checkErrorThrows = true ∧ (∃ g ∈ v, s.gas < g.toNat) ∧ t = s.drained := by
  cases v with
  | none => cases h
  | some v =>
    obtain ⟨-, hlt, hthrows, rfl⟩ := useGas_eq_exit.mp h
    exact ⟨hthrows, ⟨v, rfl, hlt⟩, rfl⟩

theorem Ends.of_exec {E : Engine w c} {s t : Core w c} {I : Insn} (h : SpAt s z)
    (hexit : I.exec E s = .exit t) : Ends E s z I t := by
  obtain ⟨-, -, hpay | ⟨rfl, hpay⟩⟩ := (exec_eq_exit E h).mp hexit
  · have hgas : payGas E I.charge (I.entry s z) = .exit t → Ends E s z I t := by
      intro hpay
      obtain ⟨hthrows, hlt, rfl⟩ := payGas_eq_exit hpay
      rw [I.gas_entry] at hlt
      exact .outOfGas hthrows hlt
    cases I with
    | arithm op =>
      simp only [pay, arithmPay] at hpay
      split at hpay
      · rename_i hop
        subst hop
        obtain ⟨hthrows, rfl⟩ := checkError_eq_exit.mp hpay
        exact .stopped hthrows
      · exact hgas hpay
    | _ => exact hgas hpay
  · obtain ⟨-, ⟨-, rfl⟩ | ⟨hlt, -, -⟩⟩ := useGas_eq_ok.mp hpay
    · exact .returned
    · simp at hlt

theorem Ends.unwinds {E : Engine w c} {s t : Core w c} {I : Insn} (h : Ends E s z I t) :
    I.Unwinds E s := by
  cases h with
  | returned => exact .inl rfl
  | stopped hthrows => exact .inr ⟨hthrows, .inl rfl⟩
  | outOfGas hthrows hex => exact .inr ⟨hthrows, .inr hex⟩

theorem returnInst_eq_exit {E : Engine w c} {s t : Core w c} (hz : SpAt s z) :
    returnInst.exec E s = .exit t ↔ E.HeapServes s.heapPos 65 ∧ s.charged 0 = t := by
  rw [exec_eq_exit E hz]
  constructor
  · rintro ⟨-, -, hexit | ⟨-, hok⟩⟩
    · exact absurd (useGas_eq_exit.mp hexit).2.1 (Nat.not_lt_zero _)
    · obtain ⟨hroom, ⟨-, rfl⟩ | ⟨hlt, -⟩⟩ := useGas_eq_ok.mp hok
      · exact ⟨hroom, rfl⟩
      · exact absurd hlt (Nat.not_lt_zero _)
  · rintro ⟨hroom, rfl⟩
    exact ⟨trivial, .zero E _, .inr ⟨rfl, useGas_eq_ok.mpr ⟨hroom, .inl ⟨Nat.zero_le _, rfl⟩⟩⟩⟩

/-- On a heap that serves it an instruction ends the run as it should. -/
theorem Ends.exec {E : Engine w c} {s t : Core w c} {I : Insn} (h : Ends E s z I t) (hz : SpAt s z)
    (hin : I.EntryIn z) (hheap : E.HeapServes s.heapPos (65 * I.conversions)) :
    I.exec E s = .exit t := by
  cases h with
  | returned => exact (returnInst_eq_exit hz).mpr ⟨hheap, rfl⟩
  | stopped hthrows =>
    apply (exec_eq_exit E hz).mpr
    exact ⟨hin, hheap, .inl (checkError_eq_exit.mpr ⟨hthrows, rfl⟩)⟩
  | outOfGas hthrows hex =>
    obtain ⟨v, hv, hlt⟩ := hex
    have hne : I ≠ .arithm 0 := by
      rintro rfl
      cases hv
    have hserves :
        E.HeapServes s.heapPos (65 * I.arity) ∧ E.HeapServes (I.entry s z).heapPos 65 := by
      rw [heapPos_entry, ← E.heapServes_add]
      rw [conversions, Option.mem_def.mp hv, Option.isSome_some, if_pos rfl, Nat.mul_add] at hheap
      exact hheap
    apply (exec_eq_exit E hz).mpr
    refine ⟨hin, hserves.1, .inl ?_⟩
    rw [pay_of_ne hne, Option.mem_def.mp hv]
    rw [← I.gas_entry s z] at hlt
    exact useGas_eq_exit.mpr ⟨hserves.2, hlt, hthrows, rfl⟩

theorem not_unwinds_of_ok {E : Engine w c} {s t : Core w c} {I : Insn} (hI : I.InRange)
    (h : SpAt s z) (hok : I.exec E s = .ok pw t) : ¬ I.Unwinds E s := by
  obtain ⟨-, -, s', hpay, -, hfit, -, -⟩ := (exec_eq_ok E hI h).mp hok
  rintro (rfl | ⟨hthrows, rfl | ⟨v, hv, hlt⟩⟩)
  · exact hfit
  · simp only [pay, arithmPay, if_true, checkError_eq_ok, hthrows] at hpay
    cases hpay.1
  · have hg := (pay_facts hpay).gas
    rw [Option.mem_def.mp hv] at hg
    have hgas : regValue (I.entry s z).gasAvailable = s.gas := I.gas_entry s z
    obtain ⟨hle, -⟩ | ⟨-, hfalse, -⟩ := hg
    · omega
    · rw [hthrows] at hfalse
      cases hfalse

/-- Unless it leaves an array, an instruction ends the run exactly when it should unwind. -/
theorem exec_exits_iff {E : Engine w c} {s : Core w c} {I : Insn} (hI : I.InRange) (h : SpAt s z)
    (hdef : ∀ f, I.exec E s ≠ .fault f) : (∃ t, I.exec E s = .exit t) ↔ I.Unwinds E s := by
  constructor
  · rintro ⟨t, ht⟩
    exact (Ends.of_exec h ht).unwinds
  · intro hu
    cases hx : I.exec E s with
    | ok pw t => exact absurd hu (not_unwinds_of_ok hI h hx)
    | exit t => exact ⟨t, rfl⟩
    | fault f => exact absurd hx (hdef f)

theorem Ends.regs {E : Engine w c} {s t : Core w c} {I : Insn} (h : Ends E s z I t) :
    t.regs = s.regs := by
  cases h with
  | returned | stopped => rfl
  | outOfGas =>
    change (I.entry s z).regs = s.regs
    rw [I.entry_eq s z, Core.convertedTop_eq]

theorem Ends.fresh {E : Engine w c} {s t : Core w c} {I : Insn} (h : Ends E s z I t)
    (hf : s.Fresh 51) : t.Fresh 51 := by
  cases h with
  | returned => exact ((hf.mono (by decide)).converted _).mono (by decide)
  | stopped => exact hf
  | outOfGas =>
    have hentry : (I.entry s z).Fresh 51 := by
      rw [I.entry_eq s z]
      exact hf.convertedTop (by decide) z I.arity
    exact ((hentry.mono (by decide)).converted _).mono (by decide)

end Insn

end GvmCore
