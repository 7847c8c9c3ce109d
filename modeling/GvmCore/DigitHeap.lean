import GvmCore.Runs

namespace GvmCore
open Exec
set_option autoImplicit true

theorem Fault.Indexing.not_ofHeap {f : Fault} (h : f.Indexing) : ¬ f.OfHeap := by
  rcases h with rfl | rfl <;> decide

theorem faultsIn_checkError (E : Engine w c) : FaultsIn P (checkError E) := .ite .exit (.pure _)

theorem faultsIn_doArithm_of_free (E : Engine w c) (hop : opcode = 0 ∨ 12 ≤ opcode) :
    FaultsIn Fault.Indexing (doArithm E opcode) := by
  have hoperands : ∀ sp, FaultsIn Fault.Indexing (arithmOperands E opcode sp) := by
    intro sp
    have h2 : opcode ∉ [1, 2, 3, 4, 5, 6, 7, 10, 11] := by simp; omega
    have h3 : opcode ∉ [8, 9] := by simp; omega
    rw [arithmOperands, if_neg h2, if_neg h3]
    exact .pure _
  have hresult : ∀ arg1 o, FaultsIn Fault.Indexing (arithmResult E opcode arg1 o) := by
    intro arg1 o
    rcases hop with rfl | hop
    · exact .bind (faultsIn_checkError E) fun _ => .pure _
    · obtain ⟨n, rfl⟩ : ∃ n, opcode = n + 12 := ⟨opcode - 12, by omega⟩
      exact .pure _
  exact .bind (.read _) fun _ => .bind (hoperands _) fun _ => .bind (.update _) fun _ =>
    .bind (hresult _ _) fun _ => (returnsOr_stackPutReg _ _).faultsIn

theorem faultsIn_doCompare_of_free (E : Engine w c) (hop : 11 ≤ opcode) :
    FaultsIn Fault.Indexing (doCompare E opcode) := by
  have hoperands : ∀ sp, FaultsIn Fault.Indexing (compareOperands E opcode sp) := by
    intro sp
    have h1 : opcode ∉ [5, 9] := by simp; omega
    have h2 : opcode ∉ [0, 1, 2, 3, 4, 6, 7, 8, 10] := by simp; omega
    rw [compareOperands, if_neg h1, if_neg h2]
    exact .pure _
  have hresult : ∀ arg1 o, FaultsIn Fault.Indexing (compareResult E opcode arg1 o) := by
    intro arg1 o
    rw [compareResult, if_neg (by omega), if_neg (by omega)]
    exact .pure _
  exact .bind (.read _) fun _ => .bind (hoperands _) fun _ => .bind (.update _) fun _ =>
    .bind (hresult _ _) fun _ => (returnsOr_stackPutReg _ _).faultsIn

theorem conversions_eq_zero_iff (I : Insn) : I.conversions = 0 ↔ I.arity = 0 ∧ I.charge = none := by
  unfold Insn.conversions
  cases I.charge <;> simp

theorem Insn.faultsIn_exec_of_free (E : Engine w c) {I : Insn} (h : I.conversions = 0) :
    FaultsIn Fault.Indexing (I.exec E) := by
  obtain ⟨-, hcharge⟩ := (conversions_eq_zero_iff I).mp h
  cases I with
  | noOp => exact .pure _
  | mem takesAddr op =>
    have hop : ∀ addrVal, FaultsIn Fault.Indexing (memOp E addrVal op) := by
      intro addrVal
      match op with
      | n + 12 => exact .pure _
    cases takesAddr with
    | false => exact .bind (.pure _) fun _ => hop _
    | true => exact .bind returnsOr_getSingleBlockFromStack.faultsIn fun _ => hop _
  | arithm op =>
    have hop : op = 0 ∨ 12 ≤ op := by
      match op with
      | 0 => exact .inl rfl
      | n + 12 => exact .inr (by omega)
    exact .bind (faultsIn_doArithm_of_free E hop) fun _ => .pure _
  | compare op =>
    have hop : 11 ≤ op := by
      have hgas : compareGas op = none := hcharge
      unfold compareGas at hgas
      split at hgas
      · cases hgas
      · omega
    exact .bind (faultsIn_doCompare_of_free E hop) fun _ => .pure _
  | _ => cases hcharge

theorem Insn.Ends.heapPos {E : Engine w c} {s t : Core w c} (h : Insn.Ends E s z I t) :
    t.heapPos = s.heapPos + 65 * I.conversions := by
  cases h with
  | returned => rfl
  | stopped => rfl
  | outOfGas _ hex =>
    obtain ⟨v, hv, -⟩ := hex
    have hdrained : (I.entry s z).drained.heapPos = (I.entry s z).heapPos + 65 := rfl
    rw [hdrained, I.heapPos_entry, Insn.conversions, Option.mem_def.mp hv]
    simp only [Option.isSome_some, if_true]
    omega

namespace Driver

variable (D : Driver w c σ)

/-- The calls of the next instruction leave the digit heap where they find it and ask for no cell
that it has not. -/
def HeapKept (d : σ) : Prop :=
  match D.step d with
  | .ok _ d' => (D.core d').heapPos = (D.core d).heapPos
  | .exit d' => (D.core d').heapPos = (D.core d).heapPos
  | .fault f => ¬ f.OfHeap

instance (d : σ) : Decidable (D.HeapKept d) :=
  match h : D.step d with
  | .ok _ d' => decidable_of_iff ((D.core d').heapPos = (D.core d).heapPos) (by rw [HeapKept, h])
  | .exit d' => decidable_of_iff ((D.core d').heapPos = (D.core d).heapPos) (by rw [HeapKept, h])
  | .fault f => decidable_of_iff (¬ f.OfHeap) (by rw [HeapKept, h])

variable {D}

/-- The heap position is the number of registers converted so far. -/
theorem heapPos_run (h : Started D limit d₀) (hrun : Run D.step d₀ hist d) :
    (D.core d).heapPos = 65 * (hist.map fun d => (D.insn d).conversions).sum := by
  induction hrun with
  | start => exact h.start.heapPos
  | step hrun hstep ih =>
    obtain ⟨z, hz⟩ := h.bounded hrun
    obtain ⟨t, pc, hf, hcore⟩ := step_facts hz.spAt hstep
    rw [hcore, List.map_cons, List.sum_cons]
    have := hf.heapPos
    dsimp only
    omega

/-- However long the program is, its runs convert no more than 32 registers. -/
theorem conversions_run_le (h : Started D limit d₀) (hrun : Run D.step d₀ hist d) :
    (hist.map fun d => (D.insn d).conversions).sum ≤ 32 := by
  obtain ⟨z, hz⟩ := h.bounded hrun
  have hle := hz.heap
  rw [heapPos_run h hrun, heapSize] at hle
  omega

/-- In every state a run reaches, the digit heap is kept exactly when no register is converted. -/
theorem heapKept_iff (h : Started D limit d₀) (hrun : Run D.step d₀ hist d)
    (hdef : ∀ f, D.step d = .fault f → f.OfHeap) :
    D.HeapKept d ↔ (D.insn d).conversions = 0 := by
  obtain ⟨z, hz⟩ := h.bounded hrun
  unfold HeapKept
  cases hstep : D.step d with
  | ok u d' =>
    obtain ⟨t, pc, hf, hcore⟩ := step_facts hz.spAt hstep
    have := hf.heapPos
    dsimp only
    rw [hcore]
    dsimp only
    omega
  | exit d' =>
    obtain ⟨t, pc, hends, hcore⟩ := exit_facts hz.spAt hstep
    have := hends.heapPos
    dsimp only
    rw [hcore]
    dsimp only
    omega
  | fault f =>
    dsimp only
    refine iff_of_false (fun hkept => hkept (hdef f hstep)) fun hconv => ?_
    have hfault := Insn.faultsIn_exec_of_free D.engine hconv _ f (step_eq_fault.mp hstep)
    exact hfault.not_ofHeap (hdef f hstep)

/-- PUSH1 1; PUSH1 2 and a byte that is no opcode. -/
def pushTwo : Evm := (Evm.init 1000).loadElf "60016002b0".toList

theorem heapKept_iff_undefined_opcode : ∃ hist d,
    Run (Evm.driver (cemu .zero)).step pushTwo hist d ∧ d.core.heapPos = 130 ∧
      (Evm.driver (cemu .zero)).HeapKept d := by
  have hfacts : (iterate (Evm.clock (cemu .zero)) 2 pushTwo).isOk = true ∧
      (after (Evm.clock (cemu .zero)) pushTwo 2).core.heapPos = 130 ∧
      (Evm.clock (cemu .zero) (after (Evm.clock (cemu .zero)) pushTwo 2)).isOk = true ∧
      ((Evm.driver (cemu .zero)).insn
        (after (Evm.clock (cemu .zero)) pushTwo 2)).conversions = 0 := by
    decide +kernel
  obtain ⟨hok, hpos, hstep, hfree⟩ := hfacts
  have hrun := Evm.driver_run hok
  have hstarted : Started (Evm.driver (cemu .zero)) 1000 pushTwo := .init .zero 1000 _
  generalize after (Evm.clock (cemu .zero)) pushTwo 2 = d at hrun hpos hstep hfree
  refine ⟨_, d, hrun, hpos, (heapKept_iff hstarted hrun fun f hf => ?_).mpr hfree⟩
  rw [Evm.driver_step] at hf
  rw [hf] at hstep
  cases hstep

/-- The gas counter PUSH1 converts is never freed. -/
theorem push_leaves_digits :
    ¬ (Evm.driver (cemu .zero)).HeapKept ((Evm.init 1000).loadElf "6001".toList) := by
  decide +kernel

end Driver

end GvmCore
