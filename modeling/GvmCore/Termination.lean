import GvmCore.Decoding
import GvmCore.GasAccounting

namespace GvmCore
open Exec
set_option autoImplicit true

section Faults

variable (E : Engine w c)

theorem faultsIn_indexing {m : M w c α} (h : ReturnsOr Fault.Indexing m) : FaultsIn E.Faults m :=
  (h.mono fun _ => .inl).faultsIn

theorem faultsIn_useGas (v : Word) : FaultsIn E.Faults (useGas E v) :=
  .bind (returnsOr_argument E (.read _)).faultsIn fun _ =>
    .ite (.bind (.update _) fun _ => .ite .exit (.pure _)) (.update _)

theorem faultsIn_payGas (v : Option Word) : FaultsIn E.Faults (payGas E v) := by
  cases v with
  | none => exact .pure _
  | some v => exact faultsIn_useGas E v

theorem faultsIn_paid (v : Word) {m : M w c Unit} (h : ReturnsOr Fault.Indexing m) :
    FaultsIn E.Faults (noPc do
      useGas E v
      m) :=
  .bind (.bind (faultsIn_useGas E v) fun _ => faultsIn_indexing E h) fun _ => .pure _

theorem faultsIn_doArithm (opcode : Nat) : FaultsIn E.Faults (doArithm E opcode) := by
  refine .bind (.read _) fun _ => .bind (returnsOr_arithmOperands E _ _).faultsIn fun _ =>
    .bind (.update _) fun _ => .bind ?_ fun _ => faultsIn_indexing E (returnsOr_stackPutReg _ _)
  rw [arithmResult_eq]
  exact .bind (.ite (.ite .exit (.pure _)) (faultsIn_payGas E _)) fun _ =>
    (returnsOr_arithmCompute E _ _ _).faultsIn

theorem faultsIn_doCompare (opcode : Nat) : FaultsIn E.Faults (doCompare E opcode) := by
  refine .bind (.read _) fun _ => .bind (returnsOr_compareOperands E _ _).faultsIn fun _ =>
    .bind (.update _) fun _ => .bind ?_ fun _ => faultsIn_indexing E (returnsOr_stackPutReg _ _)
  rw [compareResult_eq]
  exact .bind (faultsIn_payGas E _) fun _ => faultsIn_indexing E (returnsOr_compareCompute _ _ _)

theorem faultsIn_memOp (addrVal : Word) (op : Nat) : FaultsIn E.Faults (memOp E addrVal op) := by
  match op with
  | 0 => exact faultsIn_paid E _ (.update _)
  | 1 => exact faultsIn_paid E _ (returnsOr_mloadInst _)
  | 2 => exact faultsIn_paid E _ (returnsOr_mStoreInst _)
  | 3 => exact faultsIn_paid E _ (returnsOr_mStore8Inst _)
  | 4 => exact faultsIn_paid E _ (returnsOr_loadFromStorage E _)
  | 5 => exact faultsIn_paid E _ (returnsOr_saveToStorage _)
  | 6 => exact .bind (faultsIn_useGas E _) fun _ => .pure _
  | 7 | 11 => exact .bind (faultsIn_useGas E _) fun _ => .pure _
  | 8 | 9 => exact faultsIn_paid E _ (.bind (.read _) fun _ => returnsOr_pushBlock _)
  | 10 => exact faultsIn_paid E _ returnsOr_gasOp
  | n + 12 => exact .pure _

theorem Insn.faultsIn_exec_of_ne {I : Insn} (h : I ≠ .sha3) : FaultsIn E.Faults (I.exec E) := by
  cases I with
  | noOp => exact .pure _
  | chargeOnly gas => exact .bind (faultsIn_useGas E _) fun _ => .pure _
  | pushRegister gas reg =>
    exact .bind (.bind (.read _) fun _ => .bind (faultsIn_useGas E _) fun _ =>
      faultsIn_indexing E (returnsOr_pushBlock _)) fun _ => .pure _
  | returnInst => exact .bind (.bind (faultsIn_useGas E _) fun _ => .exit) fun _ => .pure _
  | push count =>
    exact .bind (faultsIn_useGas E _) fun _ => .bind (faultsIn_indexing E (returnsOr_pushInst E _))
      fun _ => .bind (.read _) fun _ => .pure _
  | dup count => exact faultsIn_paid E _ (returnsOr_dupOp _)
  | swap count => exact faultsIn_paid E _ (returnsOr_swapOp _)
  | mem takesAddr op =>
    cases takesAddr with
    | false => exact .bind (.pure _) fun _ => faultsIn_memOp E _ _
    | true =>
      exact .bind (faultsIn_indexing E returnsOr_getSingleBlockFromStack) fun _ =>
        faultsIn_memOp E _ _
  | arithm op => exact .bind (faultsIn_doArithm E op) fun _ => .pure _
  | compare op => exact .bind (faultsIn_doCompare E op) fun _ => .pure _
  | sha3 => exact absurd rfl h

end Faults

/-- The digest buffer is overrun by a length above 255, once the charge is made. -/
theorem Insn.sha3_fault {E : Engine w c} {s : Core w c} (hthrows : E.checkErrorThrows = true)
    (h : SpAt s z) (hf : Insn.sha3.exec E s = .fault f) (hE : ¬ E.Faults f) :
    30 ≤ s.gas ∧ 255 < hashSize s z := by
  have hindex : ∀ {α} {m : M w c α} {s}, ReturnsOr Fault.Indexing m → m s ≠ .fault f :=
    fun hm hm' => hE (faultsIn_indexing E hm _ _ hm')
  rcases bind_eq_fault.mp hf with hf | ⟨_, _, -, hf⟩
  · rcases bind_eq_fault.mp hf with hf | ⟨_, s', hpay, hf⟩
    · exact absurd (faultsIn_useGas E _ _ _ hf) hE
    · have honly := useGas_paysOnly hpay
      have hz := honly.spAt h
      refine ⟨?_, ?_⟩
      · obtain ⟨-, ⟨hle, -⟩ | ⟨-, hfalse, -⟩⟩ := useGas_eq_ok.mp hpay
        · exact hle
        · rw [hthrows] at hfalse
          cases hfalse
      · rcases bind_eq_fault.mp hf with hf | ⟨_, _, ha, hf⟩
        · exact absurd hf (hindex returnsOr_getSingleBlockFromStack)
        obtain ⟨i3, rfl, rfl⟩ := (getSingleBlock_eq_ok E hz).mp ha
        rcases bind_eq_fault.mp hf with hf | ⟨_, _, hb, hf⟩
        · exact absurd hf (hindex returnsOr_getSingleBlockFromStack)
        have h0 := i3.1
        have hu := h.upper
        obtain ⟨-, rfl, -⟩ := (getSingleBlock_eq_ok E (.withSp (by omega) (by omega))).mp hb
        rcases (returnsOr_keccakAlg E _ _).faultsIn _ _ hf with hf | ⟨-, hsize⟩
        · exact absurd (.inl hf) hE
        · have haddr := honly.address (z - 4)
          rw [hashSize, ← haddr]
          exact hsize
  · cases hf

theorem decode_eq_sha3 : ∀ ocode, Insn.decode ocode = .sha3 ↔ ocode = 0x20 := by
  decide +kernel

namespace Evm

/-- How many clocks are left at most: the gas bounds the jumps, and between two of them `pc` only
moves towards the end of the program memory. -/
def fuel (d : Evm) : Nat := d.core.gas * (progMemSize + 1) + (progMemSize - d.core.pc.toNat)

/-- Past the program memory STOP is fetched. -/
theorem pc_lt_of_ok {W : World 32 8} (h : clock (cemuWith cells W) d = .ok () d') :
    d.core.pc.toNat < progMemSize := by
  by_contra hge
  obtain ⟨pw, t, hexec, -⟩ := Driver.step_eq_ok.mp ((driver_step _ _).trans h)
  have hcode : code (cemuWith cells W) d = 0 := if_neg hge
  have hinsn : (driver (cemuWith cells W)).insn d = .arithm 0 :=
    (cemuWith_resolve _ W _ _).trans ((decode_eq_stop _).mpr hcode)
  exact Insn.not_unwinds_of_ok (Driver.insn_inRange d) (spAt_toInt d.core) hexec
    (.inr ⟨rfl, .inl hinsn⟩)

theorem toNat_pc_add {pc : BitVec 32} (hlt : pc.toNat < progMemSize) (hk : k < 64) :
    (pc + BitVec.ofNat 32 k).toNat = pc.toNat + k := by
  simp only [progMemSize] at hlt
  rw [BitVec.toNat_add, BitVec.toNat_ofNat]
  omega

theorem lt_pc_next {s t : Core 32 8} {I : Insn} (hI : I.InRange)
    (hjump : ∀ takesAddr, I ≠ .mem takesAddr 6) (hs : s.pc = t.pc)
    (hlt : t.pc.toNat < progMemSize) :
    t.pc.toNat < (next d (I.write s z) t).core.pc.toNat := by
  have hone : t.pc.toNat < (next d .none t).core.pc.toNat :=
    lt_of_lt_of_eq (Nat.lt_succ_self _) (toNat_pc_add hlt (by decide : 1 < 64)).symm
  cases I with
  | push count =>
    have hcount : count < 32 := hI
    have hpc : (next d (.constChanged (s.pc + BitVec.ofNat 32 (count + 2))) t).core.pc.toNat =
        t.pc.toNat + (count + 2) := by
      rw [hs]
      exact toNat_pc_add hlt (by omega)
    simp only [Insn.write]
    omega
  | mem takesAddr op =>
    have hnone : memWrite (Insn.memAddr s takesAddr z) op = .none := by
      unfold memWrite
      split
      · exact absurd rfl (hjump takesAddr)
      · rfl
    rw [Insn.write, hnone]
    exact hone
  | _ => exact hone

theorem fuel_lt {W : World 32 8} (h : clock (cemuWith cells W) d = .ok () d') :
    fuel d' < fuel d := by
  have hlt := pc_lt_of_ok h
  have hstep := (driver_step (cemuWith cells W) d).trans h
  have hz := spAt_toInt d.core
  have hcharges := Driver.charges_step hz (.inl hstep)
  obtain ⟨pw, t, hexec, hd'⟩ := Driver.step_eq_ok.mp hstep
  obtain rfl : next d pw t = d' := hd'
  have hI := Driver.insn_inRange (D := driver (cemuWith cells W)) d
  by_cases hjump : ∃ takesAddr, (driver (cemuWith cells W)).insn d = .mem takesAddr 6
  · obtain ⟨takesAddr, hinsn⟩ := hjump
    have hcovered : ¬ ((driver (cemuWith cells W)).insn d).Exceeds d.core :=
      fun hex => Insn.not_unwinds_of_ok hI hz hexec (.inr ⟨rfl, .inr hex⟩)
    have hcost : ((driver (cemuWith cells W)).insn d).cost = 8 := by rw [hinsn]; rfl
    have hgas : (next d pw t).core.gas + _ = d.core.gas := hcharges.covered hcovered
    rw [hcost] at hgas
    simp only [fuel, progMemSize] at hlt ⊢
    omega
  · have hgas : (next d pw t).core.gas ≤ d.core.gas := hcharges.gas_le
    obtain ⟨s', honly, hwrite⟩ := Insn.exec_write _ hI hz hexec
    have hpc : t.pc = d.core.pc := (Insn.exec_facts _ hI hz hexec).pc
    have hs' : s'.pc = t.pc := by
      rw [hpc, honly.eq, Insn.entry_eq, Core.convertedTop_eq]
    have hnext :=
      lt_pc_next (d := d) (z := d.core.sp.toInt) hI (not_exists.mp hjump) hs' (hpc ▸ hlt)
    rw [hwrite, hpc] at hnext
    simp only [fuel, progMemSize] at hlt ⊢
    omega

/-- A run that stays inside the stack and the memory, on a digit heap that never fails, halts
exactly when no SHA3 overruns the digest buffer, whatever the program memory and the gas. -/
theorem halts_iff {W : World 32 8} {d₀ : Evm}
    (hin : ∀ hist d f, Run (clock (cemuWith none W)) d₀ hist d →
      clock (cemuWith none W) d = .fault f → ¬ f.Indexing) :
    (∃ n d, iterate (clock (cemuWith none W)) n d₀ = .exit d) ↔
      ∀ hist d, Run (clock (cemuWith none W)) d₀ hist d → code (cemuWith none W) d = 0x20 →
        30 ≤ d.core.gas → Insn.hashSize d.core d.core.sp.toInt ≤ 255 := by
  have hinsn : ∀ d, (driver (cemuWith none W)).insn d = .sha3 ↔ code (cemuWith none W) d = 0x20 :=
    fun d => by rw [← decode_eq_sha3]; exact (cemuWith_resolve _ W _ _).congr_left
  rw [Run.exits_iff]
  constructor
  · rintro ⟨hist₁, d₁, t, hrun₁, hexit⟩ hist d hrun hcode hgas
    by_contra hsize
    have hsha := (hinsn d).mpr hcode
    have hcovered : ((driver (cemuWith none W)).insn d).Covered d.core := by
      rw [hsha]
      intro v hv
      cases hv
      exact hgas
    have hok : ∀ d', clock (cemuWith none W) d ≠ .ok () d' := by
      intro d' h
      obtain ⟨pw, t, hexec, -⟩ := Driver.step_eq_ok.mp ((driver_step _ _).trans h)
      obtain ⟨-, -, hfit, -⟩ :=
        (Insn.exec_eq_ok_of_covered (Driver.insn_inRange d) (spAt_toInt d.core)
        hcovered (by simp [hsha])).mp hexec
      rw [hsha] at hfit
      exact hsize hfit.2.2.2
    obtain rfl := hrun.last_unique hrun₁ hok fun _ h => by rw [hexit] at h; cases h
    obtain ⟨t', -, hends, -⟩ :=
      Driver.exit_facts (spAt_toInt d.core) ((driver_step _ _).trans hexit)
    rcases hends.unwinds with h | ⟨-, h | h⟩
    · rw [hsha] at h
      cases h
    · rw [hsha] at h
      cases h
    · exact (Insn.covered_iff _ _).mp hcovered h
  · intro hsmall
    refine Run.exits_of_measure fuel (fun _ _ _ _ => fuel_lt) fun hist d f hrun hf => ?_
    have hE : ¬ (cemuWith none W).Faults f := by
      rintro (hidx | ⟨-, hcells⟩)
      · exact hin hist d f hrun hf hidx
      · exact hcells rfl
    have hexec := Driver.step_eq_fault.mp ((driver_step _ _).trans hf)
    by_cases hsha : (driver (cemuWith none W)).insn d = .sha3
    · rw [hsha] at hexec
      obtain ⟨hgas, hsize⟩ := Insn.sha3_fault rfl (spAt_toInt d.core) hexec hE
      have := hsmall hist d hrun ((hinsn d).mp hsha) hgas
      omega
    · exact hE (Insn.faultsIn_exec_of_ne _ hsha _ _ hexec)

/-- JUMPDEST; PUSH1 0; JUMP, with gas for one round and a part of the next. -/
def gasLoop : Evm := (init 15).loadElf "5b600056".toList

theorem halts_gas_loop :
    ∃ n d, iterate (clock (cemuWith none .zero)) n gasLoop = .exit d := by
  have hall := Run.forall_of_isExit (m := clock (cemuWith none .zero)) (s := gasLoop) (n := 5)
    (P := fun d => ((clock (cemuWith none .zero) d).isOk = true ∨
      (clock (cemuWith none .zero) d).isExit = true) ∧ code (cemuWith none .zero) d ≠ 0x20)
    (by decide +kernel) (by decide +kernel)
  refine (halts_iff fun hist d f hrun hf => ?_).mpr fun hist d hrun hcode => ?_
  · rcases (hall hist d hrun).1 with hok | hexit
    · rw [hf] at hok
      cases hok
    · rw [hf] at hexit
      cases hexit
  · exact absurd hcode (hall hist d hrun).2

/-- PUSH8 0x0800000000000000, which is decoded as 1024; PUSH1 0; SHA3; STOP. -/
def sha3Long : Evm := (init 1000).loadElf "67080000000000000060002000".toList

/-- SHA3 of the whole memory is copied to a buffer of 255 bytes. -/
theorem sha3_overruns_buffer :
    (∀ hist d f, Run (clock (cemuWith none .zero)) sha3Long hist d →
      clock (cemuWith none .zero) d = .fault f → ¬ f.Indexing) ∧
    ¬ ∃ n d, iterate (clock (cemuWith none .zero)) n sha3Long = .exit d := by
  have hlong : (iterate (clock (cemuWith none .zero)) 2 sha3Long).isOk = true := by decide +kernel
  have hfault : clock (cemuWith none .zero) (after (clock (cemuWith none .zero)) sha3Long 2) =
      .fault .keccakBuffer := Outcome.eq_fault_of_error (by decide +kernel)
  have hlast : ∀ {hist d}, Run (clock (cemuWith none .zero)) sha3Long hist d →
      (∀ d', clock (cemuWith none .zero) d ≠ .ok () d') →
      d = after (clock (cemuWith none .zero)) sha3Long 2 :=
    fun hrun hend => hrun.last_unique (.of_isOk hlong) hend fun _ h => by rw [hfault] at h; cases h
  constructor
  · intro hist d f hrun hf
    have hd := hlast hrun fun _ h => by rw [hf] at h; cases h
    rw [hd, hfault] at hf
    cases hf
    decide
  · rw [Run.exits_iff]
    rintro ⟨hist, d, t, hrun, hexit⟩
    have hd := hlast hrun fun _ h => by rw [hexit] at h; cases h
    rw [hd, hfault] at hexit
    cases hexit

end Evm

end GvmCore
