import GvmCore.ByteMemory
import GvmCore.StackCodec

namespace GvmCore
open Exec Digits Memory
set_option autoImplicit true

namespace MemAccess

/-- The operands are on the stack and the cells inside memory. -/
def Inside (z : Int) : MemAccess → Prop
  | .mload a => 3 ≤ z ∧ a + 32 ≤ 1024
  | .mstore a _ => 7 ≤ z ∧ a + 32 ≤ 1024
  | .mstore8 a _ => 7 ≤ z ∧ a < 1024

def Moves (m : Memory) (s t : Core w c) (z : Int) : MemAccess → Prop
  | .mload a => s.Pushes t (z - 4) (value (m.read a 32).reverse)
  | .mstore _ _ => s.Drops t z 2
  | .mstore8 _ _ => s.Drops t z 2

end MemAccess

def memAccess (s : Core w c) (z : Int) (ocode : BitVec 8) : Option MemAccess :=
  if ocode = 0x51 then some (.mload (s.address z).toNat)
  else if ocode = 0x52 then some (.mstore (s.address z).toNat (s.number z 1))
  else if ocode = 0x53 then some (.mstore8 (s.address z).toNat (s.number z 1))
  else none

theorem decode_of_memAccess {s : Core w c} (h : memAccess s z ocode = some acc) :
    Listed ocode ∧ ∃ op, Insn.decode ocode = .mem true op ∧ memGas op = some 3 ∧
      (Insn.mem true op).access s z = some acc := by
  have hnumber : s.number z 1 = s.number (z - 4) 0 :=
    congrArg (fun i => regValue (s.reg i)) (by omega)
  unfold memAccess at h
  rw [hnumber] at h
  split at h
  · rename_i hcode
    subst hcode
    exact ⟨by decide, 1, by decide, rfl, h⟩
  · split at h
    · rename_i hcode
      subst hcode
      exact ⟨by decide, 2, by decide, rfl, h⟩
    · split at h
      · rename_i hcode
        subst hcode
        exact ⟨by decide, 3, by decide, rfl, h⟩
      · cases h

namespace MemAccess

theorem Inside.fits {s : Core w c} {acc : MemAccess} (hin : acc.Inside z) (hhigh : z < 2048)
    (h : (Insn.mem true op).access s z = some acc) :
    (Insn.mem true op).EntryIn z ∧ (Insn.mem true op).Fits s z := by
  have hbase : Insn.memBase true z = z - 4 := rfl
  match op with
  | 1 =>
    cases h
    obtain ⟨h3, hcells⟩ := hin
    refine ⟨⟨by omega, by omega⟩, ?_, ⟨by omega, by omega⟩, ⟨by omega, by omega⟩⟩
    change ((s.address z).setWidth 32).toNat + 32 ≤ 1024
    rw [toNat_address_setWidth]
    exact hcells
  | 2 =>
    cases h
    obtain ⟨h7, hcells⟩ := hin
    exact ⟨⟨by omega, by omega⟩, ⟨by omega, by omega⟩, ⟨by omega, by omega⟩, hcells⟩
  | 3 =>
    cases h
    obtain ⟨h7, hcell⟩ := hin
    exact ⟨⟨by omega, by omega⟩, ⟨by omega, by omega⟩, hcell⟩

theorem Inside.moves (E : Engine w c) {s t : Core w c} {acc : MemAccess} (hin : acc.Inside z)
    (hhigh : z < 2048) (h : (Insn.mem true op).access s z = some acc)
    (hw : ∀ i ≤ z, t.word i = s.word i) (hm : t.Holds m) :
    acc.Moves m s ((Insn.mem true op).effect E t z) z := by
  match op with
  | 1 =>
    cases h
    obtain ⟨h3, hcells⟩ := hin
    have haddr : ((t.address z).setWidth 32).toNat = (s.address z).toNat := by
      rw [Insn.address_congr hw le_rfl, toNat_address_setWidth]
    have hvalue := (congrArg (fun a => regValue (t.loadReg a)) haddr).trans (hm.loadReg hcells)
    exact (Core.pushes_pushed_iff (z := z - 4) (fun i hi => hw i (by omega)) ⟨by omega, by omega⟩
      ⟨by omega, by omega⟩).mpr hvalue
  | 2 =>
    cases h
    have heq : (Insn.mem true 2).effect E t z = ((t.withSp (z - 8)).storeReg (t.address z).toNat
        (t.reg (z - 7))).grown (t.address z + 32) := by
      rw [show z - 8 = z - 4 - 4 by omega, show z - 7 = z - 4 - 3 by omega]
      rfl
    rw [heq, Core.grown_eq, Core.storeReg_eq]
    obtain ⟨h7, -⟩ := hin
    exact Core.drops_of_word hw ⟨rfl, by omega, by omega⟩
  | 3 =>
    cases h
    have heq : (Insn.mem true 3).effect E t z = ((t.withSp (z - 8)).setCell (t.address z).toNat
        (((byteAt (t.word (z - 7)) 7).setWidth 8).setWidth c)).grown (t.address z) := by
      rw [show z - 8 = z - 4 - 4 by omega, show z - 7 = z - 4 - 3 by omega]
      rfl
    rw [heq, Core.grown_eq, Core.setCell_eq]
    obtain ⟨h7, -⟩ := hin
    exact Core.drops_of_word hw ⟨rfl, by omega, by omega⟩

theorem Moves.of_pc {s t : Core w c} {acc : MemAccess} (h : acc.Moves m s t z) (pc : BitVec 32) :
    acc.Moves m s { t with pc := pc } z := by
  cases acc with
  | mload a => exact Core.Pushes.of_pc h pc
  | mstore a v => exact Core.Drops.of_pc h pc
  | mstore8 a v => exact Core.Drops.of_pc h pc

end MemAccess

namespace Driver

variable {D : Driver w c σ}

/-- From reset, the cells are a byte memory: each access that is paid for and stays inside it reads
or writes its bytes and nothing else, as long as the digit heap serves the charge. -/
theorem byte_memory_iff (h : Loaded D d₀) (hrun : Run D.step d₀ hist d)
    (hz : SpAt (D.core d) z) (hhigh : z < 2048)
    (hacc : memAccess (D.core d) z (D.code d) = some acc) (hin : acc.Inside z)
    (hgas : 3 ≤ (D.core d).gas) :
    ((D.core d).Holds (D.memoryAfter hist) ∧ ∃ d', D.step d = .ok () d' ∧
      acc.Moves (D.memoryAfter hist) (D.core d) (D.core d') z ∧
      (D.core d').Holds (acc.run (D.memoryAfter hist))) ↔ (D.core d).heapPos + 65 ≤ heapSize := by
  have hholds := holds_run h hrun
  obtain ⟨hlisted, op, hdecode, hcharge, haccess⟩ := decode_of_memAccess hacc
  obtain ⟨hentry, hfit⟩ := hin.fits hhigh haccess
  have hinsn : D.insn d = .mem true op := (insn_of_listed hlisted).trans hdecode
  have hcovered : (D.insn d).Covered (D.core d) := by
    intro v hv
    rw [hinsn] at hv
    cases hcharge.symm.trans hv
    exact hgas
  have hneed : (D.insn d).need (D.core d) z = 65 := by
    rw [hinsn, Insn.need, Insn.conversions, Insn.charge, hcharge]
    rfl
  have hstep : ∀ d', D.step d = .ok () d' ↔ _ := fun d' => step_eq_ok_of_covered hz hcovered
    (by simp [hinsn]) (by rw [hinsn]; exact hentry) (by rw [hinsn]; exact hfit)
  rw [hneed, Engine.heapServes_iff h.heapCells (by decide)] at hstep
  constructor
  · rintro ⟨-, d', hd, -⟩
    exact ((hstep d').mp hd).1
  · intro hheap
    have hd := (hstep _).mpr ⟨hheap, rfl⟩
    refine ⟨hholds, _, hd, ?_, ?_⟩
    · obtain ⟨pc, hpc⟩ := D.core_next d ((D.insn d).write (D.core d) z)
        ((D.insn d).effect D.engine ((D.insn d).paid (D.core d) z) z)
      rw [hpc, hinsn]
      have hpaid := (Insn.memoryKept_paid (D.core d) z (.mem true op)).holds hholds
      exact (hin.moves D.engine hhigh haccess (fun i _ => Insn.paid_word _ z _ i) hpaid).of_pc pc
    · have hrun : (D.insn d).memoryAfter (D.core d) z (D.memoryAfter hist) =
          acc.run (D.memoryAfter hist) := by
        rw [hinsn, Insn.memoryAfter, haccess]
        rfl
      rw [← hrun]
      exact holds_step hz hholds hd

/-- PUSH1 7; PUSH1 1; MSTORE; PUSH1 2; MLOAD. -/
def loadUnaligned : Evm := (Evm.init 1000).loadElf "6007600152600251".toList

theorem loadUnaligned_loaded : Loaded (Evm.driver (cemu .zero)) loadUnaligned :=
  .cemu .zero (Evm.init 1000) (Nat.zero_le _) _

theorem loadUnaligned_run : (iterate (Evm.clock (cemu .zero)) 4 loadUnaligned).isOk = true ∧
    (after (Evm.clock (cemu .zero)) loadUnaligned 4).core.sp = BitVec.ofInt 32 3 ∧
    memAccess (after (Evm.clock (cemu .zero)) loadUnaligned 4).core 3
      (Evm.code (cemu .zero) (after (Evm.clock (cemu .zero)) loadUnaligned 4)) = some (.mload 2) ∧
    3 ≤ (after (Evm.clock (cemu .zero)) loadUnaligned 4).core.gas ∧
    (after (Evm.clock (cemu .zero)) loadUnaligned 4).core.heapPos + 65 ≤ heapSize ∧
    value (((Evm.driver (cemu .zero)).memoryAfter
      ((List.range 4).reverse.map
        (after (Evm.clock (cemu .zero)) loadUnaligned))).read 2 32).reverse = 0x700 := by
  decide +kernel

theorem byte_memory_unaligned : ∃ d d' : Evm, Evm.clock (cemu .zero) d = .ok () d' ∧
    memAccess d.core 3 (Evm.code (cemu .zero) d) = some (.mload 2) ∧
    d.core.Pushes d'.core (-1) 0x700 := by
  obtain ⟨hok, hsp, hacc, hgas, hheap, hvalue⟩ := loadUnaligned_run
  have hrun := Evm.driver_run hok
  generalize after (Evm.clock (cemu .zero)) loadUnaligned 4 = d at hrun hsp hacc hgas hheap
  obtain ⟨-, d', hd, hmoves, -⟩ := (byte_memory_iff loadUnaligned_loaded hrun
    ⟨hsp, by decide, by decide⟩ (by decide) hacc ⟨by decide, by decide⟩ hgas).mpr hheap
  refine ⟨d, d', hd, hacc, ?_⟩
  rw [← hvalue]
  exact hmoves

theorem jumpdest_step {d : Evm} (hz : SpAt d.core z) (hcode : Evm.code (cemu .zero) d = 0x5b)
    (hgas : 1 ≤ d.core.gas) (hheap : d.core.heapPos + 65 ≤ heapSize) :
    ∃ d', (Evm.driver (cemu .zero)).step d = .ok () d' ∧
      d'.core = { d.core.charged 1 with pc := d.core.pc + 1 } := by
  have hinsn : (Evm.driver (cemu .zero)).insn d = .mem false 11 := by
    have hd : (Evm.driver (cemu .zero)).code d = 0x5b := hcode
    rw [insn_of_listed (by rw [hd]; decide), hd]
    decide
  have hcovered : (Insn.mem false 11).Covered d.core := by
    intro v hv
    cases hv
    exact hgas
  refine ⟨_, (step_eq_ok_of_covered (D := Evm.driver (cemu .zero)) hz
    (by rw [hinsn]; exact hcovered) (by simp [hinsn]) (by rw [hinsn]; trivial)
    (by rw [hinsn]; trivial)).mpr ⟨?_, rfl⟩, ?_⟩
  · rw [hinsn]
    exact .inr fun cells hcells => by cases hcells; exact hheap
  · rw [hinsn]
    rfl

/-- PUSH1 0, then thirty-one times JUMPDEST, then MLOAD. -/
def loadLate : Evm := (Evm.init 1000).loadElf
  "60005b5b5b5b5b5b5b5b5b5b5b5b5b5b5b5b5b5b5b5b5b5b5b5b5b5b5b5b5b5b5b51".toList

/-- A state of the run after `k` times JUMPDEST. -/
structure OnSled (d : Evm) (k : Nat) : Prop where
  sp : SpAt d.core 3
  pc : d.core.pc = BitVec.ofNat 32 (2 + k)
  prog : d.core.prog = loadLate.core.prog
  address : d.core.address 3 = 0
  gas : d.core.gas + k = 997
  heapPos : d.core.heapPos = 65 * (k + 1)

theorem OnSled.code {d : Evm} (h : OnSled d k) :
    Evm.code (cemu .zero) d = (cemu .zero).fetch loadLate.core.prog (BitVec.ofNat 32 (2 + k)) := by
  rw [Evm.code, h.pc, h.prog]

theorem OnSled.step {d : Evm} (h : OnSled d k) (hk : k < 31) :
    ∃ d', (Evm.driver (cemu .zero)).step d = .ok () d' ∧ OnSled d' (k + 1) := by
  have hbyte :
      ∀ k < 31, (cemu .zero).fetch loadLate.core.prog (BitVec.ofNat 32 (2 + k)) = 0x5b := by
    decide +kernel
  have hgas := h.gas
  have hpos := h.heapPos
  obtain ⟨d', hd, hcore⟩ := jumpdest_step h.sp (h.code.trans (hbyte k hk)) (by omega)
    (by rw [heapSize]; omega)
  refine ⟨d', hd, ?_⟩
  have hpaid : (d.core.charged 1).gas = d.core.gas - 1 := Core.gas_charged (by simp; omega)
  constructor
  · rw [hcore]
    exact ⟨h.sp.sp, h.sp.lower, h.sp.upper⟩
  · rw [hcore]
    change d.core.pc + 1 = _
    rw [h.pc, ← Nat.add_assoc, BitVec.ofNat_add (2 + k) 1]
    rfl
  · rw [hcore]
    exact h.prog
  · rw [hcore]
    exact h.address
  · rw [hcore]
    change (d.core.charged 1).gas + (k + 1) = 997
    omega
  · rw [hcore]
    change d.core.heapPos + 65 = _
    omega

theorem onSled_run (hk : k ≤ 31) :
    ∃ hist d, Run (Evm.driver (cemu .zero)).step loadLate hist d ∧ OnSled d k := by
  induction k with
  | zero =>
    have hfirst : (Evm.clock (cemu .zero) loadLate).isOk = true ∧
        ((Evm.clock (cemu .zero) loadLate).get loadLate).core.sp = BitVec.ofInt 32 3 ∧
        ((Evm.clock (cemu .zero) loadLate).get loadLate).core.pc = BitVec.ofNat 32 (2 + 0) ∧
        ((Evm.clock (cemu .zero) loadLate).get loadLate).core.address 3 = 0 ∧
        ((Evm.clock (cemu .zero) loadLate).get loadLate).core.gas + 0 = 997 ∧
        ((Evm.clock (cemu .zero) loadLate).get loadLate).core.heapPos = 65 * (0 + 1) := by
      decide +kernel
    obtain ⟨hok, hsp, hpc, haddress, hgas, hpos⟩ := hfirst
    have hstep : Evm.clock (cemu .zero) loadLate =
        .ok () ((Evm.clock (cemu .zero) loadLate).get loadLate) := Outcome.eq_ok_of_isOk hok
    generalize (Evm.clock (cemu .zero) loadLate).get loadLate = d at *
    rw [← Evm.driver_step] at hstep
    obtain ⟨t, pc, hf, hcore⟩ := step_facts (D := Evm.driver (cemu .zero)) (z := -1)
      ⟨rfl, by decide, by decide⟩ hstep
    have hprog : d.core.prog = loadLate.core.prog := (congrArg Core.prog hcore).trans hf.prog
    exact ⟨_, d, Run.start.step hstep, ⟨hsp, by decide, by decide⟩, hpc, hprog,
      haddress, hgas, hpos⟩
  | succ k ih =>
    obtain ⟨hist, d, hrun, hd⟩ := ih (by omega)
    obtain ⟨d', hstep, hd'⟩ := hd.step (by omega)
    exact ⟨d :: hist, d', hrun.step hstep, hd'⟩

/-- After thirty-two conversions the digit heap is used up, and MLOAD fails. -/
theorem load_out_of_heap : ∃ hist d, Run (Evm.driver (cemu .zero)).step loadLate hist d ∧
    SpAt d.core 3 ∧ memAccess d.core 3 (Evm.code (cemu .zero) d) = some (.mload 0) ∧
    3 ≤ d.core.gas ∧
    ∀ d', (Evm.driver (cemu .zero)).step d ≠ .ok () d' := by
  obtain ⟨hist, d, hrun, hd⟩ := onSled_run (k := 31) le_rfl
  have hcode : (Evm.driver (cemu .zero)).code d = 0x51 := hd.code.trans (by decide +kernel)
  have hacc : memAccess d.core 3 0x51 = some (.mload 0) := by
    rw [memAccess, if_pos rfl, hd.address]
    rfl
  have hgas := hd.gas
  refine ⟨hist, d, hrun, hd.sp, (congrArg (memAccess d.core 3) hcode).trans hacc, by omega, ?_⟩
  intro d' hstep
  have hinsn : (Evm.driver (cemu .zero)).insn d = .mem true 1 := by
    rw [insn_of_listed (by rw [hcode]; decide), hcode]
    decide
  obtain ⟨t, pc, hf, -⟩ := step_facts (D := Evm.driver (cemu .zero)) hd.sp hstep
  rcases hf.room with h0 | hroom
  · rw [hinsn] at h0
    cases h0
  · have hcells := hroom heapSize rfl
    rw [hinsn] at hcells
    have hpos : ((Evm.driver (cemu .zero)).core d).heapPos = 65 * 32 := hd.heapPos
    rw [hpos] at hcells
    revert hcells
    decide

end Driver

end GvmCore
