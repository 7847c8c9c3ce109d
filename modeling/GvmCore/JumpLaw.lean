import GvmCore.StackCodec
import GvmCore.Translation

namespace GvmCore
open Exec
set_option autoImplicit true

theorem jump_exec {E : Engine w c} {s t : Core w c} (hz : SpAt s z)
    (h : (Insn.mem true 6).exec E s = .ok pw t) :
    pw = .withinInst ((s.address z).setWidth 32) ∧ s.Drops t z 1 := by
  obtain ⟨hin, -, s', hpay, -, -, rfl, rfl⟩ :=
    (Insn.exec_eq_ok E (I := .mem true 6) trivial hz).mp h
  have honly := (Insn.pay_facts hpay).only
  have hw : ∀ i ≤ z, s'.word i = s.word i := fun i _ => honly.word i
  have h3 : 0 ≤ z - 3 := hin.1
  have hupper := hz.upper
  constructor
  · exact congrArg (fun a : Word => PcWrite.withinInst (a.setWidth 32))
      (Insn.address_congr hw le_rfl)
  · apply Core.drops_of_word hw
    have hsp : s'.sp = BitVec.ofInt w (z - 4) := by
      rw [honly.eq]
      rfl
    exact ⟨by simpa using hsp, by omega, by omega⟩

theorem address_of_number (s : Core w c) (z : Int) :
    ∃ v : Word, s.address z = singleBlock (swapBytes v) ∧ s.number z 0 % 2 ^ 64 = v.toNat := by
  refine ⟨swapBytes (s.word (z - 3)), ?_, ?_⟩
  · rw [swapBytes_swapBytes]
    rfl
  · rw [Core.number, regValue_mod, Core.element_zero]

/-- The decoded address is the number on the stack for one-byte numbers only. -/
theorem address_eq_number_iff (s : Core w c) (z : Int) :
    ((s.address z).setWidth 32).toNat = s.number z 0 ↔ s.number z 0 < 256 := by
  obtain ⟨v, haddr, hv⟩ := address_of_number s z
  rw [toNat_address_setWidth, haddr]
  constructor
  · intro h
    have hlt := toNat_singleBlock_lt (swapBytes v)
    have heq : singleBlock (swapBytes v) = v := BitVec.eq_of_toNat_eq (by omega)
    have h256 := (singleBlock_swapBytes_iff v).mp heq
    omega
  · intro h
    rw [(singleBlock_swapBytes_iff v).mpr (by omega)]
    omega

theorem address_succ_ne_number (s : Core w c) (z : Int) :
    ((s.address z).setWidth 32 + 1).toNat ≠ s.number z 0 := by
  obtain ⟨v, haddr, hv⟩ := address_of_number s z
  have hlt := toNat_singleBlock_lt (swapBytes v)
  have hne := toNat_singleBlock_succ_ne v
  have hone : (1 : BitVec 32).toNat = 1 := rfl
  rw [BitVec.toNat_add, toNat_address_setWidth, haddr, hone, Nat.mod_eq_of_lt (by omega)]
  omega

namespace Qemu

theorem jump_step {E : Engine 64 64} {q q' : Qemu} (hs : q.Sound) (hz : SpAt q.env z)
    (hcode : (current limits q).insn = 0x56) (hstep : step E limits q = .ok () q') :
    q.env.Drops q'.env z 1 ∧ q'.address limits =
      if q.rest limits = [] ∧ q.isPcConstChanged = true then
        (q.env.address z).setWidth 32 + if (current limits q).addsPc then 1 else 0
      else q.address limits + 1 := by
  have haddr := hs.address_step hz hstep
  obtain ⟨pw, t, hdecode, rfl⟩ := step_eq_ok.mp hstep
  rw [hcode, mainDecode_of_listed E _ (I := .mem true 6) (by decide) (by decide)] at hdecode
  obtain ⟨rfl, hdrops⟩ := jump_exec hz hdecode
  constructor
  · obtain ⟨pc, hpc⟩ := env_finish (current limits q) (q.rest limits)
      (.withinInst ((q.env.address z).setWidth 32)) { enterBlock limits q with env := t }
    rw [hpc]
    exact hdrops.of_pc pc
  · rw [haddr, pc_finish, enterBlock_isPcConstChanged, hcode]
    have hshift : BitVec.ofNat 32 (getPpdlShiftPc 0x56) = 1 := by decide
    by_cases hrest : q.rest limits = []
    · have hone : (enterBlock limits q).block = [current limits q] := by rw [block_eq, hrest]
      have hend := hs.blockEnd_eq hone
      rw [hcode, hshift] at hend
      cases hflag : q.isPcConstChanged with
      | false => simp [hrest, marks, hend]
      | true => simp [hrest, marks, written]
    · simp only [hrest, if_false, false_and, hshift]

/-- All reached states have sound translations. -/
theorem sound_run (hrun : Run (step (qemu argList W) limits) (reset text limit) hist q) :
    q.Sound := by
  induction hrun with
  | start => exact .reset text limit
  | step hrun hstep ih =>
    obtain ⟨z, hz⟩ := (Started.qemu argList W limits limit text).bounded hrun
    exact ih.step hz.spAt hstep

end Qemu

theorem Evm.jump_step {E : Engine 32 8} {d d' : Evm} (hz : SpAt d.core z)
    (hcode : Evm.code E d = 0x56) (hstep : Evm.clock E d = .ok () d') :
    d.core.Drops d'.core z 1 ∧ d'.core.pc = (d.core.address z).setWidth 32 := by
  rw [Evm.clock_eq, Outcome.into_eq_ok] at hstep
  obtain ⟨pw, t, hdecode, rfl⟩ := hstep
  rw [hcode, mainDecode_of_listed E _ (I := .mem true 6) (by decide) (by decide)] at hdecode
  obtain ⟨rfl, hdrops⟩ := jump_exec hz hdecode
  exact ⟨hdrops.of_pc _, rfl⟩

/-- JUMP takes the top element. The interpreter goes on at its number for one-byte numbers only.
Translated code does so only where the block ends after a PUSH and no increment is appended;
everywhere else the instruction behind JUMP is next. -/
theorem jump_law_iff (z : Int) :
    (∀ (W : World 32 8) (d d' : Evm), SpAt d.core z → Evm.code (cemu W) d = 0x56 →
      Evm.clock (cemu W) d = .ok () d' →
      ((d.core.Drops d'.core z 1 ∧ d'.core.pc.toNat = d.core.number z 0) ↔
        d.core.number z 0 < 256)) ∧
    (∀ (argList : Nat → Core 64 64 → Word → Word) (W : World 64 64) (limits : Nat → Nat)
      (limit : Word) (text : List Char) (hist : List Qemu) (q q' : Qemu),
      Run (Qemu.step (qemu argList W) limits) (Qemu.reset text limit) hist q → SpAt q.env z →
      (Qemu.current limits q).insn = 0x56 → Qemu.step (qemu argList W) limits q = .ok () q' →
      ((q.env.Drops q'.env z 1 ∧ (q'.address limits).toNat = q.env.number z 0) ↔
        if q.rest limits = [] ∧ q.isPcConstChanged = true then
          (Qemu.current limits q).addsPc = false ∧ q.env.number z 0 < 256
        else q.env.number z 0 = (q.address limits + 1).toNat)) := by
  constructor
  · intro W d d' hz hcode hstep
    obtain ⟨hdrops, hpc⟩ := Evm.jump_step hz hcode hstep
    rw [hpc, address_eq_number_iff]
    exact and_iff_right hdrops
  · intro argList W limits limit text hist q q' hrun hz hcode hstep
    obtain ⟨hdrops, haddr⟩ := Qemu.jump_step (Qemu.sound_run hrun) hz hcode hstep
    rw [and_iff_right hdrops, haddr]
    split
    · cases (Qemu.current limits q).addsPc with
      | false => simpa using address_eq_number_iff q.env z
      | true => simpa using address_succ_ne_number q.env z
    · exact eq_comm

/-- PUSH1 3; JUMP; JUMPDEST. -/
def jumpThree : Evm := (Evm.init 1000).loadElf "6003565b".toList

theorem jump_law_three :
    ∃ d d' : Evm, Evm.clock (cemu .zero) d = .ok () d' ∧ d.core.number 3 0 = 3 ∧
      d.core.Drops d'.core 3 1 ∧ d'.core.pc.toNat = d.core.number 3 0 := by
  have hfacts : (iterate (Evm.clock (cemu .zero)) 2 jumpThree).isOk = true ∧
      (after (Evm.clock (cemu .zero)) jumpThree 1).core.sp = BitVec.ofInt 32 3 ∧
      Evm.code (cemu .zero) (after (Evm.clock (cemu .zero)) jumpThree 1) = 0x56 ∧
      (after (Evm.clock (cemu .zero)) jumpThree 1).core.number 3 0 = 3 := by
    decide +kernel
  obtain ⟨hok, hsp, hcode, hnumber⟩ := hfacts
  have hstep := step_after hok
  generalize after (Evm.clock (cemu .zero)) jumpThree 1 = d at *
  have hlaw := (jump_law_iff 3).1 .zero d _ ⟨hsp, by decide, by decide⟩ hcode hstep
  exact ⟨d, _, hstep, hnumber, hlaw.mpr (by omega)⟩

/-- PUSH1 4; JUMP; JUMPDEST; JUMPDEST. -/
def jumpFour : Qemu := Qemu.reset "6004565b5b".toList 1000

/-- In translated code JUMP to 4 is followed by the instruction at 3. -/
theorem jump_goes_on : ∃ hist q q', Run (Qemu.step zeroQemu nineEach) jumpFour hist q ∧
    (Qemu.current nineEach q).insn = 0x56 ∧ Qemu.step zeroQemu nineEach q = .ok () q' ∧
    q.env.number 3 0 = 4 ∧ q'.address nineEach = 3 := by
  have hfacts : (iterate (Qemu.step zeroQemu nineEach) 2 jumpFour).isOk = true ∧
      (Qemu.current nineEach (after (Qemu.step zeroQemu nineEach) jumpFour 1)).insn = 0x56 ∧
      (after (Qemu.step zeroQemu nineEach) jumpFour 1).env.number 3 0 = 4 ∧
      (after (Qemu.step zeroQemu nineEach) jumpFour 2).address nineEach = 3 := by
    decide +kernel
  obtain ⟨hok, hcode, hnumber, haddr⟩ := hfacts
  exact ⟨_, _, _, Run.of_isOk (isOk_of_succ hok), hcode, step_after hok, hnumber, haddr⟩

end GvmCore
