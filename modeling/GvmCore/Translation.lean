import GvmCore.Runs

namespace GvmCore
open Exec
set_option autoImplicit true

/-- What the translation loop can make of the code from `pc` on: the instructions, their end and the
value of `changed_pc` then. A block that does not reach the end of the code may stop anywhere. -/
inductive Translated (prog : BitVec 32 → BitVec 8) (endPc page : Nat) :
    Bool → Nat → List TbInsn → Nat → Bool → Prop
  | stop (hi : prog (BitVec.ofNat 32 pc) = insn) (he : pc + getPpdlShiftPc insn = endPc) :
      Translated prog endPc page changed pc [⟨insn, false⟩] (pc + getPpdlShiftPc insn)
        (changed || isPush insn)
  | last (hi : prog (BitVec.ofNat 32 pc) = insn) (he : pc + getPpdlShiftPc insn ≠ endPc) :
      Translated prog endPc page changed pc [⟨insn, !(changed || isPush insn)⟩]
        (pc + getPpdlShiftPc insn) false
  | more (hi : prog (BitVec.ofNat 32 pc) = insn) (he : pc + getPpdlShiftPc insn ≠ endPc)
      (hp : pc + getPpdlShiftPc insn < page)
      (h : Translated prog endPc page false (pc + getPpdlShiftPc insn) insns pcEnd changed') :
      Translated prog endPc page changed pc
        (⟨insn, !(changed || isPush insn)⟩ :: insns) pcEnd changed'

theorem genInsns_translated (prog : BitVec 32 → BitVec 8) (endPc page limit pc : Nat)
    (changed : Bool) :
    Translated prog endPc page changed pc (genInsns prog endPc page limit pc changed).1
      (genInsns prog endPc page limit pc changed).2.1
      (genInsns prog endPc page limit pc changed).2.2 := by
  induction limit generalizing pc changed with
  | zero =>
    rw [genInsns]
    split
    · rename_i he
      exact .stop rfl he
    · rename_i he
      exact .last rfl he
  | succ limit ih =>
    rw [genInsns]
    dsimp only
    split
    · rename_i he
      exact .stop rfl he
    · rename_i he
      split
      · rename_i hp
        exact .more rfl he hp (ih _ _)
      · exact .last rfl he

def shifts (insns : List TbInsn) : Nat := (insns.map fun i => getPpdlShiftPc i.insn).sum

namespace Translated

theorem pcEnd_eq (h : Translated prog endPc page changed pc insns pcEnd changed') :
    pcEnd = pc + shifts insns := by
  induction h with
  | stop | last => simp [shifts]
  | more hi he hp h ih =>
    rw [ih]
    simp only [shifts, List.map_cons, List.sum_cons]
    omega

theorem pcEnd_of_changed (h : Translated prog endPc page changed pc insns pcEnd true) :
    pcEnd = endPc := by
  generalize hc : true = changed' at h
  induction h with
  | stop hi he => exact he
  | last => cases hc
  | more hi he hp h ih => exact ih hc

/-- The first instruction of translated code, and what follows it. The increment of `pc` is left out
after PUSH and at the end of the code. -/
theorem head (h : Translated prog endPc page changed pc (i :: rest) pcEnd changed') :
    i.insn = prog (BitVec.ofNat 32 pc) ∧
      (i.addsPc = true ↔ changed = false ∧ isPush i.insn = false ∧ ¬ (rest = [] ∧ pcEnd = endPc)) ∧
      (rest = [] → pcEnd = pc + getPpdlShiftPc i.insn) ∧
      (rest ≠ [] → pc + getPpdlShiftPc i.insn < page ∧
        Translated prog endPc page false (pc + getPpdlShiftPc i.insn) rest pcEnd changed') := by
  cases h with
  | stop hi he => exact ⟨hi.symm, by simp [he], fun _ => rfl, fun h => absurd rfl h⟩
  | last hi he => exact ⟨hi.symm, by simp [he], fun _ => rfl, fun h => absurd rfl h⟩
  | more hi he hp h =>
    have hrest : rest ≠ [] := by
      cases h <;> exact List.cons_ne_nil _ _
    exact ⟨hi.symm, by simp [hrest], fun h0 => absurd h0 hrest, fun _ => ⟨hp, h⟩⟩

end Translated

namespace Qemu

/-- The address of the instruction that runs next. -/
def address (limits : Nat → Nat) (q : Qemu) : BitVec 32 :=
  BitVec.ofNat 32 ((enterBlock limits q).blockEnd - shifts (enterBlock limits q).block)

/-- A piece of translated code with the address of its first instruction. -/
def CodeAt (q : Qemu) (pc : Nat) (insns : List TbInsn) (pcEnd : Nat) : Prop :=
  pc < 2 ^ 32 ∧ ∃ page changed changed', page ≤ 2 ^ 32 ∧
    Translated q.env.prog q.env.elfSize.toNat page changed pc insns pcEnd changed'

/-- All translated code belongs to the addresses it is looked up by. -/
structure Sound (q : Qemu) : Prop where
  block : q.block ≠ [] → ∃ pc, q.CodeAt pc q.block q.blockEnd
  tbs : ∀ p tb, (p, tb) ∈ q.tbs → q.CodeAt p.toNat tb.insns tb.pcEnd

theorem genIntermediateCode_translated (q : Qemu) (limit : Nat) : ∃ page ≤ 2 ^ 32,
    Translated q.env.prog q.env.elfSize.toNat page q.changedPc q.env.pc.toNat
      (q.genIntermediateCode limit).1.insns (q.genIntermediateCode limit).1.pcEnd
      (q.genIntermediateCode limit).2 := by
  have hpc := q.env.pc.isLt
  refine ⟨_, ?_, genInsns_translated _ _ _ limit _ q.changedPc⟩
  simp only [targetPageSize]
  omega

theorem genIntermediateCode_codeAt (q : Qemu) (limit : Nat) :
    q.CodeAt q.env.pc.toNat (q.genIntermediateCode limit).1.insns
      (q.genIntermediateCode limit).1.pcEnd := by
  obtain ⟨page, hpage, ht⟩ := q.genIntermediateCode_translated limit
  exact ⟨q.env.pc.isLt, page, _, _, hpage, ht⟩

/-- The block that runs next, and what is known of it. -/
theorem Sound.enterBlock {q : Qemu} (h : q.Sound) (limits : Nat → Nat) :
    (enterBlock limits q).Sound ∧ ∃ pc, (Qemu.enterBlock limits q).CodeAt pc
      (Qemu.enterBlock limits q).block (Qemu.enterBlock limits q).blockEnd ∧
      (q.block = [] → pc = q.env.pc.toNat) := by
  unfold Qemu.enterBlock
  split
  · rename_i i rest hb
    obtain ⟨pc, hpc⟩ := h.block (by rw [hb]; exact List.cons_ne_nil _ _)
    exact ⟨h, pc, hpc, fun h0 => absurd (hb.symm.trans h0) (List.cons_ne_nil _ _)⟩
  · split
    · rename_i tb hlookup
      obtain ⟨l, l', htbs, -⟩ := List.lookup_eq_some_iff.mp hlookup
      have hcode := h.tbs q.env.pc tb (by rw [htbs]; simp)
      exact ⟨⟨fun _ => ⟨_, hcode⟩, h.tbs⟩, _, hcode, fun _ => rfl⟩
    · have hcode := q.genIntermediateCode_codeAt (limits q.tbs.length)
      refine ⟨⟨fun _ => ⟨_, hcode⟩, ?_⟩, _, hcode, fun _ => rfl⟩
      intro p tb hmem
      rcases List.mem_cons.mp hmem with heq | hmem
      · cases heq
        exact hcode
      · exact h.tbs p tb hmem

theorem address_of_codeAt (h : (enterBlock limits q).CodeAt pc (enterBlock limits q).block
    (enterBlock limits q).blockEnd) : q.address limits = BitVec.ofNat 32 pc := by
  obtain ⟨-, page, changed, changed', -, ht⟩ := h
  rw [address, ht.pcEnd_eq, Nat.add_sub_cancel]

theorem Sound.address_of_nil {q : Qemu} (h : q.Sound) (limits : Nat → Nat) (hb : q.block = []) :
    q.address limits = q.env.pc := by
  obtain ⟨-, pc, hcode, hpc⟩ := h.enterBlock limits
  rw [address_of_codeAt hcode, hpc hb, BitVec.ofNat_toNat, BitVec.setWidth_eq]

theorem Sound.blockEnd_eq {q : Qemu} (h : q.Sound)
    (hrest : (Qemu.enterBlock limits q).block = [i]) :
    BitVec.ofNat 32 (Qemu.enterBlock limits q).blockEnd =
      q.address limits + BitVec.ofNat 32 (getPpdlShiftPc i.insn) := by
  obtain ⟨-, pc, hcode, -⟩ := h.enterBlock limits
  have haddr := address_of_codeAt hcode
  obtain ⟨-, page, changed, changed', -, ht⟩ := hcode
  rw [haddr, ht.pcEnd_eq, hrest, ← BitVec.ofNat_add]
  rfl

theorem enterBlock_isPcConstChanged (limits : Nat → Nat) (q : Qemu) :
    (Qemu.enterBlock limits q).isPcConstChanged = q.isPcConstChanged := by
  unfold Qemu.enterBlock
  split
  · rfl
  · split <;> rfl

/-- What an instruction leaves of its block. -/
structure Left (q q' : Qemu) (rest : List TbInsn) : Prop where
  block : q'.block = rest
  blockEnd : q'.blockEnd = q.blockEnd
  changedPc : q'.changedPc = q.changedPc
  tbs : q'.tbs = q.tbs

theorem left_finish (i : TbInsn) (rest : List TbInsn) (pw : PcWrite) (q : Qemu) :
    Left q (finish i rest pw q) rest := by
  have hwrote : ∀ q : Qemu, (wrote i pw q).blockEnd = q.blockEnd ∧
      (wrote i pw q).changedPc = q.changedPc ∧ (wrote i pw q).tbs = q.tbs := by
    intro q
    unfold wrote
    cases pw <;> split <;> exact ⟨rfl, rfl, rfl⟩
  obtain ⟨h1, h2, h3⟩ := hwrote q
  unfold finish
  dsimp only
  split
  · exact ⟨rfl, h1, h2, h3⟩
  · exact ⟨rfl, h1, h2, h3⟩

/-- What a `pc` write leaves in `pc`. -/
def written (pc : BitVec 32) : PcWrite → BitVec 32
  | .none => pc
  | .constChanged pc => pc
  | .withinInst pc => pc

/-- Whether a `pc` write sets `is_pc_const_changed`. -/
def marks : PcWrite → Bool
  | .constChanged _ => true
  | _ => false

theorem pc_wrote (i : TbInsn) (pw : PcWrite) (q : Qemu) :
    (wrote i pw q).env.pc = written q.env.pc pw + if i.addsPc then 1 else 0 := by
  unfold wrote
  cases pw <;> split <;> simp [writePc, addPc, written]

theorem isPcConstChanged_wrote (i : TbInsn) (pw : PcWrite) (q : Qemu) :
    (wrote i pw q).isPcConstChanged = (q.isPcConstChanged || marks pw) := by
  unfold wrote
  cases pw <;> split <;> simp [writePc, addPc, marks]

theorem blockEnd_wrote (i : TbInsn) (pw : PcWrite) (q : Qemu) :
    (wrote i pw q).blockEnd = q.blockEnd := by
  unfold wrote
  cases pw <;> split <;> rfl

/-- `pc` after an instruction: at the end of a block it is set, unless a PUSH of the block has. -/
theorem pc_finish (i : TbInsn) (rest : List TbInsn) (pw : PcWrite) (q : Qemu) :
    (finish i rest pw q).env.pc =
      if rest = [] ∧ (q.isPcConstChanged || marks pw) = false then BitVec.ofNat 32 q.blockEnd
      else written q.env.pc pw + if i.addsPc then 1 else 0 := by
  have hflag := isPcConstChanged_wrote i pw q
  rw [← pc_wrote, ← hflag, ← blockEnd_wrote i pw q]
  unfold finish
  by_cases hrest : rest = []
  · simp only [hrest, if_true, true_and, leaveBlock]
    cases (wrote i pw q).isPcConstChanged <;> rfl
  · simp only [hrest, if_false, false_and]

theorem CodeAt.congr {q q' : Qemu} (h : q.CodeAt pc insns pcEnd) (hprog : q'.env.prog = q.env.prog)
    (hsize : q'.env.elfSize = q.env.elfSize) : q'.CodeAt pc insns pcEnd := by
  unfold CodeAt
  rw [hprog, hsize]
  exact h

theorem CodeAt.tail {q : Qemu} (h : q.CodeAt pc (i :: rest) pcEnd) (hrest : rest ≠ []) :
    q.CodeAt (pc + getPpdlShiftPc i.insn) rest pcEnd := by
  obtain ⟨-, page, changed, changed', hpage, ht⟩ := h
  obtain ⟨hp, ht⟩ := ht.head.2.2.2 hrest
  exact ⟨hp.trans_le hpage, page, false, changed', hpage, ht⟩

def rest (limits : Nat → Nat) (q : Qemu) : List TbInsn := (enterBlock limits q).block.tail

theorem block_eq (limits : Nat → Nat) (q : Qemu) :
    (enterBlock limits q).block = current limits q :: q.rest limits :=
  (List.cons_head_tail _).symm

section Step

variable {E : Engine 64 64} {limits : Nat → Nat} {q q' : Qemu}

theorem step_eq_ok : step E limits q = .ok u q' ↔ ∃ pw t,
    mainDecode E (current limits q).insn q.env = .ok pw t ∧
      finish (current limits q) (q.rest limits) pw { enterBlock limits q with env := t } = q' := by
  rw [step_eq, Outcome.into_eq_ok]
  rfl

theorem step_prog (hz : SpAt q.env z) (hstep : step E limits q = .ok u q') :
    q'.env.prog = q.env.prog ∧ q'.env.elfSize = q.env.elfSize := by
  obtain ⟨t, pc, hf, hcore⟩ := Driver.step_facts (D := driver E limits) hz hstep
  exact ⟨(congrArg Core.prog hcore).trans hf.prog, (congrArg Core.elfSize hcore).trans hf.elfSize⟩

theorem step_left (hstep : step E limits q = .ok u q') :
    Left (enterBlock limits q) q' (q.rest limits) := by
  obtain ⟨pw, t, -, rfl⟩ := step_eq_ok.mp hstep
  obtain ⟨h1, h2, h3, h4⟩ := left_finish (current limits q) (q.rest limits) pw
    { enterBlock limits q with env := t }
  exact ⟨h1, h2, h3, h4⟩

theorem Sound.codeAt_rest (h : q.Sound) (hz : SpAt q.env z) (hstep : step E limits q = .ok u q') :
    ∃ pc, q.address limits = BitVec.ofNat 32 pc ∧ (q.rest limits ≠ [] →
      q'.CodeAt (pc + getPpdlShiftPc (current limits q).insn) q'.block q'.blockEnd) := by
  obtain ⟨hs, pc, hcode, -⟩ := h.enterBlock limits
  obtain ⟨hprog, hsize⟩ := step_prog hz hstep
  have hleft := step_left hstep
  refine ⟨pc, address_of_codeAt hcode, ?_⟩
  intro hrest
  rw [hleft.block, hleft.blockEnd]
  rw [block_eq] at hcode
  apply (hcode.tail hrest).congr
  · rw [hprog, enterBlock_env]
  · rw [hsize, enterBlock_env]

theorem Sound.step (h : q.Sound) (hz : SpAt q.env z) (hstep : Qemu.step E limits q = .ok u q') :
    q'.Sound := by
  obtain ⟨pc, -, hrest⟩ := h.codeAt_rest hz hstep
  obtain ⟨hprog, hsize⟩ := step_prog hz hstep
  have hleft := step_left hstep
  constructor
  · intro hb
    rw [hleft.block] at hb
    exact ⟨_, hrest hb⟩
  · intro p tb hmem
    rw [hleft.tbs] at hmem
    apply ((h.enterBlock limits).1.tbs p tb hmem).congr
    · rw [hprog, enterBlock_env]
    · rw [hsize, enterBlock_env]

/-- The instruction that runs after another one: the next of the block, or the one at `pc`. -/
theorem Sound.address_step (h : q.Sound) (hz : SpAt q.env z)
    (hstep : Qemu.step E limits q = .ok u q') :
    q'.address limits = if q.rest limits = [] then q'.env.pc
      else q.address limits + BitVec.ofNat 32 (getPpdlShiftPc (current limits q).insn) := by
  have hleft := step_left hstep
  by_cases hrest : q.rest limits = []
  · rw [if_pos hrest]
    apply (h.step hz hstep).address_of_nil
    rw [hleft.block, hrest]
  · obtain ⟨pc, haddr, hcode⟩ := h.codeAt_rest hz hstep
    have hblock : q'.block ≠ [] := by
      rw [hleft.block]
      exact hrest
    have hcode' := hcode hrest
    rw [← enterBlock_of_ne_nil limits hblock] at hcode'
    rw [if_neg hrest, haddr, address_of_codeAt hcode', BitVec.ofNat_add]

theorem Sound.reset (text : List Char) (gas : Word) : (reset text gas).Sound :=
  ⟨fun h => absurd rfl h, fun p tb h => by cases h⟩

end Step

end Qemu

def zeroQemu : Engine 64 64 := qemu (fun _ _ _ => 0) .zero

def nineEach : Nat → Nat := fun _ => 8

end GvmCore
