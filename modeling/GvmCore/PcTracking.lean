import GvmCore.JumpLaw
import GvmCore.PushLaw

namespace GvmCore
open Exec
set_option autoImplicit true

/-- The address of the `k`-th instruction of a program without jumps. -/
def instrAddr (prog : BitVec 32 → BitVec 8) : Nat → Nat
  | 0 => 0
  | k + 1 => instrAddr prog k + getPpdlShiftPc (prog (BitVec.ofNat 32 (instrAddr prog k)))

theorem getPpdlShiftPc_pos (insn : BitVec 8) : 0 < getPpdlShiftPc insn := by
  unfold getPpdlShiftPc
  split <;> omega

theorem decode_of_isPush : ∀ insn, isPush insn = true →
    Insn.decode insn = .push (insn &&& 0x1f).toNat ∧ Listed insn := by
  decide +kernel

theorem decode_ne_push (h : isPush insn = false) (n : Nat) : Insn.decode insn ≠ .push n := by
  have hall : ∀ b : BitVec 8, isPush b = false → ∀ n < 32, Insn.decode b ≠ .push n := by
    decide +kernel
  intro hd
  have hrange := Insn.decode_inRange insn
  rw [hd] at hrange
  exact hall insn h n hrange hd

theorem resolve_ne_push (E : Engine w c) (s : Core w c) (h : isPush insn = false) (n : Nat) :
    E.resolve s insn ≠ .push n := by
  have hd := decode_ne_push h n
  unfold Engine.resolve Insn.decode at *
  generalize getInstNum insn = k at *
  match k with
  | 11 | 12 | 13 => simp
  | 0 | 1 | 2 | 3 | 4 | 5 | 6 | 7 | 8 | 9 | 10 => exact hd
  | k + 14 => exact hd

theorem memWrite_of_ne (addrVal : Word) (h : op ≠ 6) : memWrite addrVal op = .none := by
  unfold memWrite
  split
  · exact absurd rfl h
  · rfl

theorem write_of_exec {E : Engine w c} {s t : Core w c} (hz : SpAt s z)
    (hjump : ∀ takesAddr, E.resolve s insn ≠ .mem takesAddr 6)
    (h : (E.resolve s insn).exec E s = .ok pw t) :
    pw = if isPush insn then .constChanged (s.pc + BitVec.ofNat 32 (getPpdlShiftPc insn))
      else .none := by
  obtain ⟨-, -, s', hpay, -, -, rfl, -⟩ := (Insn.exec_eq_ok E (E.resolve_inRange s insn) hz).mp h
  have hpc : s'.pc = s.pc := by
    rw [(Insn.pay_facts hpay).only.eq, Insn.entry_eq, Core.convertedTop_eq]
  cases hp : isPush insn with
  | true =>
    obtain ⟨hd, hl⟩ := decode_of_isPush insn hp
    rw [resolve_of_listed E s hl, hd]
    simp only [Insn.write, hpc, getPpdlShiftPc, hp, if_true]
  | false =>
    have hpush := resolve_ne_push E s hp
    generalize E.resolve s insn = I at hjump hpush
    cases I with
    | push count => exact absurd rfl (hpush count)
    | mem takesAddr op =>
      exact memWrite_of_ne _ fun hop => hjump takesAddr (congrArg _ hop)
    | _ => rfl

namespace Qemu

theorem written_of_exec {E : Engine 64 64} {s t : Core 64 64} (hz : SpAt s z)
    (hjump : ∀ takesAddr, E.resolve s insn ≠ .mem takesAddr 6)
    (h : (E.resolve s insn).exec E s = .ok pw t) :
    written s.pc pw = (if isPush insn then s.pc + BitVec.ofNat 32 (getPpdlShiftPc insn) else s.pc) ∧
      marks pw = isPush insn := by
  rw [write_of_exec hz hjump h]
  cases isPush insn <;> exact ⟨rfl, rfl⟩

/-- Translated code of a program with `size` bytes whose first instruction is at `a`, with the
`changed_pc` the translator goes on with. -/
def Follows (prog : BitVec 32 → BitVec 8) (size a : Nat) (insns : List TbInsn)
    (pcEnd : Nat) : Prop :=
  ∃ page changed', page ≤ 2 ^ 32 ∧ Translated prog size page false a insns pcEnd changed'

/-- The next instruction is the one at `a`, and `pc` says so. -/
structure Tracked (prog : BitVec 32 → BitVec 8) (size : Nat) (q : Qemu) (a : Nat) : Prop where
  prog_eq : q.env.prog = prog
  size_eq : q.env.elfSize.toNat = size
  pc : q.env.pc = BitVec.ofNat 32 a
  block : q.block ≠ [] → Follows prog size a q.block q.blockEnd ∧
    (q.changedPc = true → q.blockEnd = size)
  between : q.block = [] → q.changedPc = true → size ≤ a
  tbs : ∀ p tb, (p, tb) ∈ q.tbs → Follows prog size p.toNat tb.insns tb.pcEnd

theorem Tracked.enterBlock {q : Qemu} (h : Tracked prog size q a) (ha : a < size)
    (hs : size < 2 ^ 32)
    (limits : Nat → Nat) :
    Follows prog size a (enterBlock limits q).block (Qemu.enterBlock limits q).blockEnd ∧
      ((Qemu.enterBlock limits q).changedPc = true → (Qemu.enterBlock limits q).blockEnd = size) ∧
      ∀ p tb, (p, tb) ∈ (Qemu.enterBlock limits q).tbs →
      Follows prog size p.toNat tb.insns tb.pcEnd := by
  have hpc : q.env.pc.toNat = a := by
    rw [h.pc, BitVec.toNat_ofNat]
    exact Nat.mod_eq_of_lt (by omega)
  unfold Qemu.enterBlock
  split
  · rename_i i rest hb
    obtain ⟨hfollows, hchanged⟩ := h.block (by rw [hb]; exact List.cons_ne_nil _ _)
    exact ⟨hfollows, hchanged, h.tbs⟩
  · rename_i hb
    have hfalse : q.changedPc = false := by
      rw [Bool.eq_false_iff]
      intro hc
      have := h.between hb hc
      omega
    split
    · rename_i tb hlookup
      obtain ⟨l, l', htbs, -⟩ := List.lookup_eq_some_iff.mp hlookup
      have hfollows := h.tbs q.env.pc tb (by rw [htbs]; simp)
      rw [hpc] at hfollows
      refine ⟨hfollows, fun hc => ?_, h.tbs⟩
      cases hfalse.symm.trans hc
    · obtain ⟨page, hpage, ht⟩ := q.genIntermediateCode_translated (limits q.tbs.length)
      rw [h.prog_eq, h.size_eq, hpc, hfalse] at ht
      refine ⟨⟨page, _, hpage, ht⟩, ?_, ?_⟩
      · intro hc
        have hchanged : (q.genIntermediateCode (limits q.tbs.length)).2 = true := hc
        rw [hchanged] at ht
        exact ht.pcEnd_of_changed
      · intro p tb hmem
        rcases List.mem_cons.mp hmem with heq | hmem
        · cases heq
          rw [hpc]
          exact ⟨page, _, hpage, ht⟩
        · exact h.tbs p tb hmem

/-- The instruction runs again: it ends the code, is no PUSH, and a PUSH of its block has marked
`pc` as changed. -/
def RunsAgain (limits : Nat → Nat) (q : Qemu) : Prop :=
  q.rest limits = [] ∧ (Qemu.enterBlock limits q).blockEnd = q.env.elfSize.toNat ∧
    isPush (current limits q).insn = false ∧ q.isPcConstChanged = true

instance (limits : Nat → Nat) (q : Qemu) : Decidable (q.RunsAgain limits) :=
  inferInstanceAs (Decidable (_ ∧ _ ∧ _ ∧ _))

section Step

variable {E : Engine 64 64} {limits : Nat → Nat} {q q' : Qemu}

/-- `pc` moves on by the length of the instruction unless it runs again. -/
theorem Tracked.pc_step (h : Tracked prog size q a) (ha : a < size) (hs : size < 2 ^ 32)
    (hz : SpAt q.env z)
    (hjump : ∀ takesAddr, E.resolve q.env (current limits q).insn ≠ .mem takesAddr 6)
    (hstep : step E limits q = .ok () q') :
    (q.RunsAgain limits → q'.env.pc = BitVec.ofNat 32 a) ∧
      (¬ q.RunsAgain limits →
        q'.env.pc = BitVec.ofNat 32 (a + getPpdlShiftPc (current limits q).insn)) := by
  obtain ⟨⟨page, changed', hpage, ht⟩, -, -⟩ := h.enterBlock ha hs limits
  rw [block_eq] at ht
  obtain ⟨hi, hadds, hend, -⟩ := ht.head
  obtain ⟨pw, t, hdecode, rfl⟩ := step_eq_ok.mp hstep
  rw [mainDecode_eq] at hdecode
  obtain ⟨hwritten, hmarks⟩ := written_of_exec hz hjump hdecode
  have hpc : t.pc = q.env.pc := (Insn.exec_facts E (E.resolve_inRange _ _) hz hdecode).pc
  have hnext : BitVec.ofNat 32 (a + getPpdlShiftPc (current limits q).insn) =
      q.env.pc + BitVec.ofNat 32 (getPpdlShiftPc (current limits q).insn) := by
    rw [BitVec.ofNat_add, h.pc]
  rw [pc_finish, enterBlock_isPcConstChanged, hpc, hwritten, hmarks, hnext, ← h.pc]
  unfold RunsAgain
  rw [h.size_eq]
  cases hpush : isPush (current limits q).insn with
  | true =>
    have hno : (current limits q).addsPc = false := by
      rw [Bool.eq_false_iff, ne_eq, hadds, hpush]
      simp
    simp [hno]
  | false =>
    have hone : getPpdlShiftPc (current limits q).insn = 1 := by simp [getPpdlShiftPc, hpush]
    by_cases hrest : q.rest limits = []
    · cases hflag : q.isPcConstChanged with
      | false => simp [hrest, hend hrest, hnext]
      | true =>
        by_cases hlast : (Qemu.enterBlock limits q).blockEnd = size
        · have hno : (current limits q).addsPc = false := by
            rw [Bool.eq_false_iff, ne_eq, hadds]
            simp [hrest, hlast]
          simp [hrest, hlast, hno]
        · have hyes : (current limits q).addsPc = true := by
            rw [hadds]
            simp [hpush, hlast]
          simp [hrest, hlast, hyes, hone]
    · have hyes : (current limits q).addsPc = true := by
        rw [hadds]
        simp [hpush, hrest]
      simp [hrest, hyes, hone]

theorem Tracked.insn (h : Tracked prog size q a) (ha : a < size) (hs : size < 2 ^ 32) :
    (current limits q).insn = prog (BitVec.ofNat 32 a) := by
  obtain ⟨⟨page, changed', hpage, ht⟩, -, -⟩ := h.enterBlock ha hs limits
  rw [block_eq] at ht
  exact ht.head.1

theorem Tracked.step (h : Tracked prog size q a) (ha : a < size) (hs : size < 2 ^ 32)
    (hz : SpAt q.env z)
    (hjump : ∀ takesAddr, E.resolve q.env (current limits q).insn ≠ .mem takesAddr 6)
    (hagain : ¬ q.RunsAgain limits) (hstep : step E limits q = .ok () q') :
    Tracked prog size q' (a + getPpdlShiftPc (prog (BitVec.ofNat 32 a))) := by
  obtain ⟨⟨page, changed', hpage, ht⟩, hchanged, htbs⟩ := h.enterBlock ha hs limits
  have hpc := (h.pc_step ha hs hz hjump hstep).2 hagain
  have hleft := step_left hstep
  obtain ⟨hprog, hsize⟩ := step_prog hz hstep
  rw [block_eq] at ht
  obtain ⟨hi, -, hend, hrest⟩ := ht.head
  rw [hi] at hpc hend hrest
  constructor
  · exact hprog.trans h.prog_eq
  · rw [hsize]
    exact h.size_eq
  · exact hpc
  · intro hb
    rw [hleft.block] at hb ⊢
    rw [hleft.blockEnd, hleft.changedPc]
    exact ⟨⟨page, changed', hpage, (hrest hb).2⟩, hchanged⟩
  · intro hb hc
    rw [hleft.block] at hb
    rw [hleft.changedPc] at hc
    rw [← hend hb, hchanged hc]
  · intro p tb hmem
    rw [hleft.tbs] at hmem
    exact htbs p tb hmem

end Step

/-- The next instruction is the one at `a`: `cpu_pc` is its own address, PC pushes it, and PUSH
reads the bytes behind it. -/
structure RunsAt (E : Engine 64 64) (limits : Nat → Nat) (q : Qemu) (a : Nat) : Prop where
  address : q.address limits = BitVec.ofNat 32 a
  pc : q.env.pc = BitVec.ofNat 32 a
  pcOp : ∀ z q', SpAt q.env z → (current limits q).insn = 0x58 → Qemu.step E limits q = .ok () q' →
    q.env.Pushes q'.env z (BitVec.ofNat 32 a).toNat
  immediate : ∀ n, immediate E q.env n =
    (List.range n).map fun i => E.fetch q.env.prog (BitVec.ofNat 32 (a + 1 + i))

theorem pcOp_step {E : Engine 64 64} {q q' : Qemu} (hz : SpAt q.env z)
    (hcode : (current limits q).insn = 0x58) (hstep : step E limits q = .ok () q') :
    q.env.Pushes q'.env z q.env.pc.toNat := by
  obtain ⟨pw, t, hdecode, rfl⟩ := step_eq_ok.mp hstep
  rw [hcode, mainDecode_of_listed E _ (I := .mem false 8) (by decide) (by decide)] at hdecode
  obtain ⟨pc, hpc⟩ :=
    env_finish (current limits q) (q.rest limits) pw { enterBlock limits q with env := t }
  rw [hpc]
  apply Core.Pushes.of_pc
  obtain ⟨-, -, s', hpay, -, ⟨h1, h4⟩, -, rfl⟩ :=
    (Insn.exec_eq_ok E (I := .mem false 8) trivial hz).mp hdecode
  have honly := (Insn.pay_facts hpay).only
  apply (Core.pushes_pushed_iff (fun i _ => honly.word i) h1 h4).mpr
  have hsame : s'.pc = q.env.pc := by
    rw [honly.eq]
    rfl
  rw [regValue_lowWord, hsame, BitVec.toNat_setWidth]
  exact Nat.mod_eq_of_lt (q.env.pc.isLt.trans (by decide))

theorem RunsAt.of_pc {E : Engine 64 64} {q : Qemu} (haddr : q.address limits = BitVec.ofNat 32 a)
    (hpc : q.env.pc = BitVec.ofNat 32 a) : RunsAt E limits q a := by
  refine ⟨haddr, hpc, ?_, ?_⟩
  · intro z q' hz hcode hstep
    rw [← hpc]
    exact pcOp_step hz hcode hstep
  · intro n
    unfold GvmCore.immediate
    apply List.map_congr_left
    intro i _
    rw [hpc, ← BitVec.ofNat_add]
    congr 2
    omega

theorem Tracked.address {q : Qemu} (h : Tracked prog size q a) (hs : q.Sound) :
    q.address limits = BitVec.ofNat 32 a := by
  by_cases hb : q.block = []
  · rw [hs.address_of_nil limits hb]
    exact h.pc
  · obtain ⟨⟨page, changed', -, ht⟩, -⟩ := h.block hb
    rw [Qemu.address, enterBlock_of_ne_nil limits hb, ht.pcEnd_eq, Nat.add_sub_cancel]

theorem Tracked.reset (text : List Char) (gas : Word) (hs : (romAddFile text).length < 2 ^ 32) :
    Tracked (Qemu.reset text gas).env.prog (romAddFile text).length (Qemu.reset text gas) 0 where
  prog_eq := rfl
  size_eq := by
    change (BitVec.ofNat 64 (romAddFile text).length).toNat = _
    rw [BitVec.toNat_ofNat]
    exact Nat.mod_eq_of_lt (by omega)
  pc := rfl
  block := fun hb => absurd rfl hb
  between := fun _ hc => by cases hc
  tbs := fun p tb hmem => by cases hmem

theorem Tracked.runsAt_step_iff {E : Engine 64 64} {q q' : Qemu} (h : Tracked prog size q a)
    (hsound : q.Sound) (ha : a < size) (hs : size < 2 ^ 32) (hz : SpAt q.env z)
    (hjump : ∀ takesAddr, E.resolve q.env (current limits q).insn ≠ .mem takesAddr 6)
    (hstep : Qemu.step E limits q = .ok () q') :
    RunsAt E limits q' (a + getPpdlShiftPc (prog (BitVec.ofNat 32 a))) ↔ ¬ q.RunsAgain limits := by
  constructor
  · intro hruns hagain
    have hpc := (h.pc_step ha hs hz hjump hstep).1 hagain
    have hpush := hagain.2.2.1
    rw [h.insn ha hs] at hpush
    rw [hruns.pc, getPpdlShiftPc, hpush, if_neg Bool.false_ne_true] at hpc
    have hnat := congrArg BitVec.toNat hpc
    rw [BitVec.toNat_ofNat, BitVec.toNat_ofNat] at hnat
    omega
  · intro hagain
    have htracked := h.step ha hs hz hjump hagain hstep
    exact .of_pc (htracked.address (hsound.step hz hstep)) htracked.pc

section Run

variable {text : List Char} (hsize : (romAddFile text).length < 2 ^ 32)
  (hrun : Run (Qemu.step (qemu argList W) limits) (Qemu.reset text limit) hist q)
  (hin : ∀ k < hist.length, instrAddr (Qemu.reset text limit).env.prog k < (romAddFile text).length)
  (hjump : ∀ x ∈ hist, ∀ takesAddr, (driver (qemu argList W) limits).insn x ≠ .mem takesAddr 6)

include hsize hrun hin hjump

theorem tracked_run (hagain : ∀ x ∈ hist, ¬ x.RunsAgain limits) :
    Tracked (Qemu.reset text limit).env.prog (romAddFile text).length q
      (instrAddr (Qemu.reset text limit).env.prog hist.length) := by
  induction hrun with
  | start => exact .reset text limit hsize
  | @step hist x q hrun hstep ih =>
    rw [List.forall_mem_cons] at hagain hjump
    have hx := ih (fun k hk => hin k (Nat.lt_succ_of_lt hk)) hjump.2 hagain.2
    obtain ⟨z, hz⟩ := (Started.qemu argList W limits limit text).bounded hrun
    exact hx.step (hin hist.length (Nat.lt_succ_self _)) hsize hz.spAt hjump.1 hagain.1 hstep

/-- The states of a run are at one instruction after another, up to the first address behind the
code, unless the last one runs again. -/
theorem runsAt_run_iff :
    (∀ q' hist', q' :: hist' <:+ q :: hist → RunsAt (qemu argList W) limits q'
      (instrAddr (Qemu.reset text limit).env.prog hist'.length)) ↔
    ∀ x ∈ hist, ¬ x.RunsAgain limits := by
  induction hrun with
  | start =>
    rw [forall_suffix_start]
    have htracked := Tracked.reset text limit hsize
    exact iff_of_true (.of_pc (htracked.address (.reset text limit)) htracked.pc) (by simp)
  | @step hist x q hrun hstep ih =>
    have hin' : ∀ k < hist.length,
        instrAddr (Qemu.reset text limit).env.prog k < (romAddFile text).length :=
      fun k hk => hin k (Nat.lt_succ_of_lt hk)
    rw [List.forall_mem_cons] at hjump
    rw [forall_suffix_cons, List.forall_mem_cons, ih hin' hjump.2]
    refine and_congr_left fun hagain => ?_
    obtain ⟨z, hz⟩ := (Started.qemu argList W limits limit text).bounded hrun
    exact (tracked_run hsize hrun hin' hjump.2 hagain).runsAt_step_iff (sound_run hrun)
      (hin hist.length (Nat.lt_succ_self _)) hsize hz.spAt hjump.1 hstep

end Run

/-- In a program without jumps the first `n` instructions run, one after another at their own
addresses, and what comes next is at the address behind them, exactly if each finds what it needs
and none runs again. -/
theorem pc_tracking_iff {text : List Char} (hsize : (romAddFile text).length < 2 ^ 32)
    (hin : ∀ k < n, instrAddr (Qemu.reset text limit).env.prog k < (romAddFile text).length)
    (hjump : ∀ hist x, Run (Qemu.step (qemu argList W) limits) (Qemu.reset text limit) hist x →
      hist.length < n → ∀ takesAddr, (driver (qemu argList W) limits).insn x ≠ .mem takesAddr 6) :
    (∃ hist q, Run (Qemu.step (qemu argList W) limits) (Qemu.reset text limit) hist q ∧
      hist.length = n ∧ ∀ q' hist', q' :: hist' <:+ q :: hist → RunsAt (qemu argList W) limits q'
        (instrAddr (Qemu.reset text limit).env.prog hist'.length)) ↔
    ∀ hist x, Run (Qemu.step (qemu argList W) limits) (Qemu.reset text limit) hist x →
      hist.length < n → ((driver (qemu argList W) limits).insn x).GoesOn (qemu argList W) x.env ∧
        ¬ x.RunsAgain limits := by
  have hready : ∀ hist x, Run (Qemu.step (qemu argList W) limits) (Qemu.reset text limit) hist x →
      ((∃ x', Qemu.step (qemu argList W) limits x = .ok () x') ↔
        ((driver (qemu argList W) limits).insn x).GoesOn (qemu argList W) x.env) := by
    intro hist x hrun
    obtain ⟨z, hz⟩ := (Started.qemu argList W limits limit text).bounded hrun
    exact Driver.completes_iff_goesOn hz.spAt rfl
  constructor
  · rintro ⟨hist, q, hrun, rfl, hruns⟩ hist' x hrun' hlt
    have hmem := hrun.mem_of_length_lt hrun' hlt
    refine ⟨(hready hist' x hrun').mp (hrun.step_of_mem hmem), ?_⟩
    exact (runsAt_run_iff hsize hrun hin (hrun.forall_mem le_rfl hjump)).mp hruns x hmem
  · intro hgood
    obtain ⟨hist, q, hrun, rfl⟩ := Run.exists_of_forall (k := n)
      (fun hist x hrun hlt => (hready hist x hrun).mpr (hgood hist x hrun hlt).1) le_rfl
    refine ⟨hist, q, hrun, rfl, ?_⟩
    exact (runsAt_run_iff hsize hrun hin (hrun.forall_mem le_rfl hjump)).mpr
      (hrun.forall_mem le_rfl fun hist x hrun hlt => (hgood hist x hrun hlt).2)

/-- JUMPDEST; PUSH1 1. -/
def pushLast : Qemu := reset "5b6001".toList 1000

theorem pushLast_run (hrun : Run (Qemu.step zeroQemu nineEach) pushLast hist x)
    (hlen : hist.length < 2) : (∃ x', Qemu.step zeroQemu nineEach x = .ok () x') ∧
      (∀ takesAddr, (driver zeroQemu nineEach).insn x ≠ .mem takesAddr 6) ∧
      ¬ x.RunsAgain nineEach := by
  have hall : (iterate (Qemu.step zeroQemu nineEach) 2 pushLast).isOk = true ∧
      ∀ k < 2, (∀ takesAddr,
          (driver zeroQemu nineEach).insn (after (Qemu.step zeroQemu nineEach) pushLast k) ≠
            .mem takesAddr 6) ∧
        ¬ (after (Qemu.step zeroQemu nineEach) pushLast k).RunsAgain nineEach := by
    decide +kernel
  obtain ⟨hok, hfacts⟩ := hall
  have hmem := (Run.of_isOk hok).mem_of_length_lt hrun (by simpa using hlen)
  refine ⟨(Run.of_isOk hok).step_of_mem hmem, ?_⟩
  obtain ⟨k, hk, rfl⟩ := List.mem_map.mp hmem
  exact hfacts k (List.mem_range.mp (List.mem_reverse.mp hk))

theorem pc_tracking_push_last : ∃ hist q, Run (Qemu.step zeroQemu nineEach) pushLast hist q ∧
    hist.length = 2 ∧ ∀ q' hist', q' :: hist' <:+ q :: hist → RunsAt zeroQemu nineEach q'
      (instrAddr pushLast.env.prog hist'.length) := by
  have hsize : (romAddFile "5b6001".toList).length < 2 ^ 32 := by decide
  have hin : ∀ k < 2, instrAddr pushLast.env.prog k < (romAddFile "5b6001".toList).length := by
    decide +kernel
  refine (pc_tracking_iff hsize hin ?_).mpr ?_
  · intro hist x hrun hlen
    exact (pushLast_run hrun hlen).2.1
  · intro hist x hrun hlen
    obtain ⟨hstep, -, hagain⟩ := pushLast_run hrun hlen
    obtain ⟨z, hz⟩ := (Started.qemu _ _ nineEach 1000 "5b6001".toList).bounded hrun
    exact ⟨(Driver.completes_iff_goesOn (D := driver zeroQemu nineEach) hz.spAt rfl).mp hstep,
      hagain⟩

/-- PUSH1 1; PUSH1 2; PUSH1 3; ADD. -/
def addLast : Qemu := reset "60016002600301".toList 1000

/-- The ADD at address 6, the last instruction of the code, runs twice. -/
theorem add_runs_twice : ∃ hist q, Run (Qemu.step zeroQemu nineEach) addLast hist q ∧
    hist.map (Qemu.address nineEach) = [6, 6, 4, 2, 0] := by
  have hfacts : (iterate (Qemu.step zeroQemu nineEach) 5 addLast).isOk = true ∧
      ((List.range 5).reverse.map (after (Qemu.step zeroQemu nineEach) addLast)).map
        (Qemu.address nineEach) = [6, 6, 4, 2, 0] := by
    decide +kernel
  exact ⟨_, _, Run.of_isOk hfacts.1, hfacts.2⟩

end Qemu

end GvmCore
