import GvmCore.Agreement
import GvmCore.PcTracking

namespace GvmCore
open Exec Digits
set_option autoImplicit true

theorem Agree.withPc_iff {E : Engine w c} {E' : Engine w' c'} {s : Core w c} {t : Core w' c'}
    (h : s.pc = t.pc) (p p' : BitVec 32) :
    Agree E E' { s with pc := p } { t with pc := p' } ↔ Agree E E' s t ∧ p = p' := by
  constructor
  · rintro ⟨hdata, hsp, hsize, hgas, hstorage, hregs, helf, hcode, hpc⟩
    exact ⟨⟨hdata.congr rfl rfl rfl rfl, hsp, hsize, hgas, hstorage, hregs, helf, hcode, h⟩, hpc⟩
  · rintro ⟨⟨hdata, hsp, hsize, hgas, hstorage, hregs, helf, hcode, -⟩, hpc⟩
    exact ⟨hdata.congr rfl rfl rfl rfl, hsp, hsize, hgas, hstorage, hregs, helf, hcode, hpc⟩

theorem Evm.pc_next (d : Evm) (t : Core 32 8) (insn : BitVec 8) :
    (Evm.next d (if isPush insn then .constChanged (t.pc + BitVec.ofNat 32 (getPpdlShiftPc insn))
      else .none) t).core = { t with pc := t.pc + BitVec.ofNat 32 (getPpdlShiftPc insn) } := by
  unfold getPpdlShiftPc
  cases isPush insn <;> rfl

theorem Evm.core_clock {E : Engine 32 8} {d d' : Evm} (hz : SpAt d.core z)
    (hjump : ∀ takesAddr, E.resolve d.core (Evm.code E d) ≠ .mem takesAddr 6)
    (hstep : Evm.clock E d = .ok () d') : ∃ pw t,
      (E.resolve d.core (Evm.code E d)).exec E d.core = .ok pw t ∧ d'.core = { t with
        pc := d.core.pc + BitVec.ofNat 32 (getPpdlShiftPc (Evm.code E d)) } := by
  rw [Evm.clock_eq, Outcome.into_eq_ok, mainDecode_eq] at hstep
  obtain ⟨pw, t, hexec, rfl⟩ := hstep
  have hpw := write_of_exec hz hjump hexec
  have hcore := Evm.pc_next d t (Evm.code E d)
  rw [(Insn.exec_facts E (E.resolve_inRange _ _) hz hexec).pc] at hcore
  rw [← hpw] at hcore
  exact ⟨pw, t, hexec, hcore⟩

theorem Translated.rest_nil (h : Translated prog endPc page changed pc (i :: rest) pcEnd changed')
    (he : pc + getPpdlShiftPc i.insn = endPc) : rest = [] := by
  cases h with
  | stop | last => rfl
  | more hi hne => exact absurd he hne

/-- An instruction of the code runs again when it is the last one, no PUSH, and a PUSH has
marked `pc` before it. -/
theorem Qemu.Tracked.runsAgain_iff {q : Qemu} (h : Tracked prog size q a) (ha : a < size)
    (hs : size < 2 ^ 32) : q.RunsAgain limits ↔
      a + getPpdlShiftPc (prog (BitVec.ofNat 32 a)) = size ∧
      isPush (prog (BitVec.ofNat 32 a)) = false ∧ q.isPcConstChanged = true := by
  obtain ⟨⟨page, changed', hpage, ht⟩, -, -⟩ := h.enterBlock ha hs limits
  have hinsn : (current limits q).insn = prog (BitVec.ofNat 32 a) := h.insn ha hs
  rw [block_eq] at ht
  unfold RunsAgain
  rw [h.size_eq, ← hinsn]
  constructor
  · rintro ⟨hrest, hend, hpush, hflag⟩
    exact ⟨(ht.head.2.2.1 hrest).symm.trans hend, hpush, hflag⟩
  · rintro ⟨hend, hpush, hflag⟩
    have hrest := ht.rest_nil hend
    exact ⟨hrest, (ht.head.2.2.1 hrest).trans hend, hpush, hflag⟩

theorem decode_ne_jump :
    ∀ ocode, ocode ≠ 0x56 → ∀ takesAddr, Insn.decode ocode ≠ .mem takesAddr 6 := by
  decide +kernel

theorem Driver.steps_iff {D : Driver w c σ} (hI : D.insn d = I) (hr : I.Ready (D.core d) z)
    (h0 : I ≠ .arithm 0) : (∃ d', D.step d = .ok () d') ↔
      D.engine.HeapServes (D.core d).heapPos (I.need (D.core d) z) := by
  subst hI
  have hstep : ∀ d', D.step d = .ok () d' ↔ _ := fun d' =>
    step_eq_ok_of_covered hr.sp hr.covered h0 hr.operands hr.fits
  constructor
  · rintro ⟨d', h⟩
    exact ((hstep d').mp h).1
  · intro h
    exact ⟨_, (hstep _).mpr ⟨h, rfl⟩⟩

section Step

variable {W : World 32 8} {W' : World 64 64} {d : Evm} {q : Qemu}

/-- Interpreter and translated code agree and are both at an instruction of the code. -/
structure InStep (W : World 32 8) (argList : Nat → Core 64 64 → Word → Word) (W' : World 64 64)
    (d : Evm) (q : Qemu) : Prop where
  agree : Agree (cemu W) (qemu argList W') d.core q.env
  tracked : Qemu.Tracked q.env.prog q.env.elfSize.toNat q q.env.pc.toNat
  inside : d.core.pc.toNat < d.core.elfSize.toNat

namespace InStep

theorem inside' (h : InStep W argList W' d q) : q.env.pc.toNat < q.env.elfSize.toNat := by
  rw [← h.agree.pc, ← h.agree.elfSize]
  exact h.inside

theorem size_lt (h : InStep W argList W' d q) : q.env.elfSize.toNat < 2 ^ 32 := by
  rw [← h.agree.elfSize]
  exact d.core.elfSize.isLt

theorem current_insn (h : InStep W argList W' d q) (limits : Nat → Nat) :
    (Qemu.current limits q).insn = Evm.code (cemu W) d := by
  rw [h.tracked.insn h.inside' h.size_lt, BitVec.ofNat_toNat, BitVec.setWidth_eq, Evm.code,
    h.agree.code _ h.inside, h.agree.pc]
  rfl

theorem insn_eq (h : InStep W argList W' d q) (hlisted : Listed (Evm.code (cemu W) d))
    (limits : Nat → Nat) : (Qemu.driver (qemu argList W') limits).insn q =
      Insn.decode (Evm.code (cemu W) d) := by
  rw [Driver.insn_of_listed] <;> simp only [Qemu.driver, h.current_insn limits, hlisted]

theorem steps_iff (h : InStep W argList W' d q) (hlisted : Listed (Evm.code (cemu W) d))
    (hr : (Insn.decode (Evm.code (cemu W) d)).Ready d.core z)
    (hstop : Insn.decode (Evm.code (cemu W) d) ≠ .arithm 0) (limits : Nat → Nat) :
    (∃ q', Qemu.step (qemu argList W') limits q = .ok () q') ↔ (qemu argList W').HeapServes
      q.env.heapPos ((Insn.decode (Evm.code (cemu W) d)).need d.core z) := by
  have hneed : (Insn.decode (Evm.code (cemu W) d)).need q.env z =
      (Insn.decode (Evm.code (cemu W) d)).need d.core z :=
    Insn.need_congr (fun i _ => (h.agree.data.word_eq i).symm) _
  rw [← hneed]
  exact Driver.steps_iff (h.insn_eq hlisted limits) (hr.of_agree h.agree) hstop

theorem runsAgain_iff (h : InStep W argList W' d q) (limits : Nat → Nat) : q.RunsAgain limits ↔
    d.core.pc.toNat + 1 = d.core.elfSize.toNat ∧ isPush (Evm.code (cemu W) d) = false ∧
      q.isPcConstChanged = true := by
  rw [h.tracked.runsAgain_iff h.inside' h.size_lt, ← h.tracked.insn h.inside' h.size_lt,
    h.current_insn limits, h.agree.elfSize, h.agree.pc]
  unfold getPpdlShiftPc
  cases isPush (Evm.code (cemu W) d) <;> simp

variable (hcode : Evm.code (cemu W) d ∉ [0x00, 0x56, 0xf3]) (hlisted : Listed (Evm.code (cemu W) d))

include hcode hlisted

theorem resolve_ne_jump (E : Engine w c) (s : Core w c) (takesAddr : Bool) :
    E.resolve s (Evm.code (cemu W) d) ≠ .mem takesAddr 6 := by
  rw [resolve_of_listed E s hlisted]
  exact decode_ne_jump _ (fun h => hcode (by simp [h])) takesAddr

/-- Translated code moves `pc` as the interpreter does, unless the instruction runs again. -/
theorem pc_iff (h : InStep W argList W' d q) (hz : SpAt q.env z)
    (hstep : Qemu.step (qemu argList W') limits q = .ok () q') :
    d.core.pc + BitVec.ofNat 32 (getPpdlShiftPc (Evm.code (cemu W) d)) = q'.env.pc ↔
      ¬ q.RunsAgain limits := by
  have hinsn := h.current_insn limits
  have hjump : ∀ takesAddr, (qemu argList W').resolve q.env (Qemu.current limits q).insn ≠
      .mem takesAddr 6 := by
    rw [hinsn]
    exact resolve_ne_jump hcode hlisted _ _
  have hpc := h.tracked.pc_step h.inside' h.size_lt hz hjump hstep
  have hnext : BitVec.ofNat 32 (q.env.pc.toNat + getPpdlShiftPc (Qemu.current limits q).insn) =
      d.core.pc + BitVec.ofNat 32 (getPpdlShiftPc (Evm.code (cemu W) d)) := by
    rw [BitVec.ofNat_add, BitVec.ofNat_toNat, BitVec.setWidth_eq, h.agree.pc, hinsn]
  constructor
  · intro heq hagain
    have hsame := hpc.1 hagain
    have hpush := hagain.2.2.1
    rw [BitVec.ofNat_toNat, BitVec.setWidth_eq, ← heq, hinsn.symm, getPpdlShiftPc, hpush,
      if_neg Bool.false_ne_true, h.agree.pc] at hsame
    simp at hsame
  · intro hagain
    rw [hpc.2 hagain, hnext]

theorem agree_iff (h : InStep W argList W' d q) (hk : W.keccak = W'.keccak)
    (hr : (Insn.decode (Evm.code (cemu W) d)).Ready d.core z)
    (hstep : Evm.clock (cemu W) d = .ok () d')
    (hstep' : Qemu.step (qemu argList W') limits q = .ok () q') :
    Agree (cemu W) (qemu argList W') d'.core q'.env ↔
      (Insn.decode (Evm.code (cemu W) d)).ReadsSame (cemu W) (qemu argList W') d.core q.env z ∧
      ¬ q.RunsAgain limits := by
  have hinsn := h.current_insn limits
  have hr' := hr.of_agree h.agree
  have hpc := h.pc_iff hcode hlisted hr'.sp hstep'
  have hI := Insn.decode_inRange (Evm.code (cemu W) d)
  have hstop : Insn.decode (Evm.code (cemu W) d) ≠ .arithm 0 :=
    fun h0 => hcode (by simp [(decode_eq_stop _).mp h0])
  obtain ⟨pw, t, hexec, hcore⟩ := Evm.core_clock hr.sp (resolve_ne_jump hcode hlisted _ _) hstep
  obtain ⟨pw', t', hexec', rfl⟩ := Qemu.step_eq_ok.mp hstep'
  obtain ⟨p, henv⟩ := Qemu.env_finish (Qemu.current limits q) (q.rest limits) pw'
    { Qemu.enterBlock limits q with env := t' }
  rw [hinsn, mainDecode_eq, resolve_of_listed _ _ hlisted] at hexec'
  rw [resolve_of_listed _ _ hlisted] at hexec
  have hs := (Insn.exec_facts _ hI hr.sp hexec).pc
  have ht := (Insn.exec_facts _ hI hr'.sp hexec').pc
  rw [henv] at hpc
  rw [hcore, henv, Agree.withPc_iff (by rw [hs, ht, h.agree.pc]),
    hr.agree_iff h.agree hk d.core.memSize.isLt hI hstop hexec hexec']
  exact and_congr_right fun _ => hpc

theorem step (h : InStep W argList W' d q) (hz : SpAt q.env z)
    (hsmall : d.core.elfSize.toNat ≤ progMemSize)
    (hstep : Qemu.step (qemu argList W') limits q = .ok () q')
    (hagree : Agree (cemu W) (qemu argList W') d'.core q'.env) (hagain : ¬ q.RunsAgain limits)
    (hinside : d'.core.pc.toNat < d'.core.elfSize.toNat) : InStep W argList W' d' q' := by
  refine ⟨hagree, ?_, hinside⟩
  have hinsn := h.current_insn limits
  have hjump : ∀ takesAddr, (qemu argList W').resolve q.env (Qemu.current limits q).insn ≠
      .mem takesAddr 6 := by
    rw [hinsn]
    exact resolve_ne_jump hcode hlisted _ _
  have ht := h.tracked.step h.inside' h.size_lt hz hjump hagain hstep
  have hshift : ∀ insn, getPpdlShiftPc insn ≤ 33 := by decide +kernel
  have hle := hshift (q.env.prog (BitVec.ofNat 32 q.env.pc.toNat))
  have hin := h.inside'
  rw [h.agree.elfSize] at hsmall
  have hpc := congrArg BitVec.toNat ht.pc
  rw [BitVec.toNat_ofNat, Nat.mod_eq_of_lt (by simp only [progMemSize] at hsmall; omega)] at hpc
  rw [ht.prog_eq, ht.size_eq, hpc]
  exact ht

end InStep

/-- From states that agree, interpreter and translated code make one step each and agree again,
exactly when both digit heaps serve it, the instruction reads the same behind the code and in
the cells of a zero modulus, and it does not end the code of a block with a PUSH before it. -/
theorem lockstep_iff (h : InStep W argList W' d q) (hk : W.keccak = W'.keccak)
    (hcode : Evm.code (cemu W) d ∉ [0x00, 0x56, 0xf3]) (hlisted : Listed (Evm.code (cemu W) d))
    (hr : (Insn.decode (Evm.code (cemu W) d)).Ready d.core z) :
    (∃ d' q', Evm.clock (cemu W) d = .ok () d' ∧ Qemu.step (qemu argList W') limits q = .ok () q' ∧
      Agree (cemu W) (qemu argList W') d'.core q'.env) ↔
    (cemu W).HeapServes d.core.heapPos ((Insn.decode (Evm.code (cemu W) d)).need d.core z) ∧
      (qemu argList W').HeapServes q.env.heapPos
        ((Insn.decode (Evm.code (cemu W) d)).need d.core z) ∧
      (Insn.decode (Evm.code (cemu W) d)).ReadsSame (cemu W) (qemu argList W') d.core q.env z ∧
      ¬ (d.core.pc.toNat + 1 = d.core.elfSize.toNat ∧ isPush (Evm.code (cemu W) d) = false ∧
        q.isPcConstChanged = true) := by
  have hstop : Insn.decode (Evm.code (cemu W) d) ≠ .arithm 0 :=
    fun h0 => hcode (by simp [(decode_eq_stop _).mp h0])
  have hd := Driver.steps_iff (D := Evm.driver (cemu W)) (Driver.insn_of_listed hlisted) hr hstop
  have hq := h.steps_iff hlisted hr hstop limits
  rw [← h.runsAgain_iff limits]
  constructor
  · rintro ⟨d', q', hstep, hstep', hagree⟩
    exact ⟨hd.mp ⟨d', hstep⟩, hq.mp ⟨q', hstep'⟩,
      (h.agree_iff hcode hlisted hk hr hstep hstep').mp hagree⟩
  · rintro ⟨hheap, hheap', hsame⟩
    obtain ⟨d', hstep⟩ := hd.mpr hheap
    obtain ⟨q', hstep'⟩ := hq.mpr hheap'
    exact ⟨d', q', hstep, hstep', (h.agree_iff hcode hlisted hk hr hstep hstep').mpr hsame⟩

end Step

section Load

variable {text : List Char}

theorem getHex_pair (ha : isxdigit a = true) (hb : isxdigit b = true) :
    Evm.getHex [a, b] 0 = (Qemu.romDigit a <<< 4) + Qemu.romDigit b := by
  simp [Evm.getHex, Qemu.romDigit, ha, hb]

theorem readHexFile_eq (h : ∀ c ∈ text, isxdigit c = true) (heven : text.length % 2 = 0)
    (a b : Char) :
    Evm.readHexFile text a b = Qemu.romAddFile text ++
      [(Qemu.romAddFile text).getLastD (Evm.getHex [a, b] 0)] := by
  induction text using Qemu.romAddFile.induct generalizing a b with
  | case1 c c' text ih =>
    simp only [List.forall_mem_cons] at h
    simp only [List.length_cons] at heven
    rw [Evm.readHexFile, Qemu.romAddFile, ih h.2.2 (by omega), getHex_pair h.1 h.2.1,
      List.getLastD_cons]
    rfl
  | case2 text hne =>
    match text with
    | [] => rfl
    | [c] => cases heven
    | c :: c' :: text => exact absurd rfl (hne c c' text)

/-- A program as both loaders take it: pairs of hex digits that fit the program memory. -/
structure HexFile (text : List Char) : Prop where
  digits : ∀ c ∈ text, isxdigit c = true
  even : text.length % 2 = 0
  fits : (Qemu.romAddFile text).length ≤ progMemSize

theorem HexFile.elfSize (h : HexFile text) (limit : Word) :
    ((Evm.init limit).loadElf text).core.elfSize.toNat = (Qemu.romAddFile text).length ∧
      (Qemu.reset text limit).env.elfSize.toNat = (Qemu.romAddFile text).length := by
  have hfits := h.fits
  simp only [progMemSize] at hfits
  constructor
  · change (BitVec.ofNat 32 ((Evm.readHexFile text _ _).length - 1)).toNat = _
    rw [readHexFile_eq h.digits h.even, List.length_append, List.length_singleton,
      Nat.add_sub_cancel, BitVec.toNat_ofNat, Nat.mod_eq_of_lt (by omega)]
  · change (BitVec.ofNat 64 _).toNat = _
    rw [BitVec.toNat_ofNat, Nat.mod_eq_of_lt (by omega)]

theorem HexFile.agree (h : HexFile text) (W : World 32 8) (argList : Nat → Core 64 64 → Word → Word)
    (W' : World 64 64) (limit : Word) : Agree (cemu W) (qemu argList W')
      ((Evm.init limit).loadElf text).core (Qemu.reset text limit).env := by
  obtain ⟨hsize, hsize'⟩ := h.elfSize limit
  constructor
  · constructor
    · intro i _
      simp only [Core.word]
      split <;> rfl
    · intro a
      simp only [Core.cell]
      split <;> rfl
  · change (0 - 1 : BitVec 32).toInt = (0 - 1 : BitVec 64).toInt
    decide
  · rfl
  · rfl
  · exact fun _ _ => rfl
  · rfl
  · rw [hsize, hsize']
  · intro a ha
    rw [hsize] at ha
    have hfits := h.fits
    have hlt : a.toNat < (Evm.readHexFile text '\x00' '\x00').length := by
      rw [readHexFile_eq h.digits h.even, List.length_append]
      omega
    change (if a.toNat < progMemSize then
      (if a.toNat < (Evm.readHexFile text '\x00' '\x00').length then
        (Evm.readHexFile text '\x00' '\x00').getD a.toNat 0 else _) else _) =
      (Qemu.romAddFile text).getD a.toNat 0
    rw [if_pos (by omega), if_pos hlt, readHexFile_eq h.digits h.even, List.getD_append _ _ _ _ ha]
  · rfl

theorem HexFile.inStep (h : HexFile text) (hne : text ≠ []) (W : World 32 8)
    (argList : Nat → Core 64 64 → Word → Word) (W' : World 64 64) (limit : Word) :
    InStep W argList W' ((Evm.init limit).loadElf text) (Qemu.reset text limit) := by
  obtain ⟨hsize, hsize'⟩ := h.elfSize limit
  have hfits := h.fits
  refine ⟨h.agree W argList W' limit, ?_, ?_⟩
  · rw [hsize']
    exact Qemu.Tracked.reset text limit (by simp only [progMemSize] at hfits; omega)
  · rw [hsize]
    change 0 < _
    match text, hne, h.even with
    | c :: c' :: text, _, _ => exact Nat.succ_pos _

end Load

section PushJumpdest

/-- PUSH1 1; JUMPDEST. -/
def pushJumpdest : List Char := "60015b".toList

def pushJumpdestCemu : Evm := (Evm.init 1000).loadElf pushJumpdest

def pushJumpdestQemu : Qemu := Qemu.reset pushJumpdest 1000

theorem pushJumpdest_inStep :
    InStep .zero (fun _ _ _ => 0) .zero pushJumpdestCemu pushJumpdestQemu :=
  HexFile.inStep ⟨List.all_eq_true.mp (by decide), by decide, by decide⟩ (by decide) _ _ _ _

theorem pushJumpdest_ready : (Insn.decode (Evm.code (cemu .zero) pushJumpdestCemu)).Ready
    pushJumpdestCemu.core (-1) := by
  have hfacts : Insn.decode (Evm.code (cemu .zero) pushJumpdestCemu) = .push 0 ∧
      3 ≤ pushJumpdestCemu.core.gas := by
    decide +kernel
  obtain ⟨hinsn, hgas⟩ := hfacts
  rw [hinsn]
  constructor
  · exact ⟨by decide, by decide, by decide⟩
  · trivial
  · intro j hj
    have hj4 : j < 4 := by
      revert hj
      decide +revert
    exact ⟨by omega, by omega⟩
  · decide
  · decide
  · intro takesAddr h
    cases h
  · intro v hv
    cases hv
    exact hgas

theorem pushJumpdest_code : Insn.decode (Evm.code (cemu .zero) pushJumpdestCemu) = .push 0 ∧
    Evm.code (cemu .zero) pushJumpdestCemu ∉ [0x00, 0x56, 0xf3] ∧
    Listed (Evm.code (cemu .zero) pushJumpdestCemu) ∧
    immediate (cemu .zero) pushJumpdestCemu.core 1 = immediate zeroQemu pushJumpdestQemu.env 1 := by
  decide +kernel

theorem lockstep_push : ∃ d' q', Evm.clock (cemu .zero) pushJumpdestCemu = .ok () d' ∧
    Qemu.step zeroQemu nineEach pushJumpdestQemu = .ok () q' ∧
    Agree (cemu .zero) zeroQemu d'.core q'.env := by
  obtain ⟨hinsn, hcode, hlisted, himm⟩ := pushJumpdest_code
  have hlast : pushJumpdestCemu.core.pc.toNat + 1 ≠ pushJumpdestCemu.core.elfSize.toNat := by decide
  apply (lockstep_iff pushJumpdest_inStep rfl hcode hlisted pushJumpdest_ready).mpr
  rw [hinsn]
  refine ⟨.inr ?_, .inr ?_, himm, fun h => hlast h.1⟩
  · rintro cells ⟨⟩
    decide
  · rintro cells ⟨⟩
    decide

/-- The interpreter leaves the JUMPDEST at the end of the code, translated code stays at it. -/
theorem jumpdest_left_once : ∃ d q d' q', InStep .zero (fun _ _ _ => 0) .zero d q ∧
    Evm.code (cemu .zero) d = 0x5b ∧ (Insn.decode (Evm.code (cemu .zero) d)).Ready d.core 3 ∧
    Evm.clock (cemu .zero) d = .ok () d' ∧ Qemu.step zeroQemu nineEach q = .ok () q' ∧
    d'.core.pc = 3 ∧ q'.env.pc = 2 := by
  have hfacts : (iterate (Evm.clock (cemu .zero)) 2 pushJumpdestCemu).isOk = true ∧
      (iterate (Qemu.step zeroQemu nineEach) 2 pushJumpdestQemu).isOk = true ∧
      ¬ pushJumpdestQemu.RunsAgain nineEach ∧
      Evm.code (cemu .zero) (after (Evm.clock (cemu .zero)) pushJumpdestCemu 1) = 0x5b ∧
      (after (Evm.clock (cemu .zero)) pushJumpdestCemu 1).core.sp = BitVec.ofInt 32 3 ∧
      1 ≤ (after (Evm.clock (cemu .zero)) pushJumpdestCemu 1).core.gas ∧
      (after (Evm.clock (cemu .zero)) pushJumpdestCemu 1).core.pc.toNat <
        (after (Evm.clock (cemu .zero)) pushJumpdestCemu 1).core.elfSize.toNat ∧
      (after (Evm.clock (cemu .zero)) pushJumpdestCemu 2).core.pc = 3 ∧
      (after (Qemu.step zeroQemu nineEach) pushJumpdestQemu 2).env.pc = 2 := by
    decide +kernel
  obtain ⟨hok, hok', hagain, hcode₁, hsp, hgas, hin, hpc, hpc'⟩ := hfacts
  obtain ⟨hinsn, hcode, hlisted, himm⟩ := pushJumpdest_code
  have hready := pushJumpdest_ready
  have hstep : Evm.clock (cemu .zero) pushJumpdestCemu =
      .ok () (after (Evm.clock (cemu .zero)) pushJumpdestCemu 1) :=
      step_after (n := 0) (isOk_of_succ hok)
  have hstep' : Qemu.step zeroQemu nineEach pushJumpdestQemu =
      .ok () (after (Qemu.step zeroQemu nineEach) pushJumpdestQemu 1) :=
    step_after (n := 0) (isOk_of_succ hok')
  have hnext := step_after (n := 1) hok
  have hnext' := step_after (n := 1) hok'
  generalize after (Evm.clock (cemu .zero)) pushJumpdestCemu 1 = d,
    after (Qemu.step zeroQemu nineEach) pushJumpdestQemu 1 = q,
    after (Evm.clock (cemu .zero)) pushJumpdestCemu 2 = d',
    after (Qemu.step zeroQemu nineEach) pushJumpdestQemu 2 = q' at *
  have hreads : (Insn.decode (Evm.code (cemu .zero) pushJumpdestCemu)).ReadsSame (cemu .zero)
      zeroQemu pushJumpdestCemu.core pushJumpdestQemu.env (-1) := by
    rw [hinsn]
    exact himm
  have hagree :=
    (pushJumpdest_inStep.agree_iff hcode hlisted rfl hready hstep hstep').mpr ⟨hreads, hagain⟩
  have hstart := (hready.of_agree pushJumpdest_inStep.agree).sp
  have hin₁ := pushJumpdest_inStep.step hcode hlisted hstart (by decide) hstep' hagree hagain hin
  refine ⟨_, _, _, _, hin₁, hcode₁, ?_, hnext, hnext', hpc, hpc'⟩
  rw [hcode₁, show Insn.decode 0x5b = .mem false 11 by decide]
  constructor
  · exact ⟨hsp, by decide, by decide⟩
  · trivial
  · trivial
  · decide
  · decide
  · intro takesAddr h
    cases h
  · intro v hv
    cases hv
    exact hgas

end PushJumpdest

end GvmCore
