import GvmCore.Lockstep

namespace GvmCore
open Exec VBignum Digits
set_option autoImplicit true

/-- The next instruction is one that both engines run alike: it is in the code with its
immediate, it is listed and paid for, it is no STOP and no JUMP, a key it loads has been stored,
and `sp` is in the stack. -/
structure Evm.Plain (W : World 32 8) (d : Evm) : Prop where
  inside : d.core.pc.toNat + getPpdlShiftPc (Evm.code (cemu W) d) ≤ d.core.elfSize.toNat
  listed : Listed (Evm.code (cemu W) d)
  code : Evm.code (cemu W) d ∉ [0x00, 0x56]
  covered : (Insn.decode (Evm.code (cemu W) d)).Covered d.core
  stored : ∀ takesAddr, Insn.decode (Evm.code (cemu W) d) = .mem takesAddr 4 →
    ∃ r, d.core.mainStorage.load
      ((Insn.memAddr d.core takesAddr d.core.sp.toInt).setWidth 32) = some r
  low : -1 ≤ d.core.sp.toInt
  high : d.core.sp.toInt < 2048

section Plain

variable {W : World 32 8} {d d' : Evm}

theorem Evm.Plain.pc_lt (h : d.Plain W) : d.core.pc.toNat < d.core.elfSize.toNat := by
  have hin := h.inside
  have hpos := getPpdlShiftPc_pos (Evm.code (cemu W) d)
  omega

theorem Evm.Plain.not_stop (h : d.Plain W) : Insn.decode (Evm.code (cemu W) d) ≠ .arithm 0 :=
  fun h0 => h.code (by simp [(decode_eq_stop _).mp h0])

theorem Evm.Plain.clock (h : d.Plain W) (hstep : Evm.clock (cemu W) d = .ok () d') : ∃ pw t,
    (Insn.decode (Evm.code (cemu W) d)).exec (cemu W) d.core = .ok pw t ∧ d'.core = { t with
      pc := d.core.pc + BitVec.ofNat 32 (getPpdlShiftPc (Evm.code (cemu W) d)) } := by
  rw [← resolve_of_listed (cemu W) d.core h.listed]
  apply Evm.core_clock (spAt_toInt d.core) _ hstep
  intro takesAddr
  rw [resolve_of_listed _ _ h.listed]
  exact decode_ne_jump _ (fun hj => h.code (by simp [hj])) takesAddr

theorem Evm.Plain.not_return (h : d.Plain W) (hstep : Evm.clock (cemu W) d = .ok () d') :
    Evm.code (cemu W) d ∉ [0x00, 0x56, 0xf3] := by
  obtain ⟨pw, t, hexec, -⟩ := h.clock hstep
  have hne : Evm.code (cemu W) d ≠ 0xf3 := by
    intro hreturn
    rw [(decode_eq_returnInst _).mpr hreturn] at hexec
    obtain ⟨-, -, s', -, -, hfit, -⟩ := (Insn.exec_eq_ok (cemu W) (I := .returnInst) trivial
      (spAt_toInt d.core)).mp hexec
    exact hfit
  have hcode := h.code
  simp only [List.mem_cons, List.not_mem_nil, or_false, not_or] at hcode ⊢
  exact ⟨hcode.1, hcode.2, hne⟩

theorem Evm.Plain.ready (h : d.Plain W) (h' : d'.Plain W)
    (hstep : Evm.clock (cemu W) d = .ok () d') :
    (Insn.decode (Evm.code (cemu W) d)).Ready d.core d.core.sp.toInt := by
  have hz := spAt_toInt d.core
  have hI := Insn.decode_inRange (Evm.code (cemu W) d)
  obtain ⟨pw, t, hexec, hcore⟩ := h.clock hstep
  have hf := Insn.exec_facts (cemu W) hI hz hexec
  obtain ⟨hin, -, hfit, -, -⟩ :=
    (Insn.exec_eq_ok_of_covered hI hz h.covered fun h0 => absurd h0 h.not_stop).mp hexec
  have hlow := h.low
  have hhigh := h.high
  have hge := (Insn.decode (Evm.code (cemu W) d)).delta_ge
  have hle := hf.high
  have hlow' := h'.low
  have hhigh' := h'.high
  have hsp : d'.core.sp.toInt = d.core.sp.toInt + (Insn.decode (Evm.code (cemu W) d)).delta := by
    rw [hcore]
    change t.sp.toInt = _
    rw [hf.sp, toInt_ofInt_of_bounds le_rfl (by omega) (by omega)]
  rw [hsp] at hlow' hhigh'
  exact ⟨hz, hin, hfit, hlow', hhigh', h.stored, h.covered⟩

end Plain

theorem Agree.immediate {E : Engine w c} {E' : Engine w' c'} {s : Core w c} {t : Core w' c'}
    (h : Agree E E' s t) (hs : s.elfSize.toNat < 2 ^ 32) (hn : s.pc.toNat + n < s.elfSize.toNat) :
    immediate E s n = GvmCore.immediate E' t n := by
  unfold GvmCore.immediate
  apply List.map_congr_left
  intro i hi
  have hlt := List.mem_range.mp hi
  rw [← h.pc]
  apply h.code
  rw [BitVec.toNat_add, BitVec.toNat_ofNat, Nat.mod_eq_of_lt (a := i + 1) (by omega),
    Nat.mod_eq_of_lt (by omega)]
  omega

/-- Interpreter and translated code agree, and their digit heaps are used alike. -/
structure Paired (W : World 32 8) (argList : Nat → Core 64 64 → Word → Word) (W' : World 64 64)
    (d : Evm) (q : Qemu) : Prop where
  inStep : InStep W argList W' d q
  small : d.core.elfSize.toNat ≤ progMemSize
  heapPos : d.core.heapPos = q.env.heapPos
  fresh : d.core.Fresh 51
  fresh' : q.env.Fresh 51

namespace Paired

variable {W : World 32 8} {W' : World 64 64} {d d' : Evm} {q : Qemu}

theorem readsSame (h : Paired W argList W' d q) (hp : d.Plain W) (z : Int) :
    (Insn.decode (Evm.code (cemu W) d)).ReadsSame (cemu W) (qemu argList W') d.core q.env z := by
  have hin := hp.inside
  unfold getPpdlShiftPc at hin
  cases hI : Insn.decode (Evm.code (cemu W) d) with
  | push count =>
    have hpush : isPush (Evm.code (cemu W) d) = true := by
      rw [← Bool.not_eq_false]
      exact fun hpush => decode_ne_push hpush count hI
    have hcount := (decode_of_isPush _ hpush).1
    rw [hI] at hcount
    cases hcount
    rw [hpush, if_pos rfl] at hin
    exact h.inStep.agree.immediate d.core.elfSize.isLt (by omega)
  | arithm op =>
    intro x y hm _
    have hc := Insn.conversions_pos hm
    rw [Insn.leftover_of_fresh h.fresh hc, Insn.leftover_of_fresh h.fresh' hc]
  | _ => trivial

/-- Translated code follows the interpreter from one plain state to the next. -/
theorem step (h : Paired W argList W' d q) (hk : W.keccak = W'.keccak) (hp : d.Plain W)
    (hp' : d'.Plain W) (hstep : Evm.clock (cemu W) d = .ok () d') (limits : Nat → Nat) :
    ∃ q', Qemu.step (qemu argList W') limits q = .ok () q' ∧ Paired W argList W' d' q' := by
  have hr := hp.ready hp' hstep
  have hr' := hr.of_agree h.inStep.agree
  have hcode := hp.not_return hstep
  have hI : (Evm.driver (cemu W)).insn d = Insn.decode (Evm.code (cemu W) d) :=
    Driver.insn_of_listed hp.listed
  have hheap := (Driver.steps_iff hI hr hp.not_stop).mp ⟨d', hstep⟩
  obtain ⟨q', hstep'⟩ :=
    (h.inStep.steps_iff hp.listed hr hp.not_stop limits).mpr (h.heapPos ▸ hheap)
  obtain ⟨pw, t, hexec, hcore⟩ := hp.clock hstep
  have hf := Insn.exec_facts (cemu W) (Insn.decode_inRange _) hr.sp hexec
  obtain ⟨t', pc', hf', henv⟩ :=
    Driver.step_facts (D := Qemu.driver (qemu argList W') limits) hr'.sp hstep'
  rw [h.inStep.insn_eq hp.listed limits] at hf'
  have hcore' : q'.env = { t' with pc := pc' } := henv
  have hsize : d'.core.elfSize = d.core.elfSize := by
    rw [hcore]
    exact hf.elfSize
  have hagain : ¬ q.RunsAgain limits := by
    rw [h.inStep.runsAgain_iff]
    rintro ⟨hlast, hpush, -⟩
    have hlt := hp'.pc_lt
    have hbound := d.core.elfSize.isLt
    rw [hsize, hcore, getPpdlShiftPc, hpush, if_neg Bool.false_ne_true, BitVec.toNat_add,
      BitVec.toNat_ofNat] at hlt
    omega
  have hagree := (h.inStep.agree_iff hcode hp.listed hk hr hstep hstep').mpr
    ⟨h.readsSame hp _, hagain⟩
  have hin := h.inStep.step hcode hp.listed hr'.sp h.small hstep' hagree hagain hp'.pc_lt
  refine ⟨q', hstep', hin, ?_, ?_, ?_, ?_⟩
  · rw [hsize]
    exact h.small
  · rw [hcore, hcore']
    change t.heapPos = t'.heapPos
    rw [hf.heapPos, hf'.heapPos, h.heapPos]
    rfl
  · rw [hcore]
    exact hf.fresh h.fresh
  · rw [hcore']
    exact hf'.fresh h.fresh'

end Paired

section Result

variable {W : World 32 8} {W' : World 64 64} {d d' : Evm} {q : Qemu}

theorem Evm.Plain.returns (h : d.Plain W) (hexit : Evm.clock (cemu W) d = .exit d') :
    Insn.decode (Evm.code (cemu W) d) = .returnInst ∧ (cemu W).HeapServes d.core.heapPos 65 ∧
      ∃ pc, d'.core = { d.core.charged 0 with pc := pc } := by
  have hz := spAt_toInt d.core
  have hI : (Evm.driver (cemu W)).insn d = Insn.decode (Evm.code (cemu W) d) :=
    Driver.insn_of_listed h.listed
  obtain ⟨t, hexec, rfl⟩ := (Driver.step_eq_exit (D := Evm.driver (cemu W))).mp hexit
  have hends := Insn.Ends.of_exec hz hexec
  rw [hI] at hexec hends
  have hreturn : Insn.decode (Evm.code (cemu W) d) = .returnInst := by
    obtain hret | ⟨-, hstop | hexceeds⟩ := hends.unwinds
    · exact hret
    · exact absurd hstop h.not_stop
    · exact absurd hexceeds ((Insn.covered_iff _ _).mp h.covered)
  rw [hreturn] at hexec
  obtain ⟨hheap, rfl⟩ := (Insn.returnInst_eq_exit hz).mp hexec
  exact ⟨hreturn, hheap, (Evm.driver (cemu W)).core_halted d _⟩

theorem Paired.returns (h : Paired W argList W' d q) (hp : d.Plain W)
    (hexit : Evm.clock (cemu W) d = .exit d') (hl : resultMessage d'.core = .ok l u)
    (limits : Nat → Nat) :
    ∃ q' u', Qemu.step (qemu argList W') limits q = .exit q' ∧ resultMessage q'.env = .ok l u' := by
  obtain ⟨hreturn, hheap, pc, hcore⟩ := hp.returns hexit
  have hz := spAt_toInt d.core
  have hz' : SpAt q.env d.core.sp.toInt :=
    spAt_of_toInt h.inStep.agree.sp.symm hz.lower hz.upper
  have hI := h.inStep.insn_eq hp.listed limits
  rw [hreturn] at hI
  have hstep :
      Qemu.step (qemu argList W') limits q = .exit (Qemu.halted limits q (q.env.charged 0)) := by
    apply (Driver.step_eq_exit (D := Qemu.driver (qemu argList W') limits)).mpr
    refine ⟨q.env.charged 0, ?_, rfl⟩
    rw [hI]
    exact (Insn.returnInst_eq_exit hz').mpr ⟨h.heapPos ▸ hheap, rfl⟩
  rw [hcore] at hl
  have hdata : SameData 2048 ({ d.core.charged 0 with pc := pc } : Core 32 8) (q.env.charged 0) :=
    h.inStep.agree.data.congr rfl rfl rfl rfl
  have hgas : (d.core.charged 0).gasAvailable = (q.env.charged 0).gasAvailable :=
    congrArg (gasSub · 0) h.inStep.agree.gas
  have hsp : SpAt ({ d.core.charged 0 with pc := pc } : Core 32 8) d.core.sp.toInt := hz.congr rfl
  have hsp' : SpAt (q.env.charged 0) d.core.sp.toInt := hz'.congr rfl
  have hzero : (d.core.charged 0).gasAvailable 0 = 0 ↔ (q.env.charged 0).gasAvailable 0 = 0 := by
    rw [hgas]
  obtain ⟨u', hl'⟩ := resultMessage_same (cemu W) (qemu argList W') hsp hsp' hdata
    (by have := hp.high; omega) hzero hl
  exact ⟨_, u', hstep, hl'⟩

theorem HexFile.paired (h : HexFile text) (hne : text ≠ []) (W : World 32 8)
    (argList : Nat → Core 64 64 → Word → Word) (W' : World 64 64) (limit : Word) :
    Paired W argList W' ((Evm.init limit).loadElf text) (Qemu.reset text limit) := by
  refine ⟨h.inStep hne W argList W' limit, ?_, rfl, fun _ _ => rfl, fun _ _ => rfl⟩
  rw [(h.elfSize limit).1]
  exact h.fits

/-- A run of the interpreter whose states are all plain, and that stops, is matched by the
translated code, which stops and prints the same line. -/
theorem same_result (htext : HexFile text) (hk : W.keccak = W'.keccak)
    (hplain : ∀ hist d, Run (Evm.clock (cemu W)) ((Evm.init limit).loadElf text) hist d → d.Plain W)
    (hprints : Evm.Prints (cemu W) ((Evm.init limit).loadElf text) l) :
    Qemu.Prints (qemu argList W') limits (Qemu.reset text limit) l := by
  obtain ⟨n, d', u, hiter, hl⟩ := hprints
  obtain ⟨k, -, d, hd, hexit⟩ := iterate_eq_exit.mp hiter
  obtain ⟨hist, -, hrun⟩ := Run.of_iterate hd
  have hne : text ≠ [] := by
    rintro rfl
    exact absurd (hplain [] _ .start).pc_lt (Nat.not_lt_zero _)
  obtain ⟨hist', q, hrun', hpair⟩ := hrun.simulate (htext.paired hne W argList W' limit)
    fun hist x q x' hx hpair hstep =>
      hpair.step hk (hplain hist x hx) (hplain _ x' (hx.step hstep)) hstep limits
  obtain ⟨q', u', hstep, hl'⟩ := hpair.returns (hplain hist d hrun) hexit hl limits
  refine ⟨hist'.length + 1, q', u', ?_, hl'⟩
  exact iterate_eq_exit.mpr ⟨_, Nat.lt_succ_self _, q, hrun'.iterate_eq, hstep⟩

end Result

section Programs

/-- PUSH1 1; PUSH1 0; RETURN. -/
def returnOne : List Char := "60016000f3".toList

def returnOneAt : Nat → Evm := after (Evm.clock (cemu .zero)) ((Evm.init 1000).loadElf returnOne)

theorem returnOne_facts :
    ((returnOneAt 0).core.pc = 0 ∧ (returnOneAt 0).core.sp = BitVec.ofInt 32 (-1) ∧
    (returnOneAt 0).core.elfSize = 5 ∧
      3 ≤ (returnOneAt 0).core.gas ∧ Evm.code (cemu .zero) (returnOneAt 0) = 0x60) ∧
    ((returnOneAt 1).core.pc = 2 ∧ (returnOneAt 1).core.sp = BitVec.ofInt 32 3 ∧
    (returnOneAt 1).core.elfSize = 5 ∧
      3 ≤ (returnOneAt 1).core.gas ∧ Evm.code (cemu .zero) (returnOneAt 1) = 0x60) ∧
    ((returnOneAt 2).core.pc = 4 ∧ (returnOneAt 2).core.sp = BitVec.ofInt 32 7 ∧
    (returnOneAt 2).core.elfSize = 5 ∧
      3 ≤ (returnOneAt 2).core.gas ∧ Evm.code (cemu .zero) (returnOneAt 2) = 0xf3) ∧
    (iterate (Evm.clock (cemu .zero)) 3 ((Evm.init 1000).loadElf returnOne)).isExit = true := by
  decide +kernel

theorem returnOne_plain_at {d : Evm} (hpc : d.core.pc = BitVec.ofNat 32 a)
    (hsp : d.core.sp = BitVec.ofInt 32 z) (hsize : d.core.elfSize = 5) (hgas : 3 ≤ d.core.gas)
    (hcode : Evm.code (cemu .zero) d = b)
    (hb : b ∈ [(0x60 : BitVec 8), 0xf3] ∧ a + getPpdlShiftPc b ≤ 5)
    (hz : -1 ≤ z ∧ z < 2048) :
    d.Plain .zero := by
  have hbytes : ∀ b ∈ [(0x60 : BitVec 8), 0xf3], Listed b ∧ b ∉ [0x00, 0x56] ∧
      (∀ takesAddr, Insn.decode b ≠ .mem takesAddr 4) ∧
        ((Insn.decode b).charge.getD 0).toNat ≤ 3 := by
    decide +kernel
  obtain ⟨hlisted, hne, hload, hcharge⟩ := hbytes b hb.1
  have htoInt : d.core.sp.toInt = z := by
    rw [hsp]
    exact toInt_ofInt_of_bounds le_rfl (by omega) (by omega)
  have hin := hb.2
  have ha : d.core.pc.toNat = a := by
    rw [hpc, BitVec.toNat_ofNat]
    omega
  have helf : d.core.elfSize.toNat = 5 := by
    rw [hsize]
    rfl
  constructor
  · rw [hcode, ha, helf]
    exact hin
  · rw [hcode]
    exact hlisted
  · rw [hcode]
    exact hne
  · intro v hv
    rw [hcode] at hv
    rw [Option.mem_def.mp hv] at hcharge
    exact hcharge.trans hgas
  · rw [hcode]
    exact fun takesAddr h => absurd h (hload takesAddr)
  · omega
  · omega

theorem returnOne_plain
    (h : Run (Evm.clock (cemu .zero)) ((Evm.init 1000).loadElf returnOne) hist d) :
    d.Plain .zero := by
  obtain ⟨⟨hpc₀, hsp₀, hsize₀, hgas₀, hcode₀⟩, ⟨hpc₁, hsp₁, hsize₁, hgas₁, hcode₁⟩,
    ⟨hpc₂, hsp₂, hsize₂, hgas₂, hcode₂⟩, hexit⟩ := returnOne_facts
  obtain ⟨hlt, hd⟩ := h.eq_after hexit
  change d = returnOneAt hist.length at hd
  match hn : hist.length with
  | 0 =>
    rw [hd, hn]
    exact returnOne_plain_at (z := -1) hpc₀ hsp₀ hsize₀ hgas₀ hcode₀ (by decide) (by decide)
  | 1 =>
    rw [hd, hn]
    exact returnOne_plain_at (z := 3) hpc₁ hsp₁ hsize₁ hgas₁ hcode₁ (by decide) (by decide)
  | 2 =>
    rw [hd, hn]
    exact returnOne_plain_at (z := 7) hpc₂ hsp₂ hsize₂ hgas₂ hcode₂ (by decide) (by decide)
  | n + 3 => omega

theorem same_result_return :
    Qemu.Prints zeroQemu nineEach (Qemu.reset returnOne 1000) (.result [0]) := by
  apply same_result ⟨List.all_eq_true.mp (by decide), by decide, by decide⟩ rfl
    fun hist d => returnOne_plain
  have hvalue : (resultMessage
      ((iterate (Evm.clock (cemu .zero)) 3 ((Evm.init 1000).loadElf returnOne)).get
        ((Evm.init 1000).loadElf returnOne)).core).value = some (.result [0]) := by
    decide +kernel
  obtain ⟨u, hu⟩ := Outcome.eq_ok_of_value hvalue
  exact ⟨3, _, u, Outcome.eq_exit_of_isExit returnOne_facts.2.2.2, hu⟩

/-- PUSH1 2; PUSH1 1; STOP; PUSH1 1; PUSH1 0; RETURN. -/
def stopThenReturn : List Char := "600260010060016000f3".toList

/-- The interpreter stops at STOP and prints no byte, translated code goes on and prints one. -/
theorem stop_goes_on :
    Evm.Prints (cemu .zero) ((Evm.init 1000).loadElf stopThenReturn) (.result []) ∧
    ¬ Qemu.Prints zeroQemu nineEach (Qemu.reset stopThenReturn 1000) (.result []) := by
  have hfacts :
      (iterate (Evm.clock (cemu .zero)) 3 ((Evm.init 1000).loadElf stopThenReturn)).isExit = true ∧
      (resultMessage
        ((iterate (Evm.clock (cemu .zero)) 3 ((Evm.init 1000).loadElf stopThenReturn)).get
          ((Evm.init 1000).loadElf stopThenReturn)).core).value = some (.result []) ∧
      (iterate (Qemu.step zeroQemu nineEach) 6 (Qemu.reset stopThenReturn 1000)).isExit = true ∧
      (resultMessage
        ((iterate (Qemu.step zeroQemu nineEach) 6 (Qemu.reset stopThenReturn 1000)).get
          (Qemu.reset stopThenReturn 1000)).env).value = some (.result [0]) := by
    decide +kernel
  obtain ⟨hexit, hvalue, hexit', hvalue'⟩ := hfacts
  constructor
  · obtain ⟨u, hu⟩ := Outcome.eq_ok_of_value hvalue
    exact ⟨3, _, u, Outcome.eq_exit_of_isExit hexit, hu⟩
  · rintro ⟨n, t, u, hn, hu⟩
    obtain ⟨u', hu'⟩ := Outcome.eq_ok_of_value hvalue'
    rw [← Run.exit_unique hn (Outcome.eq_exit_of_isExit hexit'), hu] at hu'
    cases hu'

end Programs

end GvmCore
