import GvmCore.SameResult

namespace GvmCore
open Exec VBignum Digits
set_option autoImplicit true

/-- Two states of one engine that differ only in what an earlier run may have left: words above
`sp`, memory size, gas, storage and program memory. -/
structure Alike (z : Int) (s t : Core w c) : Prop where
  data : SameData (z + 1) s t
  sp : SpAt s z
  sp' : SpAt t z
  high : z ≤ 2050
  regs : s.regs = t.regs
  elfSize : s.elfSize = t.elfSize
  pc : s.pc = t.pc
  fresh : s.Fresh 51
  fresh' : t.Fresh 51

theorem Alike.symm {s t : Core w c} (h : Alike z s t) : Alike z t s where
  data := ⟨fun i hi => (h.data.word i hi).symm, fun a => (h.data.cell a).symm⟩
  sp := h.sp'
  sp' := h.sp
  high := h.high
  regs := h.regs.symm
  elfSize := h.elfSize.symm
  pc := h.pc.symm
  fresh := h.fresh'
  fresh' := h.fresh

theorem Alike.withPc {s t : Core w c} (h : Alike z s t) (pc : BitVec 32) :
    Alike z { s with pc := pc } { t with pc := pc } :=
  ⟨h.data.congr rfl rfl rfl rfl, h.sp.congr rfl, h.sp'.congr rfl, h.high, h.regs, h.elfSize, rfl,
    h.fresh, h.fresh'⟩

theorem gasSub_zero (g : Reg) : gasSub g 0 = g :=
  regValue_injective (regValue_gasSub (Nat.zero_le _))

namespace Insn

/-- What an instruction reads of what may have been left is the same in both states. -/
def ReadsAlike (E : Engine w c) (s t : Core w c) (z : Int) : Insn → Prop
  | .push count => staleWord s z (count + 1) = staleWord t z (count + 1) ∧
      immediate E s (count + 1) = immediate E t (count + 1)
  | .mem takesAddr 4 => ∃ r, s.mainStorage.load ((memAddr s takesAddr z).setWidth 32) = some r ∧
      t.mainStorage.load ((memAddr s takesAddr z).setWidth 32) = some r
  | .mem _ 9 => s.memSize = t.memSize
  | .mem _ 10 => s.gasAvailable = t.gasAvailable
  | _ => True

section Alike

variable {E : Engine w c} {s t : Core w c} {I : Insn}

theorem ReadsAlike.same (h : Alike z s t) (hI : I.InRange) (hr : I.ReadsAlike E s t z) :
    I.Same E E (I.paid s z) (I.paid t z) z := by
  have hword : ∀ i ≤ z, s.word i = t.word i := fun i hi => h.data.word i (by omega)
  cases I with
  | noOp | chargeOnly | returnInst | dup | swap | compare => trivial
  | pushRegister gas reg =>
    change reg.value (paid s z _) = reg.value (paid t z _)
    rw [paid_keeps s, paid_keeps t]
    cases reg <;> simp only [Register.value, h.regs, h.elfSize]
  | push count =>
    change pushReg E (paid s z _) z _ = pushReg E (paid t z _) z _
    rw [pushReg_paid, pushReg_paid]
    exact (pushReg_iff hr.1 (Nat.succ_le_of_lt hI)).mpr hr.2
  | arithm op =>
    have hiff : _ ↔ (Insn.arithm op).ReadsSame E E s t z := arithmReg_paid_iff hword op
    apply hiff.mpr
    intro x y hm _
    have hc := conversions_pos hm
    rw [leftover_of_fresh h.fresh hc, leftover_of_fresh h.fresh' hc]
  | sha3 => rfl
  | mem takesAddr op =>
    apply memSame_paid takesAddr op h.pc
    · rintro rfl
      exact hr
    · rintro rfl
      exact congrArg _ (show s.memSize = t.memSize from hr)
    · rintro rfl
      exact hr

theorem ReadsAlike.exec (hE : E.heapCells = none) (h : Alike z s t) (hI : I.InRange)
    (h0 : I ≠ .arithm 0) (hr : I.ReadsAlike E s t z) (hs : I.Covered s) (ht : I.Covered t)
    (hlow : -2 ^ 31 ≤ z + I.delta) (hexec : I.exec E s = .ok pw s') :
    ∃ t', I.exec E t = .ok pw t' ∧ Alike (z + I.delta) s' t' := by
  have hword : ∀ i ≤ z, t.word i = s.word i := fun i hi => (h.data.word i (by omega)).symm
  have fs := exec_facts E hI h.sp hexec
  obtain ⟨hin, -, hfit, hwrite, heffect⟩ :=
    (exec_eq_ok_of_covered hI h.sp hs fun h' => absurd h' h0).mp hexec
  have hexec' : I.exec E t = .ok pw (I.effect E (I.paid t z) z) := by
    apply (exec_eq_ok_of_covered hI h.sp' ht fun h' => absurd h' h0).mpr
    refine ⟨hin, .inr ?_, (fits_congr hword I).mpr hfit, ?_, rfl⟩
    · rw [hE]
      rintro cells ⟨⟩
    · exact (write_congr hword h.pc.symm I).trans hwrite
  have ft := exec_facts E hI h.sp' hexec'
  refine ⟨_, hexec', ?_⟩
  have hmax := fs.high
  have hhigh := h.high
  constructor
  · have hpaid : SameData (z + 1) (I.paid s z) (I.paid t z) := by
      refine h.data.congr ?_ ?_ ?_ ?_ <;> rw [paid_keeps]
    have hdata := effect_same hpaid (by omega) (hr.same h hI)
    rw [heffect] at hdata
    exact hdata.mono (by omega)
  · exact ⟨fs.sp, hlow, by omega⟩
  · exact ⟨ft.sp, hlow, by omega⟩
  · omega
  · rw [fs.regs, ft.regs, h.regs]
  · rw [fs.elfSize, ft.elfSize, h.elfSize]
  · rw [fs.pc, ft.pc, h.pc]
  · exact fs.fresh h.fresh
  · exact ft.fresh h.fresh'

theorem ReadsAlike.symm (h : Alike z s t) (hr : I.ReadsAlike E s t z) : I.ReadsAlike E t s z := by
  have hword : ∀ i ≤ z, t.word i = s.word i := fun i hi => (h.data.word i (by omega)).symm
  cases I with
  | push count => exact ⟨hr.1.symm, hr.2.symm⟩
  | mem takesAddr op =>
    match op with
    | 4 =>
      obtain ⟨r, hs, ht⟩ := hr
      rw [← memAddr_congr hword] at hs ht
      exact ⟨r, ht, hs⟩
    | 9 | 10 => exact Eq.symm hr
    | 0 | 1 | 2 | 3 | 5 | 6 | 7 | 8 | 11 => trivial
    | n + 12 => trivial
  | _ => trivial

theorem Ends.report (hs : Ends E s z I s') (h : Alike z s t) (hex : I.Exceeds s → I.Exceeds t)
    (hgas : I = .returnInst ∨ I = .arithm 0 → (s.gasAvailable 0 = 0 ↔ t.gasAvailable 0 = 0))
    (hl : resultMessage { s' with pc := p } = .ok l u) : ∃ t', Ends E t z I t' ∧
      ∀ p', ∃ u', resultMessage { t' with pc := p' } = .ok l u' := by
  have hhigh := h.high
  have hlower := h.sp.lower
  cases hs with
  | returned =>
    refine ⟨t.charged 0, .returned, fun p' => ?_⟩
    have hsp : SpAt ({ s.charged 0 with pc := p } : Core w c) z := h.sp.congr rfl
    have hsp' : SpAt ({ t.charged 0 with pc := p' } : Core w c) z := h.sp'.congr rfl
    have hdata : SameData (z + 1) ({ s.charged 0 with pc := p } : Core w c)
      ({ t.charged 0 with pc := p' } : Core w c) := h.data.congr rfl rfl rfl rfl
    have hzero : gasSub s.gasAvailable 0 0 = 0 ↔ gasSub t.gasAvailable 0 0 = 0 := by
      rw [gasSub_zero, gasSub_zero]
      exact hgas (.inl rfl)
    exact resultMessage_same E E hsp hsp' hdata (by omega) hzero hl
  | stopped hthrows =>
    refine ⟨t.withSp (z + 3), .stopped hthrows, fun p' => ?_⟩
    have hsp : SpAt ({ s.withSp (z + 3) with pc := p } : Core w c) (z + 3) :=
      ⟨rfl, by omega, by omega⟩
    have hsp' : SpAt ({ t.withSp (z + 3) with pc := p' } : Core w c) (z + 3) :=
      ⟨rfl, by omega, by omega⟩
    have hdata : SameData (z + 1) ({ s.withSp (z + 3) with pc := p } : Core w c)
      ({ t.withSp (z + 3) with pc := p' } : Core w c) := h.data.congr rfl rfl rfl rfl
    exact resultMessage_same E E hsp hsp' hdata (by omega) (hgas (.inr rfl)) hl
  | outOfGas hthrows he =>
    refine ⟨(I.entry t z).drained, .outOfGas hthrows (hex he), fun p' => ?_⟩
    rw [resultMessage_of_zero rfl] at hl
    cases hl
    exact ⟨_, resultMessage_of_zero rfl⟩

end Alike

end Insn

namespace Evm

def goesTo (pc : BitVec 32) : PcWrite → BitVec 32
  | .none => pc + 1
  | .constChanged pc => pc
  | .withinInst pc => pc

theorem next_core (d : Evm) (pw : PcWrite) (t : Core 32 8) :
    (next d pw t).core = { t with pc := goesTo t.pc pw } := by
  cases pw <;> rfl

/-- Two devices read the same program byte, and their instruction reads the same of what may
have been left; both can pay for it or none, and an end with no gas is one on both. `sp` does
not wrap around. -/
structure ReadsAlike (W : World 32 8) (x y : Evm) : Prop where
  code : code (cemuWith none W) x = code (cemuWith none W) y
  reads : (Insn.decode (Evm.code (cemuWith none W) x)).ReadsAlike (cemuWith none W) x.core y.core
    x.core.sp.toInt
  exceeds : (Insn.decode (Evm.code (cemuWith none W) x)).Exceeds x.core ↔
    (Insn.decode (Evm.code (cemuWith none W) x)).Exceeds y.core
  gas : Evm.code (cemuWith none W) x ∈ [0x00, 0xf3] →
    (x.core.gasAvailable 0 = 0 ↔ y.core.gasAvailable 0 = 0)
  low : -2 ^ 31 ≤ x.core.sp.toInt + (Insn.decode (Evm.code (cemuWith none W) x)).delta

variable {W : World 32 8} {x y x' : Evm}

theorem ReadsAlike.symm (h : Alike z x.core y.core) (hr : ReadsAlike W x y) : ReadsAlike W y x := by
  have hsp : y.core.sp.toInt = x.core.sp.toInt := by rw [h.sp.sp, h.sp'.sp]
  have hz : x.core.sp.toInt = z := h.sp.toInt (cemuWith none W)
  constructor
  · exact hr.code.symm
  · rw [← hr.code, hsp, hz]
    exact Insn.ReadsAlike.symm h (hz ▸ hr.reads)
  · rw [← hr.code]
    exact hr.exceeds.symm
  · rw [← hr.code]
    exact fun hend => (hr.gas hend).symm
  · rw [← hr.code, hsp]
    exact hr.low

theorem ReadsAlike.clock (h : Alike z x.core y.core) (hr : ReadsAlike W x y)
    (hstep : clock (cemuWith none W) x = .ok () x') :
    ∃ y', Evm.clock (cemuWith none W) y = .ok () y' ∧ ∃ z, Alike z x'.core y'.core := by
  have hz : x.core.sp.toInt = z := h.sp.toInt (cemuWith none W)
  have hI := Insn.decode_inRange (Evm.code (cemuWith none W) x)
  rw [clock_eq, Outcome.into_eq_ok, mainDecode_eq, cemuWith_resolve] at hstep
  obtain ⟨pw, s', hexec, rfl⟩ := hstep
  have hunwinds := Insn.not_unwinds_of_ok hI h.sp hexec
  have hstop : Insn.decode (Evm.code (cemuWith none W) x) ≠ .arithm 0 :=
    fun h0 => hunwinds (.inr ⟨rfl, .inl h0⟩)
  have hcovered : ¬ (Insn.decode (Evm.code (cemuWith none W) x)).Exceeds x.core :=
    fun hex => hunwinds (.inr ⟨rfl, .inr hex⟩)
  obtain ⟨t', hexec', halike⟩ := Insn.ReadsAlike.exec rfl h hI hstop (hz ▸ hr.reads)
    ((Insn.covered_iff _ _).mpr hcovered) ((Insn.covered_iff _ _).mpr (mt hr.exceeds.mpr hcovered))
    (hz ▸ hr.low) hexec
  refine ⟨Evm.next y pw t', ?_, z + (Insn.decode (Evm.code (cemuWith none W) x)).delta, ?_⟩
  · rw [clock_eq, Outcome.into_eq_ok, mainDecode_eq, cemuWith_resolve, ← hr.code]
    exact ⟨pw, t', hexec', rfl⟩
  · rw [next_core, next_core, ← halike.pc]
    exact halike.withPc _

theorem ReadsAlike.ends (h : Alike z x.core y.core) (hr : ReadsAlike W x y)
    (hexit : Evm.clock (cemuWith none W) x = .exit x') (hl : resultMessage x'.core = .ok l u) :
    ∃ y' u', Evm.clock (cemuWith none W) y = .exit y' ∧ resultMessage y'.core = .ok l u' := by
  rw [clock_eq, Outcome.into_eq_exit, mainDecode_eq, cemuWith_resolve] at hexit
  obtain ⟨s', hexec, rfl⟩ := hexit
  have hin := ((Insn.exec_eq_exit _ h.sp).mp hexec).1
  have hgas : Insn.decode (Evm.code (cemuWith none W) x) = .returnInst ∨
      Insn.decode (Evm.code (cemuWith none W) x) = .arithm 0 →
      (x.core.gasAvailable 0 = 0 ↔ y.core.gasAvailable 0 = 0) := by
    rw [decode_eq_returnInst, decode_eq_stop]
    intro hend
    apply hr.gas
    simpa using hend.symm
  obtain ⟨t', hends, hreport⟩ := (Insn.Ends.of_exec h.sp hexec).report h hr.exceeds.mp hgas hl
  have hexec' := hends.exec h.sp' hin (.inr (by rintro cells ⟨⟩))
  obtain ⟨u', hu'⟩ := hreport y.pcWrite
  refine ⟨Evm.halted y t', u', ?_, hu'⟩
  rw [clock_eq, Outcome.into_eq_exit, mainDecode_eq, cemuWith_resolve, ← hr.code]
  exact ⟨t', hexec', rfl⟩

/-- The states two devices reach in the same number of steps. -/
def Together (E : Engine 32 8) (x₀ y₀ x y : Evm) : Prop :=
  ∃ k, iterate (Evm.clock E) k x₀ = .ok () x ∧ iterate (Evm.clock E) k y₀ = .ok () y

section Together

variable {x₀ y₀ : Evm} (h : ∃ z, Alike z x₀.core y₀.core)
  (hreads : ∀ x y, Together (cemuWith none W) x₀ y₀ x y → ReadsAlike W x y)

include h hreads

/-- Devices that start alike and read alike stay alike. -/
theorem Together.alike (ht : Together (cemuWith none W) x₀ y₀ x y) :
    ∃ z, Alike z x.core y.core := by
  obtain ⟨k, hx, hy⟩ := ht
  induction k generalizing x y with
  | zero =>
    cases hx
    cases hy
    exact h
  | succ k ih =>
    obtain ⟨x₁, hx₁, hstep⟩ := iterate_succ_eq_ok_last.mp hx
    obtain ⟨y₁, hy₁, hstep'⟩ := iterate_succ_eq_ok_last.mp hy
    obtain ⟨z, halike⟩ := ih hx₁ hy₁
    obtain ⟨y', hy', hnext⟩ := (hreads x₁ y₁ ⟨k, hx₁, hy₁⟩).clock halike hstep
    rw [hstep'] at hy'
    cases hy'
    exact hnext

theorem Prints.of_alike (hprints : Prints (cemuWith none W) x₀ l) :
    Prints (cemuWith none W) y₀ l := by
  obtain ⟨n, x', u, hiter, hl⟩ := hprints
  obtain ⟨k, -, x, hx, hexit⟩ := iterate_eq_exit.mp hiter
  obtain ⟨hist, -, hrun⟩ := Run.of_iterate hx
  obtain ⟨hist', y, hrun', ht⟩ :=
    hrun.simulate (R := Together (cemuWith none W) x₀ y₀) ⟨0, rfl, rfl⟩ (by
    intro hist x y x' _ ht hstep
    obtain ⟨z, halike⟩ := ht.alike h hreads
    obtain ⟨y', hstep', -⟩ := (hreads x y ht).clock halike hstep
    obtain ⟨k, hk, hk'⟩ := ht
    exact ⟨y', hstep', k + 1, iterate_succ_eq_ok_last.mpr ⟨x, hk, hstep⟩,
      iterate_succ_eq_ok_last.mpr ⟨y, hk', hstep'⟩⟩)
  obtain ⟨z, halike⟩ := ht.alike h hreads
  obtain ⟨y', u', hexit', hl'⟩ := (hreads x y ht).ends halike hexit hl
  exact ⟨_, y', u', iterate_eq_exit.mpr ⟨_, Nat.lt_succ_self _, y, hrun'.iterate_eq, hexit'⟩, hl'⟩

theorem Prints.alike_iff (l : Line) :
    Prints (cemuWith none W) x₀ l ↔ Prints (cemuWith none W) y₀ l := by
  constructor
  · exact Prints.of_alike h hreads
  · apply Prints.of_alike
    · obtain ⟨z, halike⟩ := h
      exact ⟨z, halike.symm⟩
    · rintro y x ⟨k, hy, hx⟩
      have ht : Together (cemuWith none W) x₀ y₀ x y := ⟨k, hx, hy⟩
      obtain ⟨z, halike⟩ := ht.alike h hreads
      exact (hreads x y ht).symm halike

end Together

theorem ended_keeps
    (h : iterate (Evm.clock (cemuWith none W)) n ((init limit).loadElf text) = .exit d) :
    d.core.regs = (init limit).core.regs ∧ d.core.Fresh 51 := by
  obtain ⟨k, -, x, hx, hexit⟩ := iterate_eq_exit.mp h
  obtain ⟨hist, -, hrun⟩ := Run.of_iterate hx
  have hkeeps : x.core.regs = (init limit).core.regs ∧ x.core.Fresh 51 := by
    refine hrun.invariant (I := fun x => x.core.regs = (init limit).core.regs ∧ x.core.Fresh 51)
      ⟨rfl, fun _ _ => rfl⟩ ?_
    rintro x x' ⟨hregs, hfresh⟩ hstep
    obtain ⟨t, pc, hf, hcore⟩ :=
      Driver.step_facts (D := driver (cemuWith none W)) (spAt_toInt x.core) hstep
    have hcore' : x'.core = { t with pc := pc } := hcore
    rw [hcore']
    exact ⟨hf.regs.trans hregs, hf.fresh hfresh⟩
  obtain ⟨t, pc, hends, hcore⟩ :=
    Driver.exit_facts (D := driver (cemuWith none W)) (spAt_toInt x.core) hexit
  have hcore' : d.core = { t with pc := pc } := hcore
  rw [hcore']
  exact ⟨hends.regs.trans hkeeps.1, hends.fresh hkeeps.2⟩

/-- A device that is used again and a new one start alike. -/
theorem loadElf_alike {d : Evm} (hregs : d.core.regs = (init limit).core.regs)
    (hfresh : d.core.Fresh 51)
    (text : List Char) :
    Alike (-1) (d.resetDevice.loadElf text).core ((init limit).loadElf text).core := by
  constructor
  · constructor
    · intro i hi
      have hout : ¬ InStack i := fun hin => by have := hin.1; omega
      rw [word_of_not_inStack _ hout, word_of_not_inStack _ hout]
    · intro a
      simp only [Core.cell]
      split <;> rfl
  · exact ⟨rfl, by decide, by decide⟩
  · exact ⟨rfl, by decide, by decide⟩
  · decide
  · exact hregs
  · rfl
  · rfl
  · exact hfresh
  · exact fun _ _ => rfl

/-- On a device that has run `P`, `Q` prints what it prints on a new device, when its
instructions read nothing that differs because of `P`. -/
theorem no_leftovers
    (hP : iterate (Evm.clock (cemuWith none W)) n ((init limit).loadElf P) = .exit d)
    (hreads : ∀ x y,
      Together (cemuWith none W) (d.resetDevice.loadElf Q) ((init limit).loadElf Q) x y →
      ReadsAlike W x y) (l : Line) :
    Prints (cemuWith none W) (d.resetDevice.loadElf Q) l ↔
      Prints (cemuWith none W) ((init limit).loadElf Q) l := by
  obtain ⟨hregs, hfresh⟩ := ended_keeps hP
  exact Prints.alike_iff ⟨-1, loadElf_alike hregs hfresh Q⟩ hreads l

section Twice

def returnOneEnd (limit : Word) : Evm :=
  (iterate (Evm.clock (cemuWith none .zero)) 3 ((init limit).loadElf returnOne)).get (init limit)

def returnOneAgain (limit : Word) : Nat → Evm :=
  after (Evm.clock (cemuWith none .zero)) ((returnOneEnd limit).resetDevice.loadElf returnOne)

def returnOneNew (limit : Word) : Nat → Evm :=
  after (Evm.clock (cemuWith none .zero)) ((init limit).loadElf returnOne)

@[mk_iff]
structure AtReturnOne (x y : Evm) (b : BitVec 8) (z : Int) : Prop where
  code : Evm.code (cemuWith none .zero) x = b
  code' : Evm.code (cemuWith none .zero) y = b
  gas : 3 ≤ x.core.gas
  gas' : 3 ≤ y.core.gas
  word : x.core.gasAvailable 0 ≠ 0
  word' : y.core.gasAvailable 0 ≠ 0
  sp : x.core.sp = BitVec.ofInt 32 z
  immediate :
    immediate (cemuWith none .zero) x.core 1 = GvmCore.immediate (cemuWith none .zero) y.core 1

instance (x y : Evm) (b : BitVec 8) (z : Int) : Decidable (AtReturnOne x y b z) :=
  decidable_of_iff' _ (atReturnOne_iff x y b z)

theorem AtReturnOne.readsAlike (h : AtReturnOne x y b z) (hb : b = 0x60 ∨ b = 0xf3) (hz : -1 ≤ z)
    (hz' : z < 2048) : ReadsAlike .zero x y := by
  have hsp : x.core.sp.toInt = z := by
    rw [h.sp]
    exact toInt_ofInt_of_bounds le_rfl (by omega) (by omega)
  have hexceeds : ∀ I : Insn, (I.charge.getD 0).toNat ≤ 3 →
      ∀ s : Core 32 8, 3 ≤ s.gas → ¬ I.Exceeds s := by
    rintro I hI s hs ⟨v, hv, hlt⟩
    rw [Option.mem_def.mp hv] at hI
    exact absurd (hI.trans hs) (Nat.not_le.mpr hlt)
  have hdecode : Insn.decode b = .push 0 ∨ Insn.decode b = .returnInst := by
    rcases hb with rfl | rfl
    · exact .inl (by decide)
    · exact .inr (by decide)
  constructor
  · rw [h.code, h.code']
  · rw [h.code]
    rcases hdecode with hI | hI
    · rw [hI]
      exact ⟨rfl, h.immediate⟩
    · rw [hI]
      trivial
  · rw [h.code]
    rcases hdecode with hI | hI
    · rw [hI]
      exact iff_of_false (hexceeds _ (by decide) _ h.gas) (hexceeds _ (by decide) _ h.gas')
    · rw [hI]
      exact iff_of_false (hexceeds _ (by decide) _ h.gas) (hexceeds _ (by decide) _ h.gas')
  · exact fun _ => iff_of_false h.word h.word'
  · rw [h.code, hsp]
    have := (Insn.decode b).delta_ge
    omega

theorem returnOne_twice :
    AtReturnOne (returnOneAgain 1000 0) (returnOneNew 1000 0) 0x60 (-1) ∧
    AtReturnOne (returnOneAgain 1000 1) (returnOneNew 1000 1) 0x60 3 ∧
    AtReturnOne (returnOneAgain 1000 2) (returnOneNew 1000 2) 0xf3 7 := by
  decide +kernel

theorem returnOne_ends (limit : Word)
    (h : (iterate (Evm.clock (cemuWith none .zero)) 3
      ((init limit).loadElf returnOne)).isExit = true) :
    iterate (Evm.clock (cemuWith none .zero)) 3 ((init limit).loadElf returnOne) =
      .exit (returnOneEnd limit) := by
  unfold returnOneEnd
  exact Outcome.eq_exit_of_isExit h

theorem returnOne_prints :
    (iterate (Evm.clock (cemuWith none .zero)) 3 ((init 1000).loadElf returnOne)).isExit = true ∧
      (resultMessage (returnOneEnd 1000).core).value = some (.result [0]) := by
  decide +kernel

theorem AtReturnOne.readsAlike_of_lt {f g : Nat → Evm} (h₀ : AtReturnOne (f 0) (g 0) 0x60 (-1))
    (h₁ : AtReturnOne (f 1) (g 1) 0x60 3) (h₂ : AtReturnOne (f 2) (g 2) 0xf3 7) (hk : k < 3) :
    ReadsAlike .zero (f k) (g k) := by
  match k with
  | 0 => exact h₀.readsAlike (.inl rfl) (by decide) (by decide)
  | 1 => exact h₁.readsAlike (.inl rfl) (by decide) (by decide)
  | 2 => exact h₂.readsAlike (.inr rfl) (by decide) (by decide)

theorem returnOne_together (h : Together (cemuWith none .zero)
    ((returnOneEnd 1000).resetDevice.loadElf returnOne) ((init 1000).loadElf returnOne) x y) :
    ReadsAlike .zero x y := by
  obtain ⟨k, hx, hy⟩ := h
  obtain ⟨hist, hlen, hrun⟩ := Run.of_iterate hy
  have hlt := (hrun.eq_after returnOne_prints.1).1
  have hx' : x = returnOneAgain 1000 k := by
    rw [returnOneAgain, after, hx]
    rfl
  have hy' : y = returnOneNew 1000 k := by
    rw [returnOneNew, after, hy]
    rfl
  obtain ⟨h₀, h₁, h₂⟩ := returnOne_twice
  rw [hx', hy']
  exact AtReturnOne.readsAlike_of_lt h₀ h₁ h₂ (hlen ▸ hlt)

theorem no_leftovers_return : Prints (cemuWith none .zero)
    ((returnOneEnd 1000).resetDevice.loadElf returnOne) (.result [0]) := by
  obtain ⟨hexit, hvalue⟩ := returnOne_prints
  have hend := returnOne_ends 1000 hexit
  have htogether := @returnOne_together
  obtain ⟨u, hu⟩ := Outcome.eq_ok_of_value hvalue
  generalize returnOneEnd 1000 = d at *
  apply (no_leftovers hend (fun x y => htogether) (.result [0])).mpr
  exact ⟨3, d, u, hend, hu⟩

def returnOneStarved : Evm :=
  (iterate (Evm.clock (cemuWith none .zero)) 1
    ((returnOneEnd 8).resetDevice.loadElf returnOne)).get (init 8)

theorem returnOne_starves :
    (iterate (Evm.clock (cemuWith none .zero)) 3 ((init 8).loadElf returnOne)).isExit = true ∧
    (resultMessage (returnOneEnd 8).core).value = some (.result [0]) ∧
    (iterate (Evm.clock (cemuWith none .zero)) 1
      ((returnOneEnd 8).resetDevice.loadElf returnOne)).isExit = true ∧
    (resultMessage returnOneStarved.core).value ≠ some (.result [0]) := by
  decide +kernel

/-- The gas is not reset: what is left of it does not pay for the second run. -/
theorem gas_left_over : ∃ d,
    iterate (Evm.clock (cemuWith none .zero)) 3 ((init 8).loadElf returnOne) = .exit d ∧
    Prints (cemuWith none .zero) ((init 8).loadElf returnOne) (.result [0]) ∧
    ¬ Prints (cemuWith none .zero) (d.resetDevice.loadElf returnOne) (.result [0]) := by
  obtain ⟨hexit, hvalue, hexit', hvalue'⟩ := returnOne_starves
  have hend := returnOne_ends 8 hexit
  have hend' : iterate (Evm.clock (cemuWith none .zero)) 1
      ((returnOneEnd 8).resetDevice.loadElf returnOne) = .exit returnOneStarved := by
    unfold returnOneStarved
    exact Outcome.eq_exit_of_isExit hexit'
  generalize returnOneStarved = t at *
  generalize returnOneEnd 8 = d at *
  obtain ⟨u, hu⟩ := Outcome.eq_ok_of_value hvalue
  refine ⟨d, hend, ⟨3, d, u, hend, hu⟩, ?_⟩
  rintro ⟨n, t', u', hexits, hprints⟩
  rw [Run.exit_unique hexits hend'] at hprints
  apply hvalue'
  rw [hprints]
  rfl

end Twice

end Evm

end GvmCore
