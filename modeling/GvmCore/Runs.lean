import GvmCore.Covered
import GvmCore.Decoding
import GvmCore.Driver

namespace GvmCore
open Exec Signed
set_option autoImplicit true

theorem forall_suffix_cons {P : σ → List σ → Prop} (t u : σ) (hist : List σ) :
    (∀ v rest, v :: rest <:+ u :: t :: hist → P v rest) ↔
      P u (t :: hist) ∧ ∀ v rest, v :: rest <:+ t :: hist → P v rest := by
  simp only [List.suffix_cons_iff (a := u), List.cons.injEq, or_imp, forall_and, and_imp, forall_eq,
    forall_eq_apply_imp_iff]

theorem forall_suffix_start {P : σ → List σ → Prop} (s : σ) :
    (∀ v rest, v :: rest <:+ [s] → P v rest) ↔ P s [] := by
  simp [List.suffix_cons_iff]

theorem Insn.decode_inRange (ocode : BitVec 8) : (Insn.decode ocode).InRange := by
  have h5 : (ocode &&& 0x1f).toNat < 32 := by
    rw [BitVec.toNat_and]
    exact Nat.lt_of_le_of_lt Nat.and_le_right (by decide)
  have h4 : (ocode &&& 0xf).toNat < 16 := by
    rw [BitVec.toNat_and]
    exact Nat.lt_of_le_of_lt Nat.and_le_right (by decide)
  have hsystem : ∀ n, (Insn.system n).InRange := fun n => by unfold system; split <;> trivial
  have haccounts : ∀ n, (Insn.accountsData n).InRange := fun n => by
    unfold accountsData
    split <;> trivial
  have hchain : ∀ n, (Insn.blockChain n).InRange := fun n => by unfold blockChain; split <;> trivial
  unfold decode
  dsimp only
  split
  case h_1 => exact hsystem _
  case h_5 => exact hchain _
  case h_6 => exact haccounts _
  case h_7 => exact h5
  case h_8 => exact h4
  case h_9 => exact h4
  all_goals trivial

theorem Engine.resolve_inRange (E : Engine w c) (s : Core w c) (ocode : BitVec 8) :
    (E.resolve s ocode).InRange := by
  unfold resolve
  dsimp only
  split
  case h_4 => exact Insn.decode_inRange ocode
  all_goals trivial

namespace Driver

variable (D : Driver w c σ)

def insn (d : σ) : Insn := D.engine.resolve (D.core d) (D.code d)

variable {D}

theorem insn_inRange (d : σ) : (D.insn d).InRange := D.engine.resolve_inRange _ _

theorem insn_of_listed (h : Listed (D.code d)) : D.insn d = Insn.decode (D.code d) :=
  resolve_of_listed _ _ h

theorem step_eq_ok : D.step d = .ok u d' ↔ ∃ pw t,
    (D.insn d).exec D.engine (D.core d) = .ok pw t ∧ D.next d pw t = d' := by
  rw [D.step_eq, Outcome.into_eq_ok, mainDecode_eq]
  rfl

/-- The step of an instruction that is paid for and finds its operands and cells. -/
theorem step_eq_ok_of_covered (hz : SpAt (D.core d) z) (hc : (D.insn d).Covered (D.core d))
    (h0 : D.insn d ≠ .arithm 0) (hin : (D.insn d).EntryIn z) (hfit : (D.insn d).Fits (D.core d) z) :
    D.step d = .ok () d' ↔ D.engine.HeapServes (D.core d).heapPos ((D.insn d).need (D.core d) z) ∧
      D.next d ((D.insn d).write (D.core d) z)
        ((D.insn d).effect D.engine ((D.insn d).paid (D.core d) z) z) = d' := by
  have hexec : ∀ pw t, (D.insn d).exec D.engine (D.core d) = .ok pw t ↔ _ := fun pw t =>
    Insn.exec_eq_ok_of_covered (insn_inRange d) hz hc fun h => absurd h h0
  rw [step_eq_ok]
  simp only [hexec]
  constructor
  · rintro ⟨pw, t, ⟨-, hheap, -, rfl, rfl⟩, hd⟩
    exact ⟨hheap, hd⟩
  · rintro ⟨hheap, hd⟩
    exact ⟨_, _, ⟨hin, hheap, hfit, rfl, rfl⟩, hd⟩

theorem completes_iff_goesOn (hz : SpAt (D.core d) z) (hE : D.engine.checkErrorThrows = false) :
    (∃ d', D.step d = .ok () d') ↔ (D.insn d).GoesOn D.engine (D.core d) := by
  rw [← Insn.completes_iff_goesOn (insn_inRange d) hz hE]
  constructor
  · rintro ⟨d', h⟩
    obtain ⟨pw, t, hexec, -⟩ := step_eq_ok.mp h
    exact ⟨pw, t, hexec⟩
  · rintro ⟨pw, t, hexec⟩
    exact ⟨_, step_eq_ok.mpr ⟨pw, t, hexec, rfl⟩⟩

theorem step_eq_exit : D.step d = .exit d' ↔ ∃ t,
    (D.insn d).exec D.engine (D.core d) = .exit t ∧ D.halted d t = d' := by
  rw [D.step_eq, Outcome.into_eq_exit, mainDecode_eq]
  rfl

theorem step_eq_fault :
    D.step d = .fault f ↔ (D.insn d).exec D.engine (D.core d) = .fault f := by
  rw [D.step_eq, Outcome.into_eq_fault, mainDecode_eq]
  rfl

/-- What one returned step does to the machine; its `pc` is the driver's business. -/
theorem step_facts (hz : SpAt (D.core d) z) (h : D.step d = .ok u d') : ∃ t pc,
    StepFacts D.engine (D.insn d) (D.core d) t z ∧ D.core d' = { t with pc := pc } := by
  obtain ⟨pw, t, hexec, rfl⟩ := step_eq_ok.mp h
  obtain ⟨pc, hpc⟩ := D.core_next d pw t
  exact ⟨t, pc, Insn.exec_facts D.engine (insn_inRange d) hz hexec, hpc⟩

theorem exit_facts (hz : SpAt (D.core d) z) (h : D.step d = .exit d') : ∃ t pc,
    Insn.Ends D.engine (D.core d) z (D.insn d) t ∧ D.core d' = { t with pc := pc } := by
  obtain ⟨t, hexec, rfl⟩ := step_eq_exit.mp h
  obtain ⟨pc, hpc⟩ := D.core_halted d t
  exact ⟨t, pc, .of_exec hz hexec, hpc⟩

/-- A step that has a defined outcome ends the run exactly when its instruction unwinds. -/
theorem step_exits_iff (hz : SpAt (D.core d) z) (hdef : ∀ f, D.step d ≠ .fault f) :
    (∃ d', D.step d = .exit d') ↔ (D.insn d).Unwinds D.engine (D.core d) := by
  rw [← Insn.exec_exits_iff (insn_inRange d) hz fun f hf => hdef f (step_eq_fault.mpr hf)]
  constructor
  · rintro ⟨d', h⟩
    obtain ⟨t, ht, -⟩ := step_eq_exit.mp h
    exact ⟨t, ht⟩
  · rintro ⟨t, ht⟩
    exact ⟨_, step_eq_exit.mpr ⟨t, ht, rfl⟩⟩

end Driver

theorem memDelta_ge (op : Nat) : -4 ≤ memDelta op := by
  unfold memDelta
  split <;> omega

theorem arithmArity_le (op : Nat) : arithmArity op ≤ 3 := by
  unfold arithmArity
  split
  · omega
  · split <;> omega

theorem compareArity_le (op : Nat) : compareArity op ≤ 3 := by
  unfold compareArity
  split
  · omega
  · split <;> omega

theorem resultDelta_ge (h : k ≤ 3) : -8 ≤ resultDelta k := by
  unfold resultDelta
  split <;> omega

theorem Insn.delta_ge (I : Insn) : -8 ≤ I.delta := by
  cases I with
  | mem takesAddr op =>
    have := memDelta_ge op
    cases takesAddr <;> simp only [delta, memBase, if_true, Bool.false_eq_true, if_false] <;> omega
  | arithm op => exact resultDelta_ge (arithmArity_le op)
  | compare op => exact resultDelta_ge (compareArity_le op)
  | _ => simp only [delta]; omega

theorem memDelta_of_free (h : memGas op = none) : memDelta op = 0 := by
  match op with
  | n + 12 => rfl

theorem Insn.delta_of_free {I : Insn} (h : I.conversions = 0) (hin : I.EntryIn z) :
    0 ≤ I.delta ∨ -1 ≤ z + I.delta := by
  have harity : I.arity = 0 := by
    unfold conversions at h
    omega
  cases I with
  | mem takesAddr op =>
    have hgas : memGas op = none := by
      cases hg : memGas op with
      | none => rfl
      | some v => simp [conversions, charge, hg] at h
    have hdelta := memDelta_of_free hgas
    cases takesAddr with
    | true =>
      have h3 : 0 ≤ z - 3 := hin.1
      simp only [delta, memBase, hdelta, if_true]
      omega
    | false => exact .inl (by simp [delta, memBase, hdelta])
  | arithm op =>
    have hk : arithmArity op = 0 := harity
    simp [delta, resultDelta, hk]
  | compare op =>
    have hk : compareArity op = 0 := harity
    simp [delta, resultDelta, hk]
  | _ => simp [conversions, charge, arity] at h <;> simp [delta]

/-- `sp` stays near the stack: going below it takes charges, which use up the digit heap. -/
structure Bounded (s : Core w c) (z : Int) : Prop where
  sp : s.sp = BitVec.ofInt w z
  low : 0 ≤ 65 * (z + 1) + 8 * (s.heapPos : Int)
  high : z ≤ 2050
  heap : s.heapPos ≤ heapSize

theorem Bounded.lower {s : Core w c} (h : Bounded s z) : -257 ≤ z := by
  have hl := h.low
  have hh := h.heap
  simp only [heapSize] at hh
  omega

theorem Bounded.spAt {s : Core w c} (h : Bounded s z) : SpAt s z := by
  have hl := h.lower
  have hu := h.high
  exact ⟨h.sp, by omega, by omega⟩

theorem Bounded.step {E : Engine w c} {s t : Core w c} (hE : E.heapCells = some heapSize)
    (h : Bounded s z) (f : StepFacts E I s t z) : Bounded t (z + I.delta) := by
  have hl := h.low
  have hu := h.high
  have hpos := f.heapPos
  have hhigh := f.high
  have hdelta := I.delta_ge
  refine ⟨f.sp, ?_, by omega, ?_⟩
  · by_cases hc : I.conversions = 0
    · have := Insn.delta_of_free hc f.entryIn
      rw [hpos, hc]
      omega
    · rw [hpos]
      push_cast
      omega
  · rcases f.room with hc | hroom
    · have := h.heap
      omega
    · have := hroom heapSize hE
      omega

structure Core.Start (s : Core w c) (limit : Word) : Prop where
  sp : s.sp = BitVec.ofInt w (-1)
  heapPos : s.heapPos = 0
  heap : ∀ i, s.heap i = 0
  gas : s.gasAvailable = gasWords limit
  storage : s.mainStorage = emptyStorage

/-- Either engine with a file, after a reset. The device may have run before, and has what is left
of the digit heap. -/
inductive Loaded : {w c : Nat} → {σ : Type} → Driver w c σ → σ → Prop
  | cemu (W : World 32 8) (d : Evm) (hheap : d.core.heapPos ≤ heapSize) (text : List Char) :
      Loaded (Evm.driver (cemu W)) (d.loadElf text)
  | qemu (argList : Nat → Core 64 64 → Word → Word) (W : World 64 64) (limits : Nat → Nat)
      (limit : Word) (text : List Char) :
      Loaded (Qemu.driver (qemu argList W) limits) (Qemu.reset text limit)

theorem Loaded.heapCells {D : Driver w c σ} (h : Loaded D d₀) :
    D.engine.heapCells = some heapSize := by
  cases h <;> rfl

theorem Loaded.bounded_start {D : Driver w c σ} (h : Loaded D d₀) : Bounded (D.core d₀) (-1) := by
  cases h with
  | cemu W d hheap text => exact ⟨rfl, by omega, by omega, hheap⟩
  | qemu argList W limits limit text => exact ⟨rfl, by omega, by omega, Nat.zero_le _⟩

theorem Loaded.bounded {D : Driver w c σ} (h : Loaded D d₀) (hrun : Run D.step d₀ hist d) :
    ∃ z, Bounded (D.core d) z := by
  refine hrun.invariant (I := fun d => ∃ z, Bounded (D.core d) z) ⟨-1, h.bounded_start⟩ ?_
  rintro d d' ⟨z, hz⟩ hstep
  obtain ⟨t, pc, hf, hcore⟩ := Driver.step_facts hz.spAt hstep
  have ht := hz.step h.heapCells hf
  exact ⟨z + (D.insn d).delta, by rw [hcore]; exact ⟨ht.sp, ht.low, ht.high, ht.heap⟩⟩

/-- A device that `InitSys` has made. What it does not initialise may be anything. -/
structure Evm.Created (d : Evm) (limit : Word) : Prop where
  heapPos : d.core.heapPos = 0
  heap : ∀ i, d.core.heap i = 0
  gas : d.core.gasAvailable = gasWords limit
  storage : d.core.mainStorage = emptyStorage

theorem Evm.created_init (limit : Word) : (Evm.init limit).Created limit :=
  ⟨rfl, fun _ => rfl, rfl, rfl⟩

/-- The first run of either engine on a file. -/
inductive Started : {w c : Nat} → {σ : Type} → Driver w c σ → Word → σ → Prop
  | cemu (W : World 32 8) (limit : Word) (text : List Char) (d : Evm) (hd : d.Created limit) :
      Started (Evm.driver (cemu W)) limit (d.loadElf text)
  | qemu (argList : Nat → Core 64 64 → Word → Word) (W : World 64 64) (limits : Nat → Nat)
      (limit : Word) (text : List Char) :
      Started (Qemu.driver (qemu argList W) limits) limit (Qemu.reset text limit)

theorem Started.init (W : World 32 8) (limit : Word) (text : List Char) :
    Started (Evm.driver (GvmCore.cemu W)) limit ((Evm.init limit).loadElf text) :=
  .cemu W limit text _ (Evm.created_init limit)

theorem Started.start {D : Driver w c σ} (h : Started D limit d₀) : (D.core d₀).Start limit := by
  cases h with
  | cemu W limit text d hd => exact ⟨rfl, hd.heapPos, hd.heap, hd.gas, hd.storage⟩
  | qemu argList W limits limit text => exact ⟨rfl, rfl, fun _ => rfl, rfl, rfl⟩

theorem Started.loaded {D : Driver w c σ} (h : Started D limit d₀) : Loaded D d₀ := by
  cases h with
  | cemu W limit text d hd => exact .cemu W d (hd.heapPos ▸ Nat.zero_le _) text
  | qemu argList W limits limit text => exact .qemu argList W limits limit text

theorem Started.heapCells {D : Driver w c σ} (h : Started D limit d₀) :
    D.engine.heapCells = some heapSize :=
  h.loaded.heapCells

theorem Started.bounded {D : Driver w c σ} (h : Started D limit d₀) (hrun : Run D.step d₀ hist d) :
    ∃ z, Bounded (D.core d) z :=
  h.loaded.bounded hrun

end GvmCore
