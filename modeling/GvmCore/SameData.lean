import GvmCore.StepFacts

namespace GvmCore
open Exec VBignum Signed
set_option autoImplicit true

/-- Two machines, of one width or two, hold the same stack words below `m` and the same memory. -/
structure SameData (m : Int) (s : Core w c) (s' : Core w' c') : Prop where
  word : ∀ i < m, s.word i = s'.word i
  cell : ∀ a, (s.cell a).toNat = (s'.cell a).toNat

theorem word_of_not_inStack (s : Core w c) (h : ¬ InStack i) : s.word i = 0 := dif_neg h

namespace SameData

variable {s : Core w c} {s' : Core w' c'}

theorem mono (h : SameData m s s') (hm : n ≤ m) : SameData n s s' :=
  ⟨fun i hi => h.word i (by omega), h.cell⟩

theorem congr {t : Core w c} {t' : Core w' c'} (h : SameData m s s') (h1 : t.stackArr = s.stackArr)
    (h2 : t.dataBus = s.dataBus) (h1' : t'.stackArr = s'.stackArr)
    (h2' : t'.dataBus = s'.dataBus) : SameData m t t' := by
  constructor
  · intro i hi
    have := h.word i hi
    simpa only [Core.word, h1, h1'] using this
  · intro a
    have := h.cell a
    simpa only [Core.cell, h2, h2'] using this

theorem withSp (h : SameData m s s') (y y' : Int) : SameData m (s.withSp y) (s'.withSp y') :=
  h.congr rfl rfl rfl rfl

theorem reg (h : SameData m s s') (hi : i + 3 < m) : s.reg i = s'.reg i := by
  funext k
  exact h.word _ (by omega)

theorem element (h : SameData m s s') (hz : z < m) (k : Nat) : s.element z k = s'.element z k :=
  h.reg (by omega)

theorem address (h : SameData m s s') (hz : z < m) : s.address z = s'.address z := by
  unfold Core.address
  rw [h.word _ (by omega)]

theorem takeOperands (h : SameData m s s') (hz : z < m) (k : Nat) :
    takeOperands s z k = takeOperands s' z k := by
  simp only [GvmCore.takeOperands, h.element hz]

theorem cell_setWidth (h : SameData m s s') (a n : Nat) :
    (s.cell a).setWidth n = (s'.cell a).setWidth n := by
  apply BitVec.eq_of_toNat_eq
  rw [BitVec.toNat_setWidth, BitVec.toNat_setWidth, h.cell]

theorem loadReg (h : SameData m s s') (a : Nat) : s.loadReg a = s'.loadReg a := by
  funext k
  simp only [Core.loadReg, Core.loadWord, h.cell_setWidth]

theorem bytes (h : SameData m s s') (offs size : Nat) : s.bytes offs size = s'.bytes offs size := by
  simp only [Core.bytes, h.cell_setWidth]

theorem setWord (h : SameData m s s') (i : Int) (v : Word) :
    SameData m (s.setWord i v) (s'.setWord i v) := by
  constructor
  · intro j hj
    by_cases hi : InStack i
    · by_cases hji : j = i
      · subst hji
        rw [Core.word_setWord_same s hi, Core.word_setWord_same s' hi]
      · rw [Core.word_setWord_ne s hji, Core.word_setWord_ne s' hji, h.word j hj]
    · simpa [Core.setWord, hi] using h.word j hj
  · intro a
    rw [Core.setWord_eq s, Core.setWord_eq s']
    exact h.cell a

theorem putReg (h : SameData m s s') (i : Int) (r : Reg) :
    SameData m (s.putReg i r) (s'.putReg i r) :=
  (((h.setWord _ _).setWord _ _).setWord _ _).setWord _ _

theorem putReg_max (h : SameData m s s') (hi : i ≤ m) (r : Reg) :
    SameData (max m (i + 4)) (s.putReg i r) (s'.putReg i r) := by
  refine ⟨fun j hj => ?_, (h.putReg i r).cell⟩
  by_cases hjm : j < m
  · exact (h.putReg i r).word j hjm
  · obtain ⟨k, rfl⟩ : ∃ k : Fin 4, j = i + (k : Nat) :=
      ⟨⟨(j - i).toNat, by omega⟩, by simp only; omega⟩
    by_cases hin : InStack (i + (k : Nat))
    · rw [Core.word_putReg s r k hin, Core.word_putReg s' r k hin]
    · rw [word_of_not_inStack _ hin, word_of_not_inStack _ hin]

theorem pushed (h : SameData m s s') (hz : z < m) (r : Reg) :
    SameData (max m (z + 5)) (s.pushed z r) (s'.pushed z r) := by
  have hput := h.putReg_max (i := z + 1) (by omega) r
  exact (hput.mono (by omega)).withSp _ _

theorem swapped (h : SameData m s s') (hz : z < m) (count : Nat) :
    SameData m (s.swapped z count) (s'.swapped z count) := by
  have hround : ∀ (l : List Nat) (t : Core w c) (t' : Core w' c'), SameData m t t' →
      SameData m (l.foldl (fun t i => s.swapRound t z count i) t)
        (l.foldl (fun t i => s'.swapRound t z count i) t') := by
    intro l
    induction l with
    | nil => exact fun _ _ ht => ht
    | cons i l ih =>
      intro t t' ht
      refine ih _ _ ?_
      simp only [Core.swapRound]
      rw [h.word (z - i) (by omega), h.word (z - 4 * (count + 1) - i) (by omega)]
      exact (ht.setWord _ _).setWord _ _
  exact hround _ _ _ h

theorem setCell (h : SameData m s s') (a : Nat) {v : BitVec c} {v' : BitVec c'}
    (hv : v.toNat = v'.toNat) : SameData m (s.setCell a v) (s'.setCell a v') := by
  constructor
  · intro i hi
    rw [Core.setCell_eq s, Core.setCell_eq s']
    exact h.word i hi
  · intro b
    by_cases ha : a < 1024
    · by_cases hba : b = a
      · subst hba
        rw [Core.cell_setCell_same s ha, Core.cell_setCell_same s' ha, hv]
      · rw [Core.cell_setCell_ne s hba, Core.cell_setCell_ne s' hba, h.cell b]
    · simpa [Core.setCell, ha] using h.cell b

theorem toNat_byteCell (hc : 8 ≤ c) (b : BitVec 8) : (b.setWidth c).toNat = b.toNat := by
  rw [BitVec.toNat_setWidth]
  exact Nat.mod_eq_of_lt (lt_of_lt_of_le b.isLt (Nat.pow_le_pow_right (by decide) hc))

theorem storeWord (h : SameData m s s') (hc : 8 ≤ c) (hc' : 8 ≤ c') (a : Nat) (v : Word) :
    SameData m (s.storeWord a v) (s'.storeWord a v) := by
  simp only [Core.storeWord]
  generalize List.range 8 = l
  induction l generalizing s s' with
  | nil => exact h
  | cons i l ih =>
    exact ih (h.setCell _ (by rw [toNat_byteCell hc, toNat_byteCell hc']))

theorem storeReg (h : SameData m s s') (hc : 8 ≤ c) (hc' : 8 ≤ c') (a : Nat) (r : Reg) :
    SameData m (s.storeReg a r) (s'.storeReg a r) :=
  (((h.storeWord hc hc' _ _).storeWord hc hc' _ _).storeWord hc hc' _ _).storeWord hc hc' _ _

theorem grown (h : SameData m s s') (a : Word) : SameData m (s.grown a) (s'.grown a) := by
  refine h.congr ?_ ?_ ?_ ?_ <;> unfold Core.grown <;> split <;> rfl

end SameData

def MemSame (E : Engine w c) (E' : Engine w' c') (s : Core w c) (s' : Core w' c') (addrVal : Word) :
    Nat → Prop
  | 4 => storageValue E s (addrVal.setWidth 32) = storageValue E' s' (addrVal.setWidth 32)
  | 8 => s.pc = s'.pc
  | 9 => s.memSize.setWidth 64 = s'.memSize.setWidth 64
  | 10 => s.gasAvailable = s'.gasAvailable
  | _ => True

/-- The result of an arithmetic instruction, in the words of the stack. -/
def Core.arithmReg (s : Core w c) (z : Int) (op : Nat) : Reg :=
  bignumToReg (arithmValue op (byteAt (s.word (z - 3)) 7).toNat
    (takeOperands s z (arithmArity op)) s.stale)

def Core.scratched (s : Core w c) (z : Int) (op : Nat) : Core w c :=
  { s with heap := arithmHeap op (takeOperands s z (arithmArity op)) s.heap s.heapPos }

theorem Core.arithmed_eq (s : Core w c) (z : Int) (op : Nat) : s.arithmed z op =
    (s.scratched z op).putReg (resultIndex z (arithmArity op)) (s.arithmReg z op) := rfl

/-- What an instruction reads besides stack and memory, after its charge, is the same. -/
def Insn.Same (E : Engine w c) (E' : Engine w' c') (s : Core w c) (s' : Core w' c') (z : Int) :
    Insn → Prop
  | .pushRegister _ reg => reg.value s = reg.value s'
  | .push count => pushReg E s z (count + 1) = pushReg E' s' z (count + 1)
  | .mem takesAddr op => MemSame E E' s s' (memAddr s takesAddr z) op
  | .arithm op => s.arithmReg z op = s'.arithmReg z op
  | .sha3 => E.keccak = E'.keccak
  | _ => True

section Effect

variable {E : Engine w c} {E' : Engine w' c'} {s : Core w c} {s' : Core w' c'}

theorem memEffect_same (h : SameData m s s') (hy : y < m) (hs : MemSame E E' s s' addrVal op) :
    SameData (max m (y + memDelta op + 1)) (memEffect E s addrVal y op)
      (memEffect E' s' addrVal y op) := by
  have hpush : ∀ r, SameData (max m (y + 4 + 1)) (s.pushed y r) (s'.pushed y r) :=
    fun r => (h.pushed hy r).mono (by omega)
  have hkeep : ∀ {t : Core w c} {t' : Core w' c'} {k : Int}, k ≤ m → SameData m t t' →
      SameData (max m k) t t' := fun hk ht => ht.mono (by omega)
  match op with
  | 0 => exact hkeep (by simp only [memDelta]; omega) (h.withSp _ _)
  | 1 =>
    simp only [memEffect, h.loadReg]
    exact hpush _
  | 2 =>
    simp only [memEffect, h.reg (i := y - 3) (by omega)]
    exact hkeep (by simp only [memDelta]; omega)
      (((h.withSp _ _).storeReg E.cellBits E'.cellBits _ _).grown _)
  | 3 =>
    simp only [memEffect, h.word (y - 3) (by omega)]
    refine hkeep (by simp only [memDelta]; omega) (((h.withSp _ _).setCell _ ?_).grown _)
    rw [SameData.toNat_byteCell E.cellBits, SameData.toNat_byteCell E'.cellBits]
  | 4 =>
    have hv : storageValue E s (addrVal.setWidth 32) =
        storageValue E' s' (addrVal.setWidth 32) := hs
    simp only [memEffect, hv]
    exact hpush _
  | 5 => exact hkeep (by simp only [memDelta]; omega) (h.congr rfl rfl rfl rfl)
  | 8 =>
    have hpc : s.pc = s'.pc := hs
    simp only [memEffect, hpc]
    exact hpush _
  | 9 =>
    have hmem : s.memSize.setWidth 64 = s'.memSize.setWidth 64 := hs
    simp only [memEffect, hmem]
    exact hpush _
  | 10 =>
    have hgas : s.gasAvailable = s'.gasAvailable := hs
    simp only [memEffect, hgas]
    exact hpush _
  | 6 | 7 | 11 => exact hkeep (by simp only [memDelta]; omega) h
  | n + 12 => exact hkeep (by simp only [memDelta]; omega) h

theorem hashReg_same (h : SameData m s s') (hk : E.keccak = E'.keccak) (offs size : Nat) :
    hashReg E s offs size = hashReg E' s' offs size := by
  unfold hashReg
  rw [h.bytes, hk]

theorem SameData.result (h : SameData m s s') (hz : z < m) (k : Nat) (r : Reg) :
    SameData (max m (z + resultDelta k + 1)) (s.putReg (resultIndex z k) r)
      (s'.putReg (resultIndex z k) r) := by
  have hi := resultIndex_add_three z k
  have hle : resultIndex z k ≤ m := by
    unfold resultIndex
    split <;> omega
  exact (h.putReg_max hle r).mono (by omega)

/-- An instruction that reads the same leaves the same. -/
theorem Insn.effect_same (h : SameData m s s') (hz : z < m) {I : Insn} (hs : I.Same E E' s s' z) :
    SameData (max m (z + I.delta + 1)) (I.effect E s z) (I.effect E' s' z) := by
  have hpush : ∀ r, SameData (max m (z + 4 + 1)) (s.pushed z r) (s'.pushed z r) :=
    fun r => (h.pushed hz r).mono (by omega)
  cases I with
  | noOp | chargeOnly | returnInst => exact h.mono (by simp only [Insn.delta]; omega)
  | pushRegister gas reg =>
    have hr : reg.value s = reg.value s' := hs
    simp only [Insn.effect, hr]
    exact hpush _
  | push count =>
    have hr : pushReg E s z (count + 1) = pushReg E' s' z (count + 1) := hs
    simp only [Insn.effect, hr]
    exact hpush _
  | dup count =>
    simp only [Insn.effect, h.element hz]
    exact hpush _
  | swap count => exact (h.swapped hz count).mono (by simp only [Insn.delta]; omega)
  | mem takesAddr op =>
    have haddr : Insn.memAddr s takesAddr z = Insn.memAddr s' takesAddr z := by
      simp only [Insn.memAddr, h.address hz]
    have hbase : Insn.memBase takesAddr z < m := by
      cases takesAddr <;> simp only [Insn.memBase, if_true, Bool.false_eq_true, if_false] <;> omega
    have hdelta : Insn.memBase takesAddr z + memDelta op = z + (Insn.mem takesAddr op).delta := by
      cases takesAddr <;>
        simp only [Insn.memBase, Insn.delta, if_true, Bool.false_eq_true, if_false] <;> omega
    have hm := memEffect_same h hbase hs
    rw [hdelta, haddr] at hm
    simp only [Insn.effect, haddr]
    exact hm
  | arithm op =>
    have hr : s.arithmReg z op = s'.arithmReg z op := hs
    have hscratch : SameData m (s.scratched z op) (s'.scratched z op) := h.congr rfl rfl rfl rfl
    simp only [Insn.effect, Core.arithmed_eq, hr]
    exact hscratch.result hz (arithmArity op) _
  | compare op =>
    simp only [Insn.effect, Core.compared, h.takeOperands hz, h.word (z - 3) (by omega)]
    exact h.result hz (compareArity op) _
  | sha3 =>
    have hk : E.keccak = E'.keccak := hs
    have h8 := h.pushed (z := z - 8) (by omega)
    have hoffs : Insn.hashOffs s z = Insn.hashOffs s' z := by
      simp only [Insn.hashOffs, h.address hz]
    have hsize : Insn.hashSize s z = Insn.hashSize s' z := by
      simp only [Insn.hashSize, h.address (z := z - 4) (by omega)]
    simp only [Insn.effect, hoffs, hsize, hashReg_same h hk]
    exact (h8 _).mono (by simp only [Insn.delta]; omega)

end Effect

end GvmCore
