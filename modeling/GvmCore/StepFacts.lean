import GvmCore.FreshHeap

namespace GvmCore
open Exec VBignum Signed
set_option autoImplicit true

def GasAfter (E : Engine w c) (g g' : Reg) : Option Word → Prop
  | none => g' = g
  | some v => v.toNat ≤ regValue g ∧ g' = gasSub g v ∨
      regValue g < v.toNat ∧ E.checkErrorThrows = false ∧ g' = fun _ => 0

def chargeConversions (v : Option Word) : Nat := if v.isSome then 1 else 0

structure PayFacts (E : Engine w c) (v : Option Word) (s t : Core w c) : Prop where
  only : PaysOnly s t
  gas : GasAfter E s.gasAvailable t.gasAvailable v
  room : E.HeapServes s.heapPos (65 * chargeConversions v)
  heapPos : t.heapPos = s.heapPos + 65 * chargeConversions v
  fresh : s.Fresh 51 → t.Fresh (if v.isSome then 0 else 51)

theorem payGas_facts {E : Engine w c} {s t : Core w c} (h : payGas E v s = .ok u t) :
    PayFacts E v s t := by
  have honly := payGas_paysOnly h
  cases v with
  | none =>
    cases h
    exact ⟨honly, rfl, .zero E _, rfl, fun hf => hf⟩
  | some v =>
    obtain ⟨hroom, ⟨hle, rfl⟩ | ⟨hlt, hthrows, rfl⟩⟩ := useGas_eq_ok.mp h
    · exact ⟨honly, .inl ⟨hle, rfl⟩, hroom, rfl, fun hf => (hf.mono (by decide)).converted _⟩
    · exact ⟨honly, .inr ⟨hlt, hthrows, rfl⟩, hroom, rfl,
        fun hf => (hf.mono (by decide)).converted _⟩

theorem Insn.pay_facts {E : Engine w c} {s t : Core w c} {I : Insn} (h : I.pay E s = .ok u t) :
    PayFacts E I.charge s t := by
  cases I with
  | arithm op =>
    simp only [Insn.pay, arithmPay] at h
    split at h
    · rename_i hop
      obtain ⟨-, rfl⟩ := checkError_eq_ok.mp h
      subst hop
      exact ⟨.refl s, rfl, .zero E _, rfl, fun hf => hf⟩
    · exact payGas_facts h
  | _ => exact payGas_facts h

/-- What is known of an instruction that returns, stack words and memory apart. -/
structure StepFacts (E : Engine w c) (I : Insn) (s t : Core w c) (z : Int) : Prop where
  entryIn : I.EntryIn z
  high : z + I.delta ≤ max z 2050
  sp : t.sp = BitVec.ofInt w (z + I.delta)
  gas : GasAfter E s.gasAvailable t.gasAvailable I.charge
  room : E.HeapServes s.heapPos (65 * I.conversions)
  heapPos : t.heapPos = s.heapPos + 65 * I.conversions
  storage : t.mainStorage = I.savedStorage s z
  pc : t.pc = s.pc
  prog : t.prog = s.prog
  elfSize : t.elfSize = s.elfSize
  regs : t.regs = s.regs
  fresh : s.Fresh 51 → t.Fresh 51

theorem Insn.entry_eq (s : Core w c) (z : Int) (I : Insn) :
    I.entry s z = { s.convertedTop z I.arity with sp := (I.entry s z).sp } := by
  cases I with
  | mem takesAddr op => cases takesAddr <;> rfl
  | _ => rfl

theorem Insn.savedStorage_congr {s t : Core w c} (hw : ∀ i, t.word i = s.word i)
    (hs : t.mainStorage = s.mainStorage) (z : Int) (I : Insn) :
    I.savedStorage t z = I.savedStorage s z := by
  have hreg : ∀ i, t.reg i = s.reg i := fun i => funext fun k => hw _
  cases I with
  | mem takesAddr op => simp only [savedStorage, memAddr, Core.address, Core.saved, hreg, hw, hs]
  | _ => exact hs

theorem Insn.usedHeap_of_free (s : Core w c) (z : Int) {I : Insn} (h : I.charge = none) :
    I.usedHeap s z = s.heap := by
  cases I with
  | arithm op =>
    match op with
    | 0 => rfl
    | n + 12 => rfl
  | _ => rfl

theorem memDelta_le (h : MemFits addrVal y op) : y + memDelta op ≤ max y 2050 := by
  have hpush : InStack (y + 4) → y + 4 ≤ max y 2050 := fun h => by
    have := h.2
    omega
  match op with
  | 0 | 2 | 3 | 5 | 6 | 7 | 11 => simp only [memDelta]; omega
  | 1 => exact hpush h.2.2
  | 4 | 8 | 9 | 10 => exact hpush h.2
  | n + 12 => simp only [memDelta]; omega

theorem resultDelta_le (h : ResultIn z k) : z + resultDelta k ≤ max z 2050 := by
  unfold resultDelta
  split
  · rename_i hk
    have := (h hk).2.2
    omega
  · omega

theorem Insn.delta_le {s : Core w c} {I : Insn} (hI : I.InRange) (hfit : I.Fits s z) :
    z + I.delta ≤ max z 2050 := by
  have hpush : ∀ j : Nat, InStack (z + 1 + j) → z + 4 ≤ max z 2050 := fun j h => by
    have := h.2
    omega
  cases I with
  | push count =>
    have hcount : count < 32 := hI
    exact hpush 0 (hfit 0 (zero_mem_pushIndices (by omega)))
  | pushRegister => exact hpush 0 (by simpa using hfit.1)
  | dup => exact hpush 0 (by simpa using hfit.2.2.1)
  | mem takesAddr op =>
    have hm := memDelta_le hfit
    cases takesAddr <;>
      simp only [Insn.memBase, Insn.delta, if_true, Bool.false_eq_true, if_false] at hm ⊢ <;> omega
  | arithm op => exact resultDelta_le hfit
  | compare op => exact resultDelta_le hfit
  | _ => simp only [Insn.delta]; omega

theorem Insn.exec_facts (E : Engine w c) {s t : Core w c} {I : Insn} (hI : I.InRange) (h : SpAt s z)
    (hok : I.exec E s = .ok pw t) : StepFacts E I s t z := by
  obtain ⟨hin, harity, s', hpay, -, hfit, -, rfl⟩ := (Insn.exec_eq_ok E hI h).mp hok
  have hp := Insn.pay_facts hpay
  have hentry := I.entry_eq s z
  rw [Core.convertedTop_eq] at hentry
  have hsp : s'.sp = (I.entry s z).sp := by rw [hp.only.eq]
  have hs' : s'.rest = { s.rest with
      sp := (I.entry s z).sp
      gasAvailable := s'.gasAvailable
      heap := s'.heap
      heapPos := s'.heapPos
      console := s'.console } := by
    rw [hp.only.eq, hentry]
    rfl
  have hrest := rest_effect E I hsp h.sp
  rw [hs'] at hrest
  have hstore : I.savedStorage s' z = I.savedStorage s z :=
    I.savedStorage_congr (fun i => by rw [hp.only.word, hentry]; rfl)
      (congrArg Rest.mainStorage hs') z
  have hposIn : (I.entry s z).heapPos = s.heapPos + 65 * I.arity := by
    rw [I.entry_eq s z]
    exact Core.heapPos_convertedTop s z I.arity
  have hconv : 65 * I.conversions = 65 * I.arity + 65 * chargeConversions I.charge := by
    rw [Insn.conversions, chargeConversions, Nat.mul_add]
  have hfresh : s.Fresh 51 → s'.Fresh (if I.charge.isSome then 0 else 51) := by
    intro hf
    apply hp.fresh
    rw [I.entry_eq s z]
    exact hf.convertedTop (by decide) z I.arity
  have hpos : (I.effect E s' z).heapPos = s'.heapPos := congrArg Rest.heapPos hrest
  refine ⟨hin, Insn.delta_le hI hfit, congrArg Rest.sp hrest, ?_, ?_, ?_,
    (congrArg Rest.mainStorage hrest).trans hstore, congrArg Rest.pc hrest,
    congrArg Rest.prog hrest, congrArg Rest.elfSize hrest, congrArg Rest.regs hrest, ?_⟩
  · have hg := hp.gas
    rw [hentry] at hg
    have ht : (I.effect E s' z).gasAvailable = s'.gasAvailable := congrArg Rest.gasAvailable hrest
    rw [ht]
    exact hg
  · rw [hconv, E.heapServes_add, ← hposIn]
    exact ⟨harity, hp.room⟩
  · rw [hpos, hp.heapPos, hposIn, hconv]
    omega
  · intro hf i hi
    have hheap : (I.effect E s' z).heap = I.usedHeap s' z := congrArg Rest.heap hrest
    rw [hpos] at hi
    rw [hheap]
    have hf' := hfresh hf
    cases hc : I.charge with
    | none =>
      rw [I.usedHeap_of_free s' z hc]
      rw [hc] at hf'
      exact hf' i hi
    | some v =>
      rw [hc] at hf'
      exact Core.Fresh.usedHeap hf' z I hi

theorem Insn.exec_write (E : Engine w c) {s t : Core w c} {I : Insn} (hI : I.InRange) (h : SpAt s z)
    (hok : I.exec E s = .ok pw t) : ∃ s', PaysOnly (I.entry s z) s' ∧ I.write s' z = pw := by
  obtain ⟨-, -, s', hpay, -, -, hw, -⟩ := (Insn.exec_eq_ok E hI h).mp hok
  exact ⟨s', (Insn.pay_facts hpay).only, hw⟩

end GvmCore
