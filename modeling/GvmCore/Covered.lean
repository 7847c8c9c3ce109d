import GvmCore.SameData

namespace GvmCore
open Exec VBignum Signed
set_option autoImplicit true

def Core.settled (s : Core w c) : Option Word → Core w c
  | none => s
  | some v => s.charged v

theorem PaysOnly.settled (s : Core w c) (v : Option Word) : PaysOnly s (s.settled v) := by
  cases v with
  | none => exact .refl s
  | some v => exact ⟨rfl⟩

theorem Core.heapPos_settled (s : Core w c) (v : Option Word) :
    (s.settled v).heapPos = s.heapPos + 65 * chargeConversions v := by
  cases v <;> rfl

namespace Insn

/-- The charge is no more than the gas that is left. -/
def Covered (I : Insn) (s : Core w c) : Prop := ∀ v ∈ I.charge, v.toNat ≤ s.gas

/-- The state after a charge that is covered. -/
def paid (s : Core w c) (z : Int) (I : Insn) : Core w c := (I.entry s z).settled I.charge

/-- The digit cells an instruction asks for, kept or given back. -/
def need (s : Core w c) (z : Int) (I : Insn) : Nat := 65 * I.conversions + I.scratch s z

theorem entry_word (s : Core w c) (z : Int) (I : Insn) (i : Int) :
    (I.entry s z).word i = s.word i := by
  rw [I.entry_eq s z, Core.convertedTop_eq]
  rfl

theorem paid_eq (s : Core w c) (z : Int) (I : Insn) : PaysOnly (I.entry s z) (I.paid s z) :=
  .settled _ _

theorem paid_word (s : Core w c) (z : Int) (I : Insn) (i : Int) : (I.paid s z).word i = s.word i :=
  ((I.paid_eq s z).word i).trans (I.entry_word s z i)

theorem paid_keeps (s : Core w c) (z : Int) (I : Insn) : I.paid s z = { s with
    sp := (I.paid s z).sp
    gasAvailable := (I.paid s z).gasAvailable
    heap := (I.paid s z).heap
    heapPos := (I.paid s z).heapPos
    console := (I.paid s z).console } := by
  have h := (I.paid_eq s z).eq
  rw [I.entry_eq s z, Core.convertedTop_eq] at h
  rw [h]

theorem gasAvailable_paid (s : Core w c) (z : Int) (I : Insn) :
    (I.paid s z).gasAvailable = I.charge.elim s.gasAvailable (gasSub s.gasAvailable) := by
  have hentry : (I.entry s z).gasAvailable = s.gasAvailable := by
    rw [I.entry_eq s z, Core.convertedTop_eq]
  unfold paid
  cases I.charge with
  | none => exact hentry
  | some v => exact congrArg (gasSub · v) hentry

section Congr

variable {s : Core w c} {t : Core w' c'}

theorem element_congr (h : ∀ i ≤ z, t.word i = s.word i) (k : Nat) :
    t.element z k = s.element z k :=
  funext fun j => h _ (by omega)

theorem takeOperands_congr (h : ∀ i ≤ z, t.word i = s.word i) (k : Nat) :
    takeOperands t z k = takeOperands s z k := by
  simp only [takeOperands, element_congr h]

theorem address_congr (h : ∀ i ≤ z, t.word i = s.word i) (hy : y ≤ z) :
    t.address y = s.address y := by
  unfold Core.address
  rw [h _ (by omega)]

theorem memAddr_congr (h : ∀ i ≤ z, t.word i = s.word i) (takesAddr : Bool) :
    memAddr t takesAddr z = memAddr s takesAddr z := by
  simp only [memAddr, address_congr h le_rfl]

theorem fits_congr (h : ∀ i ≤ z, t.word i = s.word i) (I : Insn) : I.Fits t z ↔ I.Fits s z := by
  cases I with
  | mem takesAddr op => simp only [Fits, memAddr_congr h]
  | sha3 =>
    simp only [Fits, hashOffs, hashSize, address_congr h le_rfl,
      address_congr h (show z - 4 ≤ z by omega)]
  | _ => exact Iff.rfl

theorem scratch_congr (h : ∀ i ≤ z, t.word i = s.word i) (I : Insn) :
    I.scratch t z = I.scratch s z := by
  cases I with
  | arithm op => simp only [scratch, takeOperands_congr h]
  | _ => rfl

theorem write_congr (h : ∀ i ≤ z, t.word i = s.word i) (hpc : t.pc = s.pc) (I : Insn) :
    I.write t z = I.write s z := by
  cases I with
  | push count => simp only [write, hpc]
  | mem takesAddr op => simp only [write, memAddr_congr h]
  | _ => rfl

theorem need_congr (h : ∀ i ≤ z, t.word i = s.word i) (I : Insn) : I.need t z = I.need s z := by
  simp only [need, scratch_congr h]

end Congr

theorem heapPos_entry (s : Core w c) (z : Int) (I : Insn) :
    (I.entry s z).heapPos = s.heapPos + 65 * I.arity := by
  rw [I.entry_eq s z]
  exact Core.heapPos_convertedTop s z I.arity

theorem heapPos_paid (s : Core w c) (z : Int) (I : Insn) :
    (I.paid s z).heapPos = s.heapPos + 65 * I.conversions := by
  rw [paid, Core.heapPos_settled, heapPos_entry, conversions, chargeConversions]
  omega

theorem heap_paid (s : Core w c) (z : Int) (I : Insn) (h : s.heapPos + 65 * I.conversions ≤ i) :
    (I.paid s z).heap i = s.heap i := by
  have hentry : s.heapPos + 65 * I.arity ≤ i → (I.entry s z).heap i = s.heap i := by
    intro hi
    rw [I.entry_eq s z]
    exact s.heap_convertedTop z I.arity hi
  have hpos := I.heapPos_entry s z
  unfold conversions at h
  unfold paid
  cases hv : I.charge with
  | none => exact hentry (by omega)
  | some v =>
    rw [hv, Option.isSome_some, if_pos rfl] at h
    exact (Core.heap_converted _ _ (by omega)).trans (hentry (by omega))

theorem gas_entry (s : Core w c) (z : Int) (I : Insn) : (I.entry s z).gas = s.gas := by
  rw [I.entry_eq s z, Core.convertedTop_eq]
  rfl

theorem payGas_eq_ok_of_covered {E : Engine w c} {s t : Core w c} (hc : ∀ g ∈ v, g.toNat ≤ s.gas) :
    payGas E v s = .ok u t ↔ E.HeapServes s.heapPos (65 * chargeConversions v) ∧
      s.settled v = t := by
  cases v with
  | none => simp [payGas, chargeConversions, Core.settled, Engine.HeapServes.zero]
  | some v =>
    have hle := hc v rfl
    simp only [payGas, useGas_eq_ok, chargeConversions, Option.isSome_some, if_true, Nat.mul_one]
    refine and_congr_right fun _ => ?_
    constructor
    · rintro (⟨-, rfl⟩ | ⟨hlt, -, -⟩)
      · rfl
      · omega
    · rintro rfl
      exact .inl ⟨hle, rfl⟩

theorem pay_of_ne {E : Engine w c} {I : Insn} (h : I ≠ .arithm 0) :
    I.pay E = payGas E I.charge := by
  cases I with
  | arithm op => exact if_neg fun hop => h (congrArg Insn.arithm hop)
  | _ => rfl

theorem pay_eq_ok_of_covered {E : Engine w c} {s t : Core w c} {I : Insn} (hc : I.Covered s)
    (h0 : I = .arithm 0 → E.checkErrorThrows = false) :
    I.pay E (I.entry s z) = .ok u t ↔
      E.HeapServes (s.heapPos + 65 * I.arity) (65 * chargeConversions I.charge) ∧
      I.paid s z = t := by
  have hc' : ∀ g ∈ I.charge, g.toNat ≤ (I.entry s z).gas := by
    intro g hg
    rw [I.gas_entry]
    exact hc g hg
  rw [← I.heapPos_entry s z]
  by_cases h : I = .arithm 0
  · subst h
    simp [pay, arithmPay, checkError_eq_ok, h0 rfl, paid, charge, arithmGas, chargeConversions,
      Core.settled, Engine.HeapServes.zero]
  · rw [pay_of_ne h]
    exact payGas_eq_ok_of_covered hc'

theorem heapServes_need (E : Engine w c) (s : Core w c) (z : Int) (I : Insn) :
    E.HeapServes s.heapPos (I.need s z) ↔ E.HeapServes s.heapPos (65 * I.arity) ∧
      E.HeapServes (s.heapPos + 65 * I.arity) (65 * chargeConversions I.charge) ∧
      E.HeapServes (s.heapPos + 65 * I.conversions) (I.scratch s z) := by
  rw [need, conversions, chargeConversions, E.heapServes_add, Nat.mul_add, E.heapServes_add,
    and_assoc]

/-- What a covered instruction needs, and the state it then leaves. -/
theorem exec_eq_ok_of_covered {E : Engine w c} {s t : Core w c} {I : Insn} (hI : I.InRange)
    (h : SpAt s z) (hc : I.Covered s) (h0 : I = .arithm 0 → E.checkErrorThrows = false) :
    I.exec E s = .ok pw t ↔ I.EntryIn z ∧ E.HeapServes s.heapPos (I.need s z) ∧ I.Fits s z ∧
      I.write s z = pw ∧ I.effect E (I.paid s z) z = t := by
  have hw : ∀ i ≤ z, (I.paid s z).word i = s.word i := fun i _ => I.paid_word s z i
  have hpc : (I.paid s z).pc = s.pc := by rw [I.paid_keeps]
  rw [exec_eq_ok E hI h, heapServes_need, ← I.heapPos_paid s z, ← scratch_congr hw]
  constructor
  · rintro ⟨hin, harity, s', hpay, hscratch, hfit, hwrite, ht⟩
    obtain ⟨hcharge, rfl⟩ := (pay_eq_ok_of_covered hc h0).mp hpay
    exact ⟨hin, ⟨harity, hcharge, hscratch⟩, (fits_congr hw I).mp hfit,
      (write_congr hw hpc I).symm.trans hwrite, ht⟩
  · rintro ⟨hin, ⟨harity, hcharge, hscratch⟩, hfit, hwrite, ht⟩
    exact ⟨hin, harity, _, (pay_eq_ok_of_covered hc h0).mpr ⟨hcharge, rfl⟩, hscratch,
      (fits_congr hw I).mpr hfit, (write_congr hw hpc I).trans hwrite, ht⟩

theorem pay_completes_iff {E : Engine w c} {s : Core w c} {I : Insn}
    (hE : E.checkErrorThrows = false) : (∃ t, I.pay E s = .ok () t) ↔
      E.HeapServes s.heapPos (65 * chargeConversions I.charge) := by
  constructor
  · rintro ⟨t, hpay⟩
    exact (pay_facts hpay).room
  · intro hroom
    by_cases h0 : I = .arithm 0
    · subst h0
      exact ⟨s, checkError_eq_ok.mpr ⟨hE, rfl⟩⟩
    · rw [pay_of_ne h0]
      cases hcharge : I.charge with
      | none => exact ⟨s, rfl⟩
      | some v =>
        rw [hcharge] at hroom
        by_cases hle : v.toNat ≤ s.gas
        · exact ⟨_, useGas_eq_ok.mpr ⟨hroom, .inl ⟨hle, rfl⟩⟩⟩
        · exact ⟨_, useGas_eq_ok.mpr ⟨hroom, .inr ⟨Nat.lt_of_not_le hle, hE, rfl⟩⟩⟩

/-- The instruction finds its operands, room for its result and the digit cells it asks for; RETURN
does not go on. -/
def GoesOn (E : Engine w c) (s : Core w c) (I : Insn) : Prop :=
  I.EntryIn s.spInt32 ∧ I.Fits s s.spInt32 ∧ E.HeapServes s.heapPos (I.need s s.spInt32)

/-- Where an error message does not stop the run, this is all that an instruction needs, whether
its charge is covered or not. -/
theorem completes_iff_goesOn {E : Engine w c} {s : Core w c} {I : Insn} (hI : I.InRange)
    (h : SpAt s z) (hE : E.checkErrorThrows = false) :
    (∃ pw t, I.exec E s = .ok pw t) ↔ I.GoesOn E s := by
  have hpaid : ∀ {u}, I.pay E (I.entry s z) = .ok () u →
      (∀ i ≤ z, u.word i = s.word i) ∧ u.heapPos = s.heapPos + 65 * I.conversions := by
    intro u hpay
    have hfacts := pay_facts hpay
    refine ⟨fun i _ => (hfacts.only.word i).trans (I.entry_word s z i), ?_⟩
    rw [hfacts.heapPos, heapPos_entry, conversions, chargeConversions]
    omega
  rw [GoesOn, h.spInt32 E, heapServes_need]
  simp only [exec_eq_ok E hI h]
  constructor
  · rintro ⟨pw, t, hin, harity, u, hpay, hscratch, hfit, -, -⟩
    obtain ⟨hw, hpos⟩ := hpaid hpay
    have hcharge := (pay_completes_iff hE).mp ⟨u, hpay⟩
    rw [heapPos_entry] at hcharge
    rw [hpos, scratch_congr hw] at hscratch
    exact ⟨hin, (fits_congr hw I).mp hfit, harity, hcharge, hscratch⟩
  · rintro ⟨hin, hfit, harity, hcharge, hscratch⟩
    rw [← I.heapPos_entry s z] at hcharge
    obtain ⟨u, hpay⟩ := (pay_completes_iff hE).mpr hcharge
    obtain ⟨hw, hpos⟩ := hpaid hpay
    rw [← hpos, ← scratch_congr hw] at hscratch
    exact ⟨_, _, hin, harity, u, hpay, hscratch, (fits_congr hw I).mpr hfit, rfl, rfl⟩

end Insn

end GvmCore
