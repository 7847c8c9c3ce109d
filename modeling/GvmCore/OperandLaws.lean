import GvmCore.Decoding
import GvmCore.StackNumbers

namespace GvmCore
open Exec VBignum Digits Signed
set_option autoImplicit true

/-- The step of a byte takes `n` elements and leaves one that stands for `v`. -/
def Engine.Gives (E : Engine w c) (ocode : BitVec 8) (s : Core w c) (z : Int) (n v : Nat) : Prop :=
  ∃ t, mainDecode E ocode s = .ok .none t ∧ s.Yields t z n v

def Core.compareReg (s : Core w c) (z : Int) (op : Nat) : Reg :=
  bignumToReg
    (compareValue op (byteAt (s.word (z - 3)) 7).toNat (takeOperands s z (compareArity op)))

namespace Insn

/-- The operands are on the stack and the charge is covered. -/
structure Supplied (I : Insn) (s : Core w c) (z : Int) : Prop where
  sp : SpAt s z
  low : 4 * (I.arity : Int) ≤ z + 1
  high : z < 2048
  gas : I.Covered s

def resultReg (s : Core w c) (z : Int) : Insn → Reg
  | .arithm op => s.arithmReg z op
  | .compare op => s.compareReg z op
  | _ => fun _ => 0

theorem takeOperands_paid (I : Insn) (s : Core w c) (z : Int) (k : Nat) :
    takeOperands (I.paid s z) z k = takeOperands s z k :=
  takeOperands_congr (fun i _ => I.paid_word s z i) k

variable {E : Engine w c} {s : Core w c} {I : Insn} {z : Int}

theorem sp_paid (hI : 0 < I.arity) : (I.paid s z).sp = BitVec.ofInt w (z - 4 * I.arity + 4) := by
  have hindex : ∀ k, 0 < k → resultIndex z k + 3 = z - 4 * k + 4 := by
    intro k hk
    rw [resultIndex, if_neg (by omega)]
    omega
  have hentry : (I.entry s z).sp = BitVec.ofInt w (z - 4 * I.arity + 4) := by
    cases I with
    | arithm op => exact congrArg (BitVec.ofInt w) (hindex _ hI)
    | compare op => exact congrArg (BitVec.ofInt w) (hindex _ hI)
    | _ => cases hI
  rw [(I.paid_eq s z).eq, hentry]

theorem effect_operands (hI : 0 < I.arity) (s : Core w c) (z : Int) :
    ∃ u : Core w c, u.sp = s.sp ∧ (∀ i, u.word i = s.word i) ∧
      I.effect E s z = u.putReg (z - 4 * I.arity + 1) (I.resultReg s z) := by
  have hindex : ∀ k, 0 < k → resultIndex z k = z - 4 * k + 1 := fun k hk => if_neg (by omega)
  cases I with
  | arithm op =>
    refine ⟨s.scratched z op, rfl, fun i => rfl, ?_⟩
    change s.arithmed z op = _
    rw [Core.arithmed_eq, hindex (arithmArity op) hI]
    rfl
  | compare op =>
    refine ⟨s, rfl, fun i => rfl, ?_⟩
    change s.putReg (resultIndex z (compareArity op)) (s.compareReg z op) = _
    rw [hindex (compareArity op) hI]
    rfl
  | _ => cases hI

theorem Supplied.yields_iff (h : I.Supplied s z) (hI : 0 < I.arity) :
    s.Yields (I.effect E (I.paid s z) z) z I.arity v ↔
      regValue (I.resultReg (I.paid s z) z) = v := by
  have hlow := h.low
  have hhigh := h.high
  obtain ⟨u, hsp, hword, heffect⟩ := effect_operands (E := E) hI (I.paid s z) z
  have hpushed : u.putReg (z - 4 * I.arity + 1) (I.resultReg (I.paid s z) z) =
      u.pushed (z - 4 * I.arity) (I.resultReg (I.paid s z) z) := by
    rw [Core.pushed, Core.withSp, Core.putReg_eq, ← sp_paid hI, ← hsp]
  rw [heffect, hpushed]
  apply Core.yields_pushed_iff
  · intro i _
    exact (hword i).trans (I.paid_word s z i)
  · exact ⟨by omega, by omega⟩
  · exact ⟨by omega, by omega⟩

theorem entryIn_of_arity (h0 : 4 * (I.arity : Int) ≤ z + 1) (hz : z < 2048) (hI : 0 < I.arity) :
    I.EntryIn z ∧ I.Fits s z ∧ I.write s z = .none := by
  cases I with
  | arithm op =>
    change 4 * (arithmArity op : Int) ≤ z + 1 at h0
    change 0 < arithmArity op at hI
    exact ⟨.inr ⟨⟨by omega, by omega⟩, ⟨by omega, hz⟩⟩, fun he => absurd he hI.ne', rfl⟩
  | compare op =>
    change 4 * (compareArity op : Int) ≤ z + 1 at h0
    change 0 < compareArity op at hI
    exact ⟨.inr ⟨⟨by omega, by omega⟩, ⟨by omega, hz⟩⟩, fun he => absurd he hI.ne', rfl⟩
  | _ => cases hI

/-- The digit heap decides whether an instruction with operands is done, and its result what it
does. -/
theorem Supplied.gives_iff (h : I.Supplied s z) (hl : Listed ocode) (hd : decode ocode = I)
    (hI : 0 < I.arity) : E.Gives ocode s z I.arity v ↔
      E.HeapServes s.heapPos (I.need s z) ∧ regValue (I.resultReg (I.paid s z) z) = v := by
  obtain ⟨hin, hfits, hwrite⟩ := entryIn_of_arity (s := s) h.low h.high hI
  have hrange : I.InRange := by
    cases I with
    | arithm op => trivial
    | compare op => trivial
    | _ => cases hI
  have hstop : I = .arithm 0 → E.checkErrorThrows = false := by
    rintro rfl
    cases hI
  have hexec : ∀ t, I.exec E s = .ok .none t ↔ _ :=
    fun t => exec_eq_ok_of_covered hrange h.sp h.gas hstop
  unfold Engine.Gives
  rw [mainDecode_of_listed E s hl hd, ← h.yields_iff (E := E) hI]
  constructor
  · rintro ⟨t, ht, hyields⟩
    obtain ⟨-, hheap, -, -, rfl⟩ := (hexec t).mp ht
    exact ⟨hheap, hyields⟩
  · rintro ⟨hheap, hyields⟩
    exact ⟨_, (hexec _).mpr ⟨hin, hheap, hfits, hwrite, rfl⟩, hyields⟩

end Insn

/-- The element that stands for a number. -/
def numberReg (n : Nat) : Reg := fun i => swapBytes (BitVec.ofNat 64 (n / 2 ^ (64 * (i : Nat))))

theorem regValue_numberReg (n : Nat) : regValue (numberReg n) = n % 2 ^ 256 := by
  have h3 : ((3 : Fin 4) : Nat) = 3 := rfl
  simp only [regValue, numberReg, swapBytes_swapBytes, value_cons, value_nil, BitVec.toNat_ofNat,
    Fin.val_zero, Fin.val_one, Fin.val_two, h3]
  omega

/-- A machine with a stack of numbers, the first one on top. -/
def stackOf : List Nat → Core 32 8
  | [] => { Core.zero with sp := 0 - 1, gasAvailable := gasWords 1000 }
  | n :: l => (stackOf l).pushed (4 * (l.length : Int) - 1) (numberReg n)

theorem stackOf_keeps (l : List Nat) :
    (stackOf l).gasAvailable = gasWords 1000 ∧ (stackOf l).heapPos = 0 := by
  induction l with
  | nil => exact ⟨rfl, rfl⟩
  | cons n l ih =>
    change ((stackOf l).pushed _ _).gasAvailable = _ ∧ ((stackOf l).pushed _ _).heapPos = _
    rw [Core.pushed_eq]
    exact ih

theorem gas_stackOf (l : List Nat) : (stackOf l).gas = 1000 := by
  rw [Core.gas, (stackOf_keeps l).1]
  decide +kernel

theorem spAt_stackOf (hl : l.length ≤ 512) : SpAt (stackOf l) (4 * (l.length : Int) - 1) := by
  refine ⟨?_, by omega, by omega⟩
  cases l with
  | nil => rfl
  | cons n l =>
    have hz : 4 * (l.length : Int) - 1 + 4 = 4 * ((n :: l).length : Int) - 1 := by
      rw [List.length_cons]
      omega
    rw [← hz]
    rfl

theorem number_stackOf (hl : l.length ≤ 512) (hk : k < l.length) :
    (stackOf l).number (4 * (l.length : Int) - 1) k = l.getD k 0 % 2 ^ 256 := by
  induction l generalizing k with
  | nil => cases hk
  | cons n l ih =>
    rw [List.length_cons] at hl hk
    have hz : 4 * ((n :: l).length : Int) - 1 = 4 * (l.length : Int) - 1 + 4 := by
      rw [List.length_cons]
      omega
    rw [hz]
    cases k with
    | zero =>
      refine (congrArg regValue (Core.element_pushed _ ?_ ?_ _)).trans (regValue_numberReg n)
      · exact ⟨by omega, by omega⟩
      · exact ⟨by omega, by omega⟩
    | succ k =>
      refine (congrArg regValue (Core.element_pushed_below _ _ k)).trans ?_
      exact ih (by omega) (by omega)

theorem supplied_stackOf {I : Insn} (hl : l.length ≤ 512) (hI : I.arity ≤ l.length)
    (hgas : (I.charge.getD 0).toNat ≤ 1000) :
    I.Supplied (stackOf l) (4 * (l.length : Int) - 1) := by
  refine ⟨spAt_stackOf hl, by omega, by omega, ?_⟩
  intro v hv
  rw [Option.mem_def.mp hv] at hgas
  rw [gas_stackOf]
  exact hgas

theorem heapServes_stackOf (l : List Nat) (h : n ≤ heapSize) :
    (cemu W).HeapServes (stackOf l).heapPos n := by
  rw [(stackOf_keeps l).2]
  exact Engine.heapServes_of_le rfl (by omega)

def exhausted (l : List Nat) : Core 32 8 := { stackOf l with heapPos := heapSize }

theorem supplied_exhausted {I : Insn} (h : I.Supplied (stackOf l) z) : I.Supplied (exhausted l) z :=
  ⟨⟨h.sp.sp, h.sp.lower, h.sp.upper⟩, h.low, h.high, h.gas⟩

theorem not_heapServes_exhausted (l : List Nat) (h : 0 < n) :
    ¬ (cemu W).HeapServes (exhausted l).heapPos n := by
  rintro (h0 | hroom)
  · omega
  · have hle := hroom heapSize rfl
    change heapSize + n ≤ heapSize at hle
    omega

end GvmCore
