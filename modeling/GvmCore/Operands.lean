import GvmCore.Arithmetic

namespace GvmCore
open Exec VBignum Signed
set_option autoImplicit true

/-- The digit heap after the top `k` elements have been converted. -/
def Core.convertedTop (s : Core w c) (z : Int) : Nat → Core w c
  | 0 => s
  | k + 1 => (s.convertedTop z k).converted (s.element z k)

def resultIndex (z : Int) (k : Nat) : Int := if k = 0 then z else z - 4 * k + 1

/-- The numbers made of the top `k` elements. -/
def takeOperands (s : Core w c) (z : Int) (k : Nat) : Operands where
  a := if 0 < k then bigOf (s.element z 0) else vbignum256
  b := if 1 < k then bigOf (s.element z 1) else vbignum256
  c := if 2 < k then bigOf (s.element z 2) else vbignum256
  sp := resultIndex z k

/-- The top `k` elements are in the stack array. -/
def OperandsIn (z : Int) (k : Nat) : Prop := k = 0 ∨ InStack (z - 4 * k + 1) ∧ InStack z

instance (z : Int) (k : Nat) : Decidable (OperandsIn z k) := inferInstanceAs (Decidable (_ ∨ _))

def arithmArity (opcode : Nat) : Nat :=
  if opcode ∈ [1, 2, 3, 4, 5, 6, 7, 10, 11] then 2 else if opcode ∈ [8, 9] then 3 else 0

def compareArity (opcode : Nat) : Nat :=
  if opcode ∈ [5, 9] then 1 else if opcode ∈ [0, 1, 2, 3, 4, 6, 7, 8, 10] then 2 else 0

namespace Core

@[simp] theorem heapPos_convertedTop (s : Core w c) (z : Int) (k : Nat) :
    (s.convertedTop z k).heapPos = s.heapPos + 65 * k := by
  induction k with
  | zero => rfl
  | succ k ih =>
    have h : (s.convertedTop z (k + 1)).heapPos = (s.convertedTop z k).heapPos + 65 := rfl
    omega

theorem convertedTop_eq (s : Core w c) (z : Int) (k : Nat) :
    s.convertedTop z k = { s with
      heap := (s.convertedTop z k).heap
      heapPos := (s.convertedTop z k).heapPos } := by
  induction k with
  | zero => rfl
  | succ k ih =>
    have h : s.convertedTop z (k + 1) = (s.convertedTop z k).converted (s.element z k) := rfl
    rw [h, ih]
    rfl

@[simp] theorem element_convertedTop (s : Core w c) (z : Int) (k j : Nat) :
    (s.convertedTop z k).element z j = s.element z j := by
  rw [convertedTop_eq]
  rfl

end Core

theorem argument_bind_eq_ok {E : Engine w c} {s t : Core w c} {f : VBig → M w c α} {i z : Int}
    (k : Nat) (hi : i = z - 4 * k - 3) :
    (argument E (stackReg i) >>= f) (s.convertedTop z k) = .ok r t ↔
      E.HeapServes (s.heapPos + 65 * k) 65 ∧ (InStack i ∧ InStack (i + 3)) ∧
      f (bigOf (s.element z k)) (s.convertedTop z (k + 1)) = .ok r t := by
  have hreg : (s.convertedTop z k).reg i = s.element z k := by
    rw [hi]
    exact s.element_convertedTop z k k
  rw [bind_eq_ok]
  simp only [argument_stackReg_eq_ok, hreg, Core.heapPos_convertedTop]
  constructor
  · rintro ⟨_, _, ⟨hp, h0, h3, rfl, rfl⟩, h⟩
    exact ⟨hp, ⟨h0, h3⟩, h⟩
  · rintro ⟨hp, ⟨h0, h3⟩, h⟩
    exact ⟨_, _, ⟨hp, h0, h3, rfl, rfl⟩, h⟩

theorem operands_one {E : Engine w c} {s t : Core w c} {f : VBig → M w c α} :
    (argument E (stackReg (z - 3)) >>= f) s = .ok r t ↔ E.HeapServes s.heapPos 65 ∧
      OperandsIn z 1 ∧ f (bigOf (s.element z 0)) (s.convertedTop z 1) = .ok r t := by
  have hin : OperandsIn z 1 ↔ InStack (z - 3) ∧ InStack (z - 3 + 3) := by
    simp only [OperandsIn, InStack]
    omega
  rw [hin]
  exact argument_bind_eq_ok 0 (by omega)

theorem operands_two {E : Engine w c} {s t : Core w c} {f : VBig → VBig → M w c α} :
    (argument E (stackReg (z - 3)) >>= fun a => argument E (stackReg (z - 7)) >>= f a) s = .ok r t ↔
      E.HeapServes s.heapPos 130 ∧ OperandsIn z 2 ∧
      f (bigOf (s.element z 0)) (bigOf (s.element z 1)) (s.convertedTop z 2) = .ok r t := by
  have hin : OperandsIn z 2 ↔ OperandsIn z 1 ∧ InStack (z - 7) ∧ InStack (z - 7 + 3) := by
    simp only [OperandsIn, InStack]
    omega
  rw [operands_one, argument_bind_eq_ok 1 (by omega), hin,
    E.heapServes_add _ 65 65]
  tauto

theorem operands_three {E : Engine w c} {s t : Core w c} {f : VBig → VBig → VBig → M w c α} :
    (argument E (stackReg (z - 3)) >>= fun a => argument E (stackReg (z - 7)) >>= fun b =>
      argument E (stackReg (z - 11)) >>= f a b) s = .ok r t ↔
      E.HeapServes s.heapPos 195 ∧ OperandsIn z 3 ∧
      f (bigOf (s.element z 0)) (bigOf (s.element z 1)) (bigOf (s.element z 2))
        (s.convertedTop z 3) = .ok r t := by
  have hin : OperandsIn z 3 ↔ OperandsIn z 2 ∧ InStack (z - 11) ∧ InStack (z - 11 + 3) := by
    simp only [OperandsIn, InStack]
    omega
  rw [operands_two, argument_bind_eq_ok 2 (by omega), hin,
    E.heapServes_add _ 130 65]
  tauto

theorem arithmOperands_eq_ok {E : Engine w c} {s t : Core w c} :
    arithmOperands E opcode z s = .ok o t ↔ E.HeapServes s.heapPos (65 * arithmArity opcode) ∧
      OperandsIn z (arithmArity opcode) ∧ takeOperands s z (arithmArity opcode) = o ∧
      s.convertedTop z (arithmArity opcode) = t := by
  unfold arithmOperands arithmArity
  by_cases h2 : opcode ∈ [1, 2, 3, 4, 5, 6, 7, 10, 11]
  · have hsp : resultIndex z 2 = z - 7 := by
      simp only [resultIndex]
      omega
    rw [if_pos h2, if_pos h2, operands_two]
    simp [takeOperands, hsp]
  · by_cases h3 : opcode ∈ [8, 9]
    · have hsp : resultIndex z 3 = z - 11 := by
        simp only [resultIndex]
        omega
      rw [if_neg h2, if_neg h2, if_pos h3, if_pos h3, operands_three]
      simp [takeOperands, hsp]
    · rw [if_neg h2, if_neg h2, if_neg h3, if_neg h3]
      simp [takeOperands, resultIndex, Engine.HeapServes.zero, OperandsIn, Core.convertedTop]

theorem compareOperands_eq_ok {E : Engine w c} {s t : Core w c} :
    compareOperands E opcode z s = .ok o t ↔ E.HeapServes s.heapPos (65 * compareArity opcode) ∧
      OperandsIn z (compareArity opcode) ∧ takeOperands s z (compareArity opcode) = o ∧
      s.convertedTop z (compareArity opcode) = t := by
  unfold compareOperands compareArity
  by_cases h1 : opcode ∈ [5, 9]
  · have hsp : resultIndex z 1 = z - 3 := by
      simp only [resultIndex]
      omega
    rw [if_pos h1, if_pos h1, operands_one]
    simp [takeOperands, hsp]
  · by_cases h2 : opcode ∈ [0, 1, 2, 3, 4, 6, 7, 8, 10]
    · have hsp : resultIndex z 2 = z - 7 := by
        simp only [resultIndex]
        omega
      rw [if_neg h1, if_neg h1, if_pos h2, if_pos h2, operands_two]
      simp [takeOperands, hsp]
    · rw [if_neg h1, if_neg h1, if_neg h2, if_neg h2]
      simp [takeOperands, resultIndex, Engine.HeapServes.zero, OperandsIn, Core.convertedTop]

theorem returnsOr_arithmOperands (E : Engine w c) (opcode : Nat) (z : Int) :
    ReturnsOr E.Faults (arithmOperands E opcode z) := by
  have harg := fun i => returnsOr_argument E (returnsOr_stackReg (w := w) (c := c) i)
  exact .ite (.bind (harg _) fun _ => .bind (harg _) fun _ => .pure _)
    (.ite (.bind (harg _) fun _ => .bind (harg _) fun _ => .bind (harg _) fun _ => .pure _)
      (.pure _))

theorem returnsOr_compareOperands (E : Engine w c) (opcode : Nat) (z : Int) :
    ReturnsOr E.Faults (compareOperands E opcode z) := by
  have harg := fun i => returnsOr_argument E (returnsOr_stackReg (w := w) (c := c) i)
  exact .ite (.bind (harg _) fun _ => .pure _)
    (.ite (.bind (harg _) fun _ => .bind (harg _) fun _ => .pure _) (.pure _))

end GvmCore
