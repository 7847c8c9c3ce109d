import GvmCore.Operands

namespace GvmCore
open Exec VBignum Signed
set_option autoImplicit true

def arithmGas : Nat → Option Word
  | 1 | 3 => some stepGas2
  | 2 | 4 | 5 | 6 | 7 | 11 => some stepGas3
  | 8 | 9 => some stepGas4
  | 10 => some stepGas5
  | _ => none

def compareGas (opcode : Nat) : Option Word := if opcode < 11 then some stepGas2 else none

def payGas (E : Engine w c) : Option Word → M w c Unit
  | none => pure ()
  | some v => useGas E v

def arithmPay (E : Engine w c) (opcode : Nat) : M w c Unit :=
  if opcode = 0 then checkError E else payGas E (arithmGas opcode)

def modOperands (o : Operands) : Nat → Option (VBig × VBig)
  | 6 | 7 => some (o.a, o.b)
  | 8 => some (add o.a o.b, o.c)
  | 9 => some (mul o.a o.b, o.c)
  | _ => none

def signum (a : VBig) : VBig :=
  if bitTest a 255 then sub (setZero vbignum256) (setOne vbignum256) else setOne vbignum256

def arithmCompute (E : Engine w c) (opcode : Nat) (arg1 : Int) (o : Operands) : M w c VBig :=
  match opcode with
  | 1 => return add o.a o.b
  | 2 => return mul o.a o.b
  | 3 => return sub o.a o.b
  | 4 | 5 => do
    let r ← bignumDiv E o.a o.b vbignum256
    return r.1
  | 6 => bignumMod E o.a o.b
  | 7 => do
    let r ← bignumMod E o.a o.b
    return mul r (signum o.a)
  | 8 => bignumMod E (add o.a o.b) o.c
  | 9 => bignumMod E (mul o.a o.b) o.c
  | 10 => return if eqZero o.b then setOne o.a else expLoop o.a o.a o.b
  | 11 => do
    let v ← stackGet arg1
    return setBignum o.a (signExtend o.b (byteAt v 7).toNat)
  | _ => return o.a

theorem arithmResult_eq (E : Engine w c) (opcode : Nat) (arg1 : Int) (o : Operands) :
    arithmResult E opcode arg1 o = (do
      arithmPay E opcode
      arithmCompute E opcode arg1 o) := by
  match opcode with
  | 0 | 1 | 2 | 3 | 4 | 5 | 6 | 7 | 8 | 9 | 10 | 11 => rfl
  | n + 12 => rfl

/-- The result of an instruction; `byte` is the top byte of the first operand's low word,
`stale` what the cells of a remainder hold. -/
def arithmValue (opcode byte : Nat) (o : Operands) (stale : Nat → VBig) : VBig :=
  match modOperands o opcode with
  | some (x, y) =>
    let r := modDigits x y (stale (max x.length y.length))
    if opcode = 7 then mul r (signum o.a) else r
  | none =>
    match opcode with
    | 1 => add o.a o.b
    | 2 => mul o.a o.b
    | 3 => sub o.a o.b
    | 4 | 5 => (divPair o.a o.b vbignum256).1
    | 10 => if eqZero o.b then setOne o.a else expLoop o.a o.a o.b
    | 11 => setBignum o.a (signExtend o.b byte)
    | _ => o.a

def arithmCells (opcode : Nat) (o : Operands) : Nat :=
  match modOperands o opcode with
  | some (x, y) => modCells x y
  | none => if opcode = 4 ∨ opcode = 5 then divCells o.a o.b else 0

def arithmHeap (opcode : Nat) (o : Operands) (heap : Nat → VBigDig) (pos : Nat) : Nat → VBigDig :=
  match modOperands o opcode with
  | some (x, y) => modHeap x y heap pos
  | none => if opcode = 4 ∨ opcode = 5 then divHeap o.a o.b heap pos else heap

theorem arithmCompute_eq_ok {E : Engine w c} {s t : Core w c} :
    arithmCompute E opcode arg1 o s = .ok v t ↔
      E.HeapServes s.heapPos (arithmCells opcode o) ∧ (opcode = 11 → InStack arg1) ∧
      arithmValue opcode (byteAt (s.word arg1) 7).toNat o s.stale = v ∧
      { s with heap := arithmHeap opcode o s.heap s.heapPos } = t := by
  unfold arithmCompute arithmCells arithmValue arithmHeap modOperands
  match opcode with
  | 0 | 1 | 2 | 3 | 10 => simp [Engine.HeapServes.zero]
  | 4 | 5 =>
    simp only [bind_eq_ok, bignumDiv_eq_ok, pure_apply, Outcome.ok.injEq]
    constructor
    · rintro ⟨_, _, ⟨hp, rfl, rfl⟩, rfl, rfl⟩
      exact ⟨by simpa using hp, by simp, rfl, by simp⟩
    · rintro ⟨hp, -, rfl, rfl⟩
      exact ⟨_, _, ⟨by simpa using hp, rfl, rfl⟩, rfl, by simp⟩
  | 6 | 8 | 9 => simp [bignumMod_eq_ok]
  | 7 =>
    simp only [bind_eq_ok, bignumMod_eq_ok, pure_apply, Outcome.ok.injEq]
    constructor
    · rintro ⟨_, _, ⟨hp, rfl, rfl⟩, rfl, rfl⟩
      exact ⟨hp, by simp, rfl, rfl⟩
    · rintro ⟨hp, -, rfl, rfl⟩
      exact ⟨_, _, ⟨hp, rfl, rfl⟩, rfl, rfl⟩
  | 11 =>
    simp only [bind_eq_ok, stackGet_eq_ok, pure_apply, Outcome.ok.injEq]
    constructor
    · rintro ⟨_, _, ⟨hi, rfl, rfl⟩, rfl, rfl⟩
      exact ⟨by simp [Engine.HeapServes.zero], fun _ => hi, rfl, rfl⟩
    · rintro ⟨-, hi, rfl, rfl⟩
      exact ⟨_, _, ⟨hi trivial, rfl, rfl⟩, rfl, rfl⟩
  | n + 12 => simp [Engine.HeapServes.zero]

theorem returnsOr_arithmCompute (E : Engine w c) (opcode : Nat) (arg1 : Int) (o : Operands) :
    ReturnsOr E.Faults (arithmCompute E opcode arg1 o) := by
  unfold arithmCompute
  split
  case h_11 => exact .bind ((returnsOr_stackGet _).mono fun _ => .inl) fun _ => .pure _
  case h_4 | h_5 => exact .bind (returnsOr_bignumDiv E _ _ _) fun _ => .pure _
  case h_7 => exact .bind (returnsOr_bignumMod E _ _) fun _ => .pure _
  case h_6 | h_8 | h_9 => exact returnsOr_bignumMod E _ _
  all_goals exact .pure _

def compareCompute (opcode : Nat) (arg1 : Int) (o : Operands) : M w c VBig :=
  if opcode = 10 then do
    let v ← stackGet arg1
    return compareValue opcode (byteAt v 7).toNat o
  else return compareValue opcode 0 o

theorem compareResult_eq (E : Engine w c) (opcode : Nat) (arg1 : Int) (o : Operands) :
    compareResult E opcode arg1 o = (do
      payGas E (compareGas opcode)
      compareCompute opcode arg1 o) := by
  unfold compareResult compareCompute compareGas
  by_cases h10 : opcode = 10
  · rw [if_pos h10, if_pos (by omega), if_pos h10]
    rfl
  · by_cases h : opcode < 10
    · rw [if_neg h10, if_pos h, if_pos (by omega), if_neg h10]
      rfl
    · have hval : compareValue opcode 0 o = o.a := by
        obtain ⟨n, rfl⟩ : ∃ n, opcode = n + 11 := ⟨opcode - 11, by omega⟩
        rfl
      rw [if_neg h10, if_neg h, if_neg (by omega), if_neg h10, hval]
      rfl

theorem compareCompute_eq_ok {s t : Core w c} :
    compareCompute opcode arg1 o s = .ok v t ↔ (opcode = 10 → InStack arg1) ∧
      compareValue opcode (byteAt (s.word arg1) 7).toNat o = v ∧ s = t := by
  unfold compareCompute
  by_cases h : opcode = 10
  · subst h
    simp only [if_true, bind_eq_ok, stackGet_eq_ok, pure_apply, Outcome.ok.injEq]
    constructor
    · rintro ⟨_, _, ⟨hi, rfl, rfl⟩, rfl, rfl⟩
      exact ⟨fun _ => hi, rfl, rfl⟩
    · rintro ⟨hi, rfl, rfl⟩
      exact ⟨_, _, ⟨hi trivial, rfl, rfl⟩, rfl, rfl⟩
  · have hbyte : ∀ byte, compareValue opcode byte o = compareValue opcode 0 o := by
      intro byte
      unfold compareValue
      split
      case h_11 => exact absurd rfl h
      all_goals rfl
    simp [h, hbyte]

theorem returnsOr_compareCompute (opcode : Nat) (arg1 : Int) (o : Operands) :
    ReturnsOr Fault.Indexing (compareCompute opcode arg1 o : M w c VBig) :=
  .ite (.bind (returnsOr_stackGet _) fun _ => .pure _) (.pure _)

def Core.arithmed (s : Core w c) (z : Int) (opcode : Nat) : Core w c :=
  let o := takeOperands s z (arithmArity opcode)
  { s with heap := arithmHeap opcode o s.heap s.heapPos }.putReg o.sp
    (bignumToReg (arithmValue opcode (byteAt (s.word (z - 3)) 7).toNat o s.stale))

def Core.compared (s : Core w c) (z : Int) (opcode : Nat) : Core w c :=
  let o := takeOperands s z (compareArity opcode)
  s.putReg o.sp (bignumToReg (compareValue opcode (byteAt (s.word (z - 3)) 7).toNat o))

def Core.taken (s : Core w c) (z : Int) (k : Nat) : Core w c :=
  (s.convertedTop z k).withSp (resultIndex z k + 3)

def ResultIn (z : Int) (k : Nat) : Prop := k = 0 → InStack z ∧ InStack (z + 3)

theorem resultIn_iff (h : OperandsIn z k) :
    ResultIn z k ↔ InStack (resultIndex z k) ∧ InStack (resultIndex z k + 3) := by
  by_cases hk : k = 0
  · simp [ResultIn, resultIndex, hk]
  · rcases h with h | ⟨h0, h3⟩
    · exact absurd h hk
    · simp only [ResultIn, resultIndex, hk, false_implies, if_false, true_iff]
      simp only [InStack] at *
      omega

end GvmCore
