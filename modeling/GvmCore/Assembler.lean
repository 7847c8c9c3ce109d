import Mathlib.Data.List.TakeWhile
import GvmCore.Exec
import GvmCore.Layout

namespace GvmCore
open Exec
set_option autoImplicit true

structure BinInst where
  mBitSize : BitVec 32
  mInpSize : BitVec 32
  data : BitVec 64
  deriving DecidableEq

/-- The constructor of `tBinInst`: its second argument is the size of the input. -/
def BinInst.new (aSize aInpSize : BitVec 32) : BinInst where
  mBitSize := aSize
  mInpSize := aInpSize
  data := 0

/-- `tToken`, as far as `AssemblyStream` reads it. -/
structure AsmToken where
  type : BitVec 32
  val : BitVec 32
  size : BitVec 32
  strval : String

def tokVal : BitVec 32 := 2

/-- The fields of `tBaseAsm` that `AssemblyStream` changes, and those of the derived class. -/
structure BaseAsm (δ : Type) where
  mProgCurAddr : BitVec 32
  mErrString : String
  numLines : Nat
  own : δ

namespace BaseAsm

def mCellSize : BitVec 32 := 1

def mVarAlignment : BitVec 32 := 4

def mAlignmentInst : List Char := ['n', 'o', 'p', '1', '6']

end BaseAsm

/-- What a virtual function of the assembler returns, and what it leaves in the object. -/
structure AsmAnswer (δ α : Type) where
  result : α
  mErrString : String
  own : δ

/-- The virtual functions: any tokenizer and any decoder of instructions. `GetExp` may return a
null pointer. -/
structure Decoder (δ : Type) where
  getToken : BaseAsm δ → List Char → AsmAnswer δ AsmToken
  getExp : BaseAsm δ → List Char → AsmAnswer δ (Option BinInst)

inductive AsmFault where
  /-- A null pointer in the place of an instruction. -/
  | noInst
  /-- A character behind the terminating zero. -/
  | overrun
  deriving DecidableEq

structure AsmPlace where
  progAddr : BitVec 32
  outAddr : BitVec 32
  deriving DecidableEq

/-- The value of a call: the error exits return zero, the end of the loop the bytes written. -/
inductive AsmReturn where
  | failed
  | bytes (n : BitVec 32)
  deriving DecidableEq

/-- A call of `AssemblyStream`; behind the last character of `stream` is the terminating zero.
`placed` are the stores through `out`, in their order, and `printed` the lines of `printf`. -/
structure AsmRun (δ : Type) where
  asm : BaseAsm δ
  stream : List Char
  sptr : Nat
  aOutStream : BitVec 32
  out : BitVec 32
  placed : List (AsmPlace × BinInst)
  printed : List String
  ret : AsmReturn

abbrev AsmM (δ : Type) := Exec AsmFault (AsmRun δ)

namespace AsmRun

def rest (t : AsmRun δ) : List Char := t.stream.drop t.sptr

def char (t : AsmRun δ) : Char := t.rest.headD '\x00'

def skip (n : Nat) (t : AsmRun δ) : AsmRun δ := { t with sptr := t.sptr + n }

def blanks : List Char := [' ', '\t', '\n', '\r']

def missBlanks (t : AsmRun δ) : AsmRun δ :=
  let missed := t.rest.takeWhile (· ∈ blanks)
  { t.skip missed.length with
    asm := { t.asm with numLines := t.asm.numLines + missed.count '\n' } }

def isComment (str : List Char) : Bool := str.take 2 = ['/', '/']

def missComment (t : AsmRun δ) : AsmRun δ :=
  (t.skip 2).skip ((t.skip 2).rest.takeWhile fun c => c ≠ '\n' ∧ c ≠ '\x00').length

theorem rest_skip (n : Nat) (t : AsmRun δ) : (t.skip n).rest = t.rest.drop n := by
  rw [rest, rest, List.drop_drop]
  rfl

theorem length_rest_missComment {t : AsmRun δ} (h : isComment t.rest = true) :
    t.missComment.rest.length < t.rest.length := by
  have hlen := congrArg List.length (of_decide_eq_true h)
  rw [List.length_take, List.length_cons, List.length_singleton] at hlen
  rw [missComment, rest_skip, rest_skip, List.length_drop, List.length_drop]
  omega

def nextLine (t : AsmRun δ) : AsmRun δ :=
  if isComment t.missBlanks.rest then nextLine t.missBlanks.missComment else t.missBlanks
termination_by t.rest.length
decreasing_by
  have hcomment := length_rest_missComment ‹isComment t.missBlanks.rest = true›
  have hblanks : t.missBlanks.rest.length ≤ t.rest.length := by
    rw [show t.missBlanks.rest = _ from rest_skip _ t, List.length_drop]
    exact Nat.sub_le _ _
  omega

def missSpaces (t : AsmRun δ) : AsmRun δ :=
  t.skip (t.rest.takeWhile fun c => c = ' ' ∨ c = '\t').length

def advance (n : BitVec 32) : AsmM δ Unit := fun t =>
  if t.sptr + n.toNat ≤ t.stream.length then .ok () (t.skip n.toNat) else .fault .overrun

def print (line : String) : AsmM δ Unit := update fun t => { t with printed := t.printed ++ [line] }

def fail : AsmM δ α := do
  update fun t => { t with ret := .failed }
  exit

def finish : AsmM δ α := do
  update fun t => { t with ret := .bytes (t.out - t.aOutStream) }
  exit

def call (f : BaseAsm δ → List Char → AsmAnswer δ α) (str : List Char) : AsmM δ α := fun t =>
  let answer := f t.asm str
  .ok answer.result
    { t with asm := { t.asm with mErrString := answer.mErrString, own := answer.own } }

variable (D : Decoder δ)

def getExp (str : List Char) : AsmM δ BinInst := do
  match ← call D.getExp str with
  | none => fault .noInst
  | some inst => return inst

/-- `dw`: the value is taken for the size of the input, and the unit holds zero. -/
def decodeWord : AsmM δ BinInst := do
  update (skip 3)
  update missSpaces
  let t ← call D.getToken (← read rest)
  if t.type = tokVal then do
    advance t.size
    return BinInst.new 32 t.val
  else do
    print ("error: unexpected symbol " ++ t.strval ++ "\n")
    fail

def decode : AsmM δ BinInst := do
  let str ← read rest
  if str.take 3 = ['d', 'w', ' '] then decodeWord D else getExp D str

/-- The input is cut behind the instruction before it is printed. -/
def reject (inst : BinInst) : AsmM δ Unit := do
  let lines ← read (·.asm.numLines)
  let errString ← read (·.asm.mErrString)
  print ("error " ++ toString lines ++ ": " ++ errString ++ "\n")
  let cut ← read fun t => t.sptr + inst.mInpSize.toNat
  if cut ≤ (← read (·.stream)).length then do
    update fun t => { t with stream := t.stream.set cut '\x00' }
    let text ← read fun t => t.stream.takeWhile (· ≠ '\x00')
    print ("incorrect instruction :" ++ String.ofList text ++ "\n")
    update fun t => { t with asm := { t.asm with mErrString := "" } }
    fail
  else fault .overrun

def addInst (inst : BinInst) : AsmM δ Unit :=
  if inst.mBitSize ∈ [8, 16, 32, 64] then
    update fun t => { t with
      placed := t.placed ++ [(⟨t.asm.mProgCurAddr, t.out⟩, inst)]
      out := t.out + inst.mBitSize / 8 }
  else fail

def incPC (aIncPC : Bool) (inst : BinInst) : AsmM δ Unit :=
  if aIncPC then
    update fun t => { t with
      asm := { t.asm with
        mProgCurAddr := t.asm.mProgCurAddr + inst.mBitSize / (BaseAsm.mCellSize * 8) } }
  else return ()

/-- The alignment: at most one padding instruction, and only before a unit of 32 bits. -/
def align (aIncPC : Bool) (inst : BinInst) : AsmM δ Unit := do
  let pc ← read (·.asm.mProgCurAddr)
  let alignRest := pc &&& (BaseAsm.mVarAlignment - 1)
  if BaseAsm.mVarAlignment > 0 ∧ alignRest > 0 ∧ inst.mBitSize = 32 then do
    let in2 ← getExp D BaseAsm.mAlignmentInst
    addInst in2
    incPC aIncPC in2
  else return ()

def place (aIncPC : Bool) (inst : BinInst) : AsmM δ Unit :=
  if inst.mBitSize = 0 then reject inst
  else do
    advance inst.mInpSize
    align D aIncPC inst
    addInst inst
    incPC aIncPC inst

/-- One round of the `while` loop; the run unwinds where the function returns. -/
def round (aIncPC : Bool) : AsmM δ Unit := do
  if (← read char) = '\x00' then finish
  else do
    update nextLine
    if (← read char) = '\x00' then finish
    else do
      let inst ← decode D
      place D aIncPC inst

def start (own : δ) (mProgCurAddr : BitVec 32) (aIStream : List Char) (aOutStream : BitVec 32) :
    AsmRun δ where
  asm := { mProgCurAddr, mErrString := "", numLines := 1, own }
  stream := aIStream
  sptr := 0
  aOutStream := aOutStream
  out := aOutStream
  placed := []
  printed := []
  ret := .failed

def Returns (aIncPC : Bool) (s t : AsmRun δ) : Prop := ∃ n, iterate (round D aIncPC) n s = .exit t

end AsmRun
end GvmCore
