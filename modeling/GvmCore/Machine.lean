import GvmCore.Bignum
import GvmCore.Exec
import Mathlib.Data.Fin.VecNotation
import Mathlib.Logic.Function.Basic

namespace GvmCore
open Exec
set_option autoImplicit true

/-- The ways a run leaves what the C code defines. -/
inductive Fault where
  | stackIndex
  | memoryIndex
  | heapNull
  | heapOverrun
  | keccakBuffer
  deriving DecidableEq, Repr

/-- An index was outside the stack or the memory array. -/
def Fault.Indexing (f : Fault) : Prop := f = .stackIndex ∨ f = .memoryIndex

instance (f : Fault) : Decidable f.Indexing := inferInstanceAs (Decidable (_ ∨ _))

/-- `bignum_alloc` returned `NULL` or cells past the end of the heap. -/
def Fault.OfHeap (f : Fault) : Prop := f = .heapNull ∨ f = .heapOverrun

instance (f : Fault) : Decidable f.OfHeap := inferInstanceAs (Decidable (_ ∨ _))

structure Storage where
  key : BitVec 32
  value : Reg

/-- The list behind `mainStorage`, which is never empty. -/
structure Chain where
  head : Storage
  next : List Storage

def Chain.nodes (l : Chain) : List Storage := l.head :: l.next

structure Registers where
  curAddr : Word
  callerAddr : Word
  originAddr : Word
  gasPrice : Word
  extCodeSize : Word
  inpDataSize : Word
  coinBase : Word
  timeStamp : Word
  number : Word
  difficulty : Word
  gasLimit : Word

inductive Line where
  | outOfGas
  | gasLimitError
  | result (bytes : List (BitVec 8))
  deriving DecidableEq

/-- What both engines keep of a running contract. `w` is the width of `sp`, `mem_size` and the code
size, `c` the width of a memory cell. -/
structure Core (w c : Nat) where
  stackArr : Fin 2048 → Word
  sp : BitVec w
  memSize : BitVec w
  dataBus : Fin 1024 → BitVec c
  gasAvailable : Reg
  mainStorage : Chain
  heap : Nat → VBigDig
  heapPos : Nat
  pc : BitVec 32
  prog : BitVec 32 → BitVec 8
  elfSize : BitVec w
  regs : Registers
  console : List Line

/-- Where the two engines differ, and what the C code leaves open. -/
structure Engine (w c : Nat) where
  spBits : 32 ≤ w
  cellBits : 8 ≤ c
  /-- The size of the digit heap; `none` is a heap that never runs out. -/
  heapCells : Option Nat
  /-- Whether `CheckError("@")` unwinds the run or the call just returns. -/
  checkErrorThrows : Bool
  /-- Program reads at or above this address give zero. -/
  progSize : Option Nat
  /-- What the n-th lookup of an argument list gives for an index it has no entry for. -/
  argList : Nat → Core w c → Word → Word
  /-- What the uninitialised `data_tmp` of `LoadFromStorage` holds. -/
  uninit : Core w c → Reg
  keccak : List (BitVec 8) → Fin 32 → BitVec 8

abbrev M (w c : Nat) := Exec Fault (Core w c)

def InStack (i : Int) : Prop := 0 ≤ i ∧ i < 2048

instance (i : Int) : Decidable (InStack i) := inferInstanceAs (Decidable (_ ∧ _))

theorem InStack.toNat_lt (h : InStack i) : i.toNat < 2048 := by
  obtain ⟨h0, h1⟩ := h
  omega

namespace Core

def word (s : Core w c) (i : Int) : Word :=
  if h : InStack i then s.stackArr ⟨i.toNat, h.toNat_lt⟩ else 0

def setWord (s : Core w c) (i : Int) (v : Word) : Core w c :=
  if h : InStack i then
    { s with stackArr := Function.update s.stackArr ⟨i.toNat, h.toNat_lt⟩ v }
  else s

def cell (s : Core w c) (a : Nat) : BitVec c := if h : a < 1024 then s.dataBus ⟨a, h⟩ else 0

def setCell (s : Core w c) (a : Nat) (v : BitVec c) : Core w c :=
  if h : a < 1024 then { s with dataBus := Function.update s.dataBus ⟨a, h⟩ v } else s

/-- The `int32 sp` the library functions work with. -/
def spInt32 (s : Core w c) : Int := (s.sp.setWidth 32).toInt

end Core

/-- The index expression `sp + k`, computed at the width of `sp`. -/
def spIndex (sp : BitVec w) (k : Int) : Int := (sp + BitVec.ofInt w k).toNat

def setSp (sp : BitVec w) : M w c Unit := update fun s => { s with sp := sp }

def stackGet (i : Int) : M w c Word := fun s =>
  if InStack i then .ok (s.word i) s else .fault .stackIndex

def stackSet (i : Int) (v : Word) : M w c Unit := fun s =>
  if InStack i then .ok () (s.setWord i v) else .fault .stackIndex

def busGet (a : Nat) : M w c (BitVec c) := fun s =>
  if a < 1024 then .ok (s.cell a) s else .fault .memoryIndex

def busSet (a : Nat) (v : BitVec c) : M w c Unit := fun s =>
  if a < 1024 then .ok () (s.setCell a v) else .fault .memoryIndex

def stackReg (i : Int) : M w c Reg := do
  let r3 ← stackGet (i + 3)
  let r2 ← stackGet (i + 2)
  let r1 ← stackGet (i + 1)
  let r0 ← stackGet i
  return ![r0, r1, r2, r3]

def stackPutReg (i : Int) (r : Reg) : M w c Unit := do
  stackSet i (r 0)
  stackSet (i + 1) (r 1)
  stackSet (i + 2) (r 2)
  stackSet (i + 3) (r 3)

namespace Engine

def fetch (E : Engine w c) (prog : BitVec 32 → BitVec 8) (a : BitVec 32) : BitVec 8 :=
  match E.progSize with
  | none => prog a
  | some n => if a.toNat < n then prog a else 0

def Faults (E : Engine w c) (f : Fault) : Prop := f.Indexing ∨ f.OfHeap ∧ E.heapCells ≠ none

end Engine

def storeDigits (heap : Nat → VBigDig) (pos : Nat) (x : VBig) : Nat → VBigDig := fun i =>
  if pos < i ∧ i ≤ pos + x.length then x.getD (i - pos - 1) 0 else heap i

def loadDigits (heap : Nat → VBigDig) (pos n : Nat) : VBig :=
  (List.range n).map fun i => heap (pos + 1 + i)

def bignumTake (n : Nat) : M w c Nat := fun s =>
  .ok s.heapPos { s with
    heapPos := s.heapPos + (n + 1)
    heap := Function.update s.heap s.heapPos (BitVec.ofNat 16 n) }

/-- A `NULL` is written through by every caller. When the check just passes, the last digit is the
cell past the end of the heap. -/
def bignumAlloc (E : Engine w c) (n : Nat) : M w c Nat := do
  let pos ← read Core.heapPos
  match E.heapCells with
  | none => bignumTake n
  | some cells =>
    if pos + n > cells then fault .heapNull
    else if pos + n = cells then fault .heapOverrun
    else bignumTake n

def bignumFree (n : Nat) : M w c Unit := update fun s => { s with heapPos := s.heapPos - (n + 1) }

def bignumStore (pos : Nat) (x : VBig) : M w c Unit :=
  update fun s => { s with heap := storeDigits s.heap pos x }

def checkError (E : Engine w c) : M w c Unit := if E.checkErrorThrows then exit else pure ()

end GvmCore
