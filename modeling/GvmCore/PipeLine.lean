import Mathlib.Data.List.Basic
import Mathlib.Logic.Function.Basic

namespace GvmCore.PipeLine
set_option autoImplicit true

/-- One stage of `TPipeLine`. An instruction is a pointer into the array of the pipeline. -/
structure TPipe where
  curInst : Option Nat
  writeInst : Option Nat
  maxBufSize : Int
  bufSize : Int
  nextReq : Bool
  writeReq : Bool
  repeateCount : Int
  allowNext : Bool
  deriving DecidableEq

namespace TPipe

def reset : TPipe where
  curInst := none
  writeInst := none
  maxBufSize := 1
  bufSize := 0
  nextReq := true
  writeReq := false
  repeateCount := 0
  allowNext := true

def bufNotEmpty (p : TPipe) : Bool := p.bufSize > 0

def writeInst2Pipe (p : TPipe) (inst : Option Nat) : TPipe :=
  { p with
    curInst := inst
    bufSize := p.bufSize + 1
    nextReq := p.bufSize + 1 < p.maxBufSize }

def getCurInst (p : TPipe) : Option Nat := if p.bufSize = 1 then p.curInst else none

def sendNext (p : TPipe) : TPipe :=
  { p with
    writeInst := p.curInst
    bufSize := p.bufSize - 1
    writeReq := true
    nextReq := true
    repeateCount := 0 }

end TPipe

/-- The stages and the ring of instructions; `pipe_count` is the parameter `n` of its functions. -/
structure TPipeLine (α : Type) where
  insts : Nat → α
  pipes : Nat → TPipe
  curCount : Nat

namespace TPipeLine

def reset (s : TPipeLine α) : TPipeLine α :=
  { s with pipes := fun _ => .reset, curCount := 0 }

def setPipe (s : TPipeLine α) (i : Nat) (p : TPipe) : TPipeLine α :=
  { s with pipes := Function.update s.pipes i p }

def updateRound (s : TPipeLine α) (i : Nat) : TPipeLine α :=
  if (s.pipes (i + 1)).nextReq && (s.pipes i).writeReq then
    (s.setPipe (i + 1) { (s.pipes (i + 1)).writeInst2Pipe (s.pipes i).writeInst with
      allowNext := true }).setPipe i { s.pipes i with writeReq := false }
  else s.setPipe (i + 1) { s.pipes (i + 1) with allowNext := (s.pipes (i + 1)).nextReq }

def update (n : Nat) (s : TPipeLine α) : TPipeLine α := (List.range n).foldl updateRound s

def allowed (n i : Nat) (s : TPipeLine α) : Bool :=
  if i = n then (s.pipes i).bufNotEmpty
  else if i = 0 then (s.pipes (i + 1)).allowNext
  else ((s.pipes (i + 1)).allowNext || (s.pipes i).repeateCount != 0) && (s.pipes i).bufNotEmpty

/-- A stage that may not go on gives up its request to write. -/
def allowExec (n i : Nat) (s : TPipeLine α) : Bool × TPipeLine α :=
  (s.allowed n i,
    if s.allowed n i then s else s.setPipe i { s.pipes i with writeReq := false })

def getCurInst (n i : Nat) (s : TPipeLine α) : Option Nat × TPipeLine α :=
  if i = 0 then
    (some s.curCount,
      { s.setPipe 0 ((s.pipes 0).writeInst2Pipe (some s.curCount)) with
        curCount := if s.curCount + 1 = (n + 1) * 2 then 0 else s.curCount + 1 })
  else
    ((s.pipes i).getCurInst, s.setPipe i { s.pipes i with repeateCount := 0 })

def sendNext (i : Nat) (s : TPipeLine α) : TPipeLine α := s.setPipe i (s.pipes i).sendNext

/-- `TPipeLine::Repeate` has no body. -/
def repeate (_i : Nat) (s : TPipeLine α) : TPipeLine α := s

def fill (p : Option Nat) (x : α) (s : TPipeLine α) : TPipeLine α :=
  match p with
  | none => s
  | some p => { s with insts := Function.update s.insts p x }

/-- The code of a stage: `RUN_PIPE`, which leaves it when the stage is not allowed, then its own
work on the instruction, and `SEND_PIPE` or `REPEATE`. The first stage decodes `x` into the
instruction it gets. -/
def stage (n i : Nat) (x : α) (again : Bool) (s : TPipeLine α) : Option α × TPipeLine α :=
  let (ok, s) := s.allowExec n i
  if ok then
    let (p, s) := s.getCurInst n i
    let s := if i = 0 then s.fill p x else s
    (p.map s.insts, if again then s.repeate i else s.sendNext i)
  else (none, s)

end TPipeLine

/-- A clock cycle: the stages in the order they are called in, and those that repeat. -/
structure Cycle where
  order : List Nat
  again : Nat → Bool

namespace TPipeLine

/-- The calls of a cycle, with what stage `k` works on in it. -/
def calls (n k : Nat) (x : α) (again : Nat → Bool) :
    List Nat → TPipeLine α → List α × TPipeLine α
  | [], s => ([], s)
  | i :: order, s =>
    let r := s.stage n i x (again i)
    let rest := calls n k x again order r.2
    ((if i = k then r.1.toList else []) ++ rest.1, rest.2)

def cycle (n k : Nat) (x : α) (c : Cycle) (s : TPipeLine α) : List α × TPipeLine α :=
  let r := s.calls n k x c.again c.order
  (r.1, r.2.update n)

/-- What stage `k` works on in a run; `inst t` is decoded in cycle `t`. -/
def worked (n k : Nat) (inst : Nat → α) : Nat → List Cycle → TPipeLine α → List α
  | _, [], _ => []
  | t, c :: cs, s =>
    let r := s.cycle n k (inst t) c
    r.1 ++ worked n k inst (t + 1) cs r.2

end TPipeLine
end GvmCore.PipeLine
