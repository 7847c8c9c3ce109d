import GvmCore.Exec
import GvmCore.Memory
import GvmCore.TwosComplement

namespace GvmCore.Abstract
open Digits TwosComplement
set_option autoImplicit true

/-- The instructions that put one result in the place of two operands. -/
inductive Binary where
  | add
  | mul
  | sub
  | div
  | mod
  | exp
  | signExtend
  | lt
  | gt
  | eq
  | and
  | or
  | xor
  | byte
  deriving DecidableEq

def Binary.eval (x y : Nat) : Binary → Nat
  | .add => (x + y) % 2 ^ 256
  | .mul => x * y % 2 ^ 256
  | .sub => (x + 2 ^ 256 - y) % 2 ^ 256
  | .div => x / y
  | .mod => if y = 0 then 0 else x % y
  | .exp => x ^ y % 2 ^ 256
  | .signExtend => if x < 31 then extended (2 ^ 255) (8 * x + 7) y else y
  | .lt => if x < y then 1 else 0
  | .gt => if y < x then 1 else 0
  | .eq => if x = y then 1 else 0
  | .and => x &&& y
  | .or => x ||| y
  | .xor => x ^^^ y
  | .byte => if x < 32 then y / 2 ^ (8 * (31 - x)) % 256 else 0

inductive Unary where
  | isZero
  | not
  deriving DecidableEq

def Unary.eval (x : Nat) : Unary → Nat
  | .isZero => if x = 0 then 1 else 0
  | .not => 2 ^ 256 - 1 - x

/-- What a contract can ask about the transaction and the block it runs in. -/
inductive Info where
  | address
  | origin
  | caller
  | callDataSize
  | codeSize
  | gasPrice
  | coinBase
  | timeStamp
  | number
  | difficulty
  | gasLimit
  deriving DecidableEq

/-- PUSH has `n + 1` bytes behind it; DUP copies element `n`, SWAP exchanges element `n + 1`. -/
inductive Op where
  | binary (b : Binary)
  | unary (u : Unary)
  | sha3
  | info (i : Info)
  | pop
  | mload
  | mstore
  | mstore8
  | sload
  | sstore
  | jump
  | pc
  | gas
  | jumpDest
  | push (n : Fin 32)
  | dup (n : Fin 16)
  | swap (n : Fin 16)
  | ret
  deriving DecidableEq

structure State where
  /-- The top is the head. -/
  stack : List Nat
  memory : Memory
  storage : Nat → Option Nat
  gas : Nat
  pc : Nat

def State.operand (s : State) (k : Nat) : Nat := s.stack.getD k 0

def State.start (gas : Nat) : State := ⟨[], fun _ => 0, fun _ => none, gas, 0⟩

structure Contract where
  code : List (BitVec 8)
  info : Info → Nat
  hash : List (BitVec 8) → Nat

inductive Stuck where
  | invalidOp
  | stackUnderflow
  | stackOverflow
  | outOfGas
  | badJump
  deriving DecidableEq

namespace Op

def decode (b : BitVec 8) : Option Op :=
  match b.toNat with
  | 0x01 => some (.binary .add)
  | 0x02 => some (.binary .mul)
  | 0x03 => some (.binary .sub)
  | 0x04 => some (.binary .div)
  | 0x06 => some (.binary .mod)
  | 0x0a => some (.binary .exp)
  | 0x0b => some (.binary .signExtend)
  | 0x10 => some (.binary .lt)
  | 0x11 => some (.binary .gt)
  | 0x14 => some (.binary .eq)
  | 0x15 => some (.unary .isZero)
  | 0x16 => some (.binary .and)
  | 0x17 => some (.binary .or)
  | 0x18 => some (.binary .xor)
  | 0x19 => some (.unary .not)
  | 0x1a => some (.binary .byte)
  | 0x20 => some .sha3
  | 0x30 => some (.info .address)
  | 0x32 => some (.info .origin)
  | 0x33 => some (.info .caller)
  | 0x36 => some (.info .callDataSize)
  | 0x38 => some (.info .codeSize)
  | 0x3a => some (.info .gasPrice)
  | 0x41 => some (.info .coinBase)
  | 0x42 => some (.info .timeStamp)
  | 0x43 => some (.info .number)
  | 0x44 => some (.info .difficulty)
  | 0x45 => some (.info .gasLimit)
  | 0x50 => some .pop
  | 0x51 => some .mload
  | 0x52 => some .mstore
  | 0x53 => some .mstore8
  | 0x54 => some .sload
  | 0x55 => some .sstore
  | 0x56 => some .jump
  | 0x58 => some .pc
  | 0x5a => some .gas
  | 0x5b => some .jumpDest
  | 0xf3 => some .ret
  | n =>
    if h : 0x60 ≤ n ∧ n < 0x80 then some (.push ⟨n - 0x60, by omega⟩)
    else if h : 0x80 ≤ n ∧ n < 0x90 then some (.dup ⟨n - 0x80, by omega⟩)
    else if h : 0x90 ≤ n ∧ n < 0xa0 then some (.swap ⟨n - 0x90, by omega⟩)
    else none

def cost : Op → Nat
  | .binary .mul | .binary .div | .binary .mod | .binary .signExtend => 5
  | .binary .exp => 10
  | .binary _ | .unary _ | .push _ | .dup _ | .swap _ | .mload | .mstore | .mstore8 => 3
  | .sha3 => 30
  | .info _ | .pop | .pc | .gas => 2
  | .sload => 50
  | .sstore | .ret => 0
  | .jump => 8
  | .jumpDest => 1

def needs : Op → Nat
  | .binary _ | .sha3 | .mstore | .mstore8 | .sstore | .ret => 2
  | .unary _ | .pop | .mload | .sload | .jump => 1
  | .info _ | .pc | .gas | .jumpDest | .push _ => 0
  | .dup n => n + 1
  | .swap n => n + 2

def size : Op → Nat
  | .push n => n + 2
  | _ => 1

def stackAfter (C : Contract) (s : State) : Op → List Nat
  | .binary b => b.eval (s.operand 0) (s.operand 1) :: s.stack.drop 2
  | .unary u => u.eval (s.operand 0) :: s.stack.drop 1
  | .sha3 => C.hash (s.memory.read (s.operand 0) (s.operand 1)) :: s.stack.drop 2
  | .info i => C.info i :: s.stack
  | .mload => value (s.memory.read (s.operand 0) 32).reverse :: s.stack.drop 1
  | .sload => (s.storage (s.operand 0)).getD 0 :: s.stack.drop 1
  | .pc => s.pc :: s.stack
  | .gas => (s.gas - cost .gas) :: s.stack
  | .push n => value (Memory.read (C.code.getD · 0) (s.pc + 1) (n + 1)).reverse :: s.stack
  | .dup n => s.operand n :: s.stack
  | .swap n => (s.stack.set 0 (s.operand (n + 1))).set (n + 1) (s.operand 0)
  | .pop | .jump => s.stack.drop 1
  | .mstore | .mstore8 | .sstore | .ret => s.stack.drop 2
  | .jumpDest => s.stack

def memoryAfter (s : State) : Op → Memory
  | .mstore => s.memory.write (s.operand 0) (Memory.bigEndian 32 (s.operand 1))
  | .mstore8 => s.memory.write (s.operand 0) (Memory.bigEndian 1 (s.operand 1))
  | _ => s.memory

def storageAfter (s : State) : Op → Nat → Option Nat
  | .sstore => Function.update s.storage (s.operand 0) (some (s.operand 1))
  | _ => s.storage

def pcAfter (s : State) : Op → Nat
  | .jump => s.operand 0
  | op => s.pc + op.size

def next (C : Contract) (s : State) (op : Op) : State :=
  ⟨op.stackAfter C s, op.memoryAfter s, op.storageAfter s, s.gas - op.cost, op.pcAfter s⟩

/-- Why an instruction cannot run; a jump has to lead to a JUMPDEST. -/
def refuses (C : Contract) (s : State) (op : Op) : Option Stuck :=
  if s.stack.length < op.needs then some .stackUnderflow
  else if s.gas < op.cost then some .outOfGas
  else if 1024 < (op.stackAfter C s).length then some .stackOverflow
  else if op = .jump ∧ C.code[s.operand 0]? ≠ some 0x5b then some .badJump
  else none

theorem of_refuses_eq_none {op : Op} (h : op.refuses C s = none) :
    op.needs ≤ s.stack.length ∧ op.cost ≤ s.gas := by
  unfold refuses at h
  split at h
  · cases h
  split at h
  · cases h
  exact ⟨by omega, by omega⟩

theorem of_refuses_eq_outOfGas {op : Op} (h : op.refuses C s = some .outOfGas) :
    op.needs ≤ s.stack.length ∧ s.gas < op.cost := by
  unfold refuses at h
  split at h
  · cases h
  split at h
  · exact ⟨by omega, by assumption⟩
  split at h
  · cases h
  split at h <;> cases h

end Op

namespace Contract

def op (C : Contract) (s : State) : Option Op := C.code[s.pc]?.bind Op.decode

/-- The abstract machine: RETURN leaves the run, what cannot go on is a fault. -/
def step (C : Contract) : Exec Stuck State Unit := fun s =>
  match C.op s with
  | none => .fault .invalidOp
  | some op =>
    match op.refuses C s with
    | some reason => .fault reason
    | none => if op = .ret then .exit (op.next C s) else .ok () (op.next C s)

def output (s : State) : List (BitVec 8) := s.memory.read (s.operand 0) (s.operand 1)

variable {C : Contract}

theorem step_eq_ok : C.step s = .ok () t ↔
    ∃ op, C.op s = some op ∧ op.refuses C s = none ∧ op ≠ .ret ∧ op.next C s = t := by
  unfold step
  cases C.op s with
  | none => simp
  | some op =>
    cases hr : op.refuses C s with
    | some reason => simp [hr]
    | none =>
      by_cases hret : op = .ret
      · subst hret
        simp [hr]
      · simp [hr, hret]

theorem step_eq_exit : C.step s = .exit t ↔
    C.op s = some .ret ∧ Op.ret.refuses C s = none ∧ Op.ret.next C s = t := by
  unfold step
  cases C.op s with
  | none => simp
  | some op =>
    cases hr : op.refuses C s with
    | some reason =>
      simp only [hr, reduceCtorEq, false_iff, Option.some.injEq, not_and]
      rintro rfl h
      rw [hr] at h
      cases h
    | none =>
      by_cases hret : op = .ret
      · subst hret
        simp [hr]
      · simp [hr, hret]

theorem step_eq_outOfGas (h : C.step s = .fault .outOfGas) :
    ∃ op, C.op s = some op ∧ op.refuses C s = some .outOfGas := by
  unfold step at h
  cases hop : C.op s with
  | none => simp [hop] at h
  | some op =>
    refine ⟨op, rfl, ?_⟩
    cases hr : op.refuses C s with
    | some reason => simpa [hop, hr] using h
    | none =>
      by_cases hret : op = .ret
      · subst hret
        simp [hop, hr] at h
      · simp [hop, hr, hret] at h

theorem getElem?_of_op {o : Op} (h : C.op s = some o) :
    ∃ b, C.code[s.pc]? = some b ∧ Op.decode b = some o :=
  Option.bind_eq_some_iff.mp h

end Contract

end GvmCore.Abstract
