import GvmCore.Effects
import GvmCore.Instructions

namespace GvmCore
open Exec
set_option autoImplicit true

/-- The registers an instruction can push; `blockHash` is the zero that BLOCKHASH pushes. -/
inductive Register where
  | curAddr
  | originAddr
  | callerAddr
  | inpDataSize
  | codeSize
  | gasPrice
  | extCodeSize
  | blockHash
  | coinBase
  | timeStamp
  | number
  | difficulty
  | gasLimit
  deriving DecidableEq

def Register.value (s : Core w c) : Register → Word
  | .curAddr => s.regs.curAddr
  | .originAddr => s.regs.originAddr
  | .callerAddr => s.regs.callerAddr
  | .inpDataSize => s.regs.inpDataSize
  | .codeSize => s.elfSize.setWidth 64
  | .gasPrice => s.regs.gasPrice
  | .extCodeSize => s.regs.extCodeSize
  | .blockHash => 0
  | .coinBase => s.regs.coinBase
  | .timeStamp => s.regs.timeStamp
  | .number => s.regs.number
  | .difficulty => s.regs.difficulty
  | .gasLimit => s.regs.gasLimit

/-- What an opcode byte stands for once its pattern is found and its argument lists are looked up.
An `op` above the cases of its `switch` takes the default path. -/
inductive Insn where
  | noOp
  | chargeOnly (gas : Word)
  | pushRegister (gas : Word) (reg : Register)
  | returnInst
  | push (count : Nat)
  | dup (count : Nat)
  | swap (count : Nat)
  | mem (takesAddr : Bool) (op : Nat)
  | arithm (op : Nat)
  | compare (op : Nat)
  | sha3
  deriving DecidableEq

namespace Insn

def system : Nat → Insn
  | 0 => .chargeOnly 32000
  | 1 => .chargeOnly 40
  | 2 => .chargeOnly 40
  | 3 => .returnInst
  | 4 => .chargeOnly 40
  | _ => .noOp

def accountsData : Nat → Insn
  | 0 => .pushRegister 2 .curAddr
  | 1 => .chargeOnly 20
  | 2 => .pushRegister 2 .originAddr
  | 3 => .pushRegister 2 .callerAddr
  | 4 => .chargeOnly 2
  | 5 => .chargeOnly 3
  | 6 => .pushRegister 2 .inpDataSize
  | 7 => .chargeOnly 3
  | 8 => .pushRegister 2 .codeSize
  | 9 => .chargeOnly 3
  | 10 => .pushRegister 2 .gasPrice
  | 11 => .pushRegister 20 .extCodeSize
  | 12 => .chargeOnly 20
  | _ => .noOp

def blockChain : Nat → Insn
  | 0 => .pushRegister 20 .blockHash
  | 1 => .pushRegister 2 .coinBase
  | 2 => .pushRegister 2 .timeStamp
  | 3 => .pushRegister 2 .number
  | 4 => .pushRegister 2 .difficulty
  | 5 => .pushRegister 2 .gasLimit
  | _ => .noOp

def decode (ocode : BitVec 8) : Insn :=
  let opcode := (ocode &&& 0xf).toNat
  match getInstNum ocode with
  | 1 => system opcode
  | 2 => .chargeOnly 40
  | 3 => .returnInst
  | 4 => .returnInst
  | 5 => blockChain opcode
  | 6 => accountsData opcode
  | 7 => .push (ocode &&& 0x1f).toNat
  | 8 => .dup opcode
  | 9 => .swap opcode
  | 10 => .chargeOnly (375 + (ocode &&& 0x7).setWidth 64 * 375)
  | 11 => .mem (opcode ≠ 0 ∧ opcode < 8) opcode
  | 12 => .arithm opcode
  | 13 => .compare opcode
  | 14 => .sha3
  | _ => .noOp

def exec (E : Engine w c) : Insn → M w c PcWrite
  | .noOp => pure .none
  | .chargeOnly gas => noPc (useGas E gas)
  | .pushRegister gas reg => noPc (GvmCore.pushRegister E gas fun s => reg.value s)
  | .returnInst => noPc (GvmCore.returnInst E)
  | .push count => do
    useGas E 3
    pushInst E (count + 1)
    let pc ← read Core.pc
    return .constChanged (pc + BitVec.ofNat 32 (count + 2))
  | .dup count => noPc do
    useGas E 3
    dupOp count
  | .swap count => noPc do
    useGas E 3
    swapOp count
  | .mem takesAddr op => do
    let addrVal ← if takesAddr then getSingleBlockFromStack else pure 0
    memOp E addrVal op
  | .arithm op => noPc (doArithm E op)
  | .compare op => noPc (doCompare E op)
  | .sha3 => noPc do
    useGas E 30
    keccakAlgStub E

end Insn

namespace Engine

def argValue (E : Engine w c) (n site idx : Nat) (s : Core w c) : Word :=
  if idx < n then BitVec.ofNat 64 idx else E.argList site s (BitVec.ofNat 64 idx)

def takesAddr (E : Engine w c) (s : Core w c) (opcode : Nat) : Bool :=
  E.argValue 12 0 opcode s ≠ 0 ∧ E.argValue 12 1 opcode s < 8

/-- The instruction a byte stands for in a state. -/
def resolve (E : Engine w c) (s : Core w c) (ocode : BitVec 8) : Insn :=
  let opcode := (ocode &&& 0xf).toNat
  match getInstNum ocode with
  | 11 =>
    let s' := if E.takesAddr s opcode then { s with sp := s.sp - 4 } else s
    .mem (E.takesAddr s opcode) ((E.argValue 12 2 opcode s').setWidth 32).toNat
  | 12 => .arithm ((E.argValue 12 0 opcode s).setWidth 32).toNat
  | 13 => .compare ((E.argValue 11 0 opcode s).setWidth 32).toNat
  | _ => Insn.decode ocode

end Engine

theorem argEntry_apply (E : Engine w c) (n site idx : Nat) (s : Core w c) :
    argEntry E n site idx s = .ok (E.argValue n site idx s) s := by
  unfold argEntry Engine.argValue
  split <;> rfl

theorem getSystemOps_eq (E : Engine w c) (n : Nat) :
    noPc (getSystemOps E n) = (Insn.system n).exec E := by
  match n with
  | 0 | 1 | 2 | 3 | 4 => rfl
  | n + 5 => rfl

theorem getAccountsData_eq (E : Engine w c) (n : Nat) :
    noPc (getAccountsData E n) = (Insn.accountsData n).exec E := by
  match n with
  | 0 | 1 | 2 | 3 | 4 | 5 | 6 | 7 | 8 | 9 | 10 | 11 | 12 => rfl
  | n + 13 => rfl

theorem getBlockChain_eq (E : Engine w c) (n : Nat) :
    noPc (getBlockChain E n) = (Insn.blockChain n).exec E := by
  match n with
  | 0 | 1 | 2 | 3 | 4 | 5 => rfl
  | n + 6 => rfl

theorem getSingleBlockFromStack_eq_ok {s t : Core w c} :
    getSingleBlockFromStack s = .ok v t ↔ InStack (spIndex s.sp (-3)) ∧
      singleBlock (s.word (spIndex s.sp (-3))) = v ∧ { s with sp := s.sp - 4 } = t := by
  simp only [getSingleBlockFromStack, setSp, bind_eq_ok, read_apply, stackGet_eq_ok, update_apply,
    pure_apply, Outcome.ok.injEq]
  constructor
  · rintro ⟨_, _, ⟨rfl, rfl⟩, _, _, ⟨h, rfl, rfl⟩, _, _, ⟨-, rfl⟩, rfl, rfl⟩
    exact ⟨h, rfl, rfl⟩
  · rintro ⟨h, rfl, rfl⟩
    exact ⟨_, _, ⟨rfl, rfl⟩, _, _, ⟨h, rfl, rfl⟩, (), _, ⟨trivial, rfl⟩, rfl, rfl⟩

theorem memOps_eq (E : Engine w c) (opcode : Nat) (s : Core w c) :
    memOps E opcode s = (Insn.mem (E.takesAddr s opcode)
      ((E.argValue 12 2 opcode (if E.takesAddr s opcode then { s with sp := s.sp - 4 } else s)
        ).setWidth 32).toNat).exec E s := by
  unfold memOps getMemOps
  rw [bind_of_ok (argEntry_apply _ _ _ _ _), bind_of_ok (argEntry_apply _ _ _ _ _)]
  by_cases h : E.argValue 12 0 opcode s ≠ 0 ∧ E.argValue 12 1 opcode s < 8
  · have ht : E.takesAddr s opcode = true := decide_eq_true h
    rw [if_pos h, ht, if_pos rfl]
    simp only [Insn.exec, if_true]
    cases hb : getSingleBlockFromStack s with
    | ok v t =>
      obtain ⟨-, -, rfl⟩ := getSingleBlockFromStack_eq_ok.mp hb
      rw [bind_of_ok hb, bind_of_ok hb, bind_of_ok (argEntry_apply _ _ _ _ _)]
    | exit t => rw [bind_of_exit hb, bind_of_exit hb]
    | fault e => rw [bind_of_fault hb, bind_of_fault hb]
  · have ht : E.takesAddr s opcode = false := decide_eq_false h
    rw [if_neg h, ht, if_neg (by decide), pure_bind]
    exact bind_of_ok (argEntry_apply _ _ _ _ _)

/-- The decoder runs the instruction the byte stands for. -/
theorem mainDecode_eq (E : Engine w c) (ocode : BitVec 8) (s : Core w c) :
    mainDecode E ocode s = (E.resolve s ocode).exec E s := by
  have hpc : ∀ pc : BitVec 32, pc + (ocode &&& 0x1f).setWidth 32 + 2 =
      pc + BitVec.ofNat 32 ((ocode &&& 0x1f).toNat + 2) := by
    intro pc
    have h2 : BitVec.ofNat 32 ((ocode &&& 0x1f).toNat + 2) = (ocode &&& 0x1f).setWidth 32 + 2 := by
      rw [BitVec.ofNat_add, BitVec.ofNat_toNat]
      rfl
    rw [h2, BitVec.add_assoc]
  unfold mainDecode Engine.resolve Insn.decode
  generalize getInstNum ocode = n
  match n with
  | 1 => exact congrFun (getSystemOps_eq E _) s
  | 5 => exact congrFun (getBlockChain_eq E _) s
  | 6 => exact congrFun (getAccountsData_eq E _) s
  | 7 => simp only [Insn.exec, hpc]
  | 11 => exact memOps_eq E _ s
  | 12 =>
    simp only [noPc, getArithmOps, bind_assoc, bind_of_ok (argEntry_apply _ _ _ _ _), Insn.exec]
  | 13 =>
    simp only [noPc, getCompareLogOps, bind_assoc, bind_of_ok (argEntry_apply _ _ _ _ _), Insn.exec]
  | 0 | 2 | 3 | 4 | 8 | 9 | 10 | 14 => rfl
  | n + 15 => rfl

end GvmCore
