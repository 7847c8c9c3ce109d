import GvmCore.Payment

namespace GvmCore
open Exec VBignum Signed
set_option autoImplicit true

def memGas : Nat → Option Word
  | 0 => some 2
  | 1 | 2 | 3 => some 3
  | 4 => some 50
  | 5 => some 0
  | 6 => some 8
  | 7 => some 10
  | 8 | 9 | 10 => some 2
  | 11 => some 1
  | _ => none

/-- The stores and loads of the 0x50 group find their words and cells; `y` is `sp` once the address
has been taken. -/
def MemFits (addrVal : Word) (y : Int) : Nat → Prop
  | 1 => (addrVal.setWidth 32).toNat + 32 ≤ 1024 ∧ InStack (y + 1) ∧ InStack (y + 4)
  | 2 => InStack (y - 3) ∧ InStack y ∧ addrVal.toNat + 32 ≤ 1024
  | 3 => InStack (y - 3) ∧ addrVal.toNat < 1024
  | 4 | 8 | 9 | 10 => InStack (y + 1) ∧ InStack (y + 4)
  | 5 => InStack (y - 3) ∧ InStack y
  | _ => True

def memEffect (E : Engine w c) (s : Core w c) (addrVal : Word) (y : Int) : Nat → Core w c
  | 0 => s.withSp (y - 4)
  | 1 => s.pushed y (s.loadReg (addrVal.setWidth 32).toNat)
  | 2 => ((s.withSp (y - 4)).storeReg addrVal.toNat (s.reg (y - 3))).grown (addrVal + 32)
  | 3 => (((s.withSp (y - 4)).setCell addrVal.toNat
      (((byteAt (s.word (y - 3)) 7).setWidth 8).setWidth c)).grown addrVal)
  | 4 => s.pushed y fun j => swapBytes (storageValue E s (addrVal.setWidth 32) j.rev)
  | 5 => s.saved y (addrVal.setWidth 32)
  | 8 => s.pushed y (lowWord (swapBytes (s.pc.setWidth 64)))
  | 9 => s.pushed y (lowWord (swapBytes (s.memSize.setWidth 64)))
  | 10 => s.pushed y s.gasAvailable
  | _ => s

def memWrite (addrVal : Word) : Nat → PcWrite
  | 6 => .withinInst (addrVal.setWidth 32)
  | _ => .none

namespace Insn

def InRange : Insn → Prop
  | .push count => count < 32
  | .dup count => count < 16
  | .swap count => count < 16
  | _ => True

def charge : Insn → Option Word
  | .noOp => none
  | .chargeOnly gas => some gas
  | .pushRegister gas _ => some gas
  | .returnInst => some 0
  | .push _ => some 3
  | .dup _ => some 3
  | .swap _ => some 3
  | .mem _ op => memGas op
  | .arithm op => arithmGas op
  | .compare op => compareGas op
  | .sha3 => some 30

def pay (E : Engine w c) : Insn → M w c Unit
  | .arithm op => arithmPay E op
  | I => payGas E I.charge

def arity : Insn → Nat
  | .arithm op => arithmArity op
  | .compare op => compareArity op
  | _ => 0

def entry (s : Core w c) (z : Int) : Insn → Core w c
  | .mem true _ => s.withSp (z - 4)
  | .arithm op => s.taken z (arithmArity op)
  | .compare op => s.taken z (compareArity op)
  | _ => s

def EntryIn (z : Int) : Insn → Prop
  | .mem true _ => InStack (z - 3)
  | .arithm op => OperandsIn z (arithmArity op)
  | .compare op => OperandsIn z (compareArity op)
  | _ => True

/-- The digit cells used and given back after the charge. -/
def scratch (s : Core w c) (z : Int) : Insn → Nat
  | .arithm op => arithmCells op (takeOperands s z (arithmArity op))
  | _ => 0

def memBase (takesAddr : Bool) (z : Int) : Int := if takesAddr then z - 4 else z

def memAddr (s : Core w c) (takesAddr : Bool) (z : Int) : Word :=
  if takesAddr then s.address z else 0

def hashOffs (s : Core w c) (z : Int) : Nat := ((s.address z).setWidth 32).toNat

def hashSize (s : Core w c) (z : Int) : Nat := ((s.address (z - 4)).setWidth 32).toNat

/-- After the charge every index is inside its array. -/
def Fits (s : Core w c) (z : Int) : Insn → Prop
  | .returnInst => False
  | .pushRegister _ _ => InStack (z + 1) ∧ InStack (z + 4)
  | .push count => ∀ j ∈ pushIndices (count + 1), InStack (z + 1 + (j : Nat))
  | .dup count => InStack (z - 4 * count - 3) ∧ InStack (z - 4 * count) ∧ InStack (z + 1) ∧
      InStack (z + 4)
  | .swap count => InStack (z - 4 * (count + 1) - 3) ∧ InStack z
  | .mem takesAddr op => MemFits (memAddr s takesAddr z) (memBase takesAddr z) op
  | .arithm op => ResultIn z (arithmArity op)
  | .compare op => ResultIn z (compareArity op)
  | .sha3 => InStack (z - 3) ∧ InStack (z - 7) ∧
      (∀ i < hashSize s z, hashOffs s z + i < 1024) ∧ hashSize s z ≤ 255
  | _ => True

/-- What the instruction does after the charge, as a function of the state it is made in. -/
def effect (E : Engine w c) (s : Core w c) (z : Int) : Insn → Core w c
  | .pushRegister _ reg => s.pushed z (lowWord (swapBytes (reg.value s)))
  | .push count => s.pushed z (pushReg E s z (count + 1))
  | .dup count => s.pushed z (s.element z count)
  | .swap count => s.swapped z count
  | .mem takesAddr op => memEffect E s (memAddr s takesAddr z) (memBase takesAddr z) op
  | .arithm op => s.arithmed z op
  | .compare op => s.compared z op
  | .sha3 => s.pushed (z - 8) (hashReg E s (hashOffs s z) (hashSize s z))
  | _ => s

def write (s : Core w c) (z : Int) : Insn → PcWrite
  | .push count => .constChanged (s.pc + BitVec.ofNat 32 (count + 2))
  | .mem takesAddr op => memWrite (memAddr s takesAddr z) op
  | _ => .none

end Insn

end GvmCore
