import GvmCore.Functions

namespace GvmCore
open Exec
set_option autoImplicit true

/-- What an instruction assigns to `pc` and the flag it raises with it. -/
inductive PcWrite where
  | none
  | constChanged (pc : BitVec 32)
  | withinInst (pc : BitVec 32)

/-- The decoding loop: byte `7 - i` of the word is shifted by `i` bits, not by `i` bytes. -/
def singleBlock (dataTmp : Word) : Word :=
  (List.range 8).foldl (fun dataVal i => dataVal ||| byteAt dataTmp (7 - i) <<< i) 0

def getSingleBlockFromStack : M w c Word := do
  let sp ← read Core.sp
  let dataTmp ← stackGet (spIndex sp (-3))
  setSp (sp - 4)
  return singleBlock dataTmp

def pushBlock (dataVal : Word) : M w c Unit := do
  let sp ← read fun s => s.sp + 1
  setSp sp
  stackSet (spIndex sp 0) dataVal
  stackSet (spIndex sp 1) 0
  stackSet (spIndex sp 2) 0
  stackSet (spIndex sp 3) 0
  setSp (sp + 3)

def pushSingleBlockToStack (dataTmp : Word) : M w c Unit := pushBlock (swapBytes dataTmp)

def mSizeOp : M w c Unit := do
  let dataTmp ← read fun s => s.memSize.setWidth 64
  pushBlock (swapBytes dataTmp)

def pcOp : M w c Unit := do
  let dataTmp ← read fun s => s.pc.setWidth 64
  pushBlock (swapBytes dataTmp)

def pop : M w c Unit := update fun s => { s with sp := s.sp - 4 }

/-- Up to eight immediate bytes that end `last` bytes after `pc`, the last one on top. -/
def pushBytes (E : Engine w c) (s : Core w c) (last n : Nat) : Word :=
  (List.range n).foldl (fun a i =>
    a ||| (E.fetch s.prog (s.pc + BitVec.ofNat 32 (last - i))).setWidth 64 <<< (8 * (7 - i))) 0

/-- The zero fill starts one word too high when `cnt` is a multiple of eight. -/
def pushInst (E : Engine w c) (cnt : Nat) : M w c Unit := do
  let sp ← read fun s => s.sp + 1
  setSp sp
  (List.range (cnt / 8)).foldlM (fun _ j => do
    let a ← read fun s => pushBytes E s (cnt - 8 * j) 8
    stackSet (sp.toNat + (j : Nat)) a) ()
  if cnt % 8 ≠ 0 then do
    let a ← read fun s => pushBytes E s (cnt % 8) (cnt % 8)
    stackSet (sp.toNat + (cnt / 8 : Nat)) a
  (List.range' (cnt / 8 + 1) (3 - cnt / 8)).foldlM (fun _ j => stackSet (sp.toNat + (j : Nat)) 0) ()
  setSp (sp + 3)

def loadBlock (addr : BitVec 32) : M w c (Word × BitVec 32) :=
  (List.range 8).foldlM (fun (dataVal, addr) i => do
    let dataTmp ← busGet addr.toNat
    return (dataVal ||| dataTmp.setWidth 64 <<< (8 * i), addr + 1)) (0, addr)

def mloadInst (addrVal : BitVec 32) : M w c Unit := do
  let (d3, addrVal) ← loadBlock addrVal
  let (d2, addrVal) ← loadBlock addrVal
  let (d1, addrVal) ← loadBlock addrVal
  let (d0, _) ← loadBlock addrVal
  let sp ← read Core.sp
  stackSet (spIndex sp 1) d0
  stackSet (spIndex sp 2) d1
  stackSet (spIndex sp 3) d2
  stackSet (spIndex sp 4) d3
  setSp (sp + 4)

def storeBlock (addr : Word) (dataVal : Word) : M w c Word :=
  (List.range 8).foldlM (fun addr i => do
    busSet addr.toNat (((byteAt dataVal i).setWidth 8).setWidth c)
    return addr + 1) addr

def growMemory (addrVal : Word) : M w c Unit := update fun s =>
  if addrVal > s.memSize.setWidth 64 then { s with memSize := addrVal.setWidth w } else s

def mStoreInst (addrVal : Word) : M w c Unit := do
  let sp ← read Core.sp
  let d3 ← stackGet (spIndex sp 0)
  let d2 ← stackGet (spIndex sp (-1))
  let d1 ← stackGet (spIndex sp (-2))
  let d0 ← stackGet (spIndex sp (-3))
  setSp (sp - 4)
  let addrVal ← storeBlock addrVal d3
  let addrVal ← storeBlock addrVal d2
  let addrVal ← storeBlock addrVal d1
  let addrVal ← storeBlock addrVal d0
  growMemory addrVal

def mStore8Inst (addrVal : Word) : M w c Unit := do
  let sp ← read Core.sp
  let dataVal ← stackGet (spIndex sp (-3))
  setSp (sp - 4)
  busSet addrVal.toNat (((byteAt dataVal 7).setWidth 8).setWidth c)
  growMemory addrVal

def dupOp (count : Nat) : M w c Unit := do
  let sp ← read Core.sp
  let e0 ← stackGet (spIndex sp (-(4 * count + 0 : Nat)))
  let e1 ← stackGet (spIndex sp (-(4 * count + 1 : Nat)))
  let e2 ← stackGet (spIndex sp (-(4 * count + 2 : Nat)))
  let e3 ← stackGet (spIndex sp (-(4 * count + 3 : Nat)))
  setSp (sp + 1)
  stackSet (spIndex (sp + 1) 0) e3
  stackSet (spIndex (sp + 1) 1) e2
  stackSet (spIndex (sp + 1) 2) e1
  stackSet (spIndex (sp + 1) 3) e0
  setSp (sp + 1 + 3)

/-- One round of SWAP's loop; `offs` is a `uint32`. -/
def swapWord (count : Nat) (sp : BitVec w) (i : Nat) (firstEl : Word) : M w c Unit := do
  let offs := (sp - BitVec.ofNat w (4 * (count + 1) + i)).setWidth 32
  let v ← stackGet offs.toNat
  stackSet (spIndex sp (-(i : Nat))) v
  stackSet offs.toNat firstEl

def swapOp (count : Nat) : M w c Unit := do
  let sp ← read Core.sp
  let f3 ← stackGet (spIndex sp (-3))
  let f2 ← stackGet (spIndex sp (-2))
  let f1 ← stackGet (spIndex sp (-1))
  let f0 ← stackGet (spIndex sp 0)
  swapWord count sp 0 f0
  swapWord count sp 1 f1
  swapWord count sp 2 f2
  swapWord count sp 3 f3

def gasOp : M w c Unit := do
  let sp ← read fun s => s.sp + 1
  setSp sp
  let gas ← read Core.gasAvailable
  stackSet (spIndex sp 0) (gas 0)
  stackSet (spIndex sp 1) (gas 1)
  stackSet (spIndex sp 2) (gas 2)
  stackSet (spIndex sp 3) (gas 3)
  setSp (sp + 3)

def keccakAlgStub (E : Engine w c) : M w c Unit := do
  let a ← getSingleBlockFromStack
  let b ← getSingleBlockFromStack
  keccakAlg E (a.setWidth 32).toNat (b.setWidth 32).toNat

/-- Unwinds in one engine; in the other prints the result and leaves the process. -/
def stopExec : M w c Unit := exit

def chargeOnly (E : Engine w c) (gas : Word) : M w c Unit := useGas E gas

def pushRegister (E : Engine w c) (gas : Word) (reg : Core w c → Word) : M w c Unit := do
  let v ← read reg
  useGas E gas
  pushSingleBlockToStack v

def createAccount (E : Engine w c) : M w c Unit := chargeOnly E 32000
def makeCall (E : Engine w c) : M w c Unit := chargeOnly E 40
def makeCallCode (E : Engine w c) : M w c Unit := chargeOnly E 40
def delegateCall (E : Engine w c) : M w c Unit := chargeOnly E 40
def getBalance (E : Engine w c) : M w c Unit := chargeOnly E 20
def callValue (E : Engine w c) : M w c Unit := chargeOnly E 2
def getInputData (E : Engine w c) : M w c Unit := chargeOnly E 3
def callDataCopy (E : Engine w c) : M w c Unit := chargeOnly E 3
def codeCopy (E : Engine w c) : M w c Unit := chargeOnly E 3
def extCodeCopy (E : Engine w c) : M w c Unit := chargeOnly E 20
def getAddress (E : Engine w c) : M w c Unit := pushRegister E 2 (·.regs.curAddr)
def getOrigin (E : Engine w c) : M w c Unit := pushRegister E 2 (·.regs.originAddr)
def getCaller (E : Engine w c) : M w c Unit := pushRegister E 2 (·.regs.callerAddr)
def callDataSize (E : Engine w c) : M w c Unit := pushRegister E 2 (·.regs.inpDataSize)
def getCodeSize (E : Engine w c) : M w c Unit := pushRegister E 2 (·.elfSize.setWidth 64)
def getGasPrice (E : Engine w c) : M w c Unit := pushRegister E 2 (·.regs.gasPrice)
def extCodeSize (E : Engine w c) : M w c Unit := pushRegister E 20 (·.regs.extCodeSize)
def blockChainHash (E : Engine w c) : M w c Unit := pushRegister E 20 fun _ => 0
def getCoinBase (E : Engine w c) : M w c Unit := pushRegister E 2 (·.regs.coinBase)
def getTimeStamp (E : Engine w c) : M w c Unit := pushRegister E 2 (·.regs.timeStamp)
def getNumber (E : Engine w c) : M w c Unit := pushRegister E 2 (·.regs.number)
def getDifficulty (E : Engine w c) : M w c Unit := pushRegister E 2 (·.regs.difficulty)
def getGasLimit (E : Engine w c) : M w c Unit := pushRegister E 2 (·.regs.gasLimit)

def returnInst (E : Engine w c) : M w c Unit := do
  useGas E 0
  stopExec

def getSystemOps (E : Engine w c) : Nat → M w c Unit
  | 0 => createAccount E
  | 1 => makeCall E
  | 2 => makeCallCode E
  | 3 => returnInst E
  | 4 => delegateCall E
  | _ => pure ()

def getAccountsData (E : Engine w c) : Nat → M w c Unit
  | 0 => getAddress E
  | 1 => getBalance E
  | 2 => getOrigin E
  | 3 => getCaller E
  | 4 => callValue E
  | 5 => getInputData E
  | 6 => callDataSize E
  | 7 => callDataCopy E
  | 8 => getCodeSize E
  | 9 => codeCopy E
  | 10 => getGasPrice E
  | 11 => extCodeSize E
  | 12 => extCodeCopy E
  | _ => pure ()

def getBlockChain (E : Engine w c) : Nat → M w c Unit
  | 0 => blockChainHash E
  | 1 => getCoinBase E
  | 2 => getTimeStamp E
  | 3 => getNumber E
  | 4 => getDifficulty E
  | 5 => getGasLimit E
  | _ => pure ()

/-- An argument list whose entries `0, ..., n - 1` give their own index. -/
def argEntry (E : Engine w c) (n site idx : Nat) : M w c Word :=
  if idx < n then pure (BitVec.ofNat 64 idx)
  else read fun s => E.argList site s (BitVec.ofNat 64 idx)

def getArithmOps (E : Engine w c) (idx : Nat) : M w c Word := argEntry E 12 0 idx
def getCompareLogOps (E : Engine w c) (idx : Nat) : M w c Word := argEntry E 11 0 idx
def getMemOps (E : Engine w c) (site idx : Nat) : M w c Word := argEntry E 12 site idx

def noPc (m : M w c Unit) : M w c PcWrite := do
  m
  return .none

/-- The `switch` of the 0x50 group, after the address has been taken off the stack. -/
def memOp (E : Engine w c) (addrVal : Word) : Nat → M w c PcWrite
  | 0 => noPc do -- POP
    useGas E 2
    pop
  | 1 => noPc do -- MLOAD
    useGas E 3
    mloadInst (addrVal.setWidth 32)
  | 2 => noPc do -- MSTORE
    useGas E 3
    mStoreInst addrVal
  | 3 => noPc do -- MSTORE8
    useGas E 3
    mStore8Inst addrVal
  | 4 => noPc do -- SLOAD
    useGas E 50
    loadFromStorage E (addrVal.setWidth 32)
  | 5 => noPc do -- SSTORE
    useGas E 0
    saveToStorage (addrVal.setWidth 32)
  | 6 => do -- JUMP
    useGas E 8
    return .withinInst (addrVal.setWidth 32)
  | 7 => noPc (useGas E 10) -- JUMPI
  | 8 => noPc do -- PC
    useGas E 2
    pcOp
  | 9 => noPc do -- MSIZE
    useGas E 2
    mSizeOp
  | 10 => noPc do -- GAS
    useGas E 2
    gasOp
  | 11 => noPc (useGas E 1) -- JUMPDEST
  | _ => return .none

def memOps (E : Engine w c) (opcode : Nat) : M w c PcWrite := do
  let e0 ← getMemOps E 0 opcode
  let e1 ← getMemOps E 1 opcode
  let addrVal ← if e0 ≠ 0 ∧ e1 < 8 then getSingleBlockFromStack else pure 0
  let e2 ← getMemOps E 2 opcode
  memOp E addrVal (e2.setWidth 32).toNat

/-- The order of these overlapping patterns decides what an opcode byte means. -/
def getInstNum (ocode : BitVec 8) : Nat :=
  if ocode &&& 0xf0 = 0xf0 then 1 -- $syscall
  else if ocode = 0xfa then 2 -- STATICCALL
  else if ocode = 0xfd then 3 -- REVERT
  else if ocode = 0xff then 4 -- SUICIDE
  else if ocode &&& 0xf0 = 0x40 then 5 -- BlockChain
  else if ocode &&& 0xf0 = 0x30 then 6 -- AccountsData
  else if ocode &&& 0xe0 = 0x60 then 7 -- PUSH
  else if ocode &&& 0xf0 = 0x80 then 8 -- DUP
  else if ocode &&& 0xf0 = 0x90 then 9 -- SWAP
  else if ocode &&& 0xf8 = 0xa0 then 10 -- LOG
  else if ocode &&& 0xf0 = 0x50 then 11 -- MemOps
  else if ocode &&& 0xf0 = 0x00 then 12 -- ArithmOps
  else if ocode &&& 0xf0 = 0x10 then 13 -- CompareLogOps
  else if ocode = 0x20 then 14 -- SHA3
  else 0

def mainDecode (E : Engine w c) (ocode : BitVec 8) : M w c PcWrite :=
  match getInstNum ocode with
  | 1 => noPc (getSystemOps E (ocode &&& 0xf).toNat)
  | 2 => noPc (useGas E 40)
  | 3 => noPc do
    useGas E 0
    stopExec
  | 4 => noPc do
    useGas E 0
    stopExec
  | 5 => noPc (getBlockChain E (ocode &&& 0xf).toNat)
  | 6 => noPc (getAccountsData E (ocode &&& 0xf).toNat)
  | 7 => do
    useGas E 3
    pushInst E ((ocode &&& 0x1f).toNat + 1)
    let pc ← read Core.pc
    return .constChanged (pc + (ocode &&& 0x1f).setWidth 32 + 2)
  | 8 => noPc do
    useGas E 3
    dupOp (ocode &&& 0xf).toNat
  | 9 => noPc do
    useGas E 3
    swapOp (ocode &&& 0xf).toNat
  | 10 => noPc (useGas E (375 + (ocode &&& 0x7).setWidth 64 * 375))
  | 11 => memOps E (ocode &&& 0xf).toNat
  | 12 => noPc do
    let op ← getArithmOps E (ocode &&& 0xf).toNat
    doArithm E (op.setWidth 32).toNat
  | 13 => noPc do
    let op ← getCompareLogOps E (ocode &&& 0xf).toNat
    doCompare E (op.setWidth 32).toNat
  | 14 => noPc do
    useGas E 30
    keccakAlgStub E
  | _ => return .none

end GvmCore
