import GvmCore.BignumReg
import GvmCore.Machine

namespace GvmCore
open Exec VBignum Digits
set_option autoImplicit true

def stepGas2 : Word := 3
def stepGas3 : Word := 5
def stepGas4 : Word := 8
def stepGas5 : Word := 10

def vbignum256 : VBig := List.replicate 16 0

def vbignum64 : VBig := List.replicate 4 0

/-- `v_bignum_set_bignum(x, v_bignum_reg_to_bignum(reg))`. The converted number stays on the digit
heap: no caller frees it. -/
def argument (E : Engine w c) (reg : M w c Reg) : M w c VBig := do
  let pos ← bignumAlloc E 64
  let r ← reg
  bignumStore pos (regToBignum r)
  return setBignum vbignum256 (regToBignum r)

def useGas (E : Engine w c) (value : Word) : M w c Unit := do
  let x ← argument E (read Core.gasAvailable)
  let y := setStringHex vbignum64 ('0' :: 'x' :: Nat.toDigits 16 value.toNat)
  if gt y x then do
    update fun s => { s with
      gasAvailable := bignumToReg (setZero x)
      console := s.console ++ [.outOfGas] }
    checkError E
  else
    update fun s => { s with gasAvailable := bignumToReg (sub x y) }

/-- `v_bignum_div`: the new `x` and the new contents of `remainder`, which a division by zero does
not write. -/
def bignumDiv (E : Engine w c) (x y remainder : VBig) : M w c (VBig × VBig) :=
  if bitMsb y > bitMsb x then return (setZero x, setBignum remainder x)
  else if bitMsb y < 0 then return (setZero x, remainder)
  else do
    let q ← bignumAlloc E x.length
    let work ← bignumAlloc E x.length
    bignumStore work (divLong x y).2
    bignumFree x.length
    bignumStore q (divLong x y).1
    bignumFree x.length
    return (setBignum x (divLong x y).1, setBignum remainder (divLong x y).2)

/-- `v_bignum_mod`: the remainder goes through a heap number that is not initialised. -/
def bignumMod (E : Engine w c) (x y : VBig) : M w c VBig := do
  let digs := max x.length y.length
  let tmp ← bignumAlloc E digs
  let stale ← read fun s => loadDigits s.heap tmp digs
  let r ← bignumDiv E x y stale
  bignumStore tmp r.2
  bignumFree digs
  return setBignum r.1 r.2

/-- How far `b` is above one, counting down around zero. -/
def expMeasure (b : VBig) : Nat := (value b + 2 ^ (16 * b.length) - 1) % 2 ^ (16 * b.length)

theorem expMeasure_sub_one {b : VBig} (h : eqOne b = false) :
    expMeasure (sub b (setOne b)) < expMeasure b := by
  have hb : b ≠ [] := by
    rintro rfl
    cases h
  have h1 : value (setOne b) = 1 := value_setOne hb
  have hne : value b ≠ 1 := by
    intro hv
    rw [(eqOne_iff hb).mpr hv] at h
    cases h
  have hlt := value_lt b
  have hl : (setOne b).length ≤ b.length := (length_setOne b).le
  simp only [expMeasure, length_sub]
  by_cases hz : value b = 0
  · have hw := value_sub_wrap hl (by omega)
    rw [h1, hz] at hw
    have hP : 1 < 2 ^ (16 * b.length) := by
      have := List.length_pos_iff.mpr hb
      exact Nat.one_lt_two_pow (by omega)
    rw [hz, Nat.zero_add, Nat.mod_eq_of_lt (a := 2 ^ (16 * b.length) - 1) (by omega),
      show value (sub b (setOne b)) + 2 ^ (16 * b.length) - 1 =
        value (sub b (setOne b)) - 1 + 2 ^ (16 * b.length) by omega, Nat.add_mod_right,
      Nat.mod_eq_of_lt (by omega)]
    omega
  · rw [value_sub hl (by omega), h1,
      show value b - 1 + 2 ^ (16 * b.length) - 1 = value b - 2 + 2 ^ (16 * b.length) by omega,
      show value b + 2 ^ (16 * b.length) - 1 = value b - 1 + 2 ^ (16 * b.length) by omega,
      Nat.add_mod_right, Nat.add_mod_right, Nat.mod_eq_of_lt (by omega),
      Nat.mod_eq_of_lt (by omega)]
    omega

/-- The loop of EXP: multiply by `tmp2` until `b` has come down to one. -/
def expLoop (a tmp2 b : VBig) : VBig :=
  if eqOne b then a else expLoop (mul a tmp2) tmp2 (sub b (setOne b))
termination_by expMeasure b
decreasing_by
  rename_i h
  exact expMeasure_sub_one (by simpa using h)

def signExtend (b : VBig) (byte : Nat) : VBig :=
  if byte < 31 then
    let t := 8 * byte + 7
    (List.range' (t + 1) (255 - t)).foldl
      (fun tmp i => if bitTest b t then bitSet tmp i else bitClear tmp i) b
  else b

structure Operands where
  a : VBig
  b : VBig
  c : VBig
  sp : Int

def arithmOperands (E : Engine w c) (opcode : Nat) (sp : Int) : M w c Operands :=
  if opcode ∈ [1, 2, 3, 4, 5, 6, 7, 10, 11] then do
    let a ← argument E (stackReg (sp - 3))
    let b ← argument E (stackReg (sp - 7))
    return { a, b, c := vbignum256, sp := sp - 7 }
  else if opcode ∈ [8, 9] then do
    let a ← argument E (stackReg (sp - 3))
    let b ← argument E (stackReg (sp - 7))
    let c ← argument E (stackReg (sp - 11))
    return { a, b, c, sp := sp - 11 }
  else
    return { a := vbignum256, b := vbignum256, c := vbignum256, sp }

/-- The second `switch` of `DoArithm`; `arg1` is the index of the first operand. -/
def arithmResult (E : Engine w c) (opcode : Nat) (arg1 : Int) (o : Operands) : M w c VBig :=
  match opcode with
  | 0 => do -- STOP
    checkError E
    return o.a
  | 1 => do -- ADD
    useGas E stepGas2
    return add o.a o.b
  | 2 => do -- MUL
    useGas E stepGas3
    return mul o.a o.b
  | 3 => do -- SUB
    useGas E stepGas2
    return sub o.a o.b
  | 4 | 5 => do -- DIV, SDIV
    useGas E stepGas3
    let r ← bignumDiv E o.a o.b vbignum256
    return r.1
  | 6 => do -- MOD
    useGas E stepGas3
    bignumMod E o.a o.b
  | 7 => do -- SMOD
    useGas E stepGas3
    let tmp :=
      if bitTest o.a 255 then sub (setZero vbignum256) (setOne vbignum256) else setOne vbignum256
    let r ← bignumMod E o.a o.b
    return mul r tmp
  | 8 => do -- ADDMOD
    useGas E stepGas4
    bignumMod E (add o.a o.b) o.c
  | 9 => do -- MULMOD
    useGas E stepGas4
    bignumMod E (mul o.a o.b) o.c
  | 10 => do -- EXP
    useGas E stepGas5
    return if eqZero o.b then setOne o.a else expLoop o.a o.a o.b
  | 11 => do -- SIGNEXTEND
    useGas E stepGas3
    let v ← stackGet arg1
    return setBignum o.a (signExtend o.b (byteAt v 7).toNat)
  | _ => return o.a

def doArithm (E : Engine w c) (opcode : Nat) : M w c Unit := do
  let sp ← read Core.spInt32
  let o ← arithmOperands E opcode sp
  setSp (BitVec.ofInt w (o.sp + 3))
  let a ← arithmResult E opcode (sp - 3) o
  stackPutReg o.sp (bignumToReg a)

def boolToBignum (b : Bool) (a : VBig) : VBig := if b then setOne a else setZero a

def compareOperands (E : Engine w c) (opcode : Nat) (sp : Int) : M w c Operands :=
  if opcode ∈ [5, 9] then do
    let a ← argument E (stackReg (sp - 3))
    return { a, b := vbignum256, c := vbignum256, sp := sp - 3 }
  else if opcode ∈ [0, 1, 2, 3, 4, 6, 7, 8, 10] then do
    let a ← argument E (stackReg (sp - 3))
    let b ← argument E (stackReg (sp - 7))
    return { a, b, c := vbignum256, sp := sp - 7 }
  else
    return { a := vbignum256, b := vbignum256, c := vbignum256, sp }

/-- What each comparison and bitwise operation leaves in `a`; `byte` is the top byte of the first
operand's low word. -/
def compareValue (opcode : Nat) (byte : Nat) (o : Operands) : VBig :=
  match opcode with
  | 0 => boolToBignum (gt o.b o.a) o.a -- LT
  | 1 => boolToBignum (gt o.a o.b) o.a -- GT
  | 2 => boolToBignum (gt o.b o.a) o.a -- SLT
  | 3 => boolToBignum (gt o.a o.b) o.a -- SGT
  | 4 => boolToBignum (eq o.a o.b) o.a -- EQ
  | 5 => boolToBignum (eqZero o.a) o.a -- ISZERO
  | 6 => VBignum.and o.a o.b -- AND
  | 7 => VBignum.or o.a o.b -- OR
  | 8 => VBignum.xor o.a o.b -- XOR
  | 9 => VBignum.not o.a -- NOT
  | 10 => setBignumPart o.a o.b ((255 + 2 ^ 32 - byte * 8) % 2 ^ 32) 8 -- BYTE
  | _ => o.a

def compareResult (E : Engine w c) (opcode : Nat) (arg1 : Int) (o : Operands) : M w c VBig :=
  if opcode = 10 then do
    useGas E stepGas2
    let v ← stackGet arg1
    return compareValue opcode (byteAt v 7).toNat o
  else if opcode < 10 then do
    useGas E stepGas2
    return compareValue opcode 0 o
  else return o.a

def doCompare (E : Engine w c) (opcode : Nat) : M w c Unit := do
  let sp ← read Core.spInt32
  let o ← compareOperands E opcode sp
  setSp (BitVec.ofInt w (o.sp + 3))
  let a ← compareResult E opcode (sp - 3) o
  stackPutReg o.sp (bignumToReg a)

def keccakBlocks (op : Fin 32 → BitVec 8) : Reg := fun b =>
  (List.range 8).foldl
    (fun r k => r ||| (op (Fin.ofNat 32 (8 * b + k))).setWidth 64 <<< (8 * k)) 0

/-- The buffer the memory is copied to has 255 bytes. -/
def keccakAlg (E : Engine w c) (offs size : Nat) : M w c Unit := do
  let sp ← read Core.spInt32
  let bytes ← (List.range size).mapM fun i => busGet (offs + i)
  if size > 255 then fault .keccakBuffer
  else do
    let res := keccakBlocks (E.keccak (bytes.map (·.setWidth 8)))
    stackPutReg (sp + 1) fun i => res i.rev
    setSp (BitVec.ofInt w (sp + 4))

/-- Walking the list: the first empty or matching entry is overwritten, else one is added. -/
def saveNode (offs : BitVec 32) (data : Reg) : List Storage → List Storage
  | [] => [⟨offs, data⟩]
  | node :: rest =>
    if node.key = -1 ∨ node.key = offs then ⟨offs, data⟩ :: rest
    else node :: saveNode offs data rest

def Chain.save (l : Chain) (offs : BitVec 32) (data : Reg) : Chain :=
  if l.head.key = -1 ∨ l.head.key = offs then { l with head := ⟨offs, data⟩ }
  else { l with next := saveNode offs data l.next }

def Chain.load (l : Chain) (offs : BitVec 32) : Option Reg :=
  (l.nodes.find? fun node => node.key = offs).map Storage.value

def saveToStorage (offs : BitVec 32) : M w c Unit := do
  let sp ← read Core.spInt32
  let dataVal ← stackReg (sp - 3)
  setSp (BitVec.ofInt w (sp - 4))
  update fun s => { s with
    mainStorage := s.mainStorage.save offs fun j => swapBytes (dataVal j.rev) }

def loadFromStorage (E : Engine w c) (offs : BitVec 32) : M w c Unit := do
  let sp ← read Core.spInt32
  let dataTmp ← read fun s => (s.mainStorage.load offs).getD (E.uninit s)
  stackPutReg (sp + 1) fun j => swapBytes (dataTmp j.rev)
  setSp (BitVec.ofInt w (sp + 4))

end GvmCore
