import GvmCore.InsnExec

namespace GvmCore
open Exec VBignum Signed
set_option autoImplicit true

/-- The state without the stack array, the memory and its size. -/
structure Rest (w : Nat) where
  sp : BitVec w
  gasAvailable : Reg
  mainStorage : Chain
  heap : Nat → VBigDig
  heapPos : Nat
  pc : BitVec 32
  prog : BitVec 32 → BitVec 8
  elfSize : BitVec w
  regs : Registers
  console : List Line

namespace Core

def rest (s : Core w c) : Rest w :=
  ⟨s.sp, s.gasAvailable, s.mainStorage, s.heap, s.heapPos, s.pc, s.prog, s.elfSize,
    s.regs, s.console⟩

theorem rest_withSp (s : Core w c) (z : Int) :
    (s.withSp z).rest = { s.rest with sp := BitVec.ofInt w z } := rfl

@[simp] theorem rest_setWord (s : Core w c) (i : Int) (v : Word) :
    (s.setWord i v).rest = s.rest := by
  rw [setWord_eq]
  rfl

@[simp] theorem rest_putReg (s : Core w c) (i : Int) (r : Reg) : (s.putReg i r).rest = s.rest := by
  rw [putReg_eq]
  rfl

@[simp] theorem rest_setCell (s : Core w c) (a : Nat) (v : BitVec c) :
    (s.setCell a v).rest = s.rest := by
  rw [setCell_eq]
  rfl

theorem rest_pushed (s : Core w c) (z : Int) (r : Reg) :
    (s.pushed z r).rest = { s.rest with sp := BitVec.ofInt w (z + 4) } := by
  rw [pushed, rest_withSp, rest_putReg]

theorem rest_swapped (s : Core w c) (z : Int) (count : Nat) :
    (s.swapped z count).rest = s.rest := by
  simp [swapped, swapRound, List.range_succ]

@[simp] theorem rest_storeWord (s : Core w c) (a : Nat) (v : Word) :
    (s.storeWord a v).rest = s.rest := by
  simp [storeWord, List.range_succ]

@[simp] theorem rest_grown (s : Core w c) (a : Word) : (s.grown a).rest = s.rest := by
  unfold grown
  split <;> rfl

end Core

def memDelta : Nat → Int
  | 0 | 2 | 3 | 5 => -4
  | 1 | 4 | 8 | 9 | 10 => 4
  | _ => 0

def resultDelta (k : Nat) : Int := if k = 0 then 3 else 4 - 4 * k

namespace Insn

def delta : Insn → Int
  | .pushRegister _ _ => 4
  | .push _ => 4
  | .dup _ => 4
  | .mem takesAddr op => memBase takesAddr 0 + memDelta op
  | .arithm op => resultDelta (arithmArity op)
  | .compare op => resultDelta (compareArity op)
  | .sha3 => -4
  | _ => 0

def conversions (I : Insn) : Nat := I.arity + if I.charge.isSome then 1 else 0

def savedStorage (s : Core w c) (z : Int) : Insn → Chain
  | .mem takesAddr op =>
    if op = 5 then (s.saved (memBase takesAddr z) ((memAddr s takesAddr z).setWidth 32)).mainStorage
    else s.mainStorage
  | _ => s.mainStorage

def usedHeap (s : Core w c) (z : Int) : Insn → Nat → VBigDig
  | .arithm op => arithmHeap op (takeOperands s z (arithmArity op)) s.heap s.heapPos
  | _ => s.heap

end Insn

theorem rest_eq_of_sp {s : Core w c} (h : s.sp = sp) : s.rest = { s.rest with sp := sp } := by
  rw [← h]
  rfl

theorem rest_memEffect (E : Engine w c) {s : Core w c} (hs : s.sp = BitVec.ofInt w y)
    (addrVal : Word)
    (op : Nat) : (memEffect E s addrVal y op).rest = { s.rest with
      sp := BitVec.ofInt w (y + memDelta op)
      mainStorage :=
        if op = 5 then (s.saved y (addrVal.setWidth 32)).mainStorage else s.mainStorage } := by
  have hkeep : s.rest = { s.rest with sp := BitVec.ofInt w (y + 0) } :=
    rest_eq_of_sp (by rw [hs, add_zero])
  match op with
  | 0 | 2 | 3 => simp [memEffect, memDelta, Core.storeReg, Core.rest_withSp, sub_eq_add_neg]; rfl
  | 1 | 4 | 8 | 9 | 10 => exact Core.rest_pushed _ _ _
  | 5 => rfl
  | 6 | 7 | 11 => exact hkeep
  | n + 12 =>
    rw [if_neg (by omega)]
    exact hkeep

theorem resultIndex_add_three (z : Int) (k : Nat) : resultIndex z k + 3 = z + resultDelta k := by
  unfold resultIndex resultDelta
  split <;> omega

/-- After the charge an instruction moves `sp`; SSTORE changes the storage, a division the heap. -/
theorem rest_effect (E : Engine w c) {s : Core w c} (I : Insn)
    (hs : s.sp = (I.entry s₀ z).sp) (hz : s₀.sp = BitVec.ofInt w z) :
    (I.effect E s z).rest = { s.rest with
      sp := BitVec.ofInt w (z + I.delta)
      mainStorage := I.savedStorage s z
      heap := I.usedHeap s z } := by
  cases I with
  | noOp | chargeOnly | returnInst | swap =>
    simp only [Insn.effect, Core.rest_swapped, Insn.delta, add_zero]
    exact rest_eq_of_sp (hs.trans hz)
  | pushRegister | push | dup => exact Core.rest_pushed _ _ _
  | sha3 =>
    refine (Core.rest_pushed _ _ _).trans ?_
    rw [show z - 8 + 4 = z + Insn.sha3.delta from by simp only [Insn.delta]; omega]
    rfl
  | mem takesAddr op =>
    have hbase : s.sp = BitVec.ofInt w (Insn.memBase takesAddr z) := by
      cases takesAddr with
      | false => exact hs.trans hz
      | true => exact hs
    have hdelta : Insn.memBase takesAddr z + memDelta op = z + (Insn.mem takesAddr op).delta := by
      cases takesAddr <;>
        simp only [Insn.memBase, Insn.delta, if_true, Bool.false_eq_true, if_false] <;> omega
    refine (rest_memEffect E hbase _ op).trans ?_
    rw [hdelta]
    rfl
  | arithm op =>
    have hsp : s.sp = BitVec.ofInt w (z + (Insn.arithm op).delta) := by
      rw [hs, Insn.delta, ← resultIndex_add_three]
      rfl
    refine (Core.rest_putReg _ _ _).trans ?_
    rw [← hsp]
    rfl
  | compare op =>
    have hsp : s.sp = BitVec.ofInt w (z + (Insn.compare op).delta) := by
      rw [hs, Insn.delta, ← resultIndex_add_three]
      rfl
    exact (Core.rest_putReg _ _ _).trans (rest_eq_of_sp hsp)

end GvmCore
