import GvmCore.Cemu

namespace GvmCore
open Exec
set_option autoImplicit true

/-- The translator's engine: `helper_error_message` returns, and an argument list without an entry
returns whatever the register holds. -/
def qemuWith (heapCells : Option Nat) (argList : Nat → Core 64 64 → Word → Word)
    (W : World 64 64) : Engine 64 64 where
  spBits := by decide
  cellBits := by decide
  heapCells := heapCells
  checkErrorThrows := false
  progSize := none
  argList := argList
  uninit := W.uninit
  keccak := W.keccak

def qemu (argList : Nat → Core 64 64 → Word → Word) (W : World 64 64) : Engine 64 64 :=
  qemuWith (some heapSize) argList W

/-- One translated instruction, and whether the code that adds one to `pc` follows it. -/
structure TbInsn where
  insn : BitVec 8
  addsPc : Bool

/-- A translated block has at least one instruction. -/
structure Tb where
  insns : List TbInsn
  pcEnd : Nat
  ne_nil : insns ≠ []

def isPush (insn : BitVec 8) : Bool := insn &&& 0xe0 = 0x60

def getPpdlShiftPc (insn : BitVec 8) : Nat := if isPush insn then (insn &&& 0x1f).toNat + 2 else 1

/-- The loop of `gen_intermediate_code_internal`: the instructions, `dc->pc` and `changed_pc` at
its end. `limit` more instructions fit into the op buffer. -/
def genInsns (prog : BitVec 32 → BitVec 8) (endPc nextPageStart : Nat) :
    Nat → Nat → Bool → List TbInsn × Nat × Bool
  | limit, pc, changedPc =>
    let insn := prog (BitVec.ofNat 32 pc)
    let pc := pc + getPpdlShiftPc insn
    let changedPc := changedPc || isPush insn
    if pc = endPc then ([⟨insn, false⟩], pc, changedPc)
    else
      match limit with
      | 0 => ([⟨insn, !changedPc⟩], pc, false)
      | limit + 1 =>
        if pc < nextPageStart then
          let (insns, pcEnd, changed) := genInsns prog endPc nextPageStart limit pc false
          (⟨insn, !changedPc⟩ :: insns, pcEnd, changed)
        else ([⟨insn, !changedPc⟩], pc, false)

theorem genInsns_ne_nil (prog : BitVec 32 → BitVec 8) (endPc nextPageStart limit pc : Nat)
    (changedPc : Bool) : (genInsns prog endPc nextPageStart limit pc changedPc).1 ≠ [] := by
  unfold genInsns
  dsimp only
  split
  · exact List.cons_ne_nil _ _
  · cases limit with
    | zero => exact List.cons_ne_nil _ _
    | succ limit =>
      dsimp only
      split <;> exact List.cons_ne_nil _ _

def targetPageSize : Nat := 256

structure Qemu where
  env : Core 64 64
  isPcWithinInst : Bool
  isPcConstChanged : Bool
  changedPc : Bool
  /-- What is left of the running block, and the `dc->pc` its epilogue was generated with. -/
  block : List TbInsn
  blockEnd : Nat
  /-- The blocks translated so far, by their first address. -/
  tbs : List (BitVec 32 × Tb)

namespace Qemu

def onEnv (m : M 64 64 α) : Exec Fault Qemu α :=
  onComponent Qemu.env (fun q s => { q with env := s }) m

def genIntermediateCode (q : Qemu) (limit : Nat) : Tb × Bool :=
  let pc := q.env.pc.toNat
  let gen := genInsns q.env.prog q.env.elfSize.toNat
    (pc / targetPageSize * targetPageSize + targetPageSize) limit pc q.changedPc
  (⟨gen.1, gen.2.1, genInsns_ne_nil _ _ _ _ _ _⟩, gen.2.2)

/-- Between blocks the next one is looked up by `pc`, or translated; `limits` says how many
instructions after its first one fit into the block translated as the n-th. -/
def enterBlock (limits : Nat → Nat) (q : Qemu) : Qemu :=
  match q.block with
  | _ :: _ => q
  | [] =>
    match q.tbs.lookup q.env.pc with
    | some tb => { q with block := tb.insns, blockEnd := tb.pcEnd }
    | none =>
      let (tb, changed) := q.genIntermediateCode (limits q.tbs.length)
      { q with
        block := tb.insns
        blockEnd := tb.pcEnd
        changedPc := changed
        tbs := (q.env.pc, tb) :: q.tbs }

def writePc : PcWrite → Qemu → Qemu
  | .none, q => q
  | .constChanged pc, q => { q with env := { q.env with pc := pc }, isPcConstChanged := true }
  | .withinInst pc, q => { q with env := { q.env with pc := pc }, isPcWithinInst := true }

def addPc (q : Qemu) : Qemu := { q with env := { q.env with pc := q.env.pc + 1 } }

def leaveBlock (q : Qemu) : Qemu :=
  { q with
    env := { q.env with
      pc := if q.isPcConstChanged then q.env.pc else BitVec.ofNat 32 q.blockEnd }
    isPcConstChanged := false }

/-- `genBlock_Main` emits the calls of the same functions in the same order as the interpreter. -/
def genBlockMain (E : Engine 64 64) (insn : BitVec 8) : M 64 64 PcWrite := mainDecode E insn

def execInsn (E : Engine 64 64) (i : TbInsn) : Exec Fault Qemu Unit := do
  let write ← onEnv (genBlockMain E i.insn)
  update (writePc write)
  if i.addsPc then update addPc

def runInsn (E : Engine 64 64) : Exec Fault Qemu Unit := do
  let block ← read Qemu.block
  match block with
  | [] => pure ()
  | i :: rest => do
    execInsn E i
    update fun q => { q with block := rest }
    if rest = [] then update leaveBlock

/-- One instruction of the run of `cpu_exec`. -/
def step (E : Engine 64 64) (limits : Nat → Nat) : Exec Fault Qemu Unit := do
  update (enterBlock limits)
  runInsn E

def romDigit (c : Char) : BitVec 8 :=
  if isxdigit c then BitVec.ofNat 8 (xdigitValue c) else BitVec.ofNat 8 c.toNat

/-- The `EVM` branch of `rom_add_file`; an odd last character is dropped. -/
def romAddFile : List Char → List (BitVec 8)
  | a :: b :: text => ((romDigit a <<< 4) + romDigit b) :: romAddFile text
  | _ => []

/-- `RESET` on the zeroed CPU state, with the file in the zeroed memory. -/
def reset (text : List Char) (gas : Word) : Qemu where
  env := { Core.zero with
    sp := 0 - 1
    gasAvailable := gasWords gas
    regs := { Registers.zero with gasLimit := gas }
    mainStorage := emptyStorage
    prog := fun a => (romAddFile text).getD a.toNat 0
    elfSize := BitVec.ofNat 64 (romAddFile text).length }
  isPcWithinInst := false
  isPcConstChanged := false
  changedPc := false
  block := []
  blockEnd := 0
  tbs := []

def Prints (E : Engine 64 64) (limits : Nat → Nat) (q : Qemu) (l : Line) : Prop :=
  ∃ n t u, iterate (step E limits) n q = .exit t ∧ resultMessage t.env = .ok l u

end Qemu
end GvmCore
