import GvmCore.Instructions

namespace GvmCore
open Exec
set_option autoImplicit true

/-- The digest function, and what uninitialised stack memory holds in a run. -/
structure World (w c : Nat) where
  keccak : List (BitVec 8) → Fin 32 → BitVec 8
  uninit : Core w c → Reg

def World.zero : World w c := ⟨fun _ _ => 0, fun _ _ => 0⟩

def heapSize : Nat := 2048 + 32

def progMemSize : Nat := 1024 * 512

/-- The interpreter: `CheckError` throws, and an argument list without an entry gives the index. -/
def cemuWith (heapCells : Option Nat) (W : World 32 8) : Engine 32 8 where
  spBits := le_rfl
  cellBits := le_rfl
  heapCells := heapCells
  checkErrorThrows := true
  progSize := some progMemSize
  argList := fun _ _ idx => idx
  uninit := W.uninit
  keccak := W.keccak

def cemu (W : World 32 8) : Engine 32 8 := cemuWith (some heapSize) W

def resultMessage : M w c Line := do
  let gas ← read fun s => s.gasAvailable 0
  if gas = 0 then return .gasLimitError
  else do
    let sp ← read Core.sp
    let offs ← stackGet (spIndex sp (-3))
    let size ← stackGet (spIndex sp (-7))
    setSp (sp - 8)
    let bytes ← (List.range (swapBytes size).toNat).mapM fun i =>
      busGet ((swapBytes offs).toNat + i)
    return .result (bytes.map (·.setWidth 8))

/-- The device. `pc` is written through a shadow that `update` copies. -/
structure Evm where
  core : Core 32 8
  pcWrite : BitVec 32
  isPcWithinInst : Bool
  isPcConstChanged : Bool

namespace Evm

def onCore (m : M 32 8 α) : Exec Fault Evm α :=
  onComponent Evm.core (fun d s => { d with core := s }) m

def writePc : PcWrite → Evm → Evm
  | .none, d => d
  | .constChanged pc, d => { d with pcWrite := pc, isPcConstChanged := true }
  | .withinInst pc, d => { d with pcWrite := pc, isPcWithinInst := true }

def code (E : Engine 32 8) (d : Evm) : BitVec 8 := E.fetch d.core.prog d.core.pc

def operate (E : Engine 32 8) : Exec Fault Evm Unit := do
  let code ← read (code E)
  update fun d => { d with isPcWithinInst := false, isPcConstChanged := false }
  let write ← onCore (mainDecode E code)
  update (writePc write)
  update fun d =>
    if d.isPcWithinInst = false ∧ d.isPcConstChanged = false then
      { d with pcWrite := d.core.pc + 1 }
    else d

def updateRegs (d : Evm) : Evm := { d with core := { d.core with pc := d.pcWrite } }

/-- One clock: the registers are also updated when the instruction has thrown. -/
def clock (E : Engine 32 8) : Exec Fault Evm Unit := fun d =>
  match operate E d with
  | .ok _ d => .ok () d.updateRegs
  | .exit d => .exit d.updateRegs
  | .fault e => .fault e

end Evm

def Registers.zero : Registers := ⟨0, 0, 0, 0, 0, 0, 0, 0, 0, 0, 0⟩

/-- Freshly allocated memory. -/
def Core.zero : Core w c where
  stackArr := fun _ => 0
  sp := 0
  memSize := 0
  dataBus := fun _ => 0
  gasAvailable := fun _ => 0
  mainStorage := ⟨⟨0, fun _ => 0⟩, []⟩
  heap := fun _ => 0
  heapPos := 0
  pc := 0
  prog := fun _ => 0
  elfSize := 0
  regs := Registers.zero
  console := []

/-- The gas counter for a limit: its low word has the bytes of the limit swapped. -/
def gasWords (limit : Word) : Reg := ![swapBytes limit, 0, 0, 0]

def emptyStorage : Chain := ⟨⟨-1, fun _ => 0⟩, []⟩

namespace Evm

def init (gasLimit : Word) : Evm where
  core := { Core.zero with
    gasAvailable := gasWords gasLimit
    regs := { Registers.zero with gasLimit := gasLimit }
    mainStorage := emptyStorage }
  pcWrite := 0
  isPcWithinInst := false
  isPcConstChanged := false

/-- Stack words, memory size, gas, storage and program memory stay as they are. -/
def resetDevice (d : Evm) : Evm :=
  { d with core := { d.core with pc := 0, sp := 0 - 1, dataBus := fun _ => 0 }, pcWrite := 0 }

def getHex : List Char → BitVec 8 → BitVec 8
  | [], val => val
  | c :: cs, val =>
    if isxdigit c then getHex cs ((val <<< 4) + BitVec.ofNat 8 (xdigitValue c)) else val

/-- The `while (!feof(fin))` loop: at the end of the file `ibuf` still holds older characters and
is stored once more. -/
def readHexFile : List Char → Char → Char → List (BitVec 8)
  | a :: b :: text, _, _ => getHex [a, b] 0 :: readHexFile text a b
  | [a], _, b => [getHex [a, b] 0]
  | [], a, b => [getHex [a, b] 0]

def loadElf (text : List Char) (d : Evm) : Evm :=
  let d := d.resetDevice
  let bytes := readHexFile text '\x00' '\x00'
  { d with core := { d.core with
    prog := fun a => if a.toNat < bytes.length then bytes.getD a.toNat 0 else d.core.prog a
    elfSize := BitVec.ofNat 32 (bytes.length - 1) } }

/-- The run of `tracer -nt` on a device prints `l`. -/
def Prints (E : Engine 32 8) (d : Evm) (l : Line) : Prop :=
  ∃ n t u, iterate (clock E) n d = .exit t ∧ resultMessage t.core = .ok l u

end Evm
end GvmCore
