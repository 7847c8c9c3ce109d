import GvmCore.Bytes
import GvmCore.Digits
import GvmCore.Exec

namespace GvmCore
open Digits
set_option autoImplicit true

namespace Gvm1

abbrev TTId := BitVec 32

def NO_TRANSACTION : TTId := 0xFFFFFFFF

def STATE1 : TTId := 1

def STATE2 : TTId := 2

def STATE3 : TTId := 3

/-- Accesses outside of `History`, `storage` and `TransArr`. -/
inductive Fault where
  | history
  | storage
  | states
  deriving DecidableEq

/-- What the machine below does: whether the history file can be opened for appending, and whether
the child of `fork` becomes the emulator. A child whose `execvp` fails goes on with the code of its
parent. -/
structure Host where
  appends : Bool
  execs : Bool

/-- `aInitBufSize` entries of `History`, of which `HistoryCounter` are in use. -/
structure TEvmClient where
  history : List TTId
  fits : history.length ≤ 256

/-- Where a process is: at the head of the loop of `main`, or behind `RunContractCode` in
`State2Process`. -/
inductive Point where
  | head
  | contractDone (client : TEvmClient) (counter : BitVec 32)

structure Process where
  storage : Vector Word 1024
  point : Point

/-- All processes with the file `test.stm` they share. Only one of them runs: its parent waits for
it, the parent's parent for the parent, and so on. -/
structure System where
  file : Option (List (BitVec 8))
  running : Process
  waiting : List Process
  status : Option Int

abbrev GvmM := Exec Fault System

def TEvmClient.push (client : TEvmClient) (aTid : TTId) : GvmM TEvmClient :=
  if room : client.history.length < 256 then
    pure ⟨client.history ++ [aTid], by rw [List.length_append]; exact room⟩
  else Exec.fault .history

def TEvmClient.getCurState (client : TEvmClient) : TTId :=
  if h : 0 < client.history.length then client.history[client.history.length - 1]
  else BitVec.ofNat 32 client.history.length

/-- A record of the file as a value of the host. -/
def ofBytes (bs : List (BitVec 8)) : TTId := BitVec.ofNat 32 (value bs)

def toBytes (id : TTId) : List (BitVec 8) :=
  [id.extractLsb' 0 8, id.extractLsb' 8 8, id.extractLsb' 16 8, id.extractLsb' 24 8]

/-- The loop over `fread`. A record that the file ends in is read but not counted. -/
def readHistory (client : TEvmClient) : List (BitVec 8) → GvmM TEvmClient
  | b₀ :: b₁ :: b₂ :: b₃ :: rest => do
    let client ← client.push (ofBytes [b₀, b₁, b₂, b₃])
    readHistory client rest
  | [] => pure client
  | _ => do
    let _ ← client.push 0
    pure client

def newClient : GvmM TEvmClient := do
  match ← Exec.read System.file with
  | some bytes => readHistory ⟨[], Nat.zero_le _⟩ bytes
  | none => pure ⟨[0], by decide⟩

def addNextTransaction (host : Host) (client : TEvmClient) (aTid : TTId) : GvmM TEvmClient := do
  if host.appends then
    Exec.update fun s => { s with file := some (s.file.getD [] ++ toBytes aTid) }
  client.push aTid

def sstore (key val : Word) : GvmM Unit := do
  if h : key.toNat < 1024 then
    Exec.update fun s =>
      { s with running := { s.running with storage := s.running.storage.set key.toNat val } }
  else Exec.fault .storage

def sload (key : Word) : GvmM Word := do
  if h : key.toNat < 1024 then Exec.read fun s => s.running.storage[key.toNat]
  else Exec.fault .storage

/-- The child takes over with a copy of the memory of its parent, which waits, or has come and
gone. -/
def runContractCode (host : Host) (client : TEvmClient) (counter : BitVec 32) : GvmM Unit :=
  Exec.update fun s =>
    let process := { s.running with point := .contractDone client counter }
    { s with running := process, waiting := if host.execs then s.waiting else process :: s.waiting }

def state1Process (host : Host) (client : TEvmClient) : GvmM Unit := do
  let _ ← addNextTransaction host client STATE2
  let counter : BitVec 32 := 10
  sstore 1 (counter.signExtend 64)

def state2Process (host : Host) (client : TEvmClient) : GvmM Unit := do
  let counter := (← sload 1).truncate 32
  if 0 < counter.toInt then
    runContractCode host client (counter - 1)
  else
    let _ ← addNextTransaction host client STATE3
    sstore 1 (counter.signExtend 64)

def state2Done (host : Host) (client : TEvmClient) (counter : BitVec 32) : GvmM Unit := do
  let _ ← addNextTransaction host client STATE2
  sstore 1 (counter.signExtend 64)
  Exec.update fun s => { s with running := { s.running with point := .head } }

def state3Process (host : Host) (client : TEvmClient) : GvmM Unit := do
  let _ ← addNextTransaction host client NO_TRANSACTION

structure TTransaction where
  tId : TTId
  func : TEvmClient → GvmM Unit

structure TBaseGVM where
  numTrans : Nat
  transArr : List TTransaction

def TBaseGVM.addState (vm : TBaseGVM) (aID : TTId) (aFunc : TEvmClient → GvmM Unit) :
    GvmM TBaseGVM :=
  if vm.transArr.length < vm.numTrans then
    pure { vm with transArr := vm.transArr ++ [⟨aID, aFunc⟩] }
  else Exec.fault .states

def testVm1 (host : Host) : GvmM TBaseGVM := do
  let vm ← TBaseGVM.addState ⟨3, []⟩ STATE1 (state1Process host)
  let vm ← vm.addState STATE2 (state2Process host)
  vm.addState STATE3 (state3Process host)

def TBaseGVM.runTransaction (vm : TBaseGVM) (aClient : TEvmClient) : GvmM Bool := do
  let curTrans := aClient.getCurState
  if curTrans = NO_TRANSACTION then return true
  match vm.transArr.find? (·.tId = curTrans) with
  | some transaction =>
    transaction.func aClient
    return true
  | none => return false

def leave (status : Int) : GvmM Unit := do
  match ← Exec.read System.waiting with
  | [] =>
    Exec.update fun s => { s with status := some status }
    Exec.exit
  | parent :: waiting => Exec.update fun s => { s with running := parent, waiting := waiting }

def iteration (host : Host) : GvmM Unit := do
  let client_tmp ← newClient
  let tvm1_tmp ← testVm1 host
  if client_tmp.getCurState = NO_TRANSACTION then leave 0
  else
    let found ← tvm1_tmp.runTransaction client_tmp
    if !found then leave (-1)

def round (host : Host) : GvmM Unit := do
  match ← Exec.read fun s => s.running.point with
  | .head => iteration host
  | .contractDone client counter => state2Done host client counter

/-- The program starts on a file and with what its stack happens to hold for `storage`. -/
def boot (file : Option (List (BitVec 8))) (storage : Vector Word 1024) : System where
  file := file
  running := ⟨storage, .head⟩
  waiting := []
  status := none

end Gvm1

end GvmCore
