import Mathlib.Logic.Function.Basic
import GvmCore.ConfigTokens

namespace GvmCore
open Exec Lexer
set_option autoImplicit true

inductive MemBlockKind where
  | sram | sdram | ssram
  deriving DecidableEq

inductive SSramKind where
  | pipelined | flowTrough
  deriving DecidableEq

/-- `SDRamConfig`; `mMulFactor` holds the bytes of the `double`. -/
structure SDRamConfig where
  mKind : MemBlockKind
  mSSramLKind : SSramKind
  mPageSize : BitVec 64
  mRegenPeriod : BitVec 32
  mRegenTime : BitVec 32
  mPageOpenTime : BitVec 32
  mPageCloseTime : BitVec 32
  mMulFactor : BitVec 64
  mLatency : BitVec 32

structure MemSet where
  name : List Char
  setFlags : BitVec 32
  config : SDRamConfig

/-- The part of `ChipMem` that the parser fills. -/
structure ChipMem where
  bankNum : Nat
  startAddr : Nat → BitVec 32
  size : Nat → BitVec 32
  readWaitTime : Nat → BitVec 32
  writeWaitTime : Nat → BitVec 32
  flags : BitVec 32
  configs : Nat → SDRamConfig

def maxNumBlocks : Nat := 1024

def maxMemSets : Nat := 100

def msgBufSize : Nat := 512

/-- The call of `GetToken` that is next in `Parse`, with the local variables that are live. -/
inductive Place where
  | sections
  | setsOpen | setName | setColon | paramName
  | paramAsg (param : List Char)
  | paramValue (param : List Char)
  | paramEnd
  | blocksOpen | blockName | blockColon | blockAt | blockAddr
  | blockComa (addr : BitVec 64)
  | blockLen (addr : BitVec 64)
  | lenAsg (addr : BitVec 64)
  | lenValue (addr : BitVec 64)
  | blockNext (addr len : BitVec 64)
  | blockOption (addr len : BitVec 64)
  | wsAsg (addr len : BitVec 64)
  | wsValue (addr len : BitVec 64)
  | memsetAsg (addr len : BitVec 64)
  | memsetValue (addr len : BitVec 64)
  | blockEnd (addr len : BitVec 64) (waitState : BitVec 32) (memset : Option Nat)
  | devicesAsg
  | deviceName (flags : BitVec 32)

/-- How `Parse` ends: it returns, or `PrintError` throws. -/
inductive Ending where
  | returned (r : Bool)
  | thrown (msg : List Char)
  deriving DecidableEq

/-- The part of `tParseCfg` that `Parse` fills. -/
structure BoardCfg where
  mMemSets : Nat → MemSet
  mCurMemSet : Nat
  mCm : ChipMem
  mIsRusLang : Bool
  place : Place
  ending : Option Ending

abbrev CfgM := Exec CfgFault BoardCfg

section Messages

def errorMessages : List String := [
  "error: Can't open config file %s\n",
  "ошибка: невозможно открыть конфигурационный файл %s\n",
  "error: Parameter %s is undefined\n",
  "ошибка: Не определён параметр %s\n",
  "error %d: Unexpected kind of memory %s\n",
  "ошибка %d: Неопределён тип памяти %s\n",
  "error %d: Unexpected parameter SSType for non-SSRAM memory type\n",
  "ошибка %d: Неожиданное появлениее параметра SSType для не-SSRAM памяти\n",
  "error %d: Unexpected name of SSRAM type %s\n",
  "ошибка %d: Неизвестное название типа SSRAM-памяти %s\n",
  "error %d: Unknown parameter %s \n",
  "ошибка %d: Неизвестное имя параметра %s\n",
  "error %d: Illegal value of memset %s\n",
  "ошибка %d: Недопустимое значение memset %s\n",
  "error %d: Undefined name %s\n",
  "ошибка %d: Неизвестное имя %s\n",
  "error %d : unexpected token %s",
  "ошибка %d: неожиданное появление %s",
  "error %d: unknown name of peripheral device - %s",
  "ошибка %d: неизвестное периферийное устройство - %s"]

/-- An argument of `PrintError`: a number, or the bytes that a pointer leads to. -/
inductive MsgArg where
  | int (n : Nat)
  | str (bytes : List Char)

def MsgArg.text (t : List Char) : MsgArg := .str (t ++ ['\x00'])

/-- `vsprintf`, for the conversions of the messages; an argument of the other kind, and a string
that does not end, are outside of the language. -/
def vsprintf : List Char → List MsgArg → Option (List Char)
  | [], _ => some []
  | '%' :: 'd' :: fmt, .int n :: args => (vsprintf fmt args).map (Nat.toDigits 10 n ++ ·)
  | '%' :: 's' :: fmt, .str bytes :: args =>
    if '\x00' ∈ bytes then (vsprintf fmt args).map (bytes.takeWhile (· ≠ '\x00') ++ ·) else none
  | '%' :: _, _ => none
  | c :: fmt, args => (vsprintf fmt args).map (c :: ·)

structure Message where
  fmt : String
  args : List MsgArg

def conversions : List Char → List Char
  | [] => []
  | ['%'] => ['%']
  | '%' :: k :: fmt => k :: conversions fmt
  | _ :: fmt => conversions fmt

def MsgArg.Converts : Char → MsgArg → Prop
  | 'd', .int _ => True
  | 's', .str bytes => '\x00' ∈ bytes
  | _, _ => False

def MsgArg.printed : MsgArg → List Char
  | .int n => Nat.toDigits 10 n
  | .str bytes => bytes.takeWhile (· ≠ '\x00')

def Suits : List Char → List MsgArg → Prop
  | [], _ => True
  | _ :: _, [] => False
  | k :: ks, a :: args => a.Converts k ∧ Suits ks args

def printedLength (ks : List Char) (args : List MsgArg) : Nat :=
  (ks.zip args).foldr (fun a n => a.2.printed.length + n) 0

/-- The arguments suit the message, and with them it is shorter than `msg_buf`. -/
structure Message.Printable (e : Message) : Prop where
  suits : Suits (conversions e.fmt.toList) e.args
  short : e.fmt.toList.length + printedLength (conversions e.fmt.toList) e.args <
    msgBufSize + 2 * (conversions e.fmt.toList).length

theorem conversions_cons (h : c ≠ '%') (fmt : List Char) :
    conversions (c :: fmt) = conversions fmt := by
  rw [conversions.eq_4]
  · rintro rfl -
    exact h rfl
  · rintro k fmt' rfl -
    exact h rfl

/-- What is to come of a message: its text if the arguments suit it, and nothing else. -/
structure Writes (fmt : List Char) (args : List MsgArg) (o : Option (List Char)) : Prop where
  written : Suits (conversions fmt) args → ∃ msg, o = some msg ∧
    msg.length + 2 * (conversions fmt).length = fmt.length + printedLength (conversions fmt) args
  undefined : ¬ Suits (conversions fmt) args → o = none

theorem Writes.convert {a : MsgArg} (h : Writes fmt args o) (hconv : a.Converts k) :
    Writes ('%' :: k :: fmt) (a :: args) (o.map (a.printed ++ ·)) := by
  constructor
  · rintro ⟨-, hsuits⟩
    obtain ⟨msg, rfl, hlen⟩ := h.written hsuits
    refine ⟨a.printed ++ msg, rfl, ?_⟩
    simp only [conversions, printedLength, List.zip_cons_cons, List.foldr_cons,
      List.length_append, List.length_cons] at hlen ⊢
    omega
  · intro hsuits
    rw [h.undefined fun h => hsuits ⟨hconv, h⟩]
    rfl

theorem Writes.copy (h : Writes fmt args o) (hc : c ≠ '%') :
    Writes (c :: fmt) args (o.map (c :: ·)) := by
  constructor
  · intro hsuits
    rw [conversions_cons hc] at hsuits ⊢
    obtain ⟨msg, rfl, hlen⟩ := h.written hsuits
    refine ⟨c :: msg, rfl, ?_⟩
    rw [List.length_cons, List.length_cons]
    omega
  · intro hsuits
    rw [conversions_cons hc] at hsuits
    rw [h.undefined hsuits]
    rfl

theorem vsprintf_spec (fmt : List Char) (args : List MsgArg) :
    Writes fmt args (vsprintf fmt args) := by
  fun_induction vsprintf fmt args with
  | case1 args => exact ⟨fun _ => ⟨[], rfl, rfl⟩, fun h => absurd trivial h⟩
  | case2 fmt n args ih => exact ih.convert trivial
  | case3 fmt bytes args hzero ih => exact ih.convert hzero
  | case4 fmt bytes args hzero => exact ⟨fun h => absurd h.1 hzero, fun _ => rfl⟩
  | case5 fmt args hint hstr =>
    refine ⟨fun h => ?_, fun _ => rfl⟩
    cases fmt with
    | nil =>
      cases args with
      | nil => exact h.elim
      | cons a args => exact absurd h.1 id
    | cons k fmt =>
      cases args with
      | nil => exact h.elim
      | cons a args =>
        obtain ⟨hconv, -⟩ := h
        unfold MsgArg.Converts at hconv
        split at hconv
        · exact absurd rfl (hint _ _ _ rfl)
        · exact absurd rfl (hstr _ _ _ rfl)
        · exact hconv.elim
  | case6 c fmt args hint hstr hpercent ih => exact ih.copy hpercent

end Messages

namespace BoardCfg

def finish (e : Ending) : CfgM α := do
  update fun c => { c with ending := some e }
  exit

def goto (place : Place) : CfgM Unit := update fun c => { c with place := place }

def printError (aMsg : String) (args : List MsgArg) : CfgM α :=
  match vsprintf aMsg.toList args with
  | some msg => if msg.length < msgBufSize then finish (.thrown msg) else fault .message
  | none => fault .message

def printErr (num : Nat) (args : List MsgArg) : CfgM α := do
  let rus ← read mIsRusLang
  printError (errorMessages.getD (num * 2 + rus.toNat) "") args

def memSet : CfgM MemSet := fun c =>
  if c.mCurMemSet < maxMemSets then .ok (c.mMemSets c.mCurMemSet) c else .fault .memSets

def setMemSet (m : MemSet) : CfgM Unit :=
  update fun c => { c with mMemSets := Function.update c.mMemSets c.mCurMemSet m }

section Params

/-- A parameter of the `PARAMS_` macros: its name, its flag and the member that it is stored in. -/
structure Param where
  name : String
  flag : BitVec 32
  put : BitVec 64 → SDRamConfig → SDRamConfig

def paramsInt : List Param := [
  ⟨"CASLatency", 64, fun v c => { c with mLatency := v.setWidth 32 }⟩,
  ⟨"RefreshPeriod", 4, fun v c => { c with mRegenPeriod := v.setWidth 32 }⟩,
  ⟨"RefreshDuration", 8, fun v c => { c with mRegenTime := v.setWidth 32 }⟩,
  ⟨"PageOpenTime", 16, fun v c => { c with mPageOpenTime := v.setWidth 32 }⟩,
  ⟨"PageCloseTime", 32, fun v c => { c with mPageCloseTime := v.setWidth 32 }⟩,
  ⟨"PageSize", 2, fun v c => { c with mPageSize := v }⟩]

def sramLatency : Param := ⟨"Latency", 512, fun v c => { c with mLatency := v.setWidth 32 }⟩

def freqRatio : Param := ⟨"FreqRatio", 128, fun v c => { c with mMulFactor := v }⟩

def required : MemBlockKind → List (String × BitVec 32)
  | .sdram => (paramsInt ++ [freqRatio]).map (fun p => (p.name, p.flag)) ++ [("RAMType", 1)]
  | .ssram => [("CASLatency", 64), ("SSType", 256)]
  | .sram => [(sramLatency.name, sramLatency.flag)]

/-- It returns 1, or throws for the first parameter that is not set. -/
def validateMemsetParams : CfgM Unit := do
  let m ← memSet
  match (required m.config.mKind).find? fun p => m.setFlags &&& p.2 = 0 with
  | some p => printErr 1 [.text p.1.toList]
  | none => return ()

def kindOf (aName : List Char) : Option MemBlockKind :=
  if aName = "SRAM".toList then some .sram
  else if aName = "SSRAM".toList then some .ssram
  else if aName = "SDRAM".toList then some .sdram
  else none

def ssKindOf (aName : List Char) : Option SSramKind :=
  if aName = "Pipelined".toList then some .pipelined
  else if aName = "FlowTrough".toList then some .flowTrough
  else none

def fillParamS (aParamName aName : List Char) (aLineNum : Nat) : CfgM Unit :=
  if aParamName = "RAMType".toList then
    match kindOf aName with
    | some kind => do
      let m ← memSet
      setMemSet { m with setFlags := m.setFlags ||| 1, config := { m.config with mKind := kind } }
    -- the name is given for the number, and the number for the name
    | none => printErr 2 [.text aName, .int aLineNum]
  else if aParamName = "SSType".toList then do
    let m ← memSet
    if m.config.mKind ≠ .ssram then printErr 3 [.int aLineNum]
    else
      match ssKindOf aName with
      | some kind => setMemSet { m with
          setFlags := m.setFlags ||| 256, config := { m.config with mSSramLKind := kind } }
      | none => printErr 4 [.int aLineNum, .text aName]
  else
    printError "error %d: unexpected value %s  of parameter %s\n"
      [.int aLineNum, .text aName, .text aParamName]

/-- `FillParamI` and `FillParamF`, and the error for a name that they do not know. -/
def fillParam (params : List Param) (aName : List Char) (aVal : BitVec 64) (aLineNum : Nat) :
    CfgM Unit :=
  match params.find? fun p => p.name.toList = aName with
  | some p => do
    let m ← memSet
    setMemSet { m with setFlags := m.setFlags ||| p.flag, config := p.put aVal m.config }
  | none => printErr 5 [.int aLineNum, .text aName]

def fillParamI : List Char → BitVec 64 → Nat → CfgM Unit := fillParam (paramsInt ++ [sramLatency])

def fillParamF : List Char → BitVec 64 → Nat → CfgM Unit := fillParam [freqRatio]

def fillValue (param : List Char) (tok : Token) : CfgM Unit :=
  if tok.tok = .name then fillParamS param tok.symb.text tok.line
  else if tok.isFloatVal then fillParamF param tok.val tok.line
  else fillParamI param tok.val tok.line

end Params

section Blocks

def getMemSet (aName : List Char) (c : BoardCfg) : Option Nat :=
  (List.range c.mCurMemSet).find? fun i => (c.mMemSets i).name = aName

/-- `(float)mLatency` as an unsigned number. -/
def latencyTime (latency : BitVec 32) : BitVec 32 :=
  (UInt32.ofBitVec latency).toFloat32.toUInt64.toUInt32.toBitVec

def bankTimes (c : BoardCfg) (waitState : BitVec 32) :
    Option Nat → BitVec 32 × BitVec 32 × SDRamConfig
  | none => (1001, waitState, { c.mCm.configs c.mCm.bankNum with mPageSize := 0 })
  | some i =>
    let config := (c.mMemSets i).config
    if config.mKind = .sdram then (1, 2, config)
    else (latencyTime config.mLatency, latencyTime config.mLatency, config)

/-- The end of the loop over the blocks of `MEMORY`. -/
def addBank (addr len : BitVec 64) (waitState : BitVec 32) (memset : Option Nat) : CfgM Unit :=
  fun c =>
    let cm := c.mCm
    let (writeTime, readTime, config) := bankTimes c waitState memset
    if cm.bankNum < maxNumBlocks then
      .ok () { c with mCm := { cm with
        bankNum := cm.bankNum + 1
        startAddr := Function.update cm.startAddr cm.bankNum (addr.setWidth 32)
        size := Function.update cm.size cm.bankNum (len.setWidth 32)
        writeWaitTime := Function.update cm.writeWaitTime cm.bankNum writeTime
        readWaitTime := Function.update cm.readWaitTime cm.bankNum readTime
        configs := Function.update cm.configs cm.bankNum config } }
    else .fault .banks

def deviceBit (aName : List Char) : Option Nat :=
  ["com0", "com1", "pcache", "pu"].findIdx? fun name => name.toList = aName

/-- The flags of the devices are shifted by `PERIPHERAL_OFFSET`. -/
def addDevices (flags : BitVec 32) : CfgM Unit :=
  update fun c => { c with mCm := { c.mCm with flags := c.mCm.flags ||| (flags <<< 25) } }

end Blocks

/-- The tokens of the `WAIT_` macro of a place; between the sections every token is taken. -/
def accepts : Place → List TokType
  | .sections => [.name, .intval, .rfb, .lfb, .coma, .eoexp, .dpnt, .asg, .eof]
  | .setsOpen | .blocksOpen => [.lfb]
  | .setName | .blockName => [.rfb, .name]
  | .setColon | .blockColon => [.dpnt]
  | .paramName | .deviceName _ => [.eoexp, .name]
  | .paramAsg _ | .lenAsg _ | .wsAsg _ _ | .memsetAsg _ _ | .devicesAsg => [.asg]
  | .paramValue _ => [.intval, .name]
  | .paramEnd | .blockNext _ _ => [.coma, .eoexp]
  | .blockAt | .blockLen _ | .blockOption _ _ | .memsetValue _ _ => [.name]
  | .blockAddr | .lenValue _ | .wsValue _ _ => [.intval]
  | .blockComa _ => [.coma]
  | .blockEnd _ _ _ _ => [.eoexp]

def sectionPlace (name : List Char) : Place :=
  if name = "MEMSETS".toList then .setsOpen
  else if name = "MEMORY".toList then .blocksOpen
  else if name = "PERIPHERY".toList then .devicesAsg
  else .sections

def waitName (name : String) (tok : Token) (next : Place) : CfgM Unit :=
  if tok.symb.text = name.toList then goto next
  else printErr 8 [.int tok.line, .str tok.symb.bytes]

/-- What `Parse` does with a token that it accepts. -/
def proceed (tok : Token) : Place → CfgM Unit
  | .sections =>
    if tok.tok = .eof then finish (.returned true)
    else goto (if tok.tok = .name then sectionPlace tok.symb.text else .sections)
  | .setsOpen => goto .setName
  | .setName =>
    if tok.tok = .rfb then goto .sections
    else do
      let m ← memSet
      setMemSet { m with
        name := tok.symb.text
        setFlags := 0
        config := { m.config with mMulFactor := 0x3ff0000000000000 } }
      goto .setColon
  | .setColon => goto .paramName
  | .paramName =>
    if tok.tok = .eoexp then do
      -- the parameters are valid, and `Parse` returns 0
      validateMemsetParams
      finish (.returned false)
    else goto (.paramAsg tok.symb.text)
  | .paramAsg param => goto (.paramValue param)
  | .paramValue param => do
    fillValue param tok
    goto .paramEnd
  | .paramEnd =>
    if tok.tok = .eoexp then do
      validateMemsetParams
      update fun c => { c with mCurMemSet := c.mCurMemSet + 1, place := .setName }
    else goto .paramName
  | .blocksOpen => goto .blockName
  | .blockName => goto (if tok.tok = .rfb then .sections else .blockColon)
  | .blockColon => goto .blockAt
  | .blockAt => waitName "at" tok .blockAddr
  | .blockAddr => goto (.blockComa tok.val)
  | .blockComa addr => goto (.blockLen addr)
  | .blockLen addr => waitName "len" tok (.lenAsg addr)
  | .lenAsg addr => goto (.lenValue addr)
  | .lenValue addr => goto (.blockNext addr tok.val)
  | .blockNext addr len =>
    if tok.tok = .eoexp then do
      addBank addr len 0 none
      goto .blockName
    else goto (.blockOption addr len)
  | .blockOption addr len =>
    if tok.symb.text = "ws".toList then goto (.wsAsg addr len)
    else if tok.symb.text = "memset".toList then goto (.memsetAsg addr len)
    else printErr 7 [.int tok.line, .str tok.symb.bytes]
  | .wsAsg addr len => goto (.wsValue addr len)
  | .wsValue addr len => goto (.blockEnd addr len (tok.val.setWidth 32) none)
  | .memsetAsg addr len => goto (.memsetValue addr len)
  | .memsetValue addr len => do
    match ← read (getMemSet tok.symb.text) with
    | some i => goto (.blockEnd addr len 0 (some i))
    | none => printErr 6 [.int tok.line, .str tok.symb.bytes]
  | .blockEnd addr len waitState memset => do
    addBank addr len waitState memset
    goto .blockName
  | .devicesAsg => goto (.deviceName 0)
  | .deviceName flags =>
    if tok.tok = .eoexp then do
      addDevices flags
      goto .sections
    else
      match deviceBit tok.symb.text with
      | some bit => goto (.deviceName (flags ||| (1 <<< bit)))
      | none => printErr 9 [.int tok.line, .str tok.symb.bytes]

def react (l : Lexer) (r : Bool) : CfgM Unit :=
  if r then do
    let place ← read place
    if l.tok.tok ∈ accepts place then proceed l.tok place
    else printErr 8 [.int l.mCurLine, .str l.tok.symb.bytes]
  else printErr 8 [.int l.mCurPos, .str l.tok.symb.bytes]

section Refusals

def errMsg (c : BoardCfg) (num : Nat) : String :=
  errorMessages.getD (num * 2 + c.mIsRusLang.toNat) ""

def missingParam (c : BoardCfg) : Option Message :=
  let m := c.mMemSets c.mCurMemSet
  ((required m.config.mKind).find? fun p => m.setFlags &&& p.2 = 0).map fun p =>
    ⟨errMsg c 1, [.text p.1.toList]⟩

def badValue (param : List Char) (tok : Token) (c : BoardCfg) : Option Message :=
  if tok.tok = .name then
    if param = "RAMType".toList then
      if kindOf tok.symb.text = none then
        some ⟨errMsg c 2, [.text tok.symb.text, .int tok.line]⟩
      else none
    else if param = "SSType".toList then
      if (c.mMemSets c.mCurMemSet).config.mKind ≠ .ssram then some ⟨errMsg c 3, [.int tok.line]⟩
      else if ssKindOf tok.symb.text = none then
        some ⟨errMsg c 4, [.int tok.line, .text tok.symb.text]⟩
      else none
    else some ⟨"error %d: unexpected value %s  of parameter %s\n",
      [.int tok.line, .text tok.symb.text, .text param]⟩
  else if (if tok.isFloatVal then [freqRatio] else paramsInt ++ [sramLatency]).find?
      (fun p => p.name.toList = param) = none then
    some ⟨errMsg c 5, [.int tok.line, .text param]⟩
  else none

def misplaced (tok : Token) (c : BoardCfg) : Place → Option Message
  | .paramName | .paramEnd => if tok.tok = .eoexp then missingParam c else none
  | .paramValue param => badValue param tok c
  | .blockAt =>
    if tok.symb.text = "at".toList then none
    else some ⟨errMsg c 8, [.int tok.line, .str tok.symb.bytes]⟩
  | .blockLen _ =>
    if tok.symb.text = "len".toList then none
    else some ⟨errMsg c 8, [.int tok.line, .str tok.symb.bytes]⟩
  | .blockOption _ _ =>
    if tok.symb.text = "ws".toList ∨ tok.symb.text = "memset".toList then none
    else some ⟨errMsg c 7, [.int tok.line, .str tok.symb.bytes]⟩
  | .memsetValue _ _ =>
    if getMemSet tok.symb.text c = none then
      some ⟨errMsg c 6, [.int tok.line, .str tok.symb.bytes]⟩
    else none
  | .deviceName _ =>
    if tok.tok ≠ .eoexp ∧ deviceBit tok.symb.text = none then
      some ⟨errMsg c 9, [.int tok.line, .str tok.symb.bytes]⟩
    else none
  | _ => none

/-- The message that `Parse` prints when `GetToken` has returned `r`, if there is one. -/
def refusal (l : Lexer) (r : Bool) (c : BoardCfg) : Option Message :=
  if r then
    if l.tok.tok ∈ accepts c.place then misplaced l.tok c c.place
    else some ⟨errMsg c 8, [.int l.mCurLine, .str l.tok.symb.bytes]⟩
  else some ⟨errMsg c 8, [.int l.mCurPos, .str l.tok.symb.bytes]⟩

def StoresBank (tok : Token) : Place → Prop
  | .blockNext _ _ | .blockEnd _ _ _ _ => tok.tok = .eoexp
  | _ => False

theorem refusal_of_storesBank (h : StoresBank l.tok c.place) : refusal l true c = none := by
  rw [refusal, if_pos rfl]
  cases hplace : c.place with
  | blockNext addr len =>
    rw [hplace] at h
    have heoexp : l.tok.tok = .eoexp := h
    rw [if_pos (by rw [heoexp]; simp [accepts])]
    rfl
  | blockEnd addr len waitState memset =>
    rw [hplace] at h
    have heoexp : l.tok.tok = .eoexp := h
    rw [if_pos (by rw [heoexp]; simp [accepts])]
    rfl
  | _ =>
    rw [hplace] at h
    exact h.elim

/-- What `Parse` does with a token: it prints the message `e`, or it goes on or returns; when the
token ends a block there must be room for its bank. -/
inductive Reaction (c : BoardCfg) (bank : Prop) :
    Option Message → Outcome CfgFault BoardCfg Unit → Prop
  | refused (e : Message) : Reaction c bank (some e) (printError e.fmt e.args c)
  | goesOn (c' : BoardCfg) : ¬ bank → Reaction c bank none (.ok () c')
  | returned (c' : BoardCfg) (b : Bool) :
    ¬ bank → Reaction c bank none (.exit { c' with ending := some (.returned b) })
  | stored (c' : BoardCfg) : bank → Reaction c bank none
      (if c.mCm.bankNum < maxNumBlocks then .ok () c' else .fault .banks)

theorem printError_bind (k : α → CfgM β) (c : BoardCfg) :
    ((printError aMsg args : CfgM α) >>= k) c = (printError aMsg args : CfgM β) c := by
  unfold printError
  cases vsprintf aMsg.toList args with
  | none => rfl
  | some msg =>
    dsimp only
    split <;> rfl

theorem Reaction.bind {m : CfgM Unit} {k : Unit → CfgM Unit} (h : Reaction c bank e (m c))
    (hk : ∀ c', ∃ c'', k () c' = .ok () c'') : Reaction c bank e ((m >>= k) c) := by
  generalize ho : m c = o at h
  cases h with
  | refused e =>
    have hprint : (m >>= k) c = (printError e.fmt e.args : CfgM Unit) c := by
      rw [bind_def, ho, ← bind_def, printError_bind]
    rw [hprint]
    exact .refused e
  | goesOn c' hbank =>
    obtain ⟨c'', hc''⟩ := hk c'
    rw [bind_of_ok ho, hc'']
    exact .goesOn c'' hbank
  | returned c' b hbank =>
    rw [bind_of_exit ho]
    exact .returned c' b hbank
  | stored c' hbank =>
    obtain ⟨c'', hc''⟩ := hk c'
    have hstored : (m >>= k) c =
        if c.mCm.bankNum < maxNumBlocks then .ok () c'' else .fault .banks := by
      split at ho
      · rw [bind_of_ok ho, hc'', if_pos ‹_›]
      · rw [bind_of_fault ho, if_neg ‹_›]
    rw [hstored]
    exact .stored c'' hbank

theorem Reaction.thenReturn {m : CfgM Unit} (h : Reaction c False e (m c)) (b : Bool) :
    Reaction c False e ((m >>= fun _ => finish (.returned b)) c) := by
  generalize ho : m c = o at h
  cases h with
  | refused e =>
    rw [bind_def, ho, ← bind_def, printError_bind]
    exact .refused e
  | goesOn c' =>
    rw [bind_of_ok ho]
    exact .returned c' b id
  | returned c' b =>
    rw [bind_of_exit ho]
    exact .returned c' b id
  | stored c' hfalse => exact hfalse.elim

theorem waitName_reaction (name : String) (tok : Token) (next : Place) (c : BoardCfg) :
    Reaction c False (if tok.symb.text = name.toList then none
      else some ⟨errMsg c 8, [.int tok.line, .str tok.symb.bytes]⟩) (waitName name tok next c) := by
  rw [waitName]
  split
  · exact .goesOn _ id
  · exact .refused _

theorem memSet_eq (h : c.mCurMemSet < maxMemSets) :
    memSet c = .ok (c.mMemSets c.mCurMemSet) c := if_pos h

section Reactions

variable {c : BoardCfg} (hsets : c.mCurMemSet < maxMemSets)

include hsets

theorem validateMemsetParams_reaction :
    Reaction c False (missingParam c) (validateMemsetParams c) := by
  rw [validateMemsetParams, bind_of_ok (memSet_eq hsets), missingParam]
  cases (required (c.mMemSets c.mCurMemSet).config.mKind).find? fun p =>
      (c.mMemSets c.mCurMemSet).setFlags &&& p.2 = 0 with
  | none => exact .goesOn _ id
  | some p => exact .refused _

theorem fillParamS_reaction (param : List Char) {tok : Token} (htok : tok.tok = .name) :
    Reaction c False (badValue param tok c) (fillParamS param tok.symb.text tok.line c) := by
  rw [fillParamS, badValue, if_pos htok]
  by_cases hram : param = "RAMType".toList
  · rw [if_pos hram, if_pos hram]
    cases hkind : kindOf tok.symb.text with
    | none => exact .refused _
    | some kind =>
      dsimp only
      rw [bind_of_ok (memSet_eq hsets)]
      exact .goesOn _ id
  · rw [if_neg hram, if_neg hram]
    by_cases hss : param = "SSType".toList
    · rw [if_pos hss, if_pos hss, bind_of_ok (memSet_eq hsets)]
      by_cases hkind : (c.mMemSets c.mCurMemSet).config.mKind ≠ .ssram
      · rw [if_pos hkind, if_pos hkind]
        exact .refused _
      · rw [if_neg hkind, if_neg hkind]
        cases hssKind : ssKindOf tok.symb.text with
        | none => exact .refused _
        | some kind => exact .goesOn _ id
    · rw [if_neg hss, if_neg hss]
      exact .refused _

theorem fillValue_reaction (param : List Char) (tok : Token) :
    Reaction c False (badValue param tok c) (fillValue param tok c) := by
  by_cases htok : tok.tok = .name
  · rw [fillValue, if_pos htok]
    exact fillParamS_reaction hsets param htok
  · have hfill : fillValue param tok =
        fillParam (if tok.isFloatVal then [freqRatio] else paramsInt ++ [sramLatency]) param
          tok.val tok.line := by
      rw [fillValue, if_neg htok]
      split <;> rfl
    rw [hfill, badValue, if_neg htok, fillParam]
    cases (if tok.isFloatVal then [freqRatio] else paramsInt ++ [sramLatency]).find?
        (fun p => p.name.toList = param) with
    | none => exact .refused _
    | some p =>
      dsimp only
      rw [bind_of_ok (memSet_eq hsets)]
      exact .goesOn _ id

theorem proceed_reaction {tok : Token} {place : Place} (haccepts : tok.tok ∈ accepts place) :
    Reaction c (StoresBank tok place) (misplaced tok c place) (proceed tok place c) := by
  have hgoto : ∀ place c, ∃ c', goto place c = .ok () c' := fun _ _ => ⟨_, rfl⟩
  cases place with
  | sections =>
    rw [proceed]
    split
    · exact .returned _ _ id
    · exact .goesOn _ id
  | setName =>
    rw [proceed]
    split
    · exact .goesOn _ id
    · rw [bind_of_ok (memSet_eq hsets)]
      exact .goesOn _ id
  | paramName =>
    rw [proceed, misplaced]
    split
    · exact (validateMemsetParams_reaction hsets).thenReturn false
    · exact .goesOn _ id
  | paramValue param =>
    exact (fillValue_reaction hsets param tok).bind fun c => hgoto _ c
  | paramEnd =>
    rw [proceed, misplaced]
    split
    · exact (validateMemsetParams_reaction hsets).bind fun _ => ⟨_, rfl⟩
    · exact .goesOn _ id
  | blockAt => exact waitName_reaction "at" tok _ c
  | blockLen addr => exact waitName_reaction "len" tok _ c
  | blockNext addr len =>
    rw [proceed]
    split
    · exact Reaction.bind (.stored _ ‹_›) fun c => hgoto _ c
    · exact .goesOn _ ‹_›
  | blockOption addr len =>
    rw [proceed, misplaced]
    by_cases hws : tok.symb.text = "ws".toList
    · rw [if_pos hws, if_pos (.inl hws)]
      exact .goesOn _ id
    · rw [if_neg hws]
      by_cases hmemset : tok.symb.text = "memset".toList
      · rw [if_pos hmemset, if_pos (.inr hmemset)]
        exact .goesOn _ id
      · rw [if_neg hmemset, if_neg (not_or.mpr ⟨hws, hmemset⟩)]
        exact .refused _
  | memsetValue addr len =>
    rw [proceed, misplaced, bind_of_ok (read_apply _ _)]
    cases getMemSet tok.symb.text c with
    | none => exact .refused _
    | some i => exact .goesOn _ id
  | blockEnd addr len waitState memset =>
    have heoexp : tok.tok = .eoexp := List.mem_singleton.mp haccepts
    exact Reaction.bind (.stored _ heoexp) fun c => hgoto _ c
  | deviceName flags =>
    rw [proceed, misplaced]
    by_cases heoexp : tok.tok = .eoexp
    · rw [if_pos heoexp, if_neg fun h => h.1 heoexp]
      exact .goesOn _ id
    · rw [if_neg heoexp]
      cases hbit : deviceBit tok.symb.text with
      | none =>
        rw [if_pos ⟨heoexp, rfl⟩]
        exact .refused _
      | some bit =>
        rw [if_neg fun h => by cases h.2]
        exact .goesOn _ id
  | _ => exact .goesOn _ id

theorem react_reaction (l : Lexer) (r : Bool) :
    Reaction c (r = true ∧ StoresBank l.tok c.place) (refusal l r c) (react l r c) := by
  cases r with
  | false => exact .refused _
  | true =>
    rw [react, refusal, if_pos rfl, if_pos rfl, bind_of_ok (read_apply _ _)]
    by_cases haccepts : l.tok.tok ∈ accepts c.place
    · rw [if_pos haccepts, if_pos haccepts]
      have hstores : (true = true ∧ StoresBank l.tok c.place) = StoresBank l.tok c.place :=
        propext (and_iff_right rfl)
      rw [hstores]
      exact proceed_reaction hsets haccepts
    · rw [if_neg haccepts, if_neg haccepts]
      exact .refused _

end Reactions

theorem printError_of_printable {e : Message} (h : e.Printable) (c : BoardCfg) :
    ∃ msg, (printError e.fmt e.args : CfgM Unit) c =
      .exit { c with ending := some (.thrown msg) } := by
  obtain ⟨msg, hmsg, hlen⟩ := (vsprintf_spec e.fmt.toList e.args).1 h.suits
  have hshort := h.short
  refine ⟨msg, ?_⟩
  rw [printError, hmsg]
  exact congrFun (if_pos (by omega)) c

theorem printError_of_not_printable {e : Message} (h : ¬ e.Printable) (c : BoardCfg) :
    (printError e.fmt e.args : CfgM Unit) c = .fault .message := by
  obtain ⟨hsome, hnone⟩ := vsprintf_spec e.fmt.toList e.args
  by_cases hsuits : Suits (conversions e.fmt.toList) e.args
  · obtain ⟨msg, hmsg, hlen⟩ := hsome hsuits
    rw [printError, hmsg]
    exact congrFun (if_neg fun hshort => h ⟨hsuits, by omega⟩) c
  · rw [printError, hnone hsuits]
    rfl

theorem Reaction.ne_fault_iff (h : Reaction c bank e o) : (∀ f, o ≠ .fault f) ↔
    (∀ m ∈ e, m.Printable) ∧ (e = none → bank → c.mCm.bankNum < maxNumBlocks) := by
  cases h with
  | refused e =>
    by_cases hprint : e.Printable
    · obtain ⟨msg, hmsg⟩ := printError_of_printable hprint c
      rw [hmsg]
      refine iff_of_true (by simp) ⟨?_, nofun⟩
      rintro m ⟨⟩
      exact hprint
    · rw [printError_of_not_printable hprint]
      exact iff_of_false (fun h => h _ rfl) fun h => hprint (h.1 e rfl)
  | goesOn c' hbank => exact iff_of_true (by simp) ⟨by simp, fun _ hb => absurd hb hbank⟩
  | returned c' b hbank => exact iff_of_true (by simp) ⟨by simp, fun _ hb => absurd hb hbank⟩
  | stored c' hbank =>
    by_cases hroom : c.mCm.bankNum < maxNumBlocks
    · rw [if_pos hroom]
      exact iff_of_true (by simp) ⟨by simp, fun _ _ => hroom⟩
    · rw [if_neg hroom]
      exact iff_of_false (fun h => h _ rfl) fun h => hroom (h.2 rfl hbank)

theorem Reaction.ends (h : Reaction c bank e o) (ho : o = .exit c') :
    ∃ e, c'.ending = some e := by
  cases h with
  | refused e =>
    by_cases hprint : e.Printable
    · obtain ⟨msg, hmsg⟩ := printError_of_printable hprint c
      rw [hmsg] at ho
      cases ho
      exact ⟨_, rfl⟩
    · rw [printError_of_not_printable hprint] at ho
      cases ho
  | goesOn => cases ho
  | returned =>
    cases ho
    exact ⟨_, rfl⟩
  | stored =>
    split at ho <;> cases ho

end Refusals

theorem printErr_ne_ok : (printErr num args : CfgM α) c ≠ .ok a c' := by
  intro h
  obtain ⟨rus, t, -, h⟩ := bind_eq_ok.mp h
  simp only [printError] at h
  cases hmsg : vsprintf (errorMessages.getD (num * 2 + rus.toNat) "").toList args with
  | some msg =>
    simp only [hmsg] at h
    split at h <;> cases h
  | none =>
    simp only [hmsg] at h
    cases h

/-- `Parse` goes on only with a token, and not at the end of the file. -/
theorem react_eq_ok (h : react l r c = .ok () c') : r = true ∧ l.tok.tok ≠ .eof := by
  cases r with
  | false => exact absurd h printErr_ne_ok
  | true =>
    refine ⟨rfl, fun heof => ?_⟩
    obtain ⟨place, t, -, h⟩ := bind_eq_ok.mp h
    rw [heof] at h
    split at h
    · rename_i hmem
      cases place with
      | sections =>
        rw [proceed, if_pos heof] at h
        cases h
      | _ => exact absurd hmem (by simp [accepts])
    · exact absurd h printErr_ne_ok

end BoardCfg

/-- `tParseCfg`, while `Parse` runs. -/
structure ParseCfg where
  lex : Lexer
  cfg : BoardCfg

namespace ParseCfg

/-- The constructor; what it does not set is left as it is found in `m`. -/
def construct (m : ParseCfg) (text : List Char) (aIsRusLang : Bool) : ParseCfg where
  lex := { m.lex with mStream := text, mCurPos := 0, mCurLine := 1 }
  cfg := { m.cfg with
    mCurMemSet := 0
    mCm := { m.cfg.mCm with bankNum := 0 }
    mIsRusLang := aIsRusLang
    place := .sections
    ending := none }

/-- `Parse` from one call of `GetToken` to the next. -/
def step : Exec CfgFault ParseCfg Unit := do
  let r ← onComponent lex (fun p l => { p with lex := l }) getToken
  let l ← read lex
  onComponent cfg (fun p c => { p with cfg := c }) (BoardCfg.react l r)

/-- The texts of the parser's own bounds: names that fit into `Symb`, and fewer memory sets than
`mMemSets` has. -/
structure Bounded (p : ParseCfg) : Prop where
  names : ∀ hist q, Run step p hist q → ShortName q.lex.beginToken.rest
  memSets : ∀ hist q, Run step p hist q → q.cfg.mCurMemSet < maxMemSets

/-- Every call of `GetToken` makes progress, and `Parse` returns or throws. -/
def Terminates (p : ParseCfg) : Prop :=
  (∀ hist q, Run step p hist q → q.lex.Progresses) ∧
    ∃ n q e, iterate step n p = .exit q ∧ q.cfg.ending = some e

/-- The next token can be read; if `Parse` refuses it, the message can be written; and if it ends a
block of `MEMORY`, `ChipMem` has a bank left. -/
structure Passes (p : ParseCfg) : Prop where
  readable : p.lex.Readable
  message : ∀ r l, getToken p.lex = .ok r l → ∀ e ∈ BoardCfg.refusal l r p.cfg, e.Printable
  bank : ∀ l, getToken p.lex = .ok true l → BoardCfg.StoresBank l.tok p.cfg.place →
    p.cfg.mCm.bankNum < maxNumBlocks

section Steps

variable {p q : ParseCfg}

theorem step_of_ok (h : getToken p.lex = .ok r l) :
    step p = (BoardCfg.react l r p.cfg).into (fun _ c => ⟨l, c⟩) fun c => ⟨l, c⟩ := by
  simp only [step, bind_def, onComponent, h, read_apply]
  cases BoardCfg.react l r p.cfg <;> rfl

/-- A round that goes on has passed some of the text. -/
theorem measure_lt (hname : ShortName p.lex.beginToken.rest) (hread : p.lex.Readable)
    (h : step p = .ok () q) :
    q.lex.mStream.length - q.lex.mCurPos < p.lex.mStream.length - p.lex.mCurPos := by
  obtain ⟨r, l, hget, hstream, hprog⟩ := getToken_ok hname hread
  rw [step_of_ok hget, Outcome.into_eq_ok] at h
  obtain ⟨_, c, hreact, rfl⟩ := h
  obtain ⟨rfl, heof⟩ := BoardCfg.react_eq_ok hreact
  have hlt := (hprog rfl).resolve_left heof
  have hend : p.lex.mCurPos < p.lex.mStream.length := by
    by_contra hle
    obtain ⟨l', hget', heof'⟩ := getToken_of_nil (l := p.lex) (List.drop_of_length_le (by omega))
    rw [hget] at hget'
    cases hget'
    exact heof heof'
  change l.mStream.length - l.mCurPos < _
  rw [hstream]
  omega

/-- Exactly then nothing goes wrong before the next call. -/
theorem passes_iff (hname : ShortName p.lex.beginToken.rest)
    (hsets : p.cfg.mCurMemSet < maxMemSets) (hread : p.lex.Readable) :
    p.Passes ↔ ∀ f, step p ≠ .fault f := by
  obtain ⟨r, l, hget, -, -⟩ := getToken_ok hname hread
  have hiff := (BoardCfg.react_reaction hsets l r).ne_fault_iff
  simp only [step_of_ok hget, ne_eq, Outcome.into_eq_fault]
  rw [hiff]
  constructor
  · intro h
    refine ⟨h.message r l hget, ?_⟩
    rintro - ⟨rfl, hstores⟩
    exact h.bank l hget hstores
  · rintro ⟨hmessage, hbank⟩
    refine ⟨hread, ?_, ?_⟩
    · intro r' l' hget'
      rw [hget] at hget'
      cases hget'
      exact hmessage
    · intro l' hget' hstores
      rw [hget] at hget'
      cases hget'
      exact hbank (BoardCfg.refusal_of_storesBank hstores) ⟨rfl, hstores⟩

theorem ending_of_exit (hname : ShortName p.lex.beginToken.rest)
    (hsets : p.cfg.mCurMemSet < maxMemSets) (hread : p.lex.Readable)
    (h : step p = .exit q) : ∃ e, q.cfg.ending = some e := by
  obtain ⟨r, l, hget, -, -⟩ := getToken_ok hname hread
  rw [step_of_ok hget, Outcome.into_eq_exit] at h
  obtain ⟨c, hreact, rfl⟩ := h
  exact (BoardCfg.react_reaction hsets l r).ends hreact

theorem step_of_strayQuote (hq : StrayQuote p.lex.rest) (hplace : p.cfg.place = .sections) :
    ∃ l, l.rest = p.lex.rest ∧ step p = .ok () ⟨l, { p.cfg with place := .sections }⟩ := by
  obtain ⟨l, hget, htok, hsymb, hstream, hpos⟩ := hq.getToken_eq
  have hsection : BoardCfg.sectionPlace l.tok.symb.text = .sections := by
    rw [hsymb]
    rfl
  have haccepts : TokType.name ∈ BoardCfg.accepts .sections := by decide
  have hreact : BoardCfg.react l true p.cfg = .ok () { p.cfg with place := .sections } := by
    simp only [BoardCfg.react, bind_def, read_apply, hplace, htok, haccepts, if_true,
      BoardCfg.proceed, hsection, reduceCtorEq, if_false, BoardCfg.goto, update_apply]
  exact ⟨l, by rw [rest, rest, hstream, hpos], by rw [step_of_ok hget, hreact]; rfl⟩

theorem iterate_of_strayQuote (hq : StrayQuote p.lex.rest) (hplace : p.cfg.place = .sections)
    (n : Nat) : ∃ q, iterate step n p = .ok () q := by
  induction n generalizing p with
  | zero => exact ⟨p, rfl⟩
  | succ n ih =>
    obtain ⟨l, hrest, hstep⟩ := step_of_strayQuote hq hplace
    obtain ⟨q, hn⟩ := ih (p := ⟨l, { p.cfg with place := .sections }⟩) (by rwa [hrest]) rfl
    exact ⟨q, iterate_succ_eq_ok.mpr ⟨_, hstep, hn⟩⟩

theorem bounded_of_strayQuote (hq : StrayQuote p.lex.rest) (hplace : p.cfg.place = .sections)
    (hsets : p.cfg.mCurMemSet < maxMemSets) : p.Bounded := by
  have hinv : ∀ hist q, Run step p hist q → StrayQuote q.lex.rest ∧ q.cfg.place = .sections ∧
      q.cfg.mCurMemSet < maxMemSets := by
    intro hist q hrun
    refine hrun.invariant (I := fun q => StrayQuote q.lex.rest ∧ q.cfg.place = .sections ∧
      q.cfg.mCurMemSet < maxMemSets) ⟨hq, hplace, hsets⟩ ?_
    rintro q q' ⟨hq, hplace, hsets⟩ hstep
    obtain ⟨l, hrest, hstep'⟩ := step_of_strayQuote hq hplace
    rw [hstep'] at hstep
    cases hstep
    exact ⟨by rwa [hrest], rfl, hsets⟩
  refine ⟨fun hist q hrun => ?_, fun hist q hrun => (hinv hist q hrun).2.2⟩
  rw [beginToken_of_strayQuote (hinv hist q hrun).1, ShortName, (hinv hist q hrun).1.2.1]
  exact fun _ => by decide

end Steps

/-- The configurations that `Parse` gets through: each call of `GetToken` that it comes to begins at
a token that can be read, what it refuses it can report, and it stores no more banks than `ChipMem`
has. -/
theorem parse_terminates_iff (m : ParseCfg) (text : List Char) (aIsRusLang : Bool)
    (hp : (construct m text aIsRusLang).Bounded) :
    (construct m text aIsRusLang).Terminates ↔
      ∀ hist q, Run step (construct m text aIsRusLang) hist q → q.Passes := by
  constructor
  · rintro ⟨hprog, n, d, e, hexit, -⟩ hist q hrun
    have hread := (progresses_iff (hp.names hist q hrun)).mp (hprog hist q hrun)
    obtain ⟨hist', d', t, hrun', hd'⟩ := Run.exits_iff.mp ⟨n, d, hexit⟩
    refine (passes_iff (hp.names hist q hrun) (hp.memSets hist q hrun) hread).mpr ?_
    intro f hf
    have heq := hrun.last_unique hrun' (by simp [hf]) (by simp [hd'])
    rw [heq, hd'] at hf
    cases hf
  · intro h
    have hread := fun hist q hrun => (h hist q hrun).readable
    refine ⟨fun hist q hrun => (progresses_iff (hp.names hist q hrun)).mpr (hread hist q hrun), ?_⟩
    obtain ⟨hist, d, t, hrun, hexit⟩ := Run.exits_of_measure (m := step)
      (s := construct m text aIsRusLang) (fun p => p.lex.mStream.length - p.lex.mCurPos)
      (fun hist p q hrun hstep => measure_lt (hp.names hist p hrun) (hread hist p hrun) hstep)
      (fun hist p f hrun => (passes_iff (hp.names hist p hrun) (hp.memSets hist p hrun)
        (hread hist p hrun)).mp (h hist p hrun) f)
    obtain ⟨e, he⟩ := ending_of_exit (hp.names hist d hrun) (hp.memSets hist d hrun)
      (hread hist d hrun) hexit
    have hn : iterate step (hist.length + 1) (construct m text aIsRusLang) = .exit t :=
      iterate_eq_exit.mpr ⟨hist.length, Nat.lt_succ_self _, d, hrun.iterate_eq, hexit⟩
    exact ⟨_, t, e, hn, he⟩

def zeroed : ParseCfg :=
  let symb : Symb := ⟨List.replicate maxNameSize '\x00', List.length_replicate⟩
  let config : SDRamConfig := ⟨.sram, .pipelined, 0, 0, 0, 0, 0, 0, 0⟩
  let cm : ChipMem := ⟨0, fun _ => 0, fun _ => 0, fun _ => 0, fun _ => 0, 0, fun _ => config⟩
  { lex := ⟨[], 0, 0, ⟨.name, symb, 0, false, 0⟩⟩
    cfg := ⟨fun _ => ⟨[], 0, config⟩, 0, cm, false, .sections, none⟩ }

theorem bounded_periphery :
    (construct zeroed "PERIPHERY = com0 pu; // ports".toList false).Bounded where
  names := Run.forall_of_isExit (n := 6) (by decide +kernel) (by decide +kernel)
  memSets := Run.forall_of_isExit (n := 6) (by decide +kernel) (by decide +kernel)

theorem parse_terminates_periphery :
    (construct zeroed "PERIPHERY = com0 pu; // ports".toList false).Terminates ∧
      ∀ hist q, Run step (construct zeroed "PERIPHERY = com0 pu; // ports".toList false) hist q →
        q.Passes := by
  have hends : (construct zeroed "PERIPHERY = com0 pu; // ports".toList false).Terminates := by
    refine ⟨Run.forall_of_isExit (n := 6) (by decide +kernel) (by decide +kernel), 6, _,
      .returned true, Outcome.eq_exit_of_isExit (d := zeroed) (by decide +kernel), ?_⟩
    decide +kernel
  exact ⟨hends, (parse_terminates_iff zeroed _ false bounded_periphery).mp hends⟩

/-- A quotation mark alone. -/
theorem parse_endless_quote : (construct zeroed [quote] false).Bounded ∧
    ¬ (construct zeroed [quote] false).Terminates ∧
    ∀ n, ∃ q, iterate step n (construct zeroed [quote] false) = .ok () q := by
  have hq : StrayQuote (construct zeroed [quote] false).lex.rest := by decide
  refine ⟨bounded_of_strayQuote hq rfl (by decide), ?_, iterate_of_strayQuote hq rfl⟩
  rintro ⟨hprog, -⟩
  exact hq.not_progresses (hprog [] _ .start)

end ParseCfg
end GvmCore
