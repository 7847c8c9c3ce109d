import GvmCore.Bytes
import GvmCore.Hex

namespace GvmCore
set_option autoImplicit true

/-- `uint64 reg[4]`: one stack element, or the gas counter. -/
abbrev Reg := Fin 4 → Word

instance neZeroBlocks : NeZero (4 : Nat) := ⟨by decide⟩

abbrev VBigDig := BitVec 16

/-- The digits of a number, least significant first; the length cell is the list's length. -/
abbrev VBig := List VBigDig

def strtoull16 (string : List Char) : Word := BitVec.ofNat 64 (hexValue string)

namespace VBignum

def setZero (x : VBig) : VBig := List.replicate x.length 0

def setOne : VBig → VBig
  | [] => []
  | _ :: xs => 1 :: setZero xs

/-- Assignment keeps the width of the target: high digits are cut off or cleared. -/
def setBignum (x y : VBig) : VBig := y.take x.length ++ List.replicate (x.length - y.length) 0

def orLow : VBig → Nat → VBig
  | [], _ => []
  | x :: xs, d => (x ||| BitVec.ofNat 16 d) :: xs

def shiftBits (count : Nat) : Nat → VBig → VBig
  | _, [] => []
  | carry, x :: xs =>
    let t := (x.toNat <<< count) ||| carry
    BitVec.ofNat 16 t :: shiftBits count (t >>> 16) xs

def bitShiftLeft (x : VBig) (count : Nat) : VBig :=
  if 16 ≤ count then
    let places := count / 16
    let y := (List.replicate places 0 ++ x).take x.length
    if count - places * 16 = 0 then y else shiftBits (count - places * 16) 0 y
  else shiftBits count 0 x

def bitShiftLeft1 (x : VBig) : VBig := shiftBits 1 0 x

def shiftDown (count : Nat) : VBig → VBig × Nat
  | [] => ([], 0)
  | x :: xs =>
    let (ys, carry) := shiftDown count xs
    let t := ((x.toNat <<< 16) >>> count) ||| carry
    (BitVec.ofNat 16 (t >>> 16) :: ys, (t &&& 0xFFFF) <<< 16)

def bitShiftRight (x : VBig) (count : Nat) : VBig :=
  if 16 ≤ count then
    let places := count / 16
    if places > x.length then setZero x
    else
      let y := x.drop places ++ List.replicate places 0
      if count - places * 16 = 0 then y else (shiftDown (count - places * 16) y).1
  else (shiftDown count x).1

def setStringDigits : VBig → List Char → VBig
  | x, [] => x
  | x, c :: cs =>
    if isxdigit c then setStringDigits (orLow (bitShiftLeft x 4) (xdigitValue c)) cs else x

def setStringHex (x : VBig) : List Char → VBig
  | '0' :: 'x' :: string => setStringDigits (setZero x) string
  | '0' :: 'X' :: string => setStringDigits (setZero x) string
  | string => setStringDigits (setZero x) string

def sprintHex (x : VBig) : List Char := x.reverse.flatMap fun d => hexPad 4 d.toNat

/-- The text `regToBignum` parses: blocks from high to low, each block's bytes from low to high. -/
def digitString (reg : Reg) : List Char :=
  ['0', 'x'] ++ ([3, 2, 1, 0] : List (Fin 4)).flatMap fun i =>
    (List.range 8).flatMap fun j => hexPad 2 (byteAt (reg i) j).toNat

def regToBignum (reg : Reg) : VBig := setStringHex (List.replicate 64 0) (digitString reg)

def bignumToReg (x : VBig) : Reg := fun i =>
  let string := ['0', 'x'] ++ sprintHex x
  strtoull16 ([0, 2, 4, 6, 8, 10, 12, 14].flatMap fun j =>
    (string.drop (64 - 16 * i - j)).take 2)

def onCommon (f : VBigDig → VBigDig → VBigDig) : VBig → VBig → VBig
  | x :: xs, y :: ys => f x y :: onCommon f xs ys
  | xs, _ => xs

def and (x y : VBig) : VBig := onCommon (· &&& ·) x y

def or (x y : VBig) : VBig := onCommon (· ||| ·) x y

def xor (x y : VBig) : VBig := onCommon (· ^^^ ·) x y

def not (x : VBig) : VBig := x.map (~~~ ·)

def bitTest (x : VBig) (bit : Nat) : Bool :=
  if bit / 16 < x.length then x.getD (bit / 16) 0 &&& (1#16 <<< (bit % 16)) != 0 else false

def bitSet (x : VBig) (bit : Nat) : VBig :=
  if bit ≥ x.length * 16 then x else x.modify (bit / 16) (· ||| (1#16 <<< (bit % 16)))

def bitClear (x : VBig) (bit : Nat) : VBig :=
  if bit ≥ x.length * 16 then x else x.modify (bit / 16) (· &&& ~~~(1#16 <<< (bit % 16)))

def maskScan (d : VBigDig) : Nat → Int
  | 0 => -1
  | k + 1 => if d &&& (1#16 <<< k) != 0 then k else maskScan d k

def bitMsbBelow (x : VBig) : Nat → Int
  | 0 => -1
  | n + 1 => if x.getD n 0 != 0 then n * 16 + maskScan (x.getD n 0) 16 else bitMsbBelow x n

def bitMsb (x : VBig) : Int := bitMsbBelow x x.length

/-- Bit numbers are `unsigned int`: `msb - (bits - 1) + i` wraps below zero. -/
def setBignumPart (x y : VBig) (msb bits : Nat) : VBig :=
  if msb > y.length * 16 then setZero x
  else (List.range bits).foldl
    (fun z i => if bitTest y ((msb + 2 ^ 32 + 1 - bits + i) % 2 ^ 32) then bitSet z i else z)
    (setZero x)

def eqZero (x : VBig) : Bool := x.all (· == 0)

def eqOne : VBig → Bool
  | [] => true
  | x :: xs => x == 1 && eqZero xs

/-- Of two numbers of different length the digit right above the common part is not looked at. -/
def eq (x y : VBig) : Bool :=
  if x.length = y.length then x == y
  else
    let cs := min x.length y.length
    let l := if cs = x.length then y else x
    x.take cs == y.take cs && eqZero (l.drop (cs + 1))

def usedBelow (x : VBig) : Nat → Nat
  | 0 => 0
  | n + 1 => if x.getD n 0 != 0 then n + 1 else usedBelow x n

/-- Digit by digit from the top; `last` is what the length cells in front of the digits give. -/
def compareBelow (x y : VBig) (last : Bool) : Nat → Bool
  | 0 => last
  | n + 1 =>
    if x.getD n 0 < y.getD n 0 then false
    else if x.getD n 0 > y.getD n 0 then true
    else compareBelow x y last n

def compareUsed (x y : VBig) (zero last : Bool) : Bool :=
  let i := usedBelow x x.length
  let j := usedBelow y y.length
  if i = 0 ∧ j = 0 then zero
  else if i < j then false
  else if i > j then true
  else compareBelow x y last i

def gt (x y : VBig) : Bool := compareUsed x y false (x.length > y.length)

def gte (x y : VBig) : Bool := compareUsed x y true (x.length ≥ y.length)

def addCarry : VBig → Nat → VBig
  | [], _ => []
  | x :: xs, carry =>
    if carry = 0 then x :: xs
    else
      let t := x.toNat + carry
      BitVec.ofNat 16 t :: addCarry xs (if t > 0xFFFF then 1 else 0)

def addLoop : VBig → VBig → Nat → VBig
  | x :: xs, y :: ys, carry =>
    let t := x.toNat + y.toNat + carry
    BitVec.ofNat 16 t :: addLoop xs ys (if t > 0xFFFF then 1 else 0)
  | xs, _, carry => addCarry xs carry

def add (x y : VBig) : VBig := addLoop x y 0

def subCarry : VBig → Nat → VBig
  | [], _ => []
  | x :: xs, carry =>
    if carry = 0 then x :: xs
    else
      let t := (x.toNat + 2 ^ 32 - carry) % 2 ^ 32
      BitVec.ofNat 16 t :: subCarry xs (if t > 0xFFFF then 1 else 0)

def subLoop : VBig → VBig → Nat → VBig
  | x :: xs, y :: ys, carry =>
    let t := (x.toNat + 2 ^ 32 - y.toNat - carry) % 2 ^ 32
    BitVec.ofNat 16 t :: subLoop xs ys (if t > 0xFFFF then 1 else 0)
  | xs, _, carry => subCarry xs carry

def sub (x y : VBig) : VBig := subLoop x y 0

def mulRow : VBig → Nat → List Nat → Nat → List Nat × Nat
  | x :: xs, y, w :: ws, c =>
    let uv := (w + x.toNat * y + c) % 2 ^ 32
    let (row, last) := mulRow xs y ws (uv >>> 16)
    ((uv &&& 0xFFFF) :: row, last)
  | _, _, ws, c => (ws, c)

/-- The carry of row `i` is stored at `i + n + 1`, one place too high. -/
def mulRows (x : VBig) : VBig → Nat → List Nat → List Nat
  | [], _, w => w
  | y :: ys, i, w =>
    let (row, c) := mulRow x y.toNat (w.drop i) 0
    mulRows x ys (i + 1) ((w.take i ++ row).set (i + x.length + 1) c)

def mul (x y : VBig) : VBig :=
  ((mulRows x y 0 (List.replicate (x.length + y.length + 1) 0)).take x.length).map (BitVec.ofNat 16)

def divLoop (x y : VBig) : Nat → Int → VBig → VBig → VBig × VBig
  | 0, _, q, work => (q, work)
  | k + 1, next, q, work =>
    let q := bitShiftLeft1 q
    let big := gte work y
    let q := if big then orLow q 1 else q
    let work := bitShiftLeft1 (if big then sub work y else work)
    let work := if bitTest x (next % 2 ^ 32).toNat then orLow work 1 else work
    divLoop x y k (next - 1) q work

def divLong (x y : VBig) : VBig × VBig :=
  let msbx := bitMsb x
  let msby := bitMsb y
  let work := setBignumPart (setZero x) x msbx.toNat (msby + 1).toNat
  let (q, work) := divLoop x y (msbx - msby + 1).toNat (msbx - (msby + 1)) (setZero x) work
  (q, bitShiftRight work 1)

end VBignum
end GvmCore
