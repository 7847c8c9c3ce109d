import GvmCore.ByteWords

namespace GvmCore
set_option autoImplicit true

namespace Keccak

def RC : Vector Word 24 := #v[
  0x0000000000000001, 0x0000000000008082, 0x800000000000808a,
  0x8000000080008000, 0x000000000000808b, 0x0000000080000001,
  0x8000000080008081, 0x8000000000008009, 0x000000000000008a,
  0x0000000000000088, 0x0000000080008009, 0x000000008000000a,
  0x000000008000808b, 0x800000000000008b, 0x8000000000008089,
  0x8000000000008003, 0x8000000000008002, 0x8000000000000080,
  0x000000000000800a, 0x800000008000000a, 0x8000000080008081,
  0x8000000000008080, 0x0000000080000001, 0x8000000080008008]

def R : Vector (BitVec 32) 25 := #v[
  0, 1, 62, 28, 27, 36, 44, 6, 55, 20, 3, 10, 43,
  25, 39, 41, 45, 15, 21, 8, 18, 2, 61, 56, 14]

def rotateLeft (x : Word) (n : BitVec 32) : Word :=
  (x <<< (n &&& 63).toNat) ||| (x >>> (-(n &&& 63) &&& 63).toNat)

def index1 (x : Int) : Fin 5 :=
  if x < 0 then index1 (x + 5) else Fin.ofNat 5 x.toNat
termination_by (-x).toNat

def index2 (x y : Int) : Fin 25 := ⟨index1 x + 5 * index1 y, by omega⟩

def lanePairs : List (Nat × Nat) :=
  (List.range 5).flatMap fun x => (List.range 5).map fun y => (x, y)

def columns (A : Vector Word 25) : Vector Word 5 := Vector.ofFn fun x =>
  A.get (index2 x 0) ^^^ A.get (index2 x 1) ^^^ A.get (index2 x 2) ^^^ A.get (index2 x 3) ^^^
    A.get (index2 x 4)

def mixColumns (A : Vector Word 25) : Vector Word 25 :=
  let C := columns A
  lanePairs.foldl (fun A p =>
    let i := index2 p.1 p.2
    let D := C.get (index1 (p.1 - 1)) ^^^ rotateLeft (C.get (index1 (p.1 + 1))) 1
    A.set i (A.get i ^^^ D)) A

/-- The array `B` starts with what is on the stack; all of it is written. -/
def moveLanes (A B : Vector Word 25) : Vector Word 25 :=
  lanePairs.foldl (fun B p =>
    let i := index2 p.1 p.2
    B.set (index2 p.2 (p.1 * 2 + 3 * p.2)) (rotateLeft (A.get i) (R.get i))) B

def mixRows (B A : Vector Word 25) : Vector Word 25 :=
  lanePairs.foldl (fun A p =>
    let i := index2 p.1 p.2
    A.set i (B.get i ^^^
      (~~~B.get (index2 (p.1 + 1) p.2) &&& B.get (index2 (p.1 + 2) p.2)))) A

def keccakRound (A : Vector Word 25) (n : Fin 24) : Vector Word 25 :=
  let A := mixColumns A
  let A := mixRows (moveLanes A (Vector.replicate 25 0)) A
  A.set 0 (A.get 0 ^^^ RC.get n)

def keccakf (A : Vector Word 25) : Vector Word 25 := (List.finRange 24).foldl keccakRound A

/-- The cast takes the low byte of the value, on every host. -/
def littleEndian : Bool := (0xff00 : BitVec 16).setWidth 8 == (0 : BitVec 8)

def swapEndian16 (v : BitVec 16) : BitVec 16 :=
  ((v.setWidth 8).setWidth 16 <<< 8) ||| ((v >>> 8).setWidth 8).setWidth 16

def swapEndian32 (v : BitVec 32) : BitVec 32 :=
  ((swapEndian16 (v.setWidth 16)).setWidth 32 <<< 16) |||
    (swapEndian16 ((v >>> 16).setWidth 16)).setWidth 32

def swapEndian64 (v : BitVec 64) : BitVec 64 :=
  ((swapEndian32 (v.setWidth 32)).setWidth 64 <<< 32) |||
    (swapEndian32 ((v >>> 32).setWidth 32)).setWidth 64

def littleToNative64 (v : Word) : Word := if littleEndian then v else swapEndian64 v

def nativeToLittle64 (v : Word) : Word := if littleEndian then v else swapEndian64 v

@[simp] theorem littleToNative64_eq (v : Word) : littleToNative64 v = v := if_pos rfl

@[simp] theorem nativeToLittle64_eq (v : Word) : nativeToLittle64 v = v := if_pos rfl

def blockLen (length : Nat) : Nat := 200 - 2 * (length / 8)

/-- `keccakState` between two calls. -/
structure KeccakState (length : Nat) where
  A : Vector Word 25
  buffer : Vector (BitVec 8) (blockLen length)
  bufferLen : Nat
  room : bufferLen < blockLen length

def keccakCreate (length : Nat) (h : 0 < blockLen length) : KeccakState length where
  A := Vector.replicate 25 0
  buffer := Vector.replicate (blockLen length) 0
  bufferLen := 0
  room := h

/-- The word `i` of the buffer on a little-endian host. -/
def bufferWord (buffer : Vector (BitVec 8) n) (i : Nat) : Word :=
  wordOfBytes ((List.range 8).map fun j => buffer[8 * i + j]?.getD 0)

def keccakProcessBuffer (A : Vector Word 25) (buffer : Vector (BitVec 8) n) : Vector Word 25 :=
  keccakf <| A.mapFinIdx fun i v _ =>
    if i < n / 8 then v ^^^ littleToNative64 (bufferWord buffer i) else v

def copyIn (input : Nat → BitVec 8) (off : Nat) (buffer : Vector (BitVec 8) n)
    (bufferLen cpLen : Nat) (h : bufferLen + cpLen ≤ n) : Vector (BitVec 8) n :=
  (List.finRange cpLen).foldl (fun b (i : Fin cpLen) =>
    b.set (bufferLen + i) (input (off + i)) (by omega)) buffer

def cpLen (st : KeccakState length) (len : Nat) : Nat :=
  if blockLen length - st.bufferLen > len then len else blockLen length - st.bufferLen

theorem cpLen_le (st : KeccakState length) (len : Nat) : cpLen st len ≤ len := by
  unfold cpLen
  split <;> omega

theorem cpLen_pos (st : KeccakState length) (h : 0 < len) : 0 < cpLen st len := by
  have := st.room
  unfold cpLen
  split <;> omega

theorem cpLen_fits (st : KeccakState length) (len : Nat) :
    st.bufferLen + cpLen st len ≤ blockLen length := by
  have := st.room
  unfold cpLen
  split <;> omega

def takeIn (input : Nat → BitVec 8) (off len : Nat) (st : KeccakState length) :
    KeccakState length :=
  let buffer := copyIn input off st.buffer st.bufferLen (cpLen st len) (cpLen_fits st len)
  if h : st.bufferLen + cpLen st len = blockLen length then
    { A := keccakProcessBuffer st.A buffer
      buffer := buffer
      bufferLen := 0
      room := Nat.zero_lt_of_lt st.room }
  else
    { A := st.A
      buffer := buffer
      bufferLen := st.bufferLen + cpLen st len
      room := Nat.lt_of_le_of_ne (cpLen_fits st len) h }

def keccakUpdate (input : Nat → BitVec 8) (off len : Nat) (st : KeccakState length) :
    KeccakState length :=
  if 0 < len then
    keccakUpdate input (off + cpLen st len) (len - cpLen st len) (takeIn input off len st)
  else st
termination_by len
decreasing_by
  have := cpLen_pos st ‹0 < len›
  omega

def keccakAddPadding (st : KeccakState length) : Vector (BitVec 8) (blockLen length) :=
  if st.bufferLen + 1 = blockLen length then st.buffer.set st.bufferLen 0x81 st.room
  else
    let buffer := st.buffer.set st.bufferLen 0x01 st.room
    let buffer := buffer.mapFinIdx fun i v _ =>
      if st.bufferLen + 1 ≤ i ∧ i < blockLen length - 1 then 0 else v
    buffer.set (blockLen length - 1) 0x80 (Nat.sub_one_lt_of_lt st.room)

def keccakReset (st : KeccakState length) : KeccakState length where
  A := Vector.replicate 25 0
  buffer := st.buffer
  bufferLen := 0
  room := Nat.zero_lt_of_lt st.room

/-- What the process has in memory around the arrays: `behind` are the words after the lanes, `tmp`
the words of the new array. -/
structure Heap where
  behind : Nat → Word
  tmp : Nat → Word

/-- `length` words are asked for, and one for every eight of them is written; for that the loop also
reads behind the lanes. -/
def keccakDigest (H : Heap) (st : KeccakState length) : (Nat → Word) × KeccakState length :=
  let buffer := keccakAddPadding st
  let A := keccakProcessBuffer st.A buffer
  let tmp := fun k =>
    if 8 * k < length then
      nativeToLittle64 (if h : k < 25 then A[k] else H.behind k)
    else H.tmp k
  (tmp, keccakReset { st with A := A, buffer := buffer })

def charAt (tmp : Nat → Word) (j : Nat) : BitVec 8 := (byteAt (tmp (j / 8)) (j % 8)).setWidth 8

/-- The calls of `KeccakAlg`, which copies the message into a buffer of its own. -/
def keccakAlgDigest (H : Heap) (buf : List (BitVec 8)) : Fin 32 → BitVec 8 := fun j =>
  let st := keccakCreate 256 (by decide)
  let st := keccakUpdate (fun i => buf.getD i 0) 0 buf.length st
  charAt (keccakDigest H st).1 j

end Keccak

end GvmCore
