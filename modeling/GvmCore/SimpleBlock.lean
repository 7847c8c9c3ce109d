import GvmCore.Exec
import GvmCore.Paged
import Mathlib.Algebra.Group.Nat.Defs

namespace GvmCore
open Exec Paged
set_option autoImplicit true

@[irreducible] def slotSize : Nat := 1024 * 1024

theorem slotSize_pos : 0 < slotSize := by
  unfold slotSize
  decide

/-- `tSimpleMemBlock` with one-byte cells; `d` is the size of `vDataType`. -/
structure SimpleMemBlock (d : Nat) where
  mSize : BitVec 32
  mems : Pages (BitVec 8)

inductive BlockFault where
  /-- The slot is not in the array `Mems`. -/
  | slotIndex
  /-- An access reaches past the end of a slot. -/
  | slotBounds
  deriving DecidableEq

abbrev BlockM (d : Nat) := Exec BlockFault (SimpleMemBlock d)

namespace SimpleMemBlock

def numSlots (size : BitVec 32) : Nat :=
  max 1 (size.toNat / slotSize + if size.toNat % slotSize = 0 then 0 else 1)

def init (size : BitVec 32) (fresh : Nat → Nat → BitVec 8) : SimpleMemBlock d :=
  ⟨size, ⟨fun _ => none, fresh⟩⟩

/-- `MemBlock`: the slot of an address, allocated if need be, and the index in it. -/
def memBlock (aAddr : BitVec 32) : BlockM d (Nat × Nat) := do
  let aSlot := aAddr.toNat / slotSize
  let idx := aAddr.toNat - aSlot * slotSize
  let size ← read mSize
  if numSlots size ≤ aSlot then fault .slotIndex
  else do
    update fun b => { b with mems := b.mems.allocate aSlot }
    return (aSlot, idx)

/-- A cell is read through a reference to `vDataType`, of which the first byte is kept. -/
def loadCell (aAddr : BitVec 32) : BlockM d (BitVec 8) := do
  let (aSlot, idx) ← memBlock aAddr
  if slotSize < idx + d then fault .slotBounds
  else read fun b => b.mems.contents aSlot idx

def storeSlot (aSlot idx : Nat) (v : BitVec 8) : BlockM d Unit :=
  if slotSize ≤ idx then fault .slotBounds
  else update fun b => { b with mems := b.mems.set aSlot idx v }

def storeCell (aAddr : BitVec 32) (v : BitVec 8) : BlockM d Unit := do
  let (aSlot, idx) ← memBlock aAddr
  storeSlot aSlot idx v

def getmem (aAddr : BitVec 32) (len : Nat) : BlockM d (List (BitVec 8) × Nat) := do
  let size ← read mSize
  if aAddr + BitVec.ofNat 32 len > size then return ([], 0)
  else do
    let inp ← (List.range' 0 len).mapM fun i => loadCell (BitVec.ofNat 32 i + aAddr)
    return (inp, len)

def setmem (inp : List (BitVec 8)) (aAddr : BitVec 32) : BlockM d Nat := do
  let size ← read mSize
  if aAddr + BitVec.ofNat 32 inp.length > size then return 0
  else do
    inp.zipIdx.forM fun e => storeCell (BitVec.ofNat 32 e.2 + aAddr) e.1
    return inp.length

/-- The fill stays in the slot of the first address. -/
def fillmem (aVal : BitVec (8 * d)) (aAddr : BitVec 32) (len : Nat) : BlockM d Nat := do
  let size ← read mSize
  if aAddr + BitVec.ofNat 32 len ≥ size then return 0
  else do
    let (aSlot, idx) ← memBlock aAddr
    (List.range' 0 len).forM fun i => storeSlot aSlot (idx + i) (aVal.setWidth 8)
    return len

def cell (b : SimpleMemBlock d) (x : Nat) : BitVec 8 := b.mems.cell slotSize x

/-- All `n` cells from `a` on lie in the block. -/
def Inside (b : SimpleMemBlock d) (a : BitVec 32) (n : Nat) : Prop :=
  ∀ i < n, a.toNat + i < b.mSize.toNat

/-- The cells from `x` on hold `inp`, and all others what they held before. -/
structure Overwrites (b b' : SimpleMemBlock d) (x : Nat) (inp : List (BitVec 8)) : Prop where
  size : b'.mSize = b.mSize
  inside : ∀ i (h : i < inp.length), b'.cell (x + i) = inp.get ⟨i, h⟩
  outside : ∀ y, y < x ∨ x + inp.length ≤ y → b'.cell y = b.cell y

theorem slot_lt_numSlots {size : BitVec 32} (h : x < size.toNat) :
    x / slotSize < numSlots size := by
  have hle := Nat.div_le_div_right (c := slotSize) (Nat.le_of_lt h)
  unfold numSlots
  split
  · rename_i hmod
    have hlt : x / slotSize < size.toNat / slotSize := by
      rw [Nat.div_lt_iff_lt_mul slotSize_pos, Nat.div_mul_cancel (Nat.dvd_of_mod_eq_zero hmod)]
      exact h
    omega
  · omega

theorem memBlock_eq {b : SimpleMemBlock d} (h : a.toNat < b.mSize.toNat) :
    memBlock a b = .ok (a.toNat / slotSize, a.toNat % slotSize)
      { b with mems := b.mems.allocate (a.toNat / slotSize) } := by
  have hidx : a.toNat - a.toNat / slotSize * slotSize = a.toNat % slotSize := by
    rw [Nat.mul_comm, Nat.mod_eq_sub]
  have hslot := slot_lt_numSlots h
  rw [memBlock, bind_of_ok (read_apply _ _), if_neg (by omega), hidx]
  rfl

theorem loadCell_eq {b : SimpleMemBlock d} (h : a.toNat < b.mSize.toNat)
    (hread : a.toNat % slotSize + d ≤ slotSize) : loadCell a b = .ok (b.cell a.toNat)
      { b with mems := b.mems.allocate (a.toNat / slotSize) } := by
  rw [loadCell, bind_of_ok (memBlock_eq h)]
  simp only [if_neg (Nat.not_lt.mpr hread), read_apply, Pages.contents_allocate]
  rfl

theorem Overwrites.of_cell {b b' : SimpleMemBlock d} (hsize : b'.mSize = b.mSize)
    (hcell : b'.cell = b.cell) (x : Nat) : b.Overwrites b' x [] :=
  ⟨hsize, nofun, fun y _ => congrFun hcell y⟩

theorem Overwrites.cons {b b₁ b' : SimpleMemBlock d} (h : b.Overwrites b₁ x [v])
    (h' : b₁.Overwrites b' (x + 1) inp) : b.Overwrites b' x (v :: inp) := by
  refine ⟨h'.size.trans h.size, ?_, ?_⟩
  · intro i hi
    cases i with
    | zero => exact (h'.outside x (by omega)).trans (h.inside 0 Nat.one_pos)
    | succ i =>
      rw [← Nat.add_assoc, Nat.add_right_comm]
      exact h'.inside i (Nat.lt_of_succ_lt_succ hi)
  · intro y hy
    rw [List.length_cons] at hy
    rw [h'.outside y (by omega), h.outside y (by simp only [List.length_singleton]; omega)]

theorem cell_allocate (b : SimpleMemBlock d) (k : Nat) :
    ({ b with mems := b.mems.allocate k } : SimpleMemBlock d).cell = b.cell :=
  b.mems.cell_allocate slotSize k

theorem Overwrites.of_allocate {b b' : SimpleMemBlock d}
    (h : Overwrites { b with mems := b.mems.allocate k } b' x inp) : b.Overwrites b' x inp :=
  ⟨h.size, h.inside, fun y hy => (h.outside y hy).trans (congrFun (b.cell_allocate k) y)⟩

theorem storeSlot_eq (b : SimpleMemBlock d) (h : i < slotSize) (k : Nat) (v : BitVec 8) :
    ∃ b', storeSlot k i v b = .ok () b' ∧ b.Overwrites b' (k * slotSize + i) [v] := by
  have hcell := fun y => b.mems.cell_set h k v y
  refine ⟨{ b with mems := b.mems.set k i v }, ?_, rfl, ?_, ?_⟩
  · rw [storeSlot, if_neg (Nat.not_le.mpr h)]
    rfl
  · intro j hj
    obtain rfl : j = 0 := by simpa using hj
    exact (hcell _).trans (if_pos rfl)
  · intro y hy
    simp only [List.length_singleton] at hy
    exact (hcell y).trans (if_neg (by omega))

theorem storeCell_eq {b : SimpleMemBlock d} (h : a.toNat < b.mSize.toNat) (v : BitVec 8) :
    ∃ b', storeCell a v b = .ok () b' ∧ b.Overwrites b' a.toNat [v] := by
  obtain ⟨b', hstore, hover⟩ := storeSlot_eq { b with mems := b.mems.allocate (a.toNat / slotSize) }
    (Nat.mod_lt a.toNat slotSize_pos) (a.toNat / slotSize) v
  rw [Nat.mul_comm, Nat.div_add_mod] at hover
  refine ⟨b', ?_, hover.of_allocate⟩
  rw [storeCell, bind_of_ok (memBlock_eq h)]
  exact hstore

theorem toNat_index {a size : BitVec 32} (h : a.toNat + i < size.toNat) :
    (BitVec.ofNat 32 i + a).toNat = a.toNat + i := by
  have hlt := size.isLt
  rw [BitVec.toNat_add, BitVec.toNat_ofNat]
  omega

theorem forM_storeCell (inp : List (BitVec 8)) (k : Nat) {b : SimpleMemBlock d}
    (h : a.toNat + k + inp.length ≤ b.mSize.toNat) :
    ∃ b', (inp.zipIdx k).forM (fun e => storeCell (BitVec.ofNat 32 e.2 + a) e.1) b = .ok () b' ∧
      b.Overwrites b' (a.toNat + k) inp := by
  induction inp generalizing k b with
  | nil => exact ⟨b, rfl, .of_cell rfl rfl _⟩
  | cons v inp ih =>
    rw [List.length_cons] at h
    have hindex := toNat_index (show a.toNat + k < b.mSize.toNat by omega)
    obtain ⟨b₁, hstore, hover₁⟩ := storeCell_eq (b := b) (a := BitVec.ofNat 32 k + a)
      (by rw [hindex]; omega) v
    obtain ⟨b', hrest, hover⟩ := ih (k + 1) (b := b₁) (by rw [hover₁.size]; omega)
    rw [hindex] at hover₁
    refine ⟨b', ?_, hover₁.cons hover⟩
    rw [List.zipIdx_cons]
    exact (bind_of_ok hstore).trans hrest

theorem setmem_eq {b : SimpleMemBlock d} {inp : List (BitVec 8)}
    (h : a.toNat + inp.length ≤ b.mSize.toNat) :
    ∃ b', setmem inp a b = .ok inp.length b' ∧ b.Overwrites b' a.toNat inp := by
  obtain ⟨b', hrun, hover⟩ := forM_storeCell inp 0 h
  have hin : ¬ a + BitVec.ofNat 32 inp.length > b.mSize := by
    have hlt := b.mSize.isLt
    rw [gt_iff_lt, BitVec.lt_def, BitVec.toNat_add, BitVec.toNat_ofNat]
    omega
  refine ⟨b', ?_, hover⟩
  rw [setmem, bind_of_ok (read_apply _ _), if_neg hin, bind_of_ok hrun]
  rfl

def bytes (b : SimpleMemBlock d) (x n : Nat) : List (BitVec 8) :=
  (List.range' 0 n).map fun i => b.cell (x + i)

theorem mapM_loadCell (k n : Nat) {b : SimpleMemBlock d}
    (h : ∀ i, k ≤ i → i < k + n →
      a.toNat + i < b.mSize.toNat ∧ (a.toNat + i) % slotSize + d ≤ slotSize) :
    ∃ b', (List.range' k n).mapM (fun i => loadCell (BitVec.ofNat 32 i + a)) b =
        .ok ((List.range' k n).map fun i => b.cell (a.toNat + i)) b' ∧
      b'.mSize = b.mSize ∧ b'.cell = b.cell := by
  induction n generalizing k b with
  | zero => exact ⟨b, rfl, rfl, rfl⟩
  | succ n ih =>
    obtain ⟨hsize, hread⟩ := h k (Nat.le_refl k) (by omega)
    have hindex := toNat_index hsize
    have hload := loadCell_eq (b := b) (a := BitVec.ofNat 32 k + a) (by rw [hindex]; exact hsize)
      (by rw [hindex]; exact hread)
    rw [hindex] at hload
    obtain ⟨b', hrest, hsize', hcell'⟩ := ih (k + 1)
      (b := { b with mems := b.mems.allocate ((a.toNat + k) / slotSize) })
      (fun i hi hi' => h i (by omega) (by omega))
    rw [cell_allocate] at hrest hcell'
    refine ⟨b', ?_, hsize', hcell'⟩
    rw [List.range'_succ, List.mapM_cons, bind_of_ok hload, bind_of_ok hrest]
    rfl

theorem getmem_eq {b : SimpleMemBlock d} (h : a.toNat + n ≤ b.mSize.toNat)
    (hread : ∀ i < n, (a.toNat + i) % slotSize + d ≤ slotSize) :
    ∃ b', getmem a n b = .ok (b.bytes a.toNat n, n) b' ∧ b'.cell = b.cell := by
  obtain ⟨b', hrun, -, hcell⟩ := mapM_loadCell 0 n (a := a) (b := b)
    (fun i _ hi => ⟨by omega, hread i (by omega)⟩)
  have hin : ¬ a + BitVec.ofNat 32 n > b.mSize := by
    have hlt := b.mSize.isLt
    rw [gt_iff_lt, BitVec.lt_def, BitVec.toNat_add, BitVec.toNat_ofNat]
    omega
  refine ⟨b', ?_, hcell⟩
  rw [getmem, bind_of_ok (read_apply _ _), if_neg hin, bind_of_ok hrun]
  rfl

theorem forM_storeSlot (s i k n : Nat) (b : SimpleMemBlock d) (h : i + k + n ≤ slotSize)
    (v : BitVec 8) :
    ∃ b', (List.range' k n).forM (fun j => storeSlot s (i + j) v) b = .ok () b' ∧
      b.Overwrites b' (s * slotSize + i + k) (List.replicate n v) := by
  induction n generalizing k b with
  | zero => exact ⟨b, rfl, .of_cell rfl rfl _⟩
  | succ n ih =>
    obtain ⟨b₁, hstore, hover₁⟩ := storeSlot_eq b (show i + k < slotSize by omega) s v
    obtain ⟨b', hrest, hover⟩ := ih (k + 1) b₁ (by omega)
    rw [← Nat.add_assoc] at hover₁
    refine ⟨b', ?_, hover₁.cons hover⟩
    rw [List.range'_succ]
    exact (bind_of_ok hstore).trans hrest

theorem fillmem_eq {b : SimpleMemBlock d} (h : a.toNat + n < b.mSize.toNat)
    (hslot : a.toNat % slotSize + n ≤ slotSize) (v : BitVec (8 * d)) :
    ∃ b', fillmem v a n b = .ok n b' ∧
      b.Overwrites b' a.toNat (List.replicate n (v.setWidth 8)) := by
  obtain ⟨b', hrun, hover⟩ := forM_storeSlot (a.toNat / slotSize) (a.toNat % slotSize) 0 n
    { b with mems := b.mems.allocate (a.toNat / slotSize) } hslot (v.setWidth 8)
  have hin : ¬ a + BitVec.ofNat 32 n ≥ b.mSize := by
    have hlt := b.mSize.isLt
    rw [ge_iff_le, BitVec.le_def, BitVec.toNat_add, BitVec.toNat_ofNat]
    omega
  have hstart : a.toNat / slotSize * slotSize + a.toNat % slotSize + 0 = a.toNat := by
    rw [Nat.add_zero, Nat.mul_comm, Nat.div_add_mod]
  rw [hstart] at hover
  refine ⟨b', ?_, hover.of_allocate⟩
  rw [fillmem, bind_of_ok (read_apply _ _), if_neg hin, bind_of_ok (memBlock_eq (by omega))]
  exact (bind_of_ok hrun).trans rfl

end SimpleMemBlock

end GvmCore
