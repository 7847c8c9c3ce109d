import GvmCore.SimpleBlock

namespace GvmCore
open Exec
set_option autoImplicit true

abbrev Slot := Fin slotSize → BitVec 8

/-- `cAllocUnit`: `word` is the union of the pointer `Ptr` and the swap identifier `Ident`. -/
structure AllocUnit where
  flags : BitVec 32
  word : BitVec 32

def AllocUnit.IsRamPtr (unit : AllocUnit) : Prop := unit.flags &&& 1 ≠ 0

instance : Decidable (AllocUnit.IsRamPtr unit) := inferInstanceAs (Decidable (_ ≠ _))

def AllocUnit.getNumAccesses (unit : AllocUnit) : BitVec 32 := unit.flags >>> 1

/-- `cSwapClass` with the objects it points to: the units by their addresses, the buffers by
theirs, and the file `file_%X.swp` of each identifier. -/
structure Swap where
  units : List (BitVec 32)
  unit : BitVec 32 → AllocUnit
  mem : BitVec 32 → Slot
  file : BitVec 32 → Option Slot

inductive SwapFault where
  /-- The exception of `AllocPtrFromExistent`. -/
  | memoryOverflow
  | nullPointer
  deriving DecidableEq

abbrev SwapM := Exec SwapFault Swap

namespace Swap

def setUnit (u : BitVec 32) (unit : AllocUnit) (s : Swap) : Swap :=
  { s with unit := Function.update s.unit u unit }

def setMem (p : BitVec 32) (slot : Slot) (s : Swap) : Swap :=
  { s with mem := Function.update s.mem p slot }

def setFile (ident : BitVec 32) (file : Option Slot) (s : Swap) : Swap :=
  { s with file := Function.update s.file ident file }

/-- `fread` of `nmemb` items, which are all there: it returns their number, not that of the
bytes. -/
def fread (p : BitVec 32) (nmemb : Nat) (file : Slot) : SwapM Nat := do
  update (setMem p file)
  return nmemb

/-- `GetPtr`; `buffer` is what `AllocPtr` returns, and 0 is `NULL`. -/
def getPtr (buffer u : BitVec 32) : SwapM (BitVec 32) := do
  let unit ← read fun s => s.unit u
  if unit.IsRamPtr then return unit.word
  else do
    match ← read fun s => s.file unit.word with
    | none => return 0
    | some file => do
      update (setUnit u { unit with word := buffer })
      let items ← fread buffer 1 file
      if items ≠ slotSize then return 0
      else do
        update (setFile unit.word none)
        update (setUnit u { flags := unit.flags ||| 1, word := buffer })
        return buffer

def setSwap (u aIdent : BitVec 32) : SwapM Unit := do
  let unit ← read fun s => s.unit u
  let slot ← read fun s => s.mem unit.word
  update (setFile aIdent (some slot))
  update (setUnit u { flags := unit.flags &&& ~~~1, word := aIdent })

/-- A unit is swapped out under its own address, and its buffer is free. -/
def evict (u : BitVec 32) : SwapM (BitVec 32) := do
  let ptr ← getPtr 0 u
  setSwap u u
  return ptr

def leastUsed (s : Swap) : List (BitVec 32) → Option (BitVec 32) → BitVec 32 → Option (BitVec 32)
  | [], minPtr, _ => minPtr
  | u :: units, minPtr, minAcc =>
    if (s.unit u).IsRamPtr ∧ (s.unit u).getNumAccesses < minAcc then
      leastUsed s units (some u) (s.unit u).getNumAccesses
    else leastUsed s units minPtr minAcc

/-- The first unit is never taken. -/
def allocPtrFromExistent : SwapM (BitVec 32) := do
  match ← read fun s => s.leastUsed s.units.tail none 0xFFFFFFFF with
  | some u => evict u
  | none => fault .memoryOverflow

def allocUnit (u buffer : BitVec 32) (s : Swap) : Swap :=
  { s.setUnit u ⟨1, buffer⟩ with units := s.units ++ [u] }

def readByte (buffer u : BitVec 32) (i : Fin slotSize) : SwapM (BitVec 8) := do
  let ptr ← getPtr buffer u
  if ptr = 0 then fault .nullPointer
  else read fun s => s.mem ptr i

def writeByte (buffer u : BitVec 32) (i : Fin slotSize) (v : BitVec 8) : SwapM Unit := do
  let ptr ← getPtr buffer u
  if ptr = 0 then fault .nullPointer
  else update fun s => s.setMem ptr (Function.update (s.mem ptr) i v)

structure Fresh (s : Swap) (buffer : BitVec 32) : Prop where
  nonnull : buffer ≠ 0
  unused : ∀ u ∈ s.units, (s.unit u).IsRamPtr → (s.unit u).word ≠ buffer

end Swap

inductive SwapOp where
  | alloc (u : BitVec 32)
  | read (u : BitVec 32) (i : Fin slotSize)
  | write (u : BitVec 32) (i : Fin slotSize) (v : BitVec 8)
  | evict (u : BitVec 32)

open Swap

/-- The state after some operations, the last one first. Any unit in memory can be evicted, and a
fresh buffer is there whenever one is asked for. -/
inductive SwapRun : List SwapOp → Swap → Prop where
  | start (unit mem) : SwapRun [] ⟨[], unit, mem, fun _ => none⟩
  | alloc : SwapRun ops s → u ∉ s.units → s.Fresh buffer →
      SwapRun (.alloc u :: ops) (s.allocUnit u buffer)
  | read : SwapRun ops s → u ∈ s.units → s.Fresh buffer → readByte buffer u i s = .ok v s' →
      SwapRun (.read u i :: ops) s'
  | write : SwapRun ops s → u ∈ s.units → s.Fresh buffer → writeByte buffer u i v s = .ok () s' →
      SwapRun (.write u i v :: ops) s'
  | evict : SwapRun ops s → u ∈ s.units → (s.unit u).IsRamPtr → Swap.evict u s = .ok p s' →
      SwapRun (.evict u :: ops) s'

def lastWritten (u : BitVec 32) (i : Fin slotSize) : List SwapOp → Option (BitVec 8)
  | [] => none
  | .write u' i' v :: ops => if u' = u ∧ i' = i then some v else lastWritten u i ops
  | .alloc _ :: ops | .read _ _ :: ops | .evict _ :: ops => lastWritten u i ops

namespace Swap

/-- `GetPtr` yields the bytes last written to the unit, which is then in memory. -/
def Yields (ops : List SwapOp) (s : Swap) (buffer u : BitVec 32) : Prop :=
  ∃ p s', getPtr buffer u s = .ok p s' ∧ p ≠ 0 ∧ (s'.unit u).IsRamPtr ∧
    ∀ i v, lastWritten u i ops = some v → s'.mem p i = v

theorem getPtr_ram {s : Swap} (h : (s.unit u).IsRamPtr) (buffer : BitVec 32) :
    getPtr buffer u s = .ok (s.unit u).word s := by
  rw [getPtr, bind_of_ok (read_apply _ _), if_pos h]
  rfl

/-- The result of `fread` is never the number of bytes: a unit that was swapped out stays so. -/
theorem getPtr_swapped {s : Swap} (h : ¬ (s.unit u).IsRamPtr) (buffer : BitVec 32) :
    ∃ s', getPtr buffer u s = .ok 0 s' := by
  have hsize : 1 ≠ slotSize := by
    unfold slotSize
    decide
  rw [getPtr, bind_of_ok (read_apply _ _), if_neg h, bind_of_ok (read_apply _ _)]
  cases s.file (s.unit u).word with
  | none => exact ⟨s, rfl⟩
  | some file =>
    refine ⟨setMem buffer file (setUnit u { s.unit u with word := buffer } s), ?_⟩
    change (if 1 ≠ slotSize then (pure 0 : SwapM (BitVec 32)) else _) _ = _
    rw [if_pos hsize]
    rfl

theorem not_isRamPtr_cleared (flags word : BitVec 32) :
    ¬ (⟨flags &&& ~~~1, word⟩ : AllocUnit).IsRamPtr := by
  have hbit : ~~~(1 : BitVec 32) &&& 1 = 0 := by decide
  simp only [AllocUnit.IsRamPtr, BitVec.and_assoc, hbit, ne_eq, not_not]
  exact BitVec.and_zero

structure Evicted (u : BitVec 32) (s t : Swap) : Prop where
  units : t.units = s.units
  mem : t.mem = s.mem
  swapped : ¬ (t.unit u).IsRamPtr
  others : ∀ u' ≠ u, t.unit u' = s.unit u'

theorem evict_ok {s : Swap} (hram : (s.unit u).IsRamPtr) (h : evict u s = .ok p t) :
    p = (s.unit u).word ∧ Evicted u s t := by
  rw [evict, bind_of_ok (getPtr_ram hram 0)] at h
  cases h
  refine ⟨rfl, rfl, rfl, ?_, fun u' hne => Function.update_of_ne hne ..⟩
  change ¬ (Function.update s.unit u _ u).IsRamPtr
  rw [Function.update_self]
  exact not_isRamPtr_cleared _ _

theorem evict_ram {s : Swap} (h : (s.unit u).IsRamPtr) :
    ∃ t, evict u s = .ok (s.unit u).word t := by
  rw [evict, bind_of_ok (getPtr_ram h 0)]
  exact ⟨_, rfl⟩

theorem Evicted.of_ram (h : Evicted u s t) (hram : (t.unit u').IsRamPtr) :
    u' ≠ u ∧ t.unit u' = s.unit u' := by
  have hne : u' ≠ u := fun heq => h.swapped (heq ▸ hram)
  exact ⟨hne, h.others u' hne⟩

theorem readByte_ok {s : Swap} (h : readByte buffer u i s = .ok v s') :
    (s.unit u).IsRamPtr ∧ s' = s := by
  by_cases hram : (s.unit u).IsRamPtr
  · rw [readByte, bind_of_ok (getPtr_ram hram buffer)] at h
    split at h
    · cases h
    · cases h
      exact ⟨hram, rfl⟩
  · obtain ⟨s₁, hget⟩ := getPtr_swapped hram buffer
    rw [readByte, bind_of_ok hget, if_pos rfl] at h
    cases h

theorem writeByte_ok {s : Swap} (h : writeByte buffer u i v s = .ok () s') :
    (s.unit u).IsRamPtr ∧
      s' = s.setMem (s.unit u).word (Function.update (s.mem (s.unit u).word) i v) := by
  by_cases hram : (s.unit u).IsRamPtr
  · rw [writeByte, bind_of_ok (getPtr_ram hram buffer)] at h
    split at h
    · cases h
    · cases h
      exact ⟨hram, rfl⟩
  · obtain ⟨s₁, hget⟩ := getPtr_swapped hram buffer
    rw [writeByte, bind_of_ok hget, if_pos rfl] at h
    cases h

/-- What a run keeps: the units in memory are those that were not evicted, each has a buffer of its
own, and the bytes last written are in it. -/
structure Kept (ops : List SwapOp) (s : Swap) : Prop where
  unknown : ∀ u, u ∉ s.units → SwapOp.evict u ∉ ops ∧ ∀ i, lastWritten u i ops = none
  ram : ∀ u ∈ s.units, (s.unit u).IsRamPtr ↔ SwapOp.evict u ∉ ops
  nonnull : ∀ u ∈ s.units, (s.unit u).IsRamPtr → (s.unit u).word ≠ 0
  distinct : ∀ u ∈ s.units, ∀ u' ∈ s.units, (s.unit u).IsRamPtr → (s.unit u').IsRamPtr →
    (s.unit u).word = (s.unit u').word → u = u'
  bytes : ∀ u ∈ s.units, (s.unit u).IsRamPtr → ∀ i v, lastWritten u i ops = some v →
    s.mem (s.unit u).word i = v

theorem Kept.alloc {s : Swap} (h : s.Kept ops) (hu : u ∉ s.units) (hfresh : s.Fresh buffer) :
    (s.allocUnit u buffer).Kept (.alloc u :: ops) := by
  have hother : ∀ u' ∈ s.units, (s.allocUnit u buffer).unit u' = s.unit u' :=
    fun u' hu' => Function.update_of_ne (ne_of_mem_of_not_mem hu' hu) ..
  have hnew : (s.allocUnit u buffer).unit u = ⟨1, buffer⟩ := Function.update_self ..
  have hram : (⟨1, buffer⟩ : AllocUnit).IsRamPtr := show (1 : BitVec 32) &&& 1 ≠ 0 by decide
  have hmem : ∀ u', u' ∈ (s.allocUnit u buffer).units ↔ u' ∈ s.units ∨ u' = u := by
    intro u'
    change u' ∈ s.units ++ [u] ↔ _
    rw [List.mem_append, List.mem_singleton]
  constructor
  · intro u' hu'
    rw [hmem, not_or] at hu'
    obtain ⟨hevict, hlast⟩ := h.unknown u' hu'.1
    exact ⟨by simp [hevict], hlast⟩
  · intro u' hu'
    rcases (hmem u').mp hu' with hold | rfl
    · rw [hother u' hold, h.ram u' hold]
      simp
    · rw [hnew]
      exact iff_of_true hram (by simp [(h.unknown u' hu).1])
  · intro u' hu' hram'
    rcases (hmem u').mp hu' with hold | rfl
    · rw [hother u' hold] at hram' ⊢
      exact h.nonnull u' hold hram'
    · rw [hnew]
      exact hfresh.nonnull
  · intro u₁ hu₁ u₂ hu₂ hram₁ hram₂ heq
    rcases (hmem u₁).mp hu₁ with hold₁ | rfl <;> rcases (hmem u₂).mp hu₂ with hold₂ | rfl
    · rw [hother u₁ hold₁] at hram₁ heq
      rw [hother u₂ hold₂] at hram₂ heq
      exact h.distinct u₁ hold₁ u₂ hold₂ hram₁ hram₂ heq
    · rw [hother u₁ hold₁] at hram₁ heq
      rw [hnew] at heq
      exact absurd heq (hfresh.unused u₁ hold₁ hram₁)
    · rw [hother u₂ hold₂] at hram₂ heq
      rw [hnew] at heq
      exact absurd heq.symm (hfresh.unused u₂ hold₂ hram₂)
    · rfl
  · intro u' hu' hram' i v hlast
    rcases (hmem u').mp hu' with hold | rfl
    · rw [hother u' hold] at hram' ⊢
      exact h.bytes u' hold hram' i v hlast
    · rw [lastWritten, (h.unknown u' hu).2 i] at hlast
      cases hlast

theorem Kept.read {s : Swap} (h : s.Kept ops) (u : BitVec 32) (i : Fin slotSize) :
    s.Kept (.read u i :: ops) := by
  refine ⟨?_, ?_, h.nonnull, h.distinct, h.bytes⟩
  · intro u' hu'
    obtain ⟨hevict, hlast⟩ := h.unknown u' hu'
    exact ⟨by simp [hevict], hlast⟩
  · intro u' hu'
    rw [h.ram u' hu']
    simp

theorem Kept.write {s : Swap} (h : s.Kept ops) (hu : u ∈ s.units) (hram : (s.unit u).IsRamPtr)
    (i : Fin slotSize) (v : BitVec 8) :
    (s.setMem (s.unit u).word (Function.update (s.mem (s.unit u).word) i v)).Kept
      (.write u i v :: ops) := by
  refine ⟨?_, ?_, h.nonnull, h.distinct, ?_⟩
  · intro u' hu'
    obtain ⟨hevict, hlast⟩ := h.unknown u' hu'
    refine ⟨by simp [hevict], fun j => ?_⟩
    rw [lastWritten, if_neg fun hsame : u = u' ∧ i = j => hu' (hsame.1 ▸ hu), hlast]
  · intro u' hu'
    change (s.unit u').IsRamPtr ↔ _
    rw [h.ram u' hu']
    simp
  · intro u' hu' hram' j w hlast
    change (s.unit u').IsRamPtr at hram'
    change Function.update s.mem (s.unit u).word _ (s.unit u').word j = w
    by_cases heq : u' = u
    · subst heq
      rw [Function.update_self]
      rw [lastWritten] at hlast
      split at hlast
      · rename_i hsame
        cases hlast
        rw [← hsame.2, Function.update_self]
      · rename_i hdiff
        rw [Function.update_of_ne fun hj => hdiff ⟨rfl, hj.symm⟩]
        exact h.bytes u' hu' hram' j w hlast
    · rw [Function.update_of_ne fun hword => heq (h.distinct u' hu' u hu hram' hram hword)]
      rw [lastWritten, if_neg fun hsame => heq hsame.1.symm] at hlast
      exact h.bytes u' hu' hram' j w hlast

theorem Kept.evict (h : Kept ops s) (hu : u ∈ s.units) (he : Evicted u s t) :
    Kept (.evict u :: ops) t := by
  constructor
  · intro u' hu'
    rw [he.units] at hu'
    obtain ⟨hevict, hlast⟩ := h.unknown u' hu'
    refine ⟨?_, hlast⟩
    simp only [List.mem_cons, SwapOp.evict.injEq, not_or]
    exact ⟨fun heq => hu' (heq ▸ hu), hevict⟩
  · intro u' hu'
    rw [he.units] at hu'
    by_cases heq : u' = u
    · rw [heq]
      exact iff_of_false he.swapped (by simp)
    · rw [he.others u' heq, h.ram u' hu']
      simp [heq]
  · intro u' hu' hram
    obtain ⟨-, hunit⟩ := he.of_ram hram
    rw [he.units] at hu'
    rw [hunit] at hram ⊢
    exact h.nonnull u' hu' hram
  · intro u₁ hu₁ u₂ hu₂ hram₁ hram₂
    obtain ⟨-, hunit₁⟩ := he.of_ram hram₁
    obtain ⟨-, hunit₂⟩ := he.of_ram hram₂
    rw [he.units] at hu₁ hu₂
    rw [hunit₁] at hram₁ ⊢
    rw [hunit₂] at hram₂ ⊢
    exact h.distinct u₁ hu₁ u₂ hu₂ hram₁ hram₂
  · intro u' hu' hram
    obtain ⟨-, hunit⟩ := he.of_ram hram
    rw [he.units] at hu'
    rw [he.mem]
    rw [hunit] at hram ⊢
    exact h.bytes u' hu' hram

theorem kept_of_run (h : SwapRun ops s) : s.Kept ops := by
  induction h with
  | start unit mem => exact ⟨fun u _ => ⟨by simp, fun i => rfl⟩, by simp, by simp, by simp, by simp⟩
  | alloc _ hu hfresh ih => exact ih.alloc hu hfresh
  | read _ _ _ hread ih =>
    obtain ⟨-, rfl⟩ := readByte_ok hread
    exact ih.read ..
  | write _ hu _ hwrite ih =>
    obtain ⟨hram, rfl⟩ := writeByte_ok hwrite
    exact ih.write hu hram ..
  | evict _ hu hram hevict ih =>
    exact ih.evict hu (evict_ok hram hevict).2

theorem leastUsed_eq_some {s : Swap} (h : s.leastUsed rest minPtr minAcc = some u) :
    minPtr = some u ∨ u ∈ rest ∧ (s.unit u).IsRamPtr := by
  induction rest generalizing minPtr minAcc with
  | nil => exact .inl h
  | cons u' rest ih =>
    rw [leastUsed] at h
    split at h
    · rename_i hram
      rcases ih h with hsome | ⟨hmem, hu⟩
      · cases hsome
        exact .inr ⟨List.mem_cons_self, hram.1⟩
      · exact .inr ⟨List.mem_cons_of_mem _ hmem, hu⟩
    · rcases ih h with hsome | ⟨hmem, hu⟩
      · exact .inl hsome
      · exact .inr ⟨List.mem_cons_of_mem _ hmem, hu⟩

theorem allocPtrFromExistent_run (hrun : SwapRun ops s) (h : allocPtrFromExistent s = .ok p s') :
    ∃ u ∈ s.units, SwapRun (.evict u :: ops) s' ∧ s'.Fresh p := by
  have hkept := kept_of_run hrun
  rw [allocPtrFromExistent, bind_of_ok (read_apply _ _)] at h
  cases hleast : s.leastUsed s.units.tail none 0xFFFFFFFF with
  | none =>
    rw [hleast] at h
    cases h
  | some u =>
    rw [hleast] at h
    rcases leastUsed_eq_some hleast with hnone | ⟨hmem, hram⟩
    · cases hnone
    · have hu := List.mem_of_mem_tail hmem
      obtain ⟨rfl, he⟩ := evict_ok hram h
      refine ⟨u, hu, .evict hrun hu hram h, hkept.nonnull u hu hram, ?_⟩
      intro u' hu' hram' heq
      obtain ⟨hne, hunit⟩ := he.of_ram hram'
      rw [he.units] at hu'
      rw [hunit] at hram' heq
      exact hne (hkept.distinct u' hu' u hu hram' hram heq)

/-- Access to a unit is right exactly as long as the unit has not been swapped out. -/
theorem swap_transparent_iff (hrun : SwapRun ops s) (hu : u ∈ s.units) (buffer : BitVec 32) :
    Yields ops s buffer u ↔ SwapOp.evict u ∉ ops := by
  have hkept := kept_of_run hrun
  rw [← hkept.ram u hu]
  constructor
  · rintro ⟨p, s', hget, hnonnull, -⟩
    by_contra hswapped
    obtain ⟨s₁, hnull⟩ := getPtr_swapped hswapped buffer
    rw [hnull] at hget
    cases hget
    exact hnonnull rfl
  · intro hram
    exact ⟨_, s, getPtr_ram hram buffer, hkept.nonnull u hu hram, hram, hkept.bytes u hu hram⟩

section TwoUnits

def noUnits : Swap := ⟨[], fun _ => ⟨0, 0⟩, fun _ _ => 0, fun _ => none⟩

def oneUnit : Swap := noUnits.allocUnit 0x100 0x1000

def twoUnits : Swap := oneUnit.allocUnit 0x200 0x2000

def twoUnitsWritten : Swap :=
  twoUnits.setMem 0x2000 (Function.update (fun _ => 0) ⟨0, slotSize_pos⟩ 7)

def twoUnitsOps : List SwapOp := [.write 0x200 ⟨0, slotSize_pos⟩ 7, .alloc 0x200, .alloc 0x100]

theorem twoUnits_run : SwapRun twoUnitsOps twoUnitsWritten := by
  have hnone : noUnits.Fresh 0x1000 := ⟨by decide, List.forall_mem_nil _⟩
  have hone : SwapRun [.alloc 0x100] oneUnit := .alloc (.start _ _) (by decide) hnone
  have hfresh : oneUnit.Fresh 0x2000 := ⟨by decide, List.forall_mem_singleton.mpr (by decide)⟩
  have htwo : SwapRun [.alloc 0x200, .alloc 0x100] twoUnits := .alloc hone (by decide) hfresh
  have hfresh' : twoUnits.Fresh 0x3000 :=
    ⟨by decide, List.forall_mem_cons.mpr ⟨by decide, List.forall_mem_singleton.mpr (by decide)⟩⟩
  exact .write htwo (by decide) hfresh' rfl

theorem swap_transparent_written : SwapRun twoUnitsOps twoUnitsWritten ∧
    0x200 ∈ twoUnitsWritten.units ∧ Yields twoUnitsOps twoUnitsWritten 0x3000 0x200 :=
  ⟨twoUnits_run, by decide, (swap_transparent_iff twoUnits_run (by decide) 0x3000).mpr
    (by simp [twoUnitsOps])⟩

/-- The second unit is evicted, and the next access to it gets the null pointer. -/
theorem swap_transparent_evicted : ∃ s, SwapRun (.evict 0x200 :: twoUnitsOps) s ∧
    0x200 ∈ s.units ∧ (∃ s', getPtr 0x3000 0x200 s = .ok 0 s') ∧
    ¬ Yields (.evict 0x200 :: twoUnitsOps) s 0x3000 0x200 := by
  have hram : (twoUnitsWritten.unit 0x200).IsRamPtr := by decide
  obtain ⟨s, hevict⟩ := evict_ram hram
  obtain ⟨-, he⟩ := evict_ok hram hevict
  obtain ⟨s', hnull⟩ := getPtr_swapped he.swapped 0x3000
  refine ⟨s, .evict twoUnits_run (by decide) hram hevict, ?_, ⟨s', hnull⟩, ?_⟩
  · rw [he.units]
    decide
  · rintro ⟨p, t, hget, hnonnull, -⟩
    rw [hnull] at hget
    cases hget
    exact hnonnull rfl

end TwoUnits

end Swap

end GvmCore
