import GvmCore.GasCharge
import GvmCore.LibraryMoves

namespace GvmCore
open Exec VBignum
set_option autoImplicit true

def divCells (x y : VBig) : Nat :=
  if bitMsb y > bitMsb x ∨ bitMsb y < 0 then 0 else 2 * (x.length + 1)

/-- Quotient and remainder; `rem` is what the remainder held before. -/
def divPair (x y rem : VBig) : VBig × VBig :=
  if bitMsb y > bitMsb x then (setZero x, setBignum rem x)
  else if bitMsb y < 0 then (setZero x, rem)
  else (setBignum x (divLong x y).1, setBignum rem (divLong x y).2)

/-- What a division leaves in the heap cells it has given back. -/
def divHeap (x y : VBig) (heap : Nat → VBigDig) (pos : Nat) : Nat → VBigDig :=
  if bitMsb y > bitMsb x ∨ bitMsb y < 0 then heap
  else
    let n := x.length
    let heap := Function.update heap pos (BitVec.ofNat 16 n)
    let heap := Function.update heap (pos + (n + 1)) (BitVec.ofNat 16 n)
    let heap := storeDigits heap (pos + (n + 1)) (divLong x y).2
    storeDigits heap pos (divLong x y).1

theorem Engine.HeapServes.zero (E : Engine w c) (pos : Nat) : E.HeapServes pos 0 := .inl rfl

theorem Engine.heapServes_add (E : Engine w c) (pos n m : Nat) :
    E.HeapServes pos (n + m) ↔ E.HeapServes pos n ∧ E.HeapServes (pos + n) m := by
  unfold Engine.HeapServes
  cases E.heapCells with
  | none => simp
  | some cells =>
    simp only [Option.mem_def, Option.some.injEq, forall_eq']
    omega

theorem bignumDiv_eq_ok {E : Engine w c} {s t : Core w c} :
    bignumDiv E x y rem s = .ok r t ↔ E.HeapServes s.heapPos (divCells x y) ∧
      divPair x y rem = r ∧ { s with heap := divHeap x y s.heap s.heapPos } = t := by
  unfold bignumDiv divCells divPair divHeap
  by_cases h1 : bitMsb y > bitMsb x
  · simp [h1, Engine.HeapServes.zero]
  · by_cases h2 : bitMsb y < 0
    · simp [h1, h2, Engine.HeapServes.zero]
    · have hserves := E.heapServes_add s.heapPos (x.length + 1) (x.length + 1)
      simp only [h1, h2, or_self, if_false]
      rw [Nat.two_mul, hserves]
      simp only [bind_eq_ok, bignumAlloc_eq_ok, bignumStore, bignumFree, update_apply, pure_apply,
        Outcome.ok.injEq]
      constructor
      · rintro ⟨_, _, ⟨hq, rfl, rfl⟩, _, _, ⟨hw, rfl, rfl⟩, _, _, ⟨-, rfl⟩, _, _, ⟨-, rfl⟩, _, _,
          ⟨-, rfl⟩, _, _, ⟨-, rfl⟩, rfl, rfl⟩
        exact ⟨⟨hq, hw⟩, rfl, by simp⟩
      · rintro ⟨⟨hq, hw⟩, rfl, rfl⟩
        exact ⟨_, _, ⟨hq, rfl, rfl⟩, _, _, ⟨hw, rfl, rfl⟩, (), _, ⟨trivial, rfl⟩, (), _,
          ⟨trivial, rfl⟩, (), _, ⟨trivial, rfl⟩, (), _, ⟨trivial, rfl⟩, rfl, by simp⟩

theorem returnsOr_bignumDiv (E : Engine w c) (x y rem : VBig) :
    ReturnsOr E.Faults (bignumDiv E x y rem) :=
  .ite (.pure _) (.ite (.pure _)
    (.bind (returnsOr_bignumAlloc E _) fun _ => .bind (returnsOr_bignumAlloc E _) fun _ =>
      .bind (.update _) fun _ => .bind (.update _) fun _ => .bind (.update _) fun _ =>
      .bind (.update _) fun _ => .pure _))

def Core.stale (s : Core w c) (n : Nat) : VBig := loadDigits s.heap s.heapPos n

def modCells (x y : VBig) : Nat := max x.length y.length + 1 + divCells x y

def modDigits (x y stale : VBig) : VBig := setBignum (divPair x y stale).1 (divPair x y stale).2

def modHeap (x y : VBig) (heap : Nat → VBigDig) (pos : Nat) : Nat → VBigDig :=
  let n := max x.length y.length
  let heap' := Function.update heap pos (BitVec.ofNat 16 n)
  storeDigits (divHeap x y heap' (pos + (n + 1))) pos (divPair x y (loadDigits heap pos n)).2

theorem loadDigits_update (heap : Nat → VBigDig) (pos n : Nat) (v : VBigDig) :
    loadDigits (Function.update heap pos v) pos n = loadDigits heap pos n := by
  unfold loadDigits
  refine List.map_congr_left fun i _ => ?_
  rw [Function.update_of_ne (by omega)]

theorem bignumMod_eq_ok {E : Engine w c} {s t : Core w c} :
    bignumMod E x y s = .ok v t ↔ E.HeapServes s.heapPos (modCells x y) ∧
      modDigits x y (s.stale (max x.length y.length)) = v ∧
      { s with heap := modHeap x y s.heap s.heapPos } = t := by
  have hserves : E.HeapServes s.heapPos (modCells x y) ↔
      E.HeapServes s.heapPos (max x.length y.length + 1) ∧
      E.HeapServes (s.heapPos + (max x.length y.length + 1)) (divCells x y) :=
    E.heapServes_add _ _ _
  rw [hserves]
  simp only [bignumMod, bind_eq_ok, bignumAlloc_eq_ok, read_apply, bignumDiv_eq_ok, bignumStore,
    bignumFree, update_apply, pure_apply, Outcome.ok.injEq]
  constructor
  · rintro ⟨_, _, ⟨hm, rfl, rfl⟩, _, _, ⟨rfl, rfl⟩, _, _, ⟨hd, rfl, rfl⟩, _, _, ⟨-, rfl⟩, _, _,
      ⟨-, rfl⟩, rfl, rfl⟩
    rw [loadDigits_update]
    exact ⟨⟨hm, hd⟩, rfl, by simp [modHeap]⟩
  · rintro ⟨⟨hm, hd⟩, rfl, rfl⟩
    refine ⟨_, _, ⟨hm, rfl, rfl⟩, _, _, ⟨rfl, rfl⟩, _, _, ⟨hd, rfl, rfl⟩, (), _, ⟨trivial, rfl⟩, (),
      _, ⟨trivial, rfl⟩, ?_⟩
    rw [loadDigits_update]
    exact ⟨rfl, by simp [modHeap]⟩

theorem returnsOr_bignumMod (E : Engine w c) (x y : VBig) : ReturnsOr E.Faults (bignumMod E x y) :=
  .bind (returnsOr_bignumAlloc E _) fun _ => .bind (.read _) fun _ =>
    .bind (returnsOr_bignumDiv E _ _ _) fun _ => .bind (.update _) fun _ =>
    .bind (.update _) fun _ =>
    .pure _

end GvmCore
