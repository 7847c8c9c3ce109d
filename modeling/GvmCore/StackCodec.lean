import GvmCore.Report
import GvmCore.StackNumbers

namespace GvmCore
open Exec Digits
set_option autoImplicit true

theorem toNat_shiftLeft_lt {b : Word} (hb : b.toNat < 2 ^ k) (i : Nat) :
    (b <<< i).toNat < 2 ^ (k + i) := by
  rw [BitVec.toNat_shiftLeft, Nat.shiftLeft_eq, Nat.pow_add]
  exact (Nat.mod_le _ _).trans_lt (Nat.mul_lt_mul_of_pos_right hb (Nat.two_pow_pos i))

theorem toNat_singleBlock_lt_of (h : ∀ i < 8, (byteAt v (7 - i) <<< i).toNat < 2 ^ k) :
    (singleBlock v).toNat < 2 ^ k := by
  have hfold : ∀ l : List Nat, (∀ i ∈ l, i < 8) → ∀ a : Word, a.toNat < 2 ^ k →
      (l.foldl (fun dataVal i => dataVal ||| byteAt v (7 - i) <<< i) a).toNat < 2 ^ k := by
    intro l
    induction l with
    | nil => exact fun _ a ha => ha
    | cons i l ih =>
      intro hl a ha
      apply ih (fun j hj => hl j (List.mem_cons_of_mem i hj))
      rw [BitVec.toNat_or]
      exact Nat.or_lt_two_pow ha (h i (hl i List.mem_cons_self))
  exact hfold _ (fun i hi => List.mem_range.mp hi) 0 (Nat.two_pow_pos k)

theorem toNat_singleBlock_lt (v : Word) : (singleBlock v).toNat < 2 ^ 15 := by
  apply toNat_singleBlock_lt_of
  intro i hi
  have hb : (byteAt v (7 - i)).toNat < 2 ^ 8 := toNat_byteAt_lt v _
  exact (toNat_shiftLeft_lt hb i).trans_le (Nat.pow_le_pow_right (by decide) (by omega))

theorem toNat_memAddr_lt (s : Core w c) (takesAddr : Bool) (z : Int) :
    (Insn.memAddr s takesAddr z).toNat < 2 ^ 15 := by
  cases takesAddr with
  | false => exact Nat.two_pow_pos 15
  | true => exact toNat_singleBlock_lt _

theorem toNat_address_setWidth (s : Core w c) (z : Int) :
    ((s.address z).setWidth 32).toNat = (s.address z).toNat := by
  have hlt : (s.address z).toNat < 2 ^ 15 := toNat_singleBlock_lt _
  rw [BitVec.toNat_setWidth]
  omega

theorem singleBlock_swapBytes (v : Word) : singleBlock (swapBytes v) =
    (List.range 8).foldl (fun dataVal i => dataVal ||| byteAt v i <<< i) 0 := by
  apply List.foldl_ext
  intro a i hi
  have hi : i < 8 := List.mem_range.mp hi
  have hindex : 7 - (7 - i) = i := by omega
  rw [byteAt_swapBytes v (by omega), hindex]

theorem byteAt_eq_zero {v : Word} (h : v.toNat < 256 ^ i) : byteAt v i = 0 := by
  apply BitVec.eq_of_toNat_eq
  rw [toNat_byteAt, Nat.div_eq_of_lt h]
  rfl

theorem toNat_singleBlock_lt_of_lt {v : Word} (h7 : 7 ≤ k) (h8 : k ≤ 8)
    (h : v.toNat < 256 * 2 ^ k) :
    (singleBlock (swapBytes v)).toNat < 2 ^ (k + 1) := by
  have hk : 2 ^ k ≤ 2 ^ 8 := Nat.pow_le_pow_right (by decide) h8
  apply toNat_singleBlock_lt_of
  intro i hi
  have hindex : 7 - (7 - i) = i := by omega
  rw [byteAt_swapBytes v (by omega), hindex]
  match i with
  | 0 =>
    have hb := toNat_shiftLeft_lt (k := 8) (toNat_byteAt_lt v 0) 0
    exact hb.trans_le (Nat.pow_le_pow_right (by decide) (by omega))
  | 1 =>
    have hb : (byteAt v 1).toNat < 2 ^ k := by
      rw [toNat_byteAt]
      omega
    exact toNat_shiftLeft_lt hb 1
  | i + 2 =>
    have hle : 256 ^ 2 ≤ 256 ^ (i + 2) := Nat.pow_le_pow_right (by decide) (by omega)
    rw [byteAt_eq_zero (by omega)]
    simp

/-- Only a one-byte number survives the decoding. -/
theorem singleBlock_swapBytes_iff (v : Word) : singleBlock (swapBytes v) = v ↔ v.toNat < 256 := by
  constructor
  · intro h
    have h15 := toNat_singleBlock_lt (swapBytes v)
    rw [h] at h15
    have h8 := toNat_singleBlock_lt_of_lt (k := 7) le_rfl (by decide) h15
    rwa [h] at h8
  · intro h
    have hbyte : ∀ i, byteAt v (i + 1) = 0 := fun i =>
      byteAt_eq_zero (h.trans_le (Nat.le_self_pow (by omega) 256))
    have h0 : byteAt v 0 = v := by
      apply BitVec.eq_of_toNat_eq
      rw [toNat_byteAt, Nat.pow_zero, Nat.div_one, Nat.mod_eq_of_lt h]
    rw [singleBlock_swapBytes]
    simp [List.range, List.range.loop, h0, hbyte]

theorem toNat_singleBlock_succ_ne (v : Word) : (singleBlock (swapBytes v)).toNat + 1 ≠ v.toNat := by
  intro h
  have h15 := toNat_singleBlock_lt (swapBytes v)
  have h9 := toNat_singleBlock_lt_of_lt (k := 8) (v := v) (by decide) le_rfl (by omega)
  have h8 := toNat_singleBlock_lt_of_lt (k := 7) (v := v) le_rfl (by decide) (by omega)
  rcases Nat.lt_or_ge v.toNat 256 with hlt | hge
  · rw [(singleBlock_swapBytes_iff v).mpr hlt] at h
    omega
  · obtain rfl : v = 256 := BitVec.eq_of_toNat_eq (show v.toNat = 256 by omega)
    revert h
    decide

theorem Core.printOffs_eq {s : Core w c} (h : s.number z 0 < 2 ^ 64) :
    s.printOffs z = s.number z 0 := by
  have hlow := toNat_swapBytes_low (r := s.element z 0) h
  rw [Core.element_zero] at hlow
  exact hlow

/-- The two stack routines are inverse to each other, and the decoding agrees with the
printer's, for one-byte numbers only. -/
theorem codec_iff (E : Engine w c) :
    (∀ (s : Core w c) (z : Int) (v : Word), SpAt s z → InStack (z + 1) → InStack (z + 4) →
      ((∃ t u, pushSingleBlockToStack v s = .ok () t ∧ getSingleBlockFromStack t = .ok v u ∧
        u.sp = s.sp) ↔ v.toNat < 256)) ∧
    (∀ (s : Core w c) (z : Int), SpAt s z → InStack (z - 3) → InStack z → s.number z 0 < 2 ^ 64 →
      ((∃ v u, getSingleBlockFromStack s = .ok v u ∧ v.toNat = s.printOffs z) ↔
        s.number z 0 < 256)) := by
  constructor
  · intro s z v hs h1 h4
    have hlow := h1.1
    have hhigh := h4.2
    have ht : SpAt (s.pushed z (lowWord (swapBytes v))) (z + 4) := ⟨rfl, by omega, by omega⟩
    have haddr :
        (s.pushed z (lowWord (swapBytes v))).address (z + 4) = singleBlock (swapBytes v) := by
      have hk : InStack (z + 1 + ((0 : Fin 4) : Nat)) := by simpa using h1
      have hindex : z + 4 - 3 = z + 1 + ((0 : Fin 4) : Nat) := by simp; omega
      rw [Core.address, hindex]
      exact congrArg singleBlock (s.word_putReg (lowWord (swapBytes v)) 0 hk)
    rw [← singleBlock_swapBytes_iff, ← haddr]
    constructor
    · rintro ⟨t, u, hpush, hget, -⟩
      obtain ⟨-, -, rfl⟩ := (pushBlock_eq_ok E hs).mp hpush
      exact ((getSingleBlock_eq_ok E ht).mp hget).2.1
    · intro hv
      refine ⟨_, _, (pushBlock_eq_ok E hs).mpr ⟨h1, h4, rfl⟩, (getSingleBlock_eq_ok E ht).mpr
        ⟨⟨by omega, by omega⟩, hv, rfl⟩, ?_⟩
      rw [hs.sp]
      exact congrArg (BitVec.ofInt w) (by omega)
  · intro s z hs h3 h0 hlt
    have hprint : s.printOffs z = (swapBytes (s.word (z - 3))).toNat := rfl
    have hiff := singleBlock_swapBytes_iff (swapBytes (s.word (z - 3)))
    rw [swapBytes_swapBytes, ← hprint, Core.printOffs_eq hlt] at hiff
    rw [← hiff]
    constructor
    · rintro ⟨v, u, hget, hv⟩
      obtain ⟨-, rfl, -⟩ := (getSingleBlock_eq_ok E hs).mp hget
      exact BitVec.eq_of_toNat_eq hv
    · intro hv
      exact ⟨_, _, (getSingleBlock_eq_ok E hs).mpr ⟨h3, rfl, rfl⟩, congrArg BitVec.toNat hv⟩

def emptyStack : Core 32 8 := { Core.zero with sp := 0 - 1 }

theorem codec_five : ∃ t u, pushSingleBlockToStack 5 emptyStack = .ok () t ∧
    getSingleBlockFromStack t = .ok 5 u ∧ u.sp = emptyStack.sp :=
  ((codec_iff (cemu .zero)).1 emptyStack (-1) 5 ⟨rfl, by decide, by decide⟩
    (by decide) (by decide)).mpr (by decide)

/-- 256 comes back as 2. -/
theorem codec_256 : ∃ t u, pushSingleBlockToStack 256 emptyStack = .ok () t ∧
    getSingleBlockFromStack t = .ok 2 u := by
  have hpush : pushSingleBlockToStack 256 emptyStack =
      .ok () (emptyStack.pushed (-1) (lowWord (swapBytes 256))) :=
    (pushBlock_eq_ok (cemu .zero) ⟨rfl, by decide, by decide⟩).mpr ⟨by decide, by decide, rfl⟩
  have haddr : (emptyStack.pushed (-1) (lowWord (swapBytes 256))).address 3 = 2 := by decide +kernel
  exact ⟨_, _, hpush, (getSingleBlock_eq_ok (cemu .zero) ⟨rfl, by decide, by decide⟩).mpr
    ⟨by decide, haddr, rfl⟩⟩

end GvmCore
