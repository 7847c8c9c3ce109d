import GvmCore.ByteMemory
import GvmCore.JumpLaw
import GvmCore.OperandLaws

namespace GvmCore
open Exec Digits Memory Signed
set_option autoImplicit true

/-- The big-endian number of 32 bytes. -/
def digestValue (op : Fin 32 → BitVec 8) : Nat := value (List.ofFn op).reverse

theorem byte_digestValue (op : Fin 32 → BitVec 8) (i : Fin 32) :
    BitVec.ofNat 8 (digestValue op / 256 ^ (31 - (i : Nat))) = op i := by
  have hi := i.isLt
  have hpow : 256 ^ (31 - (i : Nat)) = 2 ^ (8 * (31 - (i : Nat))) := (Nat.pow_mul 2 8 _).symm
  have hget : (List.ofFn op).reverse.getD (31 - i) 0 = op i := by
    rw [List.getD_eq_getElem?_getD, List.getElem?_reverse (by rw [List.length_ofFn]; omega),
      List.length_ofFn, show 32 - 1 - (31 - (i : Nat)) = i by omega, List.getElem?_ofFn, dif_pos hi]
    rfl
  apply BitVec.eq_of_toNat_eq
  rw [BitVec.toNat_ofNat, hpow, digestValue, value_digit, hget]

theorem regValue_keccakBlocks (op : Fin 32 → BitVec 8) :
    regValue (fun i => keccakBlocks op i.rev) = digestValue op := by
  let m : Memory := fun i => op (Fin.ofNat 32 i)
  have hread : m.read 0 32 = List.ofFn op := by
    apply List.ext_getElem (by rw [length_read, List.length_ofFn])
    intro i h _
    rw [length_read] at h
    simp only [Memory.read, m, List.getElem_map, List.getElem_range, Nat.zero_add,
      List.getElem_ofFn]
    exact congrArg op (Fin.ext (Nat.mod_eq_of_lt h))
  rw [digestValue, ← hread]
  apply regValue_read
  intro k
  have hk : ((k.rev : Fin 4) : Nat) = 3 - (k : Nat) := by
    rw [Fin.val_rev]
    omega
  unfold keccakBlocks
  rw [wordOfBytes_eq_foldl (fun i => op (Fin.ofNat 32 (8 * (k.rev : Nat) + i))) le_rfl, hk]
  simp only [Memory.read, m, Nat.zero_add]

namespace Core

/-- The digest of the cells the two operands of SHA3 describe. -/
def digest (E : Engine w c) (s : Core w c) (z : Int) : Fin 32 → BitVec 8 :=
  E.keccak (s.bytes (Insn.hashOffs s z) (Insn.hashSize s z))

/-- The digest takes the place of the operands, and MSTORE writes its bytes in order. -/
structure Hashed (E : Engine w c) (s t : Core w c) (z : Int) : Prop where
  yields : s.Yields t z 2 (digestValue (s.digest E z))
  stored : ∀ addr : Word, addr.toNat + 32 ≤ 1024 → ∃ t', mStoreInst addr t = .ok () t' ∧
    ∀ i : Fin 32, t'.cell (addr.toNat + i) = (s.digest E z i).setWidth c

theorem Yields.stored {E : Engine w c} {s t : Core w c} (h : s.Yields t z n (digestValue op))
    (hlow : 4 * (n : Int) ≤ z + 1) (hn : 0 < n) (hhigh : z < 2048) {addr : Word}
    (ha : addr.toNat + 32 ≤ 1024) : ∃ t', mStoreInst addr t = .ok () t' ∧
      ∀ i : Fin 32, t'.cell (addr.toNat + i) = (op i).setWidth c := by
  have hreg : regValue (t.reg (z - 4 * n + 4 - 3)) = digestValue op := by
    rw [← h.top, number, element]
    congr 2
    omega
  refine ⟨_, (mStoreInst_eq_ok E h.sp).mpr ⟨?_, ?_, ha, rfl⟩, ?_⟩
  · exact ⟨by omega, by omega⟩
  · exact ⟨by omega, by omega⟩
  intro i
  have hi := i.isLt
  have hin : addr.toNat ≤ addr.toNat + i ∧ addr.toNat + i < addr.toNat + 32 := by omega
  rw [grown_eq]
  change ((t.withSp _).storeReg _ _).cell _ = _
  rw [cell_storeReg _ _ _ (by omega), if_pos hin, hreg, Nat.add_sub_cancel_left, byte_digestValue]

end Core

section Sha3

variable {E : Engine w c} {s : Core w c}

theorem bytes_congr {s t : Core w c} (h : t.dataBus = s.dataBus) (offs size : Nat) :
    t.bytes offs size = s.bytes offs size := by
  unfold Core.bytes Core.cell
  rw [h]

theorem hashed_effect {u : Core w c} (hw : ∀ i, u.word i = s.word i) (hd : u.dataBus = s.dataBus)
    (hlow : 7 ≤ z) (hhigh : z < 2048) : s.Hashed E (Insn.sha3.effect E u z) z := by
  have hyields : s.Yields (Insn.sha3.effect E u z) z 2 (digestValue (s.digest E z)) := by
    have hz : z - 4 * ((2 : Nat) : Int) = z - 8 := by omega
    have h := Core.yields_pushed_iff (r := hashReg E u (Insn.hashOffs u z) (Insn.hashSize u z))
      (v := digestValue (s.digest E z)) (n := 2) (z := z) (fun i _ => hw i)
      ⟨by omega, by omega⟩ ⟨by omega, by omega⟩
    rw [hz] at h
    have hoffs : Insn.hashOffs u z = Insn.hashOffs s z := by
      rw [Insn.hashOffs, Insn.address_congr (fun i _ => hw i) le_rfl, Insn.hashOffs]
    have hsize : Insn.hashSize u z = Insn.hashSize s z := by
      rw [Insn.hashSize, Insn.address_congr (fun i _ => hw i) le_rfl, Insn.hashSize]
    apply h.mpr
    rw [hoffs, hsize]
    refine (regValue_keccakBlocks _).trans ?_
    rw [bytes_congr hd]
    rfl
  exact ⟨hyields, fun addr ha => hyields.stored (E := E) (by omega) (by omega) hhigh ha⟩

/-- SHA3, as the function and as the instruction, is done for messages of at most 255 bytes. -/
theorem sha3_iff (hsp : SpAt s z) (hlow : 7 ≤ z) (hhigh : z < 2048)
    (hrange : Insn.hashOffs s z + Insn.hashSize s z ≤ 1024) :
    ((∃ t, keccakAlgStub E s = .ok () t ∧ s.Hashed E t z) ↔ Insn.hashSize s z ≤ 255) ∧
    (30 ≤ s.gas → E.HeapServes s.heapPos 65 →
      ((∃ t, mainDecode E 0x20 s = .ok .none t ∧ s.Hashed E t z) ↔ Insn.hashSize s z ≤ 255)) := by
  have hfits : Insn.sha3.Fits s z ↔ Insn.hashSize s z ≤ 255 := by
    constructor
    · rintro ⟨-, -, -, h⟩
      exact h
    · intro h
      exact ⟨⟨by omega, by omega⟩, ⟨by omega, by omega⟩, fun i hi => by omega, h⟩
  constructor
  · rw [← hfits]
    constructor
    · rintro ⟨t, ht, -⟩
      exact ((keccakAlgStub_eq_ok E hsp).mp ht).1
    · intro h
      exact ⟨_, (keccakAlgStub_eq_ok E hsp).mpr ⟨h, rfl⟩,
        hashed_effect (fun _ => rfl) rfl hlow hhigh⟩
  · intro hgas hheap
    have hcovered : Insn.sha3.Covered s := by
      rintro v ⟨⟩
      exact hgas
    have hexec : ∀ t, Insn.sha3.exec E s = .ok .none t ↔ _ :=
      fun t => Insn.exec_eq_ok_of_covered trivial hsp hcovered nofun
    rw [mainDecode_of_listed E s (I := .sha3) (by decide) (by decide), ← hfits]
    constructor
    · rintro ⟨t, ht, -⟩
      obtain ⟨-, -, h, -, -⟩ := (hexec t).mp ht
      exact h
    · intro h
      refine ⟨_, (hexec _).mpr ⟨trivial, hheap, h, rfl, rfl⟩, ?_⟩
      apply hashed_effect (Insn.sha3.paid_word s z) _ hlow hhigh
      rw [Insn.paid_keeps]

theorem hashOffs_eq (s : Core w c) (z : Int) : Insn.hashOffs s z =
    (singleBlock (swapBytes (BitVec.ofNat 64 (s.number z 0)))).toNat := by
  obtain ⟨v, haddr, hv⟩ := address_of_number s z
  have hvalue : v = BitVec.ofNat 64 (s.number z 0) := by
    apply BitVec.eq_of_toNat_eq
    rw [BitVec.toNat_ofNat, hv]
  rw [Insn.hashOffs, toNat_address_setWidth, haddr, hvalue]

theorem hashSize_eq (s : Core w c) (z : Int) : Insn.hashSize s z =
    (singleBlock (swapBytes (BitVec.ofNat 64 (s.number z 1)))).toNat := by
  have hnumber : s.number z 1 = s.number (z - 4) 0 := by
    simp only [Core.number, Core.element, Nat.cast_one, Nat.cast_zero, mul_one, mul_zero, sub_zero]
  rw [hnumber]
  exact hashOffs_eq s (z - 4)

end Sha3

theorem sha3_four_bytes : ∃ t, keccakAlgStub (cemu .zero) (stackOf [0, 4]) = .ok () t ∧
    (stackOf [0, 4]).Hashed (cemu .zero) t 7 := by
  have h0 : (stackOf [0, 4]).number 7 0 = 0 := number_stackOf (l := [0, 4]) (by decide) (by decide)
  have h1 : (stackOf [0, 4]).number 7 1 = 4 := number_stackOf (l := [0, 4]) (by decide) (by decide)
  have hoffs : Insn.hashOffs (stackOf [0, 4]) 7 = 0 := by
    rw [hashOffs_eq, h0]
    decide
  have hsize : Insn.hashSize (stackOf [0, 4]) 7 = 4 := by
    rw [hashSize_eq, h1]
    decide
  have hsp : SpAt (stackOf [0, 4]) 7 := spAt_stackOf (l := [0, 4]) (by decide)
  apply (sha3_iff hsp (by decide) (by decide) ?_).1.mpr
  · rw [hsize]
    decide
  · rw [hoffs, hsize]
    decide

/-- The memory has the 1024 bytes, the buffer does not. -/
theorem sha3_buffer_overrun : Insn.hashOffs (stackOf [0, 0x0800000000000000]) 7 = 0 ∧
    Insn.hashSize (stackOf [0, 0x0800000000000000]) 7 = 1024 ∧
    ¬ ∃ t, keccakAlgStub (cemu .zero) (stackOf [0, 0x0800000000000000]) = .ok () t := by
  have hsp : SpAt (stackOf [0, 0x0800000000000000]) 7 :=
    spAt_stackOf (l := [0, 0x0800000000000000]) (by decide)
  have h0 : (stackOf [0, 0x0800000000000000]).number 7 0 = 0 :=
    number_stackOf (l := [0, 0x0800000000000000]) (by decide) (by decide)
  have h1 : (stackOf [0, 0x0800000000000000]).number 7 1 = 0x0800000000000000 :=
    number_stackOf (l := [0, 0x0800000000000000]) (by decide) (by decide)
  have hsize : Insn.hashSize (stackOf [0, 0x0800000000000000]) 7 = 1024 := by
    rw [hashSize_eq, h1]
    decide
  refine ⟨?_, hsize, ?_⟩
  · rw [hashOffs_eq, h0]
    decide
  · rintro ⟨t, ht⟩
    obtain ⟨⟨-, -, -, hle⟩, -⟩ := (keccakAlgStub_eq_ok _ hsp).mp ht
    rw [hsize] at hle
    exact absurd hle (by decide)

end GvmCore
