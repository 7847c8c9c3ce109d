import GvmCore.ByteMemory
import GvmCore.StackCodec
import Mathlib.Order.Bounds.Basic

namespace GvmCore
open Exec
set_option autoImplicit true

/-- The smallest multiple of 32 above every touched index. -/
def Memory.IsActiveSize (touched : Nat → Prop) (n : Nat) : Prop :=
  IsLeast {k | 32 ∣ k ∧ ∀ i, touched i → i < k} n

namespace MemAccess

def start : MemAccess → Nat
  | .mload a => a
  | .mstore a _ => a
  | .mstore8 a _ => a

def stop : MemAccess → Nat
  | .mload a => a + 32
  | .mstore a _ => a + 32
  | .mstore8 a _ => a + 1

def Touches (acc : MemAccess) (i : Nat) : Prop := acc.start ≤ i ∧ i < acc.stop

def grow (n : Nat) : MemAccess → Nat
  | .mload _ => n
  | .mstore a _ => max n (a + 32)
  | .mstore8 a _ => max n a

/-- The access ends inside the active memory, or stores a word next to it. -/
def KeepsSize (n : Nat) : MemAccess → Prop
  | .mload a => a + 32 ≤ n
  | .mstore a _ => a + 32 ≤ n ∨ 32 ∣ a
  | .mstore8 a _ => a < n

instance (n : Nat) : (acc : MemAccess) → Decidable (acc.KeepsSize n)
  | .mload a => inferInstanceAs (Decidable (a + 32 ≤ n))
  | .mstore a _ => inferInstanceAs (Decidable (a + 32 ≤ n ∨ 32 ∣ a))
  | .mstore8 a _ => inferInstanceAs (Decidable (a < n))

theorem touches_lt_iff (acc : MemAccess) : (∀ i, acc.Touches i → i < k) ↔ acc.stop ≤ k := by
  constructor
  · intro h
    have hlast : acc.Touches (acc.stop - 1) := by
      cases acc <;> constructor <;> simp only [start, stop] <;> omega
    have := h _ hlast
    omega
  · intro h i hi
    exact hi.2.trans_le h

theorem isActiveSize_grow_iff (h : Memory.IsActiveSize touched n) (acc : MemAccess) :
    Memory.IsActiveSize (fun i => acc.Touches i ∨ touched i) (acc.grow n) ↔ acc.KeepsSize n := by
  have hn : 32 ∣ n := h.1.1
  have hset : ∀ k, (32 ∣ k ∧ ∀ i, acc.Touches i ∨ touched i → i < k) ↔
      32 ∣ k ∧ acc.stop ≤ k ∧ n ≤ k := by
    intro k
    simp only [or_imp, forall_and, touches_lt_iff]
    refine and_congr_right fun hk => and_congr_right fun _ =>
      ⟨fun ht => h.2 ⟨hk, ht⟩, fun hle i hi => ?_⟩
    exact (h.1.2 i hi).trans_le hle
  have hleast : ∀ g, Memory.IsActiveSize (fun i => acc.Touches i ∨ touched i) g ↔
      (32 ∣ g ∧ acc.stop ≤ g ∧ n ≤ g) ∧ ∀ k, 32 ∣ k ∧ acc.stop ≤ k ∧ n ≤ k → g ≤ k := by
    intro g
    refine and_congr (hset g) ?_
    exact forall_congr' fun k => by rw [← hset k]; rfl
  rw [hleast]
  cases acc with
  | mload a =>
    simp only [grow, KeepsSize, stop]
    refine ⟨fun hg => hg.1.2.1, fun hle => ⟨⟨hn, hle, le_rfl⟩, fun k hk => hk.2.2⟩⟩
  | mstore a v =>
    simp only [grow, KeepsSize, stop]
    constructor
    · rintro ⟨⟨hdvd, -, -⟩, -⟩
      omega
    · intro hkeeps
      refine ⟨by omega, fun k hk => by omega⟩
  | mstore8 a v =>
    simp only [grow, KeepsSize, stop]
    constructor
    · rintro ⟨⟨-, hle, -⟩, -⟩
      omega
    · intro hkeeps
      refine ⟨by omega, fun k hk => by omega⟩

end MemAccess

theorem Core.memSize_grown {s : Core w c} (hw : 32 ≤ w) (hs : s.memSize.toNat < 2 ^ 32)
    (ha : a.toNat < 2 ^ 32) : (s.grown a).memSize.toNat = max s.memSize.toNat a.toNat := by
  have hpow : 2 ^ 32 ≤ 2 ^ w := Nat.pow_le_pow_right (by decide) hw
  have hsize : (s.memSize.setWidth 64).toNat = s.memSize.toNat := by
    rw [BitVec.toNat_setWidth]
    exact Nat.mod_eq_of_lt (by omega)
  have hwide : (a.setWidth w).toNat = a.toNat := by
    rw [BitVec.toNat_setWidth]
    exact Nat.mod_eq_of_lt (by omega)
  unfold grown
  split
  · rename_i hlt
    rw [gt_iff_lt, BitVec.lt_def, hsize] at hlt
    exact hwide.trans (by omega)
  · rename_i hle
    rw [gt_iff_lt, BitVec.lt_def, hsize] at hle
    omega

theorem MemAccess.grow_lt {acc : MemAccess} (h : acc.start < 2 ^ 15) (hn : n < 2 ^ 16) :
    acc.grow n < 2 ^ 16 := by
  cases acc with
  | mload a => exact hn
  | mstore a v =>
    simp only [start, grow] at *
    omega
  | mstore8 a v =>
    simp only [start, grow] at *
    omega

namespace Insn

def sizeAfter (s : Core w c) (z : Int) (I : Insn) (n : Nat) : Nat :=
  (I.access s z).elim n (·.grow n)

theorem memSize_effect (E : Engine w c) {s : Core w c} (hs : s.memSize.toNat < 2 ^ 32) (z : Int)
    (I : Insn) : (I.effect E s z).memSize.toNat = I.sizeAfter s z s.memSize.toNat := by
  rcases I.store_or_kept E s z with ⟨takesAddr, rfl⟩ | ⟨takesAddr, rfl⟩ | ⟨hkept, hload⟩
  · have haddr := toNat_memAddr_lt s takesAddr z
    have hend : (memAddr s takesAddr z + 32).toNat = (memAddr s takesAddr z).toNat + 32 := by
      rw [BitVec.toNat_add]
      exact Nat.mod_eq_of_lt (by simp; omega)
    have hsize : ((s.withSp (memBase takesAddr z - 4)).storeReg (memAddr s takesAddr z).toNat
        (s.reg (memBase takesAddr z - 3))).memSize = s.memSize := by
      rw [Core.storeReg_eq]
      rfl
    have hgrown :=
      Core.memSize_grown (a := memAddr s takesAddr z + 32) E.spBits (by rw [hsize]; exact hs)
      (by omega)
    rw [hsize, hend] at hgrown
    exact hgrown
  · have haddr := toNat_memAddr_lt s takesAddr z
    have hsize : ((s.withSp (memBase takesAddr z - 4)).setCell (memAddr s takesAddr z).toNat
        (((byteAt (s.word (memBase takesAddr z - 3)) 7).setWidth 8).setWidth c)).memSize =
          s.memSize := by
      rw [Core.setCell_eq]
      rfl
    have hgrown :=
      Core.memSize_grown (a := memAddr s takesAddr z) E.spBits (by rw [hsize]; exact hs)
      (by omega)
    rw [hsize] at hgrown
    exact hgrown
  · rw [hkept.memSize, sizeAfter]
    cases hacc : I.access s z with
    | none => rfl
    | some acc =>
      obtain ⟨a, rfl⟩ := hload acc hacc
      rfl

theorem memSize_exec {E : Engine w c} {s t : Core w c} {I : Insn} (hI : I.InRange) (hz : SpAt s z)
    (hs : s.memSize.toNat < 2 ^ 32) (hexec : I.exec E s = .ok pw t) :
    t.memSize.toNat = I.sizeAfter s z s.memSize.toNat := by
  obtain ⟨s', hkept, hw, -, rfl⟩ := exec_effect hI hz hexec
  rw [← hkept.memSize] at hs
  rw [memSize_effect E hs, hkept.memSize, sizeAfter, access_congr fun i _ => hw i]
  rfl

theorem start_of_access {I : Insn} {s : Core w c} (h : I.access s z = some acc) :
    acc.start < 2 ^ 15 := by
  cases I with
  | mem takesAddr op =>
    have haddr := toNat_memAddr_lt s takesAddr z
    match op with
    | 1 | 2 | 3 =>
      cases h
      exact haddr
  | _ => cases h

end Insn

namespace Driver

variable (D : Driver w c σ)

/-- A byte index some instruction of the history has touched. -/
def Touched (hist : List σ) (i : Nat) : Prop := ∃ x ∈ hist, ∃ acc ∈ D.access x, acc.Touches i

/-- `mem_size` is the active memory size, and MSIZE pushes it. -/
structure SizeRight (hist : List σ) (d : σ) : Prop where
  active : Memory.IsActiveSize (D.Touched hist) (D.core d).memSize.toNat
  msize : ∀ z d', SpAt (D.core d) z → D.code d = 0x59 → D.step d = .ok () d' →
    (D.core d).Pushes (D.core d') z (D.core d).memSize.toNat

def KeepsSize (d : σ) : Prop := ∀ acc ∈ D.access d, acc.KeepsSize (D.core d).memSize.toNat

instance (d : σ) : Decidable (D.KeepsSize d) :=
  inferInstanceAs (Decidable (∀ acc ∈ D.access d, acc.KeepsSize (D.core d).memSize.toNat))

variable {D}

theorem memSize_step (hz : SpAt (D.core d) z) (hs : (D.core d).memSize.toNat < 2 ^ 16)
    (hstep : D.step d = .ok u d') : (D.core d').memSize.toNat =
      (D.access d).elim (D.core d).memSize.toNat (·.grow (D.core d).memSize.toNat) := by
  obtain ⟨pw, t, hexec, rfl⟩ := step_eq_ok.mp hstep
  obtain ⟨pc, hpc⟩ := D.core_next d pw t
  have ht := Insn.memSize_exec (insn_inRange d) hz (by omega) hexec
  rw [hpc, access, hz.spInt32 D.engine]
  exact ht

theorem memSize_lt (h : Loaded D d₀) (hsize : (D.core d₀).memSize.toNat < 2 ^ 16)
    (hrun : Run D.step d₀ hist d) : (D.core d).memSize.toNat < 2 ^ 16 := by
  induction hrun with
  | start => exact hsize
  | @step hist x d' hrun hstep ih =>
    obtain ⟨z, hz⟩ := h.bounded hrun
    rw [memSize_step hz.spAt ih hstep]
    cases hacc : D.access x with
    | none => exact ih
    | some acc => exact MemAccess.grow_lt (Insn.start_of_access hacc) ih

theorem msize_step (hs : (D.core d).memSize.toNat < 2 ^ 16) (hz : SpAt (D.core d) z)
    (hcode : D.code d = 0x59) (hstep : D.step d = .ok () d') :
    (D.core d).Pushes (D.core d') z (D.core d).memSize.toNat := by
  have hinsn : D.insn d = .mem false 9 := by
    rw [insn_of_listed (by rw [hcode]; decide), hcode]
    decide
  obtain ⟨pw, t, hexec, rfl⟩ := step_eq_ok.mp hstep
  obtain ⟨pc, hpc⟩ := D.core_next d pw t
  rw [hinsn] at hexec
  obtain ⟨s', hkept, hw, ⟨h1, h4⟩, rfl⟩ := Insn.exec_effect (I := .mem false 9) trivial hz hexec
  rw [hpc]
  apply Core.Pushes.of_pc
  apply (Core.pushes_pushed_iff (fun i _ => hw i) h1 h4).mpr
  rw [regValue_lowWord, hkept.memSize, BitVec.toNat_setWidth]
  exact Nat.mod_eq_of_lt (by omega)

theorem touched_cons (x : σ) (hist : List σ) : D.Touched (x :: hist) =
    fun i => (∃ acc ∈ D.access x, acc.Touches i) ∨ D.Touched hist i := by
  funext i
  simp [Touched]

/-- One step keeps `mem_size` right exactly when its access does. -/
theorem sizeRight_step (h : Loaded D d₀) (hstart : (D.core d₀).memSize.toNat < 2 ^ 16)
    (hrun : Run D.step d₀ hist x) (hstep : D.step x = .ok () d) (hright : D.SizeRight hist x) :
    D.SizeRight (x :: hist) d ↔ D.KeepsSize x := by
  obtain ⟨z, hz⟩ := h.bounded hrun
  have hlt := memSize_lt h hstart hrun
  have hsize := memSize_step hz.spAt hlt hstep
  have hmsize : ∀ z d', SpAt (D.core d) z → D.code d = 0x59 → D.step d = .ok () d' →
      (D.core d).Pushes (D.core d') z (D.core d).memSize.toNat :=
    fun z d' => msize_step (memSize_lt h hstart (hrun.step hstep))
  have hiff : D.SizeRight (x :: hist) d ↔
      Memory.IsActiveSize (D.Touched (x :: hist)) (D.core d).memSize.toNat :=
    ⟨fun hr => hr.active, fun hr => ⟨hr, hmsize⟩⟩
  rw [hiff, hsize, KeepsSize, touched_cons]
  cases hacc : D.access x with
  | none => simpa using hright.active
  | some acc => simpa using MemAccess.isActiveSize_grow_iff hright.active acc

theorem isActiveSize_nil_iff : Memory.IsActiveSize (D.Touched []) n ↔ n = 0 := by
  constructor
  · intro h
    exact Nat.le_zero.mp (h.2 ⟨Nat.dvd_zero 32, by simp [Touched]⟩)
  · rintro rfl
    exact ⟨⟨Nat.dvd_zero 32, by simp [Touched]⟩, fun k _ => Nat.zero_le k⟩

/-- In every state of a run `mem_size` is right exactly if it was zero at its start, and every
access of the run has been one that ends inside the active memory, or an MSTORE to a multiple of
32. -/
theorem active_size_iff (h : Loaded D d₀) (hrun : Run D.step d₀ hist d) :
    (∀ d' hist', d' :: hist' <:+ d :: hist → D.SizeRight hist' d') ↔
      (D.core d₀).memSize = 0 ∧ ∀ x ∈ hist, D.KeepsSize x := by
  have hzero : (D.core d₀).memSize.toNat = 0 ↔ (D.core d₀).memSize = 0 := by
    rw [← BitVec.toNat_inj]
    exact Iff.of_eq (congrArg _ BitVec.toNat_zero.symm)
  induction hrun with
  | start =>
    rw [forall_suffix_start, ← hzero]
    constructor
    · intro hright
      exact ⟨isActiveSize_nil_iff.mp hright.active, by simp⟩
    · rintro ⟨hsize, -⟩
      exact ⟨isActiveSize_nil_iff.mpr hsize, fun z d => msize_step (by omega)⟩
  | @step hist x d hrun hstep ih =>
    have hlast (hall : ∀ d' hist', d' :: hist' <:+ x :: hist → D.SizeRight hist' d') :
        D.SizeRight (x :: hist) d ↔ D.KeepsSize x := by
      have hsize := hzero.mpr (ih.mp hall).1
      exact sizeRight_step h (by omega) hrun hstep (hall x hist List.suffix_rfl)
    rw [forall_suffix_cons, List.forall_mem_cons]
    constructor
    · rintro ⟨hright, hall⟩
      exact ⟨(ih.mp hall).1, (hlast hall).mp hright, (ih.mp hall).2⟩
    · rintro ⟨hsize, hkeeps, hbefore⟩
      have hall := ih.mpr ⟨hsize, hbefore⟩
      exact ⟨(hlast hall).mpr hkeeps, hall⟩

/-- PUSH1 1; PUSH1 32; MSTORE. -/
def storeAligned : Evm := (Evm.init 1000).loadElf "6001602052".toList

theorem storeAligned_loaded : Loaded (Evm.driver (cemu .zero)) storeAligned :=
  .cemu .zero (Evm.init 1000) (Nat.zero_le _) _

theorem active_size_aligned : ∃ hist d, Run (Evm.driver (cemu .zero)).step storeAligned hist d ∧
    d.core.memSize = 64 ∧ (Evm.driver (cemu .zero)).SizeRight hist d := by
  have hfacts : (iterate (Evm.clock (cemu .zero)) 3 storeAligned).isOk = true ∧
      (after (Evm.clock (cemu .zero)) storeAligned 3).core.memSize = 64 ∧
      ∀ x ∈ (List.range 3).reverse.map (after (Evm.clock (cemu .zero)) storeAligned),
        (Evm.driver (cemu .zero)).KeepsSize x := by
    decide +kernel
  obtain ⟨hok, hsize, hkeeps⟩ := hfacts
  have hrun := Evm.driver_run hok
  have hright := (active_size_iff storeAligned_loaded hrun).mpr ⟨rfl, hkeeps⟩
  exact ⟨_, _, hrun, hsize, hright _ _ List.suffix_rfl⟩

/-- PUSH1 1; PUSH1 0; MSTORE8. -/
def storeByte : Evm := (Evm.init 1000).loadElf "6001600053".toList

/-- The byte at 0 is written, and `mem_size` stays 0. -/
theorem byte_outside_size : ∃ hist d, Run (Evm.driver (cemu .zero)).step storeByte hist d ∧
    (Evm.driver (cemu .zero)).Touched hist 0 ∧ d.core.memSize = 0 ∧
    ¬ Memory.IsActiveSize ((Evm.driver (cemu .zero)).Touched hist) d.core.memSize.toNat := by
  have hfacts : (iterate (Evm.clock (cemu .zero)) 3 storeByte).isOk = true ∧
      (after (Evm.clock (cemu .zero)) storeByte 3).core.memSize = 0 ∧
      (Evm.driver (cemu .zero)).access (after (Evm.clock (cemu .zero)) storeByte 2) =
        some (.mstore8 0 1) := by
    decide +kernel
  obtain ⟨hok, hsize, hacc⟩ := hfacts
  have htouched : (Evm.driver (cemu .zero)).Touched
      ((List.range 3).reverse.map (after (Evm.clock (cemu .zero)) storeByte)) 0 :=
    ⟨_, List.mem_cons_self, _, hacc, by decide, by decide⟩
  refine ⟨_, _, Evm.driver_run hok, htouched, hsize, ?_⟩
  rw [hsize]
  intro hactive
  exact absurd (hactive.1.2 0 htouched) (by decide)

end Driver

end GvmCore
