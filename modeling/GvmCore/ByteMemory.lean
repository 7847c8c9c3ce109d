import GvmCore.ByteWords
import GvmCore.Decoding
import GvmCore.Memory
import GvmCore.Runs
import GvmCore.StackNumbers

namespace GvmCore
open Exec Digits Memory
set_option autoImplicit true

namespace Core

def Holds (s : Core w c) (m : Memory) : Prop := ∀ a < 1024, (s.cell a).toNat = (m a).toNat

theorem cell_setCells (s : Core w c) (a : Nat) (f : Nat → BitVec c) (n : Nat) (hb : b < 1024) :
    ((List.range n).foldl (fun s i => s.setCell (a + i) (f i)) s).cell b =
      if a ≤ b ∧ b < a + n then f (b - a) else s.cell b := by
  induction n with
  | zero => rw [if_neg (by omega)]; rfl
  | succ n ih =>
    rw [List.range_succ, List.foldl_concat]
    by_cases hlast : b = a + n
    · subst hlast
      rw [cell_setCell_same _ hb, if_pos (by omega), Nat.add_sub_cancel_left]
    · have hiff : (a ≤ b ∧ b < a + (n + 1)) ↔ (a ≤ b ∧ b < a + n) := by omega
      rw [cell_setCell_ne _ hlast, ih]
      simp only [hiff]

theorem cell_storeWord (s : Core w c) (a : Nat) (v : Word) (hb : b < 1024) :
    (s.storeWord a v).cell b =
      if a ≤ b ∧ b < a + 8 then ((byteAt v (b - a)).setWidth 8).setWidth c else s.cell b :=
  s.cell_setCells a _ 8 hb

end Core

theorem byte_of_regValue (r : Reg) (k : Fin 4) (hj : j < 8) :
    BitVec.ofNat 8 (regValue r / 256 ^ (8 * (k : Nat) + (7 - j))) =
      (byteAt (r k) j).setWidth 8 := by
  have hword : regValue r / 2 ^ (64 * (k : Nat)) % 2 ^ 64 = (swapBytes (r k)).toNat := by
    rw [regValue, value_digit]
    have hk : k = 0 ∨ k = 1 ∨ k = 2 ∨ k = 3 := by omega
    rcases hk with rfl | rfl | rfl | rfl
    · rfl
    · rfl
    · rfl
    · rfl
  have hpow : 256 ^ (8 * (k : Nat) + (7 - j)) = 2 ^ (64 * (k : Nat)) * 256 ^ (7 - j) := by
    rw [Nat.pow_add, show 256 = 2 ^ 8 from rfl, ← Nat.pow_mul 2 8 (8 * (k : Nat)), ← Nat.mul_assoc]
  have hsplit : 2 ^ 64 = 256 ^ (7 - j) * 256 ^ (8 - (7 - j)) := by
    rw [← Nat.pow_add, Nat.add_sub_cancel' (by omega)]
    rfl
  have hdvd : 256 ∣ 256 ^ (8 - (7 - j)) := dvd_pow_self 256 (by omega)
  have hbyte := toNat_byteAt (swapBytes (r k)) (7 - j)
  have hindex : 7 - (7 - j) = j := by omega
  rw [byteAt_swapBytes _ (by omega), hindex, ← hword, hsplit, Nat.mod_mul_right_div_self,
    Nat.mod_mod_of_dvd _ hdvd, Nat.div_div_eq_div_mul, ← hpow] at hbyte
  apply BitVec.eq_of_toNat_eq
  have hlt := toNat_byteAt_lt (r k) j
  rw [BitVec.toNat_ofNat, BitVec.toNat_setWidth, Nat.mod_eq_of_lt (show _ < 2 ^ 8 from hlt), hbyte]

theorem regValue_read (m : Memory) (a : Nat) {r : Reg}
    (h : ∀ k : Fin 4, r k = wordOfBytes (m.read (a + 8 * (3 - k)) 8)) :
    regValue r = value (m.read a 32).reverse := by
  have hword : ∀ k : Fin 4,
      (swapBytes (r k)).toNat = value (m.read (a + 8 * (3 - k)) 8).reverse := by
    intro k
    rw [h k, toNat_swapBytes_wordOfBytes (length_read m _ 8)]
  have hreg : regValue r = (swapBytes (r 0)).toNat + 2 ^ 64 * ((swapBytes (r 1)).toNat +
      2 ^ 64 * ((swapBytes (r 2)).toNat + 2 ^ 64 * ((swapBytes (r 3)).toNat + 2 ^ 64 * 0))) := rfl
  have h32 : value (m.read a 32).reverse =
      value (m.read (a + 24) 8).reverse + 2 ^ 64 * value (m.read a 24).reverse :=
    value_reverse_read_add m a 24 8
  have h24 : value (m.read a 24).reverse =
      value (m.read (a + 16) 8).reverse + 2 ^ 64 * value (m.read a 16).reverse :=
    value_reverse_read_add m a 16 8
  have h16 : value (m.read a 16).reverse =
      value (m.read (a + 8) 8).reverse + 2 ^ 64 * value (m.read a 8).reverse :=
    value_reverse_read_add m a 8 8
  rw [hreg, hword 0, hword 1, hword 2, hword 3, h32, h24, h16]
  rfl

namespace Core

/-- MSTORE's stores, as one write of the number's bytes. -/
theorem cell_storeReg (s : Core w c) (a : Nat) (r : Reg) (hb : b < 1024) :
    (s.storeReg a r).cell b = if a ≤ b ∧ b < a + 32
      then (BitVec.ofNat 8 (regValue r / 256 ^ (31 - (b - a)))).setWidth c else s.cell b := by
  unfold storeReg
  rw [cell_storeWord _ _ _ hb, cell_storeWord _ _ _ hb, cell_storeWord _ _ _ hb,
    cell_storeWord _ _ _ hb]
  by_cases hin : a ≤ b ∧ b < a + 32
  · rw [if_pos hin]
    obtain ⟨i, rfl⟩ : ∃ i, b = a + i := ⟨b - a, by omega⟩
    have hi : i < 32 := by omega
    have hbyte : ∀ (k : Fin 4) (j : Nat), j < 8 → i = 8 * (3 - (k : Nat)) + j →
        BitVec.ofNat 8 (regValue r / 256 ^ (31 - (a + i - a))) = (byteAt (r k) j).setWidth 8 := by
      intro k j hj he
      have hk := k.isLt
      rw [← byte_of_regValue r k hj]
      congr 3
      omega
    -- the four blocks, from the highest one
    rcases (show i < 8 ∨ 8 ≤ i ∧ i < 16 ∨ 16 ≤ i ∧ i < 24 ∨ 24 ≤ i by omega) with h | h | h | h
    · rw [hbyte 3 i h (by simp), if_neg (by omega), if_neg (by omega), if_neg (by omega),
        if_pos (by omega), Nat.add_sub_cancel_left]
    · rw [hbyte 2 (i - 8) (by omega) (by simp; omega), if_neg (by omega), if_neg (by omega),
        if_pos (by omega), show a + i - (a + 8) = i - 8 by omega]
    · rw [hbyte 1 (i - 16) (by omega) (by simp; omega), if_neg (by omega), if_pos (by omega),
        show a + i - (a + 16) = i - 16 by omega]
    · rw [hbyte 0 (i - 24) (by omega) (by simp; omega), if_pos (by omega),
        show a + i - (a + 24) = i - 24 by omega]
  · rw [if_neg hin, if_neg (by omega), if_neg (by omega), if_neg (by omega), if_neg (by omega)]

theorem Holds.storeReg {s : Core w c} (h : s.Holds m) (hc : 8 ≤ c) (a : Nat) (r : Reg) :
    (s.storeReg a r).Holds (m.write a (bigEndian 32 (regValue r))) := by
  intro b hb
  rw [cell_storeReg s a r hb, write_bigEndian]
  split
  · exact SameData.toNat_byteCell hc _
  · exact h b hb

theorem Holds.setByte {s : Core w c} (h : s.Holds m) (hc : 8 ≤ c) (a : Nat) (r : Reg) :
    (s.setCell a (((byteAt (r 0) 7).setWidth 8).setWidth c)).Holds
      (m.write a (bigEndian 1 (regValue r))) := by
  intro b hb
  rw [write_bigEndian]
  by_cases hba : b = a
  · subst hba
    have hbyte := byte_of_regValue r 0 (j := 7) (by decide)
    rw [cell_setCell_same _ hb, if_pos (by omega), SameData.toNat_byteCell hc, ← hbyte,
      Nat.sub_self b]
    rfl
  · rw [cell_setCell_ne _ hba, if_neg (by omega)]
    exact h b hb

theorem Holds.loadWord {s : Core w c} (h : s.Holds m) (ha : a + 8 ≤ 1024) :
    s.loadWord a = wordOfBytes (m.read a 8) := by
  have hcell : ∀ i < 8, (s.cell (a + i)).setWidth 64 = (m (a + i)).setWidth 64 := by
    intro i hi
    apply BitVec.eq_of_toNat_eq
    rw [BitVec.toNat_setWidth, BitVec.toNat_setWidth, h _ (by omega)]
  rw [Memory.read, ← wordOfBytes_eq_foldl _ le_rfl, Core.loadWord]
  apply List.foldl_ext
  intro d i hi
  rw [hcell i (List.mem_range.mp hi)]

/-- MLOAD's element stands for the big-endian number of the cells. -/
theorem Holds.loadReg {s : Core w c} (h : s.Holds m) (ha : a + 32 ≤ 1024) :
    regValue (s.loadReg a) = value (m.read a 32).reverse := by
  apply regValue_read
  intro k
  have hk := k.isLt
  exact h.loadWord (by omega)

theorem storeWord_eq (s : Core w c) (a : Nat) (v : Word) :
    s.storeWord a v = { s with dataBus := (s.storeWord a v).dataBus } := by
  unfold storeWord
  generalize List.range 8 = l
  induction l generalizing s with
  | nil => rfl
  | cons i l ih =>
    rw [List.foldl_cons, ih, setCell_eq]

theorem storeReg_eq (s : Core w c) (a : Nat) (r : Reg) :
    s.storeReg a r = { s with dataBus := (s.storeReg a r).dataBus } := by
  unfold storeReg
  rw [storeWord_eq, storeWord_eq _ (a + 16), storeWord_eq _ (a + 8), storeWord_eq s]

theorem grown_eq (s : Core w c) (a : Word) :
    s.grown a = { s with memSize := (s.grown a).memSize } := by
  unfold grown
  split <;> rfl

theorem Holds.grown {s : Core w c} (h : s.Holds m) (a : Word) : (s.grown a).Holds m := by
  unfold Core.grown
  split
  · exact h
  · exact h

structure MemoryKept (s t : Core w c) : Prop where
  dataBus : t.dataBus = s.dataBus
  memSize : t.memSize = s.memSize

theorem MemoryKept.refl (s : Core w c) : MemoryKept s s := ⟨rfl, rfl⟩

theorem MemoryKept.trans {s t u : Core w c} (h : MemoryKept s t) (h' : MemoryKept t u) :
    MemoryKept s u :=
  ⟨h'.dataBus.trans h.dataBus, h'.memSize.trans h.memSize⟩

theorem MemoryKept.holds {s t : Core w c} (h : MemoryKept s t) (hm : s.Holds m) : t.Holds m := by
  intro a ha
  have hcell := hm a ha
  rwa [cell, ← h.dataBus] at hcell

theorem memoryKept_setWord (s : Core w c) (i : Int) (v : Word) : MemoryKept s (s.setWord i v) := by
  rw [setWord_eq]
  exact ⟨rfl, rfl⟩

theorem memoryKept_putReg (s : Core w c) (i : Int) (r : Reg) : MemoryKept s (s.putReg i r) := by
  rw [putReg_eq]
  exact ⟨rfl, rfl⟩

theorem memoryKept_pushed (s : Core w c) (z : Int) (r : Reg) : MemoryKept s (s.pushed z r) :=
  (s.memoryKept_putReg (z + 1) r).trans ⟨rfl, rfl⟩

theorem memoryKept_swapped (s : Core w c) (z : Int) (count : Nat) :
    MemoryKept s (s.swapped z count) := by
  have hround : ∀ (t : Core w c) (i : Nat), MemoryKept t (s.swapRound t z count i) := fun t i =>
    (memoryKept_setWord _ _ _).trans (memoryKept_setWord _ _ _)
  exact (((hround s 0).trans (hround _ 1)).trans (hround _ 2)).trans (hround _ 3)

end Core

theorem PaysOnly.memoryKept {s t : Core w c} (h : PaysOnly s t) : s.MemoryKept t := by
  rw [h.eq]
  exact ⟨rfl, rfl⟩

/-- One access of a program to its memory. -/
inductive MemAccess where
  | mload (a : Nat)
  | mstore (a v : Nat)
  | mstore8 (a v : Nat)
  deriving DecidableEq

def MemAccess.run : MemAccess → Memory → Memory
  | .mload _, m => m
  | .mstore a v, m => m.write a (bigEndian 32 v)
  | .mstore8 a v, m => m.write a (bigEndian 1 v)

namespace MemAccess

def ofOp (a v : Nat) : Nat → Option MemAccess
  | 1 => some (.mload a)
  | 2 => some (.mstore a v)
  | 3 => some (.mstore8 a v)
  | _ => none

end MemAccess

namespace Insn

def access (s : Core w c) (z : Int) : Insn → Option MemAccess
  | .mem takesAddr op =>
    MemAccess.ofOp (memAddr s takesAddr z).toNat (s.number (memBase takesAddr z) 0) op
  | _ => none

def memoryAfter (s : Core w c) (z : Int) (I : Insn) (m : Memory) : Memory :=
  (I.access s z).elim m (·.run m)

theorem store_or_kept (E : Engine w c) (s : Core w c) (z : Int) (I : Insn) :
    (∃ takesAddr, I = .mem takesAddr 2) ∨ (∃ takesAddr, I = .mem takesAddr 3) ∨
      s.MemoryKept (I.effect E s z) ∧ ∀ acc ∈ I.access s z, ∃ a, acc = .mload a := by
  have hnone : ∀ acc ∈ (none : Option MemAccess), ∃ a, acc = .mload a := fun acc h => by cases h
  cases I with
  | noOp | chargeOnly | returnInst => exact .inr (.inr ⟨.refl s, hnone⟩)
  | pushRegister | push | dup | sha3 => exact .inr (.inr ⟨s.memoryKept_pushed _ _, hnone⟩)
  | swap count => exact .inr (.inr ⟨s.memoryKept_swapped z count, hnone⟩)
  | arithm op =>
    have hput :=
      (s.scratched z op).memoryKept_putReg (resultIndex z (arithmArity op)) (s.arithmReg z op)
    exact .inr (.inr ⟨⟨hput.dataBus, hput.memSize⟩, hnone⟩)
  | compare op => exact .inr (.inr ⟨s.memoryKept_putReg _ _, hnone⟩)
  | mem takesAddr op =>
    match op with
    | 1 =>
      refine .inr (.inr ⟨s.memoryKept_pushed _ _, ?_⟩)
      intro acc hacc
      cases hacc
      exact ⟨_, rfl⟩
    | 2 => exact .inl ⟨takesAddr, rfl⟩
    | 3 => exact .inr (.inl ⟨takesAddr, rfl⟩)
    | 4 | 8 | 9 | 10 => exact .inr (.inr ⟨s.memoryKept_pushed _ _, hnone⟩)
    | 0 | 5 => exact .inr (.inr ⟨⟨rfl, rfl⟩, hnone⟩)
    | 6 | 7 | 11 => exact .inr (.inr ⟨.refl s, hnone⟩)
    | n + 12 => exact .inr (.inr ⟨.refl s, hnone⟩)

theorem holds_effect (E : Engine w c) {s : Core w c} (h : s.Holds m) (z : Int) (I : Insn) :
    (I.effect E s z).Holds (I.memoryAfter s z m) := by
  rcases I.store_or_kept E s z with ⟨takesAddr, rfl⟩ | ⟨takesAddr, rfl⟩ | ⟨hkept, hload⟩
  · have hnumber : s.number (memBase takesAddr z) 0 = regValue (s.reg (memBase takesAddr z - 3)) :=
      congrArg (fun i => regValue (s.reg i)) (by omega)
    have hs : (s.withSp (memBase takesAddr z - 4)).Holds m := h
    have hafter : memoryAfter s z (.mem takesAddr 2) m = m.write (memAddr s takesAddr z).toNat
        (bigEndian 32 (s.number (memBase takesAddr z) 0)) := rfl
    rw [hafter, hnumber]
    exact (hs.storeReg E.cellBits _ _).grown _
  · have hword : s.element (memBase takesAddr z) 0 0 = s.word (memBase takesAddr z - 3) :=
      congrArg s.word (by omega)
    have hs : (s.withSp (memBase takesAddr z - 4)).Holds m := h
    have hstore :=
      hs.setByte E.cellBits (memAddr s takesAddr z).toNat (s.element (memBase takesAddr z) 0)
    rw [hword] at hstore
    exact hstore.grown _
  · have hsame : I.memoryAfter s z m = m := by
      unfold memoryAfter
      cases hacc : I.access s z with
      | none => rfl
      | some acc =>
        obtain ⟨a, rfl⟩ := hload acc hacc
        rfl
    rw [hsame]
    exact hkept.holds h

theorem access_congr {s : Core w c} {t : Core w' c'} (h : ∀ i ≤ z, t.word i = s.word i) (I : Insn) :
    I.access t z = I.access s z := by
  cases I with
  | mem takesAddr op =>
    have hbase : memBase takesAddr z ≤ z := by
      unfold memBase
      split <;> omega
    have hnumber : t.number (memBase takesAddr z) 0 = s.number (memBase takesAddr z) 0 :=
      congrArg regValue (element_congr (fun i hi => h i (by omega)) 0)
    simp only [access, memAddr_congr h, hnumber]
  | _ => rfl

theorem memoryKept_entry (s : Core w c) (z : Int) (I : Insn) : s.MemoryKept (I.entry s z) := by
  rw [I.entry_eq s z, Core.convertedTop_eq]
  exact ⟨rfl, rfl⟩

theorem memoryKept_paid (s : Core w c) (z : Int) (I : Insn) : s.MemoryKept (I.paid s z) :=
  (I.memoryKept_entry s z).trans (I.paid_eq s z).memoryKept

theorem exec_effect {E : Engine w c} {s t : Core w c} {I : Insn} (hI : I.InRange) (hz : SpAt s z)
    (hexec : I.exec E s = .ok pw t) :
    ∃ s', s.MemoryKept s' ∧ (∀ i, s'.word i = s.word i) ∧ I.Fits s z ∧ I.effect E s' z = t := by
  obtain ⟨-, -, s', hpay, -, hfit, -, ht⟩ := (exec_eq_ok E hI hz).mp hexec
  have honly := (pay_facts hpay).only
  have hw : ∀ i, s'.word i = s.word i := fun i => (honly.word i).trans (I.entry_word s z i)
  exact ⟨s', (I.memoryKept_entry s z).trans honly.memoryKept, hw,
    (fits_congr (fun i _ => hw i) I).mp hfit, ht⟩

/-- An instruction that returns leaves the bytes its access makes. -/
theorem holds_exec {E : Engine w c} {s t : Core w c} {I : Insn} (hI : I.InRange) (hz : SpAt s z)
    (h : s.Holds m) (hexec : I.exec E s = .ok pw t) : t.Holds (I.memoryAfter s z m) := by
  obtain ⟨s', hkept, hw, -, rfl⟩ := exec_effect hI hz hexec
  have hafter := holds_effect E (hkept.holds h) z I
  rwa [memoryAfter, access_congr fun i _ => hw i] at hafter

end Insn

namespace Driver

variable (D : Driver w c σ)

def access (d : σ) : Option MemAccess := (D.insn d).access (D.core d) (D.core d).spInt32

/-- The byte memory after a history of instructions. -/
def memoryAfter (hist : List σ) : Memory :=
  hist.foldr (fun d m => (D.access d).elim m (·.run m)) fun _ => 0

variable {D}

theorem holds_step (hz : SpAt (D.core d) z) (h : (D.core d).Holds m) (hstep : D.step d = .ok u d') :
    (D.core d').Holds ((D.insn d).memoryAfter (D.core d) z m) := by
  obtain ⟨pw, t, hexec, rfl⟩ := step_eq_ok.mp hstep
  obtain ⟨pc, hpc⟩ := D.core_next d pw t
  have ht := Insn.holds_exec (insn_inRange d) hz h hexec
  rw [hpc]
  exact ht

theorem dataBus_start (h : Loaded D d₀) : (D.core d₀).dataBus = fun _ => 0 := by
  cases h <;> rfl

/-- Along every run the cells hold the bytes that were written. -/
theorem holds_run (h : Loaded D d₀) (hrun : Run D.step d₀ hist d) :
    (D.core d).Holds (D.memoryAfter hist) := by
  induction hrun with
  | start =>
    intro a ha
    rw [Core.cell, dif_pos ha, dataBus_start h]
    rfl
  | @step hist x d' hrun hstep ih =>
    obtain ⟨z, hz⟩ := h.bounded hrun
    have hint := hz.spAt.spInt32 D.engine
    have hx := holds_step hz.spAt ih hstep
    rw [← hint] at hx
    exact hx

end Driver

end GvmCore
