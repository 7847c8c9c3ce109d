import GvmCore.BignumLogic
import GvmCore.OperandLaws

namespace GvmCore
open Exec VBignum Digits TwosComplement
set_option autoImplicit true

def compareLaw : Nat → Nat → Nat → Nat
  | 0, a, b => if a < b then 1 else 0 -- LT
  | 1, a, b => if b < a then 1 else 0 -- GT
  | 4, a, b => if a = b then 1 else 0 -- EQ
  | 5, a, _ => if a = 0 then 1 else 0 -- ISZERO
  | 6, a, b => a &&& b -- AND
  | 7, a, b => a ||| b -- OR
  | 8, a, b => a ^^^ b -- XOR
  | 9, a, _ => (~~~(BitVec.ofNat 256 a)).toNat -- NOT
  | _, _, _ => 0

section Results

variable {s : Core w c} {z : Int}

theorem regValue_compare (s : Core w c) (z : Int) (op : Nat) {x : VBig} (hl : x.length = 16)
    (hx : compareValue op (byteAt (s.word (z - 3)) 7).toNat
      (takeOperands s z (compareArity op)) = x) :
    regValue ((Insn.compare op).resultReg ((Insn.compare op).paid s z) z) = value x := by
  have hr : (Insn.compare op).resultReg ((Insn.compare op).paid s z) z = bignumToReg x := by
    rw [Insn.resultReg, Core.compareReg, Insn.takeOperands_paid, Insn.paid_word, hx]
  rw [hr, regValue_bignumToReg hl]

theorem value_comparison {p : Prop} [Decidable p] {b : Bool} (a : Reg) (hb : b = true ↔ p) :
    (boolToBignum b (bigOf a)).length = 16 ∧
      value (boolToBignum b (bigOf a)) = if p then 1 else 0 := by
  have hne : bigOf a ≠ [] := by
    intro h
    exact absurd (length_bigOf a) (by rw [h]; decide)
  refine ⟨(length_boolToBignum b _).trans (length_bigOf a), ?_⟩
  rw [value_boolToBignum b hne]
  by_cases hp : p
  · rw [if_pos hp, hb.mpr hp]
    rfl
  · rw [if_neg hp, Bool.eq_false_iff.mpr (hb.not.mpr hp)]
    rfl

theorem gt_bigOf (a b : Reg) : gt (bigOf a) (bigOf b) = true ↔ regValue b < regValue a := by
  rw [gt_iff (by rw [length_bigOf, length_bigOf]), value_bigOf, value_bigOf]

theorem less_result (hop : op = 0 ∨ op = 2) :
    regValue ((Insn.compare op).resultReg ((Insn.compare op).paid s z) z) =
      if s.number z 0 < s.number z 1 then 1 else 0 := by
  obtain ⟨hl, hv⟩ := value_comparison (s.element z 0) (gt_bigOf (s.element z 1) (s.element z 0))
  rcases hop with rfl | rfl
  · exact (regValue_compare s z 0 hl rfl).trans hv
  · exact (regValue_compare s z 2 hl rfl).trans hv

theorem greater_result (hop : op = 1 ∨ op = 3) :
    regValue ((Insn.compare op).resultReg ((Insn.compare op).paid s z) z) =
      if s.number z 1 < s.number z 0 then 1 else 0 := by
  obtain ⟨hl, hv⟩ := value_comparison (s.element z 0) (gt_bigOf (s.element z 0) (s.element z 1))
  rcases hop with rfl | rfl
  · exact (regValue_compare s z 1 hl rfl).trans hv
  · exact (regValue_compare s z 3 hl rfl).trans hv

theorem compare_result (hop : op ∈ [0, 1, 4, 5, 6, 7, 8, 9]) :
    regValue ((Insn.compare op).resultReg ((Insn.compare op).paid s z) z) =
      compareLaw op (s.number z 0) (s.number z 1) := by
  have hla := length_bigOf (s.element z 0)
  have hlb := length_bigOf (s.element z 1)
  have hva := value_bigOf (s.element z 0)
  have hvb := value_bigOf (s.element z 1)
  simp only [List.mem_cons, List.not_mem_nil, or_false] at hop
  rcases hop with rfl | rfl | rfl | rfl | rfl | rfl | rfl | rfl
  · exact less_result (.inl rfl)
  · exact greater_result (.inl rfl)
  · obtain ⟨hl, hv⟩ := value_comparison (s.element z 0) (eq_iff (hla.trans hlb.symm))
    rw [hva, hvb] at hv
    exact (regValue_compare s z 4 hl rfl).trans hv
  · obtain ⟨hl, hv⟩ := value_comparison (s.element z 0) (eqZero_iff (x := bigOf (s.element z 0)))
    rw [hva] at hv
    exact (regValue_compare s z 5 hl rfl).trans hv
  · have hv := value_and (hla.trans hlb.symm)
    rw [hva, hvb] at hv
    exact (regValue_compare s z 6 ((length_onCommon _ _ _).trans hla) rfl).trans hv
  · have hv := value_or (hla.trans hlb.symm)
    rw [hva, hvb] at hv
    exact (regValue_compare s z 7 ((length_onCommon _ _ _).trans hla) rfl).trans hv
  · have hv := value_xor (hla.trans hlb.symm)
    rw [hva, hvb] at hv
    exact (regValue_compare s z 8 ((length_onCommon _ _ _).trans hla) rfl).trans hv
  · have hv := value_not (bigOf (s.element z 0))
    have hlt : s.number z 0 < 2 ^ 256 := regValue_lt _
    rw [hva, hla] at hv
    refine (regValue_compare s z 9 ((List.length_map _).trans hla) rfl).trans (hv.trans ?_)
    rw [compareLaw, BitVec.toNat_not, BitVec.toNat_ofNat, Nat.mod_eq_of_lt hlt]
    rfl

theorem byte_result : regValue ((Insn.compare 10).resultReg ((Insn.compare 10).paid s z) z) =
    if s.number z 0 % 256 < 32
    then s.number z 1 / 2 ^ (8 * (31 - s.number z 0 % 256)) % 256 else 0 := by
  have hla := length_bigOf (s.element z 0)
  have hlb := length_bigOf (s.element z 1)
  have hlt := Nat.mod_lt (s.number z 0) (show 256 > 0 by decide)
  have hresult := regValue_compare s z 10
    ((length_setBignumPart (bigOf (s.element z 0)) (bigOf (s.element z 1))
      ((255 + 2 ^ 32 - s.number z 0 % 256 * 8) % 2 ^ 32) 8).trans hla) (by rw [← s.index_byte]; rfl)
  rw [hresult]
  generalize s.number z 0 % 256 = i at *
  by_cases hi : i < 32
  · have hmsb : (255 + 2 ^ 32 - i * 8) % 2 ^ 32 = 255 - 8 * i := by omega
    have hshift : 255 - 8 * i + 1 - 8 = 8 * (31 - i) := by omega
    rw [if_pos hi, hmsb, value_setBignumPart (by omega) (by omega) (by omega) (by omega), hshift,
      value_bigOf]
    rfl
  · have hmsb : (255 + 2 ^ 32 - i * 8) % 2 ^ 32 > (bigOf (s.element z 1)).length * 16 := by omega
    rw [if_neg hi, setBignumPart, if_pos hmsb, value_setZero]

end Results

/-- LT, GT, EQ, ISZERO, AND, OR, XOR and NOT are right whenever the digit heap has the cells for the
operands and the charge. -/
theorem compare_law_iff {E : Engine w c} {s : Core w c} (hop : op ∈ [0, 1, 4, 5, 6, 7, 8, 9])
    (h : (Insn.compare op).Supplied s z) :
    E.Gives (BitVec.ofNat 8 (16 + op)) s z (compareArity op)
      (compareLaw op (s.number z 0) (s.number z 1)) ↔
    E.HeapServes s.heapPos (65 * (compareArity op + 1)) := by
  have hresult := compare_result (s := s) (z := z) hop
  simp only [List.mem_cons, List.not_mem_nil, or_false] at hop
  rcases hop with rfl | rfl | rfl | rfl | rfl | rfl | rfl | rfl <;>
    exact (h.gives_iff (by decide) (by decide) (by decide)).trans (and_iff_left hresult)

theorem compare_law_six_three : (cemu .zero).Gives 0x10 (stackOf [6, 3]) 7 2 0 ∧
    (cemu .zero).Gives 0x16 (stackOf [6, 3]) 7 2 2 ∧
    (cemu .zero).Gives 0x19 (stackOf [6]) 3 1 (2 ^ 256 - 7) := by
  have ha : (stackOf [6, 3]).number 7 0 = 6 := number_stackOf (l := [6, 3]) (by decide) (by decide)
  have hb : (stackOf [6, 3]).number 7 1 = 3 := number_stackOf (l := [6, 3]) (by decide) (by decide)
  have hn : (stackOf [6]).number 3 0 = 6 := number_stackOf (l := [6]) (by decide) (by decide)
  have hlt := compare_law_iff (E := cemu .zero) (show 0 ∈ [0, 1, 4, 5, 6, 7, 8, 9] by decide)
    (supplied_stackOf (l := [6, 3]) (by decide) (by decide) (by decide))
  have hand := compare_law_iff (E := cemu .zero) (show 6 ∈ [0, 1, 4, 5, 6, 7, 8, 9] by decide)
    (supplied_stackOf (l := [6, 3]) (by decide) (by decide) (by decide))
  have hnot := compare_law_iff (E := cemu .zero) (show 9 ∈ [0, 1, 4, 5, 6, 7, 8, 9] by decide)
    (supplied_stackOf (l := [6]) (by decide) (by decide) (by decide))
  refine ⟨?_, ?_, ?_⟩
  · have h := hlt.mpr (heapServes_stackOf _ (by decide))
    change (cemu .zero).Gives 0x10 (stackOf [6, 3]) 7 2
      (compareLaw 0 ((stackOf [6, 3]).number 7 0) ((stackOf [6, 3]).number 7 1)) at h
    rwa [ha, hb] at h
  · have h := hand.mpr (heapServes_stackOf _ (by decide))
    change (cemu .zero).Gives 0x16 (stackOf [6, 3]) 7 2
      (compareLaw 6 ((stackOf [6, 3]).number 7 0) ((stackOf [6, 3]).number 7 1)) at h
    rwa [ha, hb] at h
  · have h := hnot.mpr (heapServes_stackOf _ (by decide))
    change (cemu .zero).Gives 0x19 (stackOf [6]) 3 1
      (compareLaw 9 ((stackOf [6]).number 3 0) ((stackOf [6]).number 3 1)) at h
    rw [hn] at h
    exact h

/-- With no cells left one is not found to be less than two. -/
theorem compare_exhausted : ¬ (cemu .zero).Gives 0x10 (exhausted [1, 2]) 7 2 1 := by
  have h : (Insn.compare 0).Supplied (exhausted [1, 2]) 7 :=
    supplied_exhausted (supplied_stackOf (l := [1, 2]) (by decide) (by decide) (by decide))
  intro hgives
  obtain ⟨hheap, -⟩ := (h.gives_iff (by decide) (by decide) (by decide)).mp hgives
  exact not_heapServes_exhausted [1, 2] (by decide) hheap

/-- BYTE looks at the low byte of its index only. -/
theorem byte_iff {E : Engine w c} {s : Core w c} (h : (Insn.compare 10).Supplied s z) :
    E.Gives 0x1a s z 2 (if s.number z 0 < 32
        then s.number z 1 / 2 ^ (8 * (31 - s.number z 0)) % 256 else 0) ↔
      E.HeapServes s.heapPos 195 ∧ (s.number z 0 < 256 ∨ 32 ≤ s.number z 0 % 256 ∨
        s.number z 1 / 2 ^ (8 * (31 - s.number z 0 % 256)) % 256 = 0) := by
  refine (h.gives_iff (by decide) (by decide) (by decide)).trans (and_congr_right fun _ => ?_)
  rw [byte_result]
  exact Core.index_byte_iff (g := fun i => s.number z 1 / 2 ^ (8 * (31 - i)) % 256) (by decide)

theorem byte_last : (cemu .zero).Gives 0x1a (stackOf [31, 0x1234]) 7 2 0x34 := by
  have hi : (stackOf [31, 0x1234]).number 7 0 = 31 :=
    number_stackOf (l := [31, 0x1234]) (by decide) (by decide)
  have hx : (stackOf [31, 0x1234]).number 7 1 = 0x1234 :=
    number_stackOf (l := [31, 0x1234]) (by decide) (by decide)
  have h := byte_iff (E := cemu .zero) (s := stackOf [31, 0x1234]) (z := 7)
    (supplied_stackOf (l := [31, 0x1234]) (by decide) (by decide) (by decide))
  rw [hi, hx] at h
  exact h.mpr ⟨heapServes_stackOf _ (by decide), .inl (by decide)⟩

/-- Index 287 is taken for index 31. -/
theorem byte_large_index : ¬ (cemu .zero).Gives 0x1a (stackOf [287, 1]) 7 2 0 := by
  have hi : (stackOf [287, 1]).number 7 0 = 287 :=
    number_stackOf (l := [287, 1]) (by decide) (by decide)
  have hx : (stackOf [287, 1]).number 7 1 = 1 :=
    number_stackOf (l := [287, 1]) (by decide) (by decide)
  have hs : (Insn.compare 10).Supplied (stackOf [287, 1]) 7 :=
    supplied_stackOf (l := [287, 1]) (by decide) (by decide) (by decide)
  intro h
  obtain ⟨-, hv⟩ := (hs.gives_iff (by decide) (by decide) (by decide)).mp h
  rw [byte_result, hi, hx] at hv
  exact absurd hv (by decide)

theorem ite_one_zero_inj {p q : Prop} [Decidable p] [Decidable q] :
    (if p then 1 else 0) = (if q then 1 else 0) ↔ (p ↔ q) := by
  by_cases hp : p <;> by_cases hq : q <;> simp [hp, hq]

/-- SLT and SGT compare the unsigned numbers, which is right when the signs agree. In each case SLT
of two numbers is SGT of the numbers exchanged, and not both orders give one. -/
theorem slt_sgt_iff {E : Engine w c} {s : Core w c} (h₂ : (Insn.compare 2).Supplied s z)
    (h₃ : (Insn.compare 3).Supplied s z) :
    (E.Gives 0x12 s z 2
        (if reading (2 ^ 255) (s.number z 0) < reading (2 ^ 255) (s.number z 1) then 1 else 0) ↔
      E.HeapServes s.heapPos 195 ∧ (s.number z 0 < 2 ^ 255 ↔ s.number z 1 < 2 ^ 255)) ∧
    (E.Gives 0x13 s z 2
        (if reading (2 ^ 255) (s.number z 1) < reading (2 ^ 255) (s.number z 0) then 1 else 0) ↔
      E.HeapServes s.heapPos 195 ∧ (s.number z 0 < 2 ^ 255 ↔ s.number z 1 < 2 ^ 255)) ∧
    ∀ t : Core w c, (Insn.compare 2).Supplied t z → (Insn.compare 3).Supplied t z →
      t.number z 0 = s.number z 1 → t.number z 1 = s.number z 0 → ∀ u v, E.Gives 0x12 s z 2 u →
      (E.Gives 0x13 t z 2 v → u = v) ∧ (E.Gives 0x12 t z 2 v → ¬ (u = 1 ∧ v = 1)) := by
  have ha : s.number z 0 < 2 * 2 ^ 255 := regValue_lt _
  have hb : s.number z 1 < 2 * 2 ^ 255 := regValue_lt _
  refine ⟨?_, ?_, ?_⟩
  · refine (h₂.gives_iff (by decide) (by decide) (by decide)).trans (and_congr_right fun _ => ?_)
    rw [less_result (.inr rfl), ite_one_zero_inj, lt_iff_reading_lt ha hb]
  · refine (h₃.gives_iff (by decide) (by decide) (by decide)).trans (and_congr_right fun _ => ?_)
    rw [greater_result (.inr rfl), ite_one_zero_inj, lt_iff_reading_lt hb ha]
    exact iff_comm
  · intro t ht₂ ht₃ h0 h1 u v hu
    obtain ⟨-, hu⟩ := (h₂.gives_iff (by decide) (by decide) (by decide)).mp hu
    rw [less_result (.inr rfl)] at hu
    constructor
    · intro hv
      obtain ⟨-, hv⟩ := (ht₃.gives_iff (by decide) (by decide) (by decide)).mp hv
      rw [greater_result (.inr rfl), h0, h1] at hv
      exact hu.symm.trans hv
    · intro hv
      obtain ⟨-, hv⟩ := (ht₂.gives_iff (by decide) (by decide) (by decide)).mp hv
      rw [less_result (.inr rfl), h0, h1] at hv
      rintro ⟨rfl, rfl⟩
      split at hu <;> split at hv <;> omega

theorem slt_sgt_six_three : (cemu .zero).Gives 0x12 (stackOf [6, 3]) 7 2 0 ∧
    (cemu .zero).Gives 0x13 (stackOf [6, 3]) 7 2 1 := by
  have ha : (stackOf [6, 3]).number 7 0 = 6 := number_stackOf (l := [6, 3]) (by decide) (by decide)
  have hb : (stackOf [6, 3]).number 7 1 = 3 := number_stackOf (l := [6, 3]) (by decide) (by decide)
  obtain ⟨hslt, hsgt, -⟩ := slt_sgt_iff (E := cemu .zero) (s := stackOf [6, 3]) (z := 7)
    (supplied_stackOf (l := [6, 3]) (by decide) (by decide) (by decide))
    (supplied_stackOf (l := [6, 3]) (by decide) (by decide) (by decide))
  have hheap : (cemu .zero).HeapServes (stackOf [6, 3]).heapPos 195 :=
    heapServes_stackOf _ (by decide)
  rw [ha, hb] at hslt hsgt
  have h6 : reading (2 ^ 255) 6 = 6 := by decide
  have h3 : reading (2 ^ 255) 3 = 3 := by decide
  rw [h6, h3] at hslt hsgt
  have hsign : 6 < 2 ^ 255 ↔ 3 < 2 ^ 255 := by decide
  exact ⟨hslt.mpr ⟨hheap, hsign⟩, hsgt.mpr ⟨hheap, hsign⟩⟩

/-- Minus one is not found to be less than zero. -/
theorem slt_minus_one : ¬ (cemu .zero).Gives 0x12 (stackOf [2 ^ 256 - 1, 0]) 7 2 1 := by
  have ha : (stackOf [2 ^ 256 - 1, 0]).number 7 0 = 2 ^ 256 - 1 :=
    number_stackOf (l := [2 ^ 256 - 1, 0]) (by decide) (by decide)
  have hb : (stackOf [2 ^ 256 - 1, 0]).number 7 1 = 0 :=
    number_stackOf (l := [2 ^ 256 - 1, 0]) (by decide) (by decide)
  have hs : (Insn.compare 2).Supplied (stackOf [2 ^ 256 - 1, 0]) 7 :=
    supplied_stackOf (l := [2 ^ 256 - 1, 0]) (by decide) (by decide) (by decide)
  intro h
  obtain ⟨-, hv⟩ := (hs.gives_iff (by decide) (by decide) (by decide)).mp h
  rw [less_result (.inr rfl), ha, hb] at hv
  exact absurd hv (by decide)

end GvmCore
