import GvmCore.BignumLogic
import GvmCore.BignumSum
import GvmCore.DivisionLaws

namespace GvmCore
open Exec VBignum Digits TwosComplement
set_option autoImplicit true

section Results

variable {s : Core w c} {z : Int}

theorem regValue_arithm (s : Core w c) (z : Int) (op : Nat) {x : VBig} (hl : x.length = 16)
    (hx : arithmValue op (byteAt (s.word (z - 3)) 7).toNat (takeOperands s z (arithmArity op))
      ((Insn.arithm op).paid s z).stale = x) :
    regValue ((Insn.arithm op).resultReg ((Insn.arithm op).paid s z) z) = value x := by
  have hr : (Insn.arithm op).resultReg ((Insn.arithm op).paid s z) z = bignumToReg x := by
    rw [Insn.resultReg, Core.arithmReg, Insn.takeOperands_paid, Insn.paid_word, hx]
  rw [hr, regValue_bignumToReg hl]

theorem sum_result : regValue ((Insn.arithm 1).resultReg ((Insn.arithm 1).paid s z) z) =
    (s.number z 0 + s.number z 1) % 2 ^ 256 := by
  have hl := length_bigOf (s.element z 0)
  have hv := value_add (x := bigOf (s.element z 0)) (y := bigOf (s.element z 1))
    (by rw [length_bigOf, length_bigOf])
  rw [hl, value_bigOf, value_bigOf] at hv
  exact (regValue_arithm s z 1 ((length_add _ _).trans hl) rfl).trans hv

theorem product_result : regValue ((Insn.arithm 2).resultReg ((Insn.arithm 2).paid s z) z) =
    s.number z 0 * s.number z 1 % 2 ^ 256 := by
  have hl := length_bigOf (s.element z 0)
  have hv := value_mul (bigOf (s.element z 0)) (bigOf (s.element z 1))
  rw [hl, value_bigOf, value_bigOf] at hv
  exact (regValue_arithm s z 2 ((length_mul _ _).trans hl) rfl).trans hv

theorem difference_result : regValue ((Insn.arithm 3).resultReg ((Insn.arithm 3).paid s z) z) =
    (s.number z 0 + 2 ^ 256 - s.number z 1) % 2 ^ 256 := by
  have hl := length_bigOf (s.element z 0)
  have hv := value_sub_mod (x := bigOf (s.element z 0)) (y := bigOf (s.element z 1))
    (by rw [length_bigOf, length_bigOf])
  rw [hl, value_bigOf, value_bigOf] at hv
  exact (regValue_arithm s z 3 ((length_sub _ _).trans hl) rfl).trans hv

end Results

/-- ADD, MUL and SUB leave the sum, product and difference modulo 2^256 whenever the digit heap has
the cells for the operands and the charge. -/
theorem add_mul_sub_iff {E : Engine w c} {s : Core w c} :
    ((Insn.arithm 1).Supplied s z →
      (E.Gives 0x01 s z 2 ((s.number z 0 + s.number z 1) % 2 ^ 256) ↔ E.HeapServes s.heapPos 195)) ∧
    ((Insn.arithm 2).Supplied s z →
      (E.Gives 0x02 s z 2 (s.number z 0 * s.number z 1 % 2 ^ 256) ↔ E.HeapServes s.heapPos 195)) ∧
    ((Insn.arithm 3).Supplied s z →
      (E.Gives 0x03 s z 2 ((s.number z 0 + 2 ^ 256 - s.number z 1) % 2 ^ 256) ↔
        E.HeapServes s.heapPos 195)) := by
  refine ⟨?_, ?_, ?_⟩
  · intro h
    exact (h.gives_iff (by decide) (by decide) (by decide)).trans (and_iff_left sum_result)
  · intro h
    exact (h.gives_iff (by decide) (by decide) (by decide)).trans (and_iff_left product_result)
  · intro h
    exact (h.gives_iff (by decide) (by decide) (by decide)).trans (and_iff_left difference_result)

theorem add_mul_sub_seven_two : (cemu .zero).Gives 0x01 (stackOf [7, 2]) 7 2 9 ∧
    (cemu .zero).Gives 0x02 (stackOf [7, 2]) 7 2 14 ∧
    (cemu .zero).Gives 0x03 (stackOf [7, 2]) 7 2 5 := by
  have ha : (stackOf [7, 2]).number 7 0 = 7 := number_stackOf (l := [7, 2]) (by decide) (by decide)
  have hb : (stackOf [7, 2]).number 7 1 = 2 := number_stackOf (l := [7, 2]) (by decide) (by decide)
  obtain ⟨hadd, hmul, hsub⟩ := add_mul_sub_iff (E := cemu .zero) (s := stackOf [7, 2]) (z := 7)
  rw [ha, hb] at hadd hmul hsub
  have hheap : (cemu .zero).HeapServes (stackOf [7, 2]).heapPos 195 :=
    heapServes_stackOf _ (by decide)
  refine ⟨(hadd ?_).mpr hheap, (hmul ?_).mpr hheap, (hsub ?_).mpr hheap⟩
  · exact supplied_stackOf (l := [7, 2]) (by decide) (by decide) (by decide)
  · exact supplied_stackOf (l := [7, 2]) (by decide) (by decide) (by decide)
  · exact supplied_stackOf (l := [7, 2]) (by decide) (by decide) (by decide)

/-- With no cells left one and one do not give two. -/
theorem add_exhausted : ¬ (cemu .zero).Gives 0x01 (exhausted [1, 1]) 7 2 2 := by
  have h : (Insn.arithm 1).Supplied (exhausted [1, 1]) 7 :=
    supplied_exhausted (supplied_stackOf (l := [1, 1]) (by decide) (by decide) (by decide))
  intro hgives
  obtain ⟨hheap, -⟩ := (h.gives_iff (by decide) (by decide) (by decide)).mp hgives
  exact not_heapServes_exhausted [1, 1] (by decide) hheap

theorem power_digits (a b : Reg) :
    (if eqZero (bigOf b) then setOne (bigOf a)
      else expLoop (bigOf a) (bigOf a) (bigOf b)).length = 16 ∧
    value (if eqZero (bigOf b) then setOne (bigOf a) else expLoop (bigOf a) (bigOf a) (bigOf b)) =
      regValue a ^ regValue b % 2 ^ 256 := by
  have hne : bigOf a ≠ [] := by
    intro h
    exact absurd (length_bigOf a) (by rw [h]; decide)
  by_cases hb : regValue b = 0
  · have hzero : eqZero (bigOf b) = true := eqZero_iff.mpr ((value_bigOf b).trans hb)
    rw [if_pos hzero, length_setOne, length_bigOf, value_setOne hne, hb, Nat.pow_zero]
    exact ⟨rfl, (Nat.mod_eq_of_lt (Nat.one_lt_two_pow (by decide))).symm⟩
  · have hb' : value (bigOf b) ≠ 0 := fun h => hb ((value_bigOf b).symm.trans h)
    rw [if_neg (eqZero_iff.not.mpr hb'), length_expLoop hb', length_bigOf, value_expLoop hb',
      length_bigOf, value_bigOf, value_bigOf]
    exact ⟨rfl, rfl⟩

/-- EXP: the guard of the loop fails for the first time after `b - 1` rounds, and what is left then
is the power modulo 2^256; a zero exponent gives one. -/
theorem exp_law (a b : Reg) :
    (∀ k < regValue b, eqOne ((expRound (bigOf a))^[k] (bigOf a, bigOf b)).2 = true ↔
      k + 1 = regValue b) ∧
    value (if eqZero (bigOf b) then setOne (bigOf a) else expLoop (bigOf a) (bigOf a) (bigOf b)) =
      regValue a ^ regValue b % 2 ^ 256 ∧
    ∀ (E : Engine w c) (s : Core w c) (z : Int), (Insn.arithm 10).Supplied s z →
      s.element z 0 = a → s.element z 1 = b →
      (E.Gives 0x0a s z 2 (regValue a ^ regValue b % 2 ^ 256) ↔ E.HeapServes s.heapPos 195) := by
  obtain ⟨hlen, hpower⟩ := power_digits a b
  refine ⟨?_, hpower, ?_⟩
  · intro k hk
    rw [expRounds_guard (bigOf a) (bigOf a) (by rwa [value_bigOf]), value_bigOf]
  · rintro E s z h rfl rfl
    refine (h.gives_iff (by decide) (by decide) (by decide)).trans (and_iff_left ?_)
    exact (regValue_arithm s z 10 hlen rfl).trans hpower

theorem exp_law_three_two : (cemu .zero).Gives 0x0a (stackOf [3, 2]) 7 2 9 := by
  have ha : regValue ((stackOf [3, 2]).element 7 0) = 3 :=
    number_stackOf (l := [3, 2]) (by decide) (by decide)
  have hb : regValue ((stackOf [3, 2]).element 7 1) = 2 :=
    number_stackOf (l := [3, 2]) (by decide) (by decide)
  obtain ⟨-, -, hexp⟩ := exp_law (w := 32) (c := 8) ((stackOf [3, 2]).element 7 0)
    ((stackOf [3, 2]).element 7 1)
  have h := hexp (cemu .zero) (stackOf [3, 2]) 7
    (supplied_stackOf (l := [3, 2]) (by decide) (by decide) (by decide)) rfl rfl
  rw [ha, hb] at h
  exact h.mpr (heapServes_stackOf _ (by decide))

section Modular

variable {s : Core w c} {z : Int}

theorem modular_digits {x : VBig} (hmod : modOperands (takeOperands s z (arithmArity op)) op =
      some (x, bigOf (s.element z 2))) (h7 : op ≠ 7) (hx : x.length = 16) :
    regValue ((Insn.arithm op).resultReg ((Insn.arithm op).paid s z) z) =
      if s.number z 2 = 0 then value (leftover s (.arithm op))
      else if 2 ^ 255 ≤ value x ∧ value x < s.number z 2 then value x - 2 ^ 255
      else value x % s.number z 2 := by
  have hdigits : arithmValue op (byteAt (s.word (z - 3)) 7).toNat
      (takeOperands s z (arithmArity op)) ((Insn.arithm op).paid s z).stale =
        modDigits x (bigOf (s.element z 2)) (leftover s (.arithm op)) := by
    simp only [arithmValue, hmod, if_neg h7, hx, length_bigOf, Nat.max_self, stale_paid]
  have hlen : (modDigits x (bigOf (s.element z 2)) (leftover s (.arithm op))).length = 16 := by
    rw [modDigits, length_setBignum, length_divPair_fst, hx]
  rw [regValue_arithm s z op hlen hdigits, value_modDigits_leftover _ _ hx (length_bigOf _),
    value_bigOf]
  rfl

theorem modular_result (hm : op = 8 ∧ m = s.number z 0 + s.number z 1 ∨
      op = 9 ∧ m = s.number z 0 * s.number z 1) :
    regValue ((Insn.arithm op).resultReg ((Insn.arithm op).paid s z) z) =
      if s.number z 2 = 0 then value (leftover s (.arithm op))
      else if 2 ^ 255 ≤ m % (2 * 2 ^ 255) ∧ m % (2 * 2 ^ 255) < s.number z 2
      then m % (2 * 2 ^ 255) - 2 ^ 255 else m % (2 * 2 ^ 255) % s.number z 2 := by
  have hpow : 2 ^ (16 * 16) = 2 * 2 ^ 255 := Nat.pow_succ'
  have ha := value_bigOf (s.element z 0)
  have hb := value_bigOf (s.element z 1)
  have hl := length_bigOf (s.element z 0)
  rcases hm with ⟨rfl, rfl⟩ | ⟨rfl, rfl⟩
  · have hsum := value_add (x := bigOf (s.element z 0)) (y := bigOf (s.element z 1))
      (by rw [length_bigOf, length_bigOf])
    rw [hl, hpow, ha, hb] at hsum
    rw [modular_digits (x := add (bigOf (s.element z 0)) (bigOf (s.element z 1))) rfl (by decide)
      ((length_add _ _).trans hl), hsum]
    rfl
  · have hproduct := value_mul (bigOf (s.element z 0)) (bigOf (s.element z 1))
    rw [hl, hpow, ha, hb] at hproduct
    rw [modular_digits (x := mul (bigOf (s.element z 0)) (bigOf (s.element z 1))) rfl (by decide)
      ((length_mul _ _).trans hl), hproduct]
    rfl

end Modular

/-- ADDMOD and MULMOD cut the sum or product off at 256 bits before they reduce it: they are right
when the part that is cut off, with the bit the remainder may lose, is a multiple of the modulus. -/
theorem addmod_mulmod_iff {E : Engine w c} {s : Core w c}
    (hm : op = 8 ∧ m = s.number z 0 + s.number z 1 ∨ op = 9 ∧ m = s.number z 0 * s.number z 1)
    (h : (Insn.arithm op).Supplied s z) :
    E.Gives (BitVec.ofNat 8 op) s z 3 (if s.number z 2 = 0 then 0 else m % s.number z 2) ↔
      E.HeapServes s.heapPos ((Insn.arithm op).need s z) ∧
      (s.number z 2 = 0 → value (leftover s (.arithm op)) = 0) ∧
      (s.number z 2 ≠ 0 → s.number z 2 ∣ 2 * 2 ^ 255 * (m / (2 * 2 ^ 255)) +
        if 2 ^ 255 ≤ m % (2 * 2 ^ 255) ∧ m % (2 * 2 ^ 255) < s.number z 2 then 2 ^ 255 else 0) := by
  have hgives :
      E.Gives (BitVec.ofNat 8 op) s z 3 (if s.number z 2 = 0 then 0 else m % s.number z 2) ↔
      E.HeapServes s.heapPos ((Insn.arithm op).need s z) ∧
      regValue ((Insn.arithm op).resultReg ((Insn.arithm op).paid s z) z) =
        if s.number z 2 = 0 then 0 else m % s.number z 2 := by
    rcases hm with ⟨rfl, -⟩ | ⟨rfl, -⟩
    · exact h.gives_iff (by decide) (by decide) (by decide)
    · exact h.gives_iff (by decide) (by decide) (by decide)
  rw [hgives, modular_result hm]
  by_cases h0 : s.number z 2 = 0
  · simp only [h0, if_true, true_implies, ne_eq, not_true_eq_false, false_implies, and_true]
  · simp only [h0, if_false, false_implies, ne_eq, not_false_eq_true, true_implies, true_and]
    rw [cut_off_mod_iff]

theorem addmod_mulmod_seven_five : (cemu .zero).Gives 0x08 (stackOf [7, 5, 3]) 11 3 0 ∧
    (cemu .zero).Gives 0x09 (stackOf [7, 5, 3]) 11 3 2 := by
  have ha : (stackOf [7, 5, 3]).number 11 0 = 7 :=
    number_stackOf (l := [7, 5, 3]) (by decide) (by decide)
  have hb : (stackOf [7, 5, 3]).number 11 1 = 5 :=
    number_stackOf (l := [7, 5, 3]) (by decide) (by decide)
  have hn : (stackOf [7, 5, 3]).number 11 2 = 3 :=
    number_stackOf (l := [7, 5, 3]) (by decide) (by decide)
  have hadd :=
    addmod_mulmod_iff (E := cemu .zero) (s := stackOf [7, 5, 3]) (z := 11) (.inl ⟨rfl, rfl⟩)
      (supplied_stackOf (l := [7, 5, 3]) (by decide) (by decide) (by decide))
  have hmul :=
    addmod_mulmod_iff (E := cemu .zero) (s := stackOf [7, 5, 3]) (z := 11) (.inr ⟨rfl, rfl⟩)
      (supplied_stackOf (l := [7, 5, 3]) (by decide) (by decide) (by decide))
  have hneed : ∀ op, 65 * (arithmArity op + 1) + 51 ≤ heapSize →
      (Insn.arithm op).need (stackOf [7, 5, 3]) 11 ≤ heapSize := fun op h =>
    (need_arithm_le (stackOf [7, 5, 3]) 11 op).trans h
  rw [ha, hb, hn] at hadd hmul
  constructor
  · refine hadd.mpr ⟨heapServes_stackOf _ (hneed 8 (by decide)), ?_, ?_⟩
    · intro h0
      cases h0
    · intro _
      decide
  · refine hmul.mpr ⟨heapServes_stackOf _ (hneed 9 (by decide)), ?_, ?_⟩
    · intro h0
      cases h0
    · intro _
      decide

/-- The sum and the product 2^256 are reduced to zero before they are taken modulo three. -/
theorem modular_cut_off : ¬ (cemu .zero).Gives 0x08 (stackOf [2 ^ 256 - 1, 1, 3]) 11 3 1 ∧
    ¬ (cemu .zero).Gives 0x09 (stackOf [2 ^ 128, 2 ^ 128, 3]) 11 3 1 := by
  constructor
  · intro h
    have hs : (Insn.arithm 8).Supplied (stackOf [2 ^ 256 - 1, 1, 3]) 11 :=
      supplied_stackOf (l := [2 ^ 256 - 1, 1, 3]) (by decide) (by decide) (by decide)
    have ha : (stackOf [2 ^ 256 - 1, 1, 3]).number 11 0 = 2 ^ 256 - 1 :=
      number_stackOf (l := [2 ^ 256 - 1, 1, 3]) (by decide) (by decide)
    have hb : (stackOf [2 ^ 256 - 1, 1, 3]).number 11 1 = 1 :=
      number_stackOf (l := [2 ^ 256 - 1, 1, 3]) (by decide) (by decide)
    have hn : (stackOf [2 ^ 256 - 1, 1, 3]).number 11 2 = 3 :=
      number_stackOf (l := [2 ^ 256 - 1, 1, 3]) (by decide) (by decide)
    obtain ⟨-, hv⟩ := (hs.gives_iff (by decide) (by decide) (by decide)).mp h
    rw [modular_result (.inl ⟨rfl, rfl⟩), ha, hb, hn, if_neg (by decide)] at hv
    exact absurd hv (by decide)
  · intro h
    have hs : (Insn.arithm 9).Supplied (stackOf [2 ^ 128, 2 ^ 128, 3]) 11 :=
      supplied_stackOf (l := [2 ^ 128, 2 ^ 128, 3]) (by decide) (by decide) (by decide)
    have ha : (stackOf [2 ^ 128, 2 ^ 128, 3]).number 11 0 = 2 ^ 128 :=
      number_stackOf (l := [2 ^ 128, 2 ^ 128, 3]) (by decide) (by decide)
    have hb : (stackOf [2 ^ 128, 2 ^ 128, 3]).number 11 1 = 2 ^ 128 :=
      number_stackOf (l := [2 ^ 128, 2 ^ 128, 3]) (by decide) (by decide)
    have hn : (stackOf [2 ^ 128, 2 ^ 128, 3]).number 11 2 = 3 :=
      number_stackOf (l := [2 ^ 128, 2 ^ 128, 3]) (by decide) (by decide)
    obtain ⟨-, hv⟩ := (hs.gives_iff (by decide) (by decide) (by decide)).mp h
    rw [modular_result (.inr ⟨rfl, rfl⟩), ha, hb, hn, if_neg (by decide)] at hv
    exact absurd hv (by decide)

section Extension

variable {s : Core w c} {z : Int}

theorem extension_result : regValue ((Insn.arithm 11).resultReg ((Insn.arithm 11).paid s z) z) =
    if s.number z 0 % 256 < 31
    then extended (2 ^ 255) (8 * (s.number z 0 % 256) + 7) (s.number z 1) else s.number z 1 := by
  have hl : (signExtend (bigOf (s.element z 1)) (s.number z 0 % 256)).length = 16 := by
    rw [length_signExtend, length_bigOf]
  have hset : setBignum (bigOf (s.element z 0))
        (signExtend (bigOf (s.element z 1)) (s.number z 0 % 256)) =
      signExtend (bigOf (s.element z 1)) (s.number z 0 % 256) :=
    setBignum_self_length ((length_bigOf _).trans hl.symm)
  rw [regValue_arithm s z 11 hl (by rw [← hset, ← s.index_byte]; rfl)]
  by_cases hk : s.number z 0 % 256 < 31
  · rw [if_pos hk, value_signExtend (length_bigOf _) hk, value_bigOf]
    rfl
  · rw [if_neg hk, signExtend, if_neg hk, value_bigOf]
    rfl

end Extension

/-- SIGNEXTEND looks at the low byte of its index only. -/
theorem signextend_iff {E : Engine w c} {s : Core w c} (h : (Insn.arithm 11).Supplied s z) :
    E.Gives 0x0b s z 2 (if s.number z 0 < 31
        then extended (2 ^ 255) (8 * s.number z 0 + 7) (s.number z 1) else s.number z 1) ↔
      E.HeapServes s.heapPos 195 ∧ (s.number z 0 < 256 ∨ 31 ≤ s.number z 0 % 256 ∨
        extended (2 ^ 255) (8 * (s.number z 0 % 256) + 7) (s.number z 1) = s.number z 1) := by
  refine (h.gives_iff (by decide) (by decide) (by decide)).trans (and_congr_right fun _ => ?_)
  rw [extension_result]
  exact Core.index_byte_iff (g := fun k => extended (2 ^ 255) (8 * k + 7) (s.number z 1))
    (by decide)

theorem signextend_byte : (cemu .zero).Gives 0x0b (stackOf [0, 0xff]) 7 2 (2 ^ 256 - 1) := by
  have hk : (stackOf [0, 0xff]).number 7 0 = 0 :=
    number_stackOf (l := [0, 0xff]) (by decide) (by decide)
  have hx : (stackOf [0, 0xff]).number 7 1 = 0xff :=
    number_stackOf (l := [0, 0xff]) (by decide) (by decide)
  have h := signextend_iff (E := cemu .zero) (s := stackOf [0, 0xff]) (z := 7)
    (supplied_stackOf (l := [0, 0xff]) (by decide) (by decide) (by decide))
  have hv : extended (2 ^ 255) 7 0xff = 2 ^ 256 - 1 := by decide
  rw [hk, hx, if_pos (by decide)] at h
  rw [← hv]
  exact h.mpr ⟨heapServes_stackOf _ (by decide), .inl (by decide)⟩

/-- Index 256 is taken for index zero. -/
theorem signextend_large_index : ¬ (cemu .zero).Gives 0x0b (stackOf [256, 0xff]) 7 2 0xff := by
  have hk : (stackOf [256, 0xff]).number 7 0 = 256 :=
    number_stackOf (l := [256, 0xff]) (by decide) (by decide)
  have hx : (stackOf [256, 0xff]).number 7 1 = 0xff :=
    number_stackOf (l := [256, 0xff]) (by decide) (by decide)
  have hs : (Insn.arithm 11).Supplied (stackOf [256, 0xff]) 7 :=
    supplied_stackOf (l := [256, 0xff]) (by decide) (by decide) (by decide)
  intro h
  obtain ⟨-, hv⟩ := (hs.gives_iff (by decide) (by decide) (by decide)).mp h
  rw [extension_result, hk, hx] at hv
  exact absurd hv (by decide)

end GvmCore
