import GvmCore.OperandLaws
import GvmCore.Remainder
import GvmCore.TwosComplement

namespace GvmCore
open Exec VBignum Digits TwosComplement
set_option autoImplicit true

/-- The digits in the cells `v_bignum_mod` takes for its remainder. -/
def leftover (s : Core w c) (I : Insn) : VBig :=
  loadDigits s.heap (s.heapPos + 65 * I.conversions) 16

section Step

variable {E : Engine w c} {s t : Core w c} {z : Int} {op : Nat}

theorem stale_paid (I : Insn) : (I.paid s z).stale 16 = leftover s I := by
  unfold Core.stale leftover loadDigits
  rw [I.heapPos_paid]
  apply List.map_congr_left
  intro i _
  exact I.heap_paid s z (by omega)

theorem number_lt (s : Core w c) (z : Int) (k : Nat) : s.number z k < 2 * 2 ^ 255 :=
  regValue_lt (s.element z k)

theorem quotient_paid (hop : op = 4 ∨ op = 5) :
    regValue (((Insn.arithm op).paid s z).arithmReg z op) = s.number z 0 / s.number z 1 := by
  have hq : ((Insn.arithm op).paid s z).arithmReg z op =
      bignumToReg (divPair (bigOf (s.element z 0)) (bigOf (s.element z 1)) vbignum256).1 := by
    rcases hop with rfl | rfl <;> rw [Core.arithmReg, Insn.takeOperands_paid] <;> rfl
  rw [hq, regValue_bignumToReg (by rw [length_divPair_fst, length_bigOf]),
    value_divPair_fst (by rw [length_bigOf, length_bigOf]) (by rw [length_bigOf]; decide),
    value_bigOf, value_bigOf]
  rfl

def remainder (s : Core w c) (z : Int) (I : Insn) : VBig :=
  modDigits (bigOf (s.element z 0)) (bigOf (s.element z 1)) (leftover s I)

theorem remainder_paid (I : Insn) :
    modDigits (bigOf (s.element z 0)) (bigOf (s.element z 1)) ((I.paid s z).stale
      (max (bigOf (s.element z 0)).length (bigOf (s.element z 1)).length)) = remainder s z I := by
  rw [length_bigOf, length_bigOf, Nat.max_self, stale_paid]
  rfl

theorem length_remainder (s : Core w c) (z : Int) (I : Insn) : (remainder s z I).length = 16 := by
  rw [remainder, modDigits, length_setBignum, length_divPair_fst, length_bigOf]

theorem value_modDigits_leftover (s : Core w c) (I : Insn) (hx : x.length = 16)
    (hy : y.length = 16) :
    value (modDigits x y (leftover s I)) =
      if value y = 0 then value (leftover s I)
      else if 2 ^ 255 ≤ value x ∧ value x < value y then value x - 2 ^ 255
      else value x % value y := by
  have hlen : (leftover s I).length = 16 := by simp [leftover, loadDigits]
  by_cases hb : value y = 0
  · rw [if_pos hb, modDigits_of_zero hb (hx.trans hlen.symm)]
  · rw [if_neg hb,
      value_modDigits (hy.trans hx.symm) (hlen.trans hx.symm) (by rw [hx]; decide) hb, hx]

theorem value_remainder (s : Core w c) (z : Int) (I : Insn) : value (remainder s z I) =
    if s.number z 1 = 0 then value (leftover s I)
    else if 2 ^ 255 ≤ s.number z 0 ∧ s.number z 0 < s.number z 1 then s.number z 0 - 2 ^ 255
    else s.number z 0 % s.number z 1 := by
  rw [remainder, value_modDigits_leftover s I (length_bigOf _) (length_bigOf _), value_bigOf,
    value_bigOf]
  rfl

theorem value_mul_signum (s : Core w c) (z : Int) (hr : r.length = 16) :
    value (mul r (signum (bigOf (s.element z 0)))) =
      withSign (2 ^ 255) (s.number z 0) (value r) := by
  have hlt := value_lt r
  have hmod : 2 ^ (16 * r.length) = 2 * 2 ^ 255 := by
    rw [hr]
    exact Nat.pow_succ'
  rw [hmod] at hlt
  have hneg : bitTest (bigOf (s.element z 0)) 255 = true ↔ ¬ s.number z 0 < 2 ^ 255 := by
    rw [bitTest_eq, value_bigOf]
    exact testBit_iff (number_lt s z 0)
  rw [value_mul, hmod, value_signum, withSign]
  by_cases hn : s.number z 0 < 2 ^ 255
  · rw [if_neg (hneg.not.mpr (not_not.mpr hn)), if_pos hn, Nat.mul_one, Nat.mod_eq_of_lt hlt]
  · rw [if_pos (hneg.mpr hn), if_neg hn]
    exact mul_pred_mod hlt

end Step

theorem mod_result (s : Core w c) (z : Int) :
    regValue (((Insn.arithm 6).paid s z).arithmReg z 6) = value (remainder s z (.arithm 6)) := by
  have hr : ((Insn.arithm 6).paid s z).arithmReg z 6 = bignumToReg (remainder s z (.arithm 6)) := by
    rw [Core.arithmReg, Insn.takeOperands_paid, ← remainder_paid]
    rfl
  rw [hr, regValue_bignumToReg (length_remainder _ _ _)]

theorem smod_result (s : Core w c) (z : Int) :
    regValue (((Insn.arithm 7).paid s z).arithmReg z 7) =
      withSign (2 ^ 255) (s.number z 0) (value (remainder s z (.arithm 7))) := by
  have hr : ((Insn.arithm 7).paid s z).arithmReg z 7 =
      bignumToReg (mul (remainder s z (.arithm 7)) (signum (bigOf (s.element z 0)))) := by
    rw [Core.arithmReg, Insn.takeOperands_paid, ← remainder_paid]
    rfl
  rw [hr, regValue_bignumToReg (by rw [length_mul, length_remainder]),
    value_mul_signum s z (length_remainder _ _ _)]

/-- DIV replaces its operands by their integer quotient, by zero when the divisor is zero. -/
theorem div_law {E : Engine w c} {s : Core w c} (h : (Insn.arithm 4).Supplied s z)
    (hheap : E.HeapServes s.heapPos ((Insn.arithm 4).need s z)) :
    E.Gives 0x04 s z 2 (if s.number z 1 = 0 then 0 else s.number z 0 / s.number z 1) := by
  apply (h.gives_iff (by decide) (by decide) (by decide)).mpr
  refine ⟨hheap, (quotient_paid (.inl rfl)).trans ?_⟩
  split
  · rename_i h0
    rw [h0, Nat.div_zero]
  · rfl

theorem arithmCells_le (op : Nat) {o : Operands} (ha : o.a.length = 16)
    (hm : ∀ x y, modOperands o op = some (x, y) → x.length = 16 ∧ y.length = 16) :
    arithmCells op o ≤ 51 := by
  have hdiv : ∀ x y : VBig, x.length = 16 → divCells x y ≤ 34 := by
    intro x y hx
    unfold divCells
    split <;> omega
  unfold arithmCells
  split
  · rename_i x y heq
    obtain ⟨hx, hy⟩ := hm x y heq
    have hle := hdiv x y hx
    rw [modCells, hx, hy]
    omega
  · split
    · exact (hdiv o.a o.b ha).trans (by decide)
    · exact Nat.zero_le _

theorem need_arithm_le (s : Core w c) (z : Int) (op : Nat) :
    (Insn.arithm op).need s z ≤ 65 * (arithmArity op + 1) + 51 := by
  have hcells : arithmCells op (takeOperands s z (arithmArity op)) ≤ 51 :=
    arithmCells_le op (length_takeOperands s z _).1 fun _ _ => length_modOperands
  have hconv : (Insn.arithm op).conversions ≤ arithmArity op + 1 := by
    change arithmArity op + (if _ then 1 else 0) ≤ _
    split <;> omega
  change 65 * (Insn.arithm op).conversions + arithmCells op _ ≤ _
  omega

theorem supplied_pair (a b op : Nat) (hop : op = 4 ∨ op = 5 ∨ op = 6 ∨ op = 7) :
    (Insn.arithm op).Supplied (stackOf [a, b]) 7 ∧
      (cemu .zero).HeapServes (stackOf [a, b]).heapPos
        ((Insn.arithm op).need (stackOf [a, b]) 7) := by
  have h2 : arithmArity op = 2 := by
    rcases hop with rfl | rfl | rfl | rfl <;> rfl
  have hcharge : (Insn.arithm op).charge = some 5 := by
    rcases hop with rfl | rfl | rfl | rfl <;> rfl
  have hneed := need_arithm_le (stackOf [a, b]) 7 op
  rw [h2] at hneed
  have hlen : [a, b].length = 2 := rfl
  exact ⟨supplied_stackOf (l := [a, b]) (by omega) (le_of_eq h2) (by rw [hcharge]; decide),
    heapServes_stackOf _ (hneed.trans (by decide))⟩

theorem number_seven_two :
    (stackOf [7, 2]).number 7 0 = 7 ∧ (stackOf [7, 2]).number 7 1 = 2 :=
  ⟨number_stackOf (l := [7, 2]) (by decide) (by decide),
    number_stackOf (l := [7, 2]) (by decide) (by decide)⟩

theorem div_law_seven_two : (cemu .zero).Gives 0x04 (stackOf [7, 2]) 7 2 3 := by
  obtain ⟨hs, hheap⟩ := supplied_pair 7 2 4 (by decide)
  have h := div_law hs hheap
  rwa [number_seven_two.1, number_seven_two.2] at h

/-- MOD is right unless both operands reach the top bit and the first one is smaller; after a zero
modulus the result is what the cells of the remainder held. -/
theorem mod_law_iff {E : Engine w c} {s : Core w c} (h : (Insn.arithm 6).Supplied s z) :
    E.Gives 0x06 s z 2 (if s.number z 1 = 0 then 0 else s.number z 0 % s.number z 1) ↔
      E.HeapServes s.heapPos ((Insn.arithm 6).need s z) ∧
      (s.number z 1 = 0 → value (leftover s (.arithm 6)) = 0) ∧
      ¬ (2 ^ 255 ≤ s.number z 0 ∧ s.number z 0 < s.number z 1) := by
  refine (h.gives_iff (by decide) (by decide) (by decide)).trans (and_congr_right fun _ => ?_)
  change regValue (((Insn.arithm 6).paid s z).arithmReg z 6) = _ ↔ _
  rw [mod_result, value_remainder]
  by_cases hb : s.number z 1 = 0
  · have hlt : ¬ s.number z 0 < s.number z 1 := by
      rw [hb]
      exact Nat.not_lt_zero _
    rw [if_pos hb, if_pos hb]
    exact ⟨fun hv => ⟨fun _ => hv, fun hc => hlt hc.2⟩, fun hc => hc.1 hb⟩
  · rw [if_neg hb, if_neg hb, lost_bit_iff (Nat.two_pow_pos 255)]
    exact ⟨fun hc => ⟨fun h0 => absurd h0 hb, hc⟩, fun hc => hc.2⟩

theorem mod_law_seven_two : (cemu .zero).Gives 0x06 (stackOf [7, 2]) 7 2 1 := by
  obtain ⟨hs, hheap⟩ := supplied_pair 7 2 6 (by decide)
  have h := mod_law_iff (E := cemu .zero) hs
  rw [number_seven_two.1, number_seven_two.2] at h
  exact h.mpr ⟨hheap, fun h0 => (by cases h0), by decide⟩

/-- 2^255 modulo 2^255 + 1: the remainder 2^255 loses its only bit. -/
theorem mod_loses_top_bit :
    ¬ (cemu .zero).Gives 0x06 (stackOf [2 ^ 255, 2 ^ 255 + 1]) 7 2 (2 ^ 255) := by
  have ha : (stackOf [2 ^ 255, 2 ^ 255 + 1]).number 7 0 = 2 ^ 255 :=
    number_stackOf (l := [2 ^ 255, 2 ^ 255 + 1]) (by decide) (by decide)
  have hb : (stackOf [2 ^ 255, 2 ^ 255 + 1]).number 7 1 = 2 ^ 255 + 1 :=
    number_stackOf (l := [2 ^ 255, 2 ^ 255 + 1]) (by decide) (by decide)
  intro h
  obtain ⟨-, hv⟩ := ((supplied_pair (2 ^ 255) (2 ^ 255 + 1) 6 (by decide)).1.gives_iff (by decide)
    (by decide) (by decide)).mp h
  change regValue (((Insn.arithm 6).paid _ 7).arithmReg 7 6) = _ at hv
  rw [mod_result, value_remainder, ha, hb] at hv
  exact absurd hv (by decide)

/-- SDIV is the unsigned division: it is right where the signed and the unsigned quotient agree. -/
theorem sdiv_law_iff {E : Engine w c} {s : Core w c} (h : (Insn.arithm 5).Supplied s z) :
    E.Gives 0x05 s z 2 (wrapped (2 ^ 255)
        ((reading (2 ^ 255) (s.number z 0)).tdiv (reading (2 ^ 255) (s.number z 1)))) ↔
      E.HeapServes s.heapPos ((Insn.arithm 5).need s z) ∧
      (s.number z 1 = 0 ∨
        (s.number z 0 < 2 ^ 255 ∧
          (s.number z 1 < 2 ^ 255 ∨ s.number z 0 + s.number z 1 < 2 * 2 ^ 255)) ∨
        (2 ^ 255 ≤ s.number z 0 ∧ (s.number z 1 = 1 ∨ s.number z 0 = s.number z 1))) := by
  refine (h.gives_iff (by decide) (by decide) (by decide)).trans (and_congr_right fun _ => ?_)
  change regValue (((Insn.arithm 5).paid s z).arithmReg z 5) = _ ↔ _
  rw [quotient_paid (.inr rfl)]
  exact wrapped_tdiv_eq_div_iff (Nat.one_lt_two_pow (by decide)) (number_lt s z 0) (number_lt s z 1)

theorem sdiv_law_seven_two : (cemu .zero).Gives 0x05 (stackOf [7, 2]) 7 2 3 := by
  obtain ⟨hs, hheap⟩ := supplied_pair 7 2 5 (by decide)
  have h := sdiv_law_iff (E := cemu .zero) hs
  have hq : wrapped (2 ^ 255) ((reading (2 ^ 255) 7).tdiv (reading (2 ^ 255) 2)) = 3 := by
    decide
  rw [number_seven_two.1, number_seven_two.2, hq] at h
  exact h.mpr ⟨hheap, .inr (.inl (by decide))⟩

/-- Four by minus two: the unsigned quotient is zero, not minus two. -/
theorem sdiv_by_negative :
    ¬ (cemu .zero).Gives 0x05 (stackOf [4, 2 ^ 256 - 2]) 7 2
      (wrapped (2 ^ 255) ((reading (2 ^ 255) 4).tdiv (reading (2 ^ 255) (2 ^ 256 - 2)))) := by
  have ha : (stackOf [4, 2 ^ 256 - 2]).number 7 0 = 4 :=
    number_stackOf (l := [4, 2 ^ 256 - 2]) (by decide) (by decide)
  have hb : (stackOf [4, 2 ^ 256 - 2]).number 7 1 = 2 ^ 256 - 2 :=
    number_stackOf (l := [4, 2 ^ 256 - 2]) (by decide) (by decide)
  intro h
  obtain ⟨-, hv⟩ := ((supplied_pair 4 (2 ^ 256 - 2) 5 (by decide)).1.gives_iff (by decide)
    (by decide) (by decide)).mp h
  change regValue (((Insn.arithm 5).paid _ 7).arithmReg 7 5) = _ at hv
  rw [quotient_paid (.inr rfl), ha, hb] at hv
  exact absurd hv (by decide)

/-- SMOD gives the unsigned remainder the sign of the dividend. -/
theorem smod_law_iff {E : Engine w c} {s : Core w c} (h : (Insn.arithm 7).Supplied s z) :
    E.Gives 0x07 s z 2 (if s.number z 1 = 0 then 0 else wrapped (2 ^ 255)
        ((reading (2 ^ 255) (s.number z 0)).tmod (reading (2 ^ 255) (s.number z 1)))) ↔
      E.HeapServes s.heapPos ((Insn.arithm 7).need s z) ∧
      ((s.number z 1 = 0 ∧ value (leftover s (.arithm 7)) = 0) ∨
      (s.number z 1 ≠ 0 ∧
        ((s.number z 0 < 2 ^ 255 ∧
          (s.number z 1 < 2 ^ 255 ∨ s.number z 0 + s.number z 1 < 2 * 2 ^ 255)) ∨
        (2 ^ 255 ≤ s.number z 0 ∧ s.number z 1 < 2 ^ 255 ∧
          s.number z 1 ∣ 2 * s.number z 0 - 2 * 2 ^ 255) ∨
        (2 ^ 255 ≤ s.number z 1 ∧ (s.number z 0 = s.number z 1 ∨
          (s.number z 1 < s.number z 0 ∧ 2 * s.number z 0 = 2 * 2 ^ 255 + s.number z 1) ∨
          (2 ^ 255 ≤ s.number z 0 ∧ s.number z 0 < s.number z 1 ∧
            (2 * 2 ^ 255 - s.number z 0) % (2 * 2 ^ 255 - s.number z 1) =
              s.number z 0 - 2 ^ 255)))))) := by
  refine (h.gives_iff (by decide) (by decide) (by decide)).trans (and_congr_right fun _ => ?_)
  change regValue (((Insn.arithm 7).paid s z).arithmReg z 7) = _ ↔ _
  rw [smod_result]
  have hlt := value_lt (remainder s z (.arithm 7))
  rw [length_remainder] at hlt
  by_cases hb : s.number z 1 = 0
  · rw [if_pos hb, withSign_eq_zero hlt, value_remainder, if_pos hb]
    exact ⟨fun hv => .inl ⟨hb, hv⟩, fun hc => hc.elim And.right fun hc => absurd hb hc.1⟩
  · have ha := number_lt s z 0
    have hmag := (Nat.mod_le _ (magnitude (2 ^ 255) (s.number z 1))).trans_lt (magnitude_lt ha)
    rw [if_neg hb, wrapped_tmod ha (number_lt s z 1), withSign_inj hlt hmag, value_remainder,
      if_neg hb, mod_eq_magnitude_mod_iff hb ha (number_lt s z 1)]
    exact ⟨fun hc => .inr ⟨hb, hc⟩, fun hc => hc.elim (fun hc => absurd hc.1 hb) And.right⟩

theorem smod_law_seven_two : (cemu .zero).Gives 0x07 (stackOf [7, 2]) 7 2 1 := by
  obtain ⟨hs, hheap⟩ := supplied_pair 7 2 7 (by decide)
  have h := smod_law_iff (E := cemu .zero) hs
  have hr : wrapped (2 ^ 255) ((reading (2 ^ 255) 7).tmod (reading (2 ^ 255) 2)) = 1 := by
    decide
  rw [number_seven_two.1, number_seven_two.2, hr] at h
  exact h.mpr ⟨hheap, .inr ⟨by decide, .inl (by decide)⟩⟩

/-- Seven modulo minus three is one; the remainder of the unsigned numbers is seven. -/
theorem smod_by_negative :
    ¬ (cemu .zero).Gives 0x07 (stackOf [7, 2 ^ 256 - 3]) 7 2
      (wrapped (2 ^ 255) ((reading (2 ^ 255) 7).tmod (reading (2 ^ 255) (2 ^ 256 - 3)))) := by
  have ha : (stackOf [7, 2 ^ 256 - 3]).number 7 0 = 7 :=
    number_stackOf (l := [7, 2 ^ 256 - 3]) (by decide) (by decide)
  have hb : (stackOf [7, 2 ^ 256 - 3]).number 7 1 = 2 ^ 256 - 3 :=
    number_stackOf (l := [7, 2 ^ 256 - 3]) (by decide) (by decide)
  intro h
  obtain ⟨-, hv⟩ := ((supplied_pair 7 (2 ^ 256 - 3) 7 (by decide)).1.gives_iff (by decide)
    (by decide) (by decide)).mp h
  change regValue (((Insn.arithm 7).paid _ 7).arithmReg 7 7) = _ at hv
  rw [smod_result, value_remainder, ha, hb] at hv
  exact absurd hv (by decide)

end GvmCore
