import GvmCore.InsnEffect

namespace GvmCore
open Exec VBignum Signed
set_option autoImplicit true

theorem PaysOnly.spAt {s t : Core w c} (h : PaysOnly s t) (hz : SpAt s z) : SpAt t z :=
  ⟨by rw [h.eq]; exact hz.sp, hz.lower, hz.upper⟩

theorem noPc_eq_ok {m : M w c Unit} {s t : Core w c} :
    noPc m s = .ok pw t ↔ m s = .ok () t ∧ PcWrite.none = pw := by
  simp only [noPc, bind_eq_ok, pure_apply, Outcome.ok.injEq]
  constructor
  · rintro ⟨_, _, h, rfl, rfl⟩
    exact ⟨h, rfl⟩
  · rintro ⟨h, rfl⟩
    exact ⟨(), t, h, rfl, rfl⟩

theorem noPc_eq_exit {m : M w c Unit} {s t : Core w c} : noPc m s = .exit t ↔ m s = .exit t := by
  rw [noPc, bind_eq_exit]
  simp

theorem paid_eq_ok {E : Engine w c} {m : M w c Unit} {s t : Core w c} {P : Core w c → Prop}
    {f : Core w c → Core w c} (hs : SpAt s z)
    (hm : ∀ s' t, SpAt s' z → (m s' = .ok () t ↔ P s' ∧ f s' = t)) :
    noPc (do
      useGas E v
      m) s = .ok pw t ↔
      ∃ s', payGas E (some v) s = .ok () s' ∧ P s' ∧ PcWrite.none = pw ∧ f s' = t := by
  rw [noPc_eq_ok, bind_eq_ok]
  constructor
  · rintro ⟨⟨_, s', hpay, h⟩, rfl⟩
    obtain ⟨hP, hf⟩ := (hm s' t ((useGas_paysOnly hpay).spAt hs)).mp h
    exact ⟨s', hpay, hP, rfl, hf⟩
  · rintro ⟨s', hpay, hP, rfl, hf⟩
    exact ⟨⟨(), s', hpay, (hm s' t ((useGas_paysOnly hpay).spAt hs)).mpr ⟨hP, hf⟩⟩, rfl⟩

theorem paid_eq_exit {E : Engine w c} {m : M w c Unit} {s t : Core w c} (hm : ReturnsOr P m) :
    noPc (do
      useGas E v
      m) s = .exit t ↔ payGas E (some v) s = .exit t := by
  rw [noPc_eq_exit, bind_eq_exit]
  constructor
  · rintro (h | ⟨_, s', -, h⟩)
    · exact h
    · exact absurd h (hm.noExit s' t)
  · exact .inl

theorem charged_eq_ok {E : Engine w c} {s t : Core w c} :
    noPc (useGas E v) s = .ok pw t ↔
      ∃ s', payGas E (some v) s = .ok () s' ∧ PcWrite.none = pw ∧ s' = t := by
  rw [noPc_eq_ok]
  constructor
  · rintro ⟨h, rfl⟩
    exact ⟨t, h, rfl, rfl⟩
  · rintro ⟨_, h, rfl, rfl⟩
    exact ⟨h, rfl⟩

theorem memOp_eq_ok (E : Engine w c) {s t : Core w c} (hs : SpAt s y) :
    memOp E addrVal op s = .ok pw t ↔ ∃ s', payGas E (memGas op) s = .ok () s' ∧
      MemFits addrVal y op ∧ memWrite addrVal op = pw ∧ memEffect E s' addrVal y op = t := by
  match op with
  | 0 =>
    refine paid_eq_ok hs fun s' t h => ?_
    simp only [pop, update_apply, h.sub_four, MemFits, memEffect, true_and, Outcome.ok.injEq]
  | 1 =>
    refine paid_eq_ok hs fun s' t h => ?_
    simp only [mloadInst_eq_ok E h, MemFits, memEffect, and_assoc]
  | 2 =>
    refine paid_eq_ok hs fun s' t h => ?_
    simp only [mStoreInst_eq_ok E h, MemFits, memEffect, and_assoc]
  | 3 =>
    refine paid_eq_ok hs fun s' t h => ?_
    simp only [mStore8Inst_eq_ok E h, MemFits, memEffect, and_assoc]
  | 4 =>
    refine paid_eq_ok hs fun s' t h => ?_
    simp only [loadFromStorage_eq_ok E h, MemFits, memEffect, and_assoc]
  | 5 =>
    refine paid_eq_ok hs fun s' t h => ?_
    simp only [saveToStorage_eq_ok E h, MemFits, memEffect, and_assoc]
  | 6 =>
    simp only [memOp, bind_eq_ok, pure_apply, Outcome.ok.injEq, MemFits, memWrite,
      memEffect, true_and]
    constructor
    · rintro ⟨_, s', h, rfl, rfl⟩
      exact ⟨_, h, rfl, rfl⟩
    · rintro ⟨s', h, rfl, rfl⟩
      exact ⟨(), _, h, rfl, rfl⟩
  | 7 | 11 =>
    simp only [MemFits, true_and]
    exact charged_eq_ok
  | 8 =>
    refine paid_eq_ok hs fun s' t h => ?_
    simp only [pcOp, bind_of_ok (read_apply _ _), pushBlock_eq_ok E h, MemFits,
      memEffect, and_assoc]
  | 9 =>
    refine paid_eq_ok hs fun s' t h => ?_
    simp only [mSizeOp, bind_of_ok (read_apply _ _), pushBlock_eq_ok E h, MemFits, memEffect,
      and_assoc]
  | 10 =>
    refine paid_eq_ok hs fun s' t h => ?_
    simp only [gasOp_eq_ok E h, MemFits, memEffect, and_assoc]
  | n + 12 =>
    simp only [memOp, pure_apply, Outcome.ok.injEq, MemFits, memWrite, memEffect, memGas, payGas,
      true_and]
    simp

theorem memOp_eq_exit (E : Engine w c) {s t : Core w c} :
    memOp E addrVal op s = .exit t ↔ payGas E (memGas op) s = .exit t := by
  match op with
  | 0 => exact paid_eq_exit (P := Fault.Indexing) (.update _)
  | 1 => exact paid_eq_exit (returnsOr_mloadInst _)
  | 2 => exact paid_eq_exit (returnsOr_mStoreInst _)
  | 3 => exact paid_eq_exit (returnsOr_mStore8Inst _)
  | 4 => exact paid_eq_exit (returnsOr_loadFromStorage E _)
  | 5 => exact paid_eq_exit (returnsOr_saveToStorage _)
  | 6 =>
    simp only [memOp, bind_eq_exit, pure_apply]
    simp [memGas, payGas]
  | 7 | 11 => exact noPc_eq_exit
  | 8 | 9 => exact paid_eq_exit (.bind (.read _) fun _ => returnsOr_pushBlock _)
  | 10 => exact paid_eq_exit returnsOr_gasOp
  | n + 12 => simp [memOp, memGas, payGas]

theorem Core.pushed_withSp (s : Core w c) (x z : Int) (r : Reg) :
    (s.withSp x).pushed z r = s.pushed z r := by
  simp only [Core.pushed, Core.putReg_withSp, Core.withSp_withSp]

theorem Core.pushed_eq (s : Core w c) (z : Int) (r : Reg) :
    s.pushed z r = { s with
      stackArr := (s.pushed z r).stackArr
      sp := (s.pushed z r).sp } := by
  simp only [Core.pushed, Core.withSp]
  rw [Core.putReg_eq]

theorem keccakAlgStub_eq_ok (E : Engine w c) {s t : Core w c} (h : SpAt s z) :
    keccakAlgStub E s = .ok u t ↔ Insn.sha3.Fits s z ∧ Insn.sha3.effect E s z = t := by
  have hu := h.upper
  have h8 : z - 4 - 4 = z - 8 := by omega
  have h7 : z - 4 - 3 = z - 7 := by omega
  have hput : ∀ r, (s.withSp (z - 8)).pushed (z - 8) r = s.pushed (z - 8) r := fun r =>
    s.pushed_withSp _ _ r
  simp only [Insn.Fits, Insn.effect]
  unfold keccakAlgStub
  rw [bind_eq_ok]
  constructor
  · rintro ⟨_, _, ha, hok⟩
    obtain ⟨i3, rfl, rfl⟩ := (getSingleBlock_eq_ok E h).mp ha
    have hz : 0 ≤ z - 3 := i3.1
    obtain ⟨_, _, hb, hok⟩ := bind_eq_ok.mp hok
    obtain ⟨i7, rfl, rfl⟩ := (getSingleBlock_eq_ok E (.withSp (by omega) (by omega))).mp hb
    have hz' : 0 ≤ z - 4 - 3 := i7.1
    rw [Core.withSp_withSp, h8, keccakAlg_eq_ok E (.withSp (by omega) (by omega))] at hok
    obtain ⟨hin, hsize, -, -, rfl⟩ := hok
    exact ⟨⟨i3, h7 ▸ i7, hin, hsize⟩, (hput _).symm⟩
  · rintro ⟨⟨i3, i7, hin, hsize⟩, rfl⟩
    have hz : 0 ≤ z - 7 := i7.1
    have hz' : z - 3 < 2048 := i3.2
    refine ⟨_, _, (getSingleBlock_eq_ok E h).mpr ⟨i3, rfl, rfl⟩, ?_⟩
    refine bind_eq_ok.mpr ⟨_, _, (getSingleBlock_eq_ok E (.withSp (by omega) (by omega))).mpr
      ⟨h7 ▸ i7, rfl, rfl⟩, ?_⟩
    rw [Core.withSp_withSp, h8, keccakAlg_eq_ok E (.withSp (by omega) (by omega))]
    refine ⟨hin, hsize, ?_, ?_, hput _⟩ <;> simp only [InStack] at * <;> omega

theorem returnsOr_keccakAlgStub (E : Engine w c) :
    ReturnsOr (fun f => f.Indexing ∨ f = .keccakBuffer) (keccakAlgStub E) :=
  .bind (returnsOr_getSingleBlockFromStack.mono fun _ => .inl) fun _ =>
    .bind (returnsOr_getSingleBlockFromStack.mono fun _ => .inl) fun _ =>
    (returnsOr_keccakAlg E _ _).mono fun _ => Or.imp_right And.left

namespace Insn

/-- What an instruction that returns has found and done. -/
theorem exec_eq_ok (E : Engine w c) {s t : Core w c} {I : Insn} (hI : I.InRange) (h : SpAt s z) :
    I.exec E s = .ok pw t ↔ I.EntryIn z ∧ E.HeapServes s.heapPos (65 * I.arity) ∧
      ∃ s', I.pay E (I.entry s z) = .ok () s' ∧ E.HeapServes s'.heapPos (I.scratch s' z) ∧
        I.Fits s' z ∧ I.write s' z = pw ∧ I.effect E s' z = t := by
  have hz : ∀ pos, E.HeapServes pos 0 := Engine.HeapServes.zero E
  cases I with
  | noOp =>
    simp [exec, EntryIn, arity, hz, pay, payGas, charge, entry, scratch, Fits, write, effect]
  | chargeOnly gas =>
    simp only [EntryIn, arity, hz, scratch, Fits, true_and, Nat.mul_zero]
    exact charged_eq_ok
  | pushRegister gas reg =>
    simp only [EntryIn, arity, hz, scratch, true_and, Nat.mul_zero]
    have hread : ∀ r, exec E (.pushRegister gas reg) s = r ↔ noPc (do
        useGas E gas
        pushBlock (swapBytes (reg.value s))) s = r := by
      intro r
      rw [exec, GvmCore.pushRegister]
      simp only [noPc, bind_assoc, bind_of_ok (read_apply _ _), pushSingleBlockToStack]
    rw [hread, paid_eq_ok h fun s' t h' => by rw [pushBlock_eq_ok E h', ← and_assoc]]
    refine exists_congr fun s' => and_congr_right fun hpay => ?_
    simp only [effect, (payGas_paysOnly hpay).register reg]
    rfl
  | returnInst =>
    simp only [Fits, false_and, and_false, exists_false, iff_false]
    rw [exec, noPc_eq_ok, GvmCore.returnInst, bind_eq_ok]
    rintro ⟨⟨_, _, -, h⟩, -⟩
    cases h
  | push count =>
    have hcount : count < 32 := hI
    simp only [EntryIn, arity, hz, scratch, true_and, Nat.mul_zero]
    simp only [exec, bind_eq_ok, read_apply, pure_apply, Outcome.ok.injEq]
    constructor
    · rintro ⟨_, s', hpay, _, t', hpush, _, _, ⟨rfl, rfl⟩, rfl, rfl⟩
      obtain ⟨hfit, rfl⟩ := (pushInst_eq_ok E ((useGas_paysOnly hpay).spAt h) (by omega)
        (by omega)).mp hpush
      exact ⟨s', hpay, hfit, by rw [Core.pushed_eq]; rfl, rfl⟩
    · rintro ⟨s', hpay, hfit, rfl, rfl⟩
      exact ⟨(), s', hpay, (), _, (pushInst_eq_ok E ((useGas_paysOnly hpay).spAt h) (by omega)
        (by omega)).mpr ⟨hfit, rfl⟩, _, _, ⟨rfl, rfl⟩, by rw [Core.pushed_eq]; rfl, rfl⟩
  | dup count =>
    simp only [EntryIn, arity, hz, scratch, true_and, Nat.mul_zero]
    refine paid_eq_ok h fun s' t h' => ?_
    simp only [dupOp_eq_ok E h' hI, Fits, effect, and_assoc]
  | swap count =>
    simp only [EntryIn, arity, hz, scratch, true_and, Nat.mul_zero]
    refine paid_eq_ok h fun s' t h' => ?_
    simp only [swapOp_eq_ok E h' hI, Fits, effect, and_assoc]
  | mem takesAddr op =>
    cases takesAddr with
    | false =>
      simp only [EntryIn, arity, hz, scratch, true_and, Nat.mul_zero]
      simp only [exec, Bool.false_eq_true, if_false, pure_bind]
      exact memOp_eq_ok E h
    | true =>
      have hu := h.upper
      simp only [EntryIn, arity, hz, scratch, true_and, Nat.mul_zero]
      simp only [exec, if_true, bind_eq_ok, getSingleBlock_eq_ok E h, Fits, write, effect, memAddr,
        memBase]
      have haddr : ∀ s', payGas E (memGas op) (s.withSp (z - 4)) = .ok () s' →
          s'.address z = s.address z := by
        intro s' hpay
        rw [(payGas_paysOnly hpay).address]
        rfl
      constructor
      · rintro ⟨_, _, ⟨i3, rfl, rfl⟩, hok⟩
        have hz' : 0 ≤ z - 3 := i3.1
        obtain ⟨s', hpay, hfit, hw, ht⟩ := (memOp_eq_ok E (.withSp (by omega) (by omega))).mp hok
        rw [← haddr s' hpay] at hfit hw ht
        exact ⟨i3, s', hpay, hfit, hw, ht⟩
      · rintro ⟨i3, s', hpay, hfit, hw, ht⟩
        have hz' : 0 ≤ z - 3 := i3.1
        rw [haddr s' hpay] at hfit hw ht
        exact ⟨_, _, ⟨i3, rfl, rfl⟩, (memOp_eq_ok E (.withSp (by omega) (by omega))).mpr
          ⟨s', hpay, hfit, hw, ht⟩⟩
  | arithm op =>
    rw [exec, noPc_eq_ok, doArithm_eq_ok E h]
    constructor
    · rintro ⟨⟨hp, hin, s', hpay, hcells, hres, ht⟩, hw⟩
      exact ⟨hin, hp, s', hpay, hcells, hres, hw, ht⟩
    · rintro ⟨hin, hp, s', hpay, hcells, hres, hw, ht⟩
      exact ⟨⟨hp, hin, s', hpay, hcells, hres, ht⟩, hw⟩
  | compare op =>
    rw [exec, noPc_eq_ok, doCompare_eq_ok E h]
    constructor
    · rintro ⟨⟨hp, hin, s', hpay, hres, ht⟩, hw⟩
      exact ⟨hin, hp, s', hpay, hz _, hres, hw, ht⟩
    · rintro ⟨hin, hp, s', hpay, -, hres, hw, ht⟩
      exact ⟨⟨hp, hin, s', hpay, hres, ht⟩, hw⟩
  | sha3 =>
    simp only [EntryIn, arity, hz, scratch, true_and, Nat.mul_zero]
    exact paid_eq_ok h fun s' t h' => keccakAlgStub_eq_ok E h'

/-- An instruction unwinds at its charge, or after it when it is RETURN. -/
theorem exec_eq_exit (E : Engine w c) {s t : Core w c} {I : Insn} (h : SpAt s z) :
    I.exec E s = .exit t ↔ I.EntryIn z ∧ E.HeapServes s.heapPos (65 * I.arity) ∧
      (I.pay E (I.entry s z) = .exit t ∨ I = .returnInst ∧ I.pay E s = .ok () t) := by
  have hz : ∀ pos, E.HeapServes pos 0 := Engine.HeapServes.zero E
  cases I with
  | noOp => simp [exec, pay, payGas, charge]
  | chargeOnly gas =>
    simp only [EntryIn, arity, hz, true_and, Nat.mul_zero, reduceCtorEq, false_and, or_false]
    exact noPc_eq_exit
  | pushRegister gas reg =>
    simp only [EntryIn, arity, hz, true_and, Nat.mul_zero, reduceCtorEq, false_and, or_false]
    rw [exec, noPc_eq_exit, GvmCore.pushRegister, bind_of_ok (read_apply _ _), ← noPc_eq_exit]
    exact paid_eq_exit (returnsOr_pushBlock _)
  | returnInst =>
    simp only [EntryIn, arity, hz, true_and, Nat.mul_zero]
    rw [exec, noPc_eq_exit, GvmCore.returnInst, bind_eq_exit]
    refine or_congr Iff.rfl ?_
    constructor
    · rintro ⟨_, _, hpay, hexit⟩
      cases hexit
      exact hpay
    · exact fun hpay => ⟨(), t, hpay, rfl⟩
  | push count =>
    simp only [EntryIn, arity, hz, true_and, Nat.mul_zero, reduceCtorEq, false_and, or_false]
    rw [exec, bind_eq_exit]
    refine or_iff_left ?_
    rintro ⟨_, s', -, hexit⟩
    exact ((returnsOr_pushInst E _).bind fun _ => .bind (.read _) fun _ =>
      .pure _).noExit s' t hexit
  | dup count =>
    simp only [EntryIn, arity, hz, true_and, Nat.mul_zero, reduceCtorEq, false_and, or_false]
    exact paid_eq_exit (returnsOr_dupOp _)
  | swap count =>
    simp only [EntryIn, arity, hz, true_and, Nat.mul_zero, reduceCtorEq, false_and, or_false]
    exact paid_eq_exit (returnsOr_swapOp _)
  | mem takesAddr op =>
    cases takesAddr with
    | false =>
      simp only [EntryIn, arity, hz, true_and, Nat.mul_zero, reduceCtorEq, false_and, or_false]
      simp only [exec, Bool.false_eq_true, if_false, pure_bind]
      exact memOp_eq_exit E
    | true =>
      simp only [EntryIn, arity, hz, true_and, Nat.mul_zero, reduceCtorEq, false_and, or_false]
      simp only [exec, if_true, bind_eq_exit, getSingleBlock_eq_ok E h]
      constructor
      · rintro (hexit | ⟨_, _, ⟨i3, rfl, rfl⟩, hexit⟩)
        · exact absurd hexit (returnsOr_getSingleBlockFromStack.noExit _ _)
        · exact ⟨i3, (memOp_eq_exit E).mp hexit⟩
      · rintro ⟨i3, hexit⟩
        exact .inr ⟨_, _, ⟨i3, rfl, rfl⟩, (memOp_eq_exit E).mpr hexit⟩
  | arithm op =>
    simp only [reduceCtorEq, false_and, or_false]
    rw [exec, noPc_eq_exit, doArithm_eq_exit E h, and_left_comm]
    rfl
  | compare op =>
    simp only [reduceCtorEq, false_and, or_false]
    rw [exec, noPc_eq_exit, doCompare_eq_exit E h, and_left_comm]
    rfl
  | sha3 =>
    simp only [EntryIn, arity, hz, true_and, Nat.mul_zero, reduceCtorEq, false_and, or_false]
    exact paid_eq_exit (returnsOr_keccakAlgStub E)

end Insn
end GvmCore
