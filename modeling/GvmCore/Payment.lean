import GvmCore.Results

namespace GvmCore
open Exec VBignum Signed
set_option autoImplicit true

/-- A payment changes the gas, the digit heap and the console. -/
structure PaysOnly (s t : Core w c) : Prop where
  eq : t = { s with
    gasAvailable := t.gasAvailable
    heap := t.heap
    heapPos := t.heapPos
    console := t.console }

theorem PaysOnly.refl (s : Core w c) : PaysOnly s s := ⟨rfl⟩

theorem PaysOnly.word {s t : Core w c} (h : PaysOnly s t) (i : Int) : t.word i = s.word i := by
  rw [h.eq]
  rfl

theorem PaysOnly.address {s t : Core w c} (h : PaysOnly s t) (z : Int) :
    t.address z = s.address z := by
  unfold Core.address
  rw [h.word]

theorem PaysOnly.takeOperands {s t : Core w c} (h : PaysOnly s t) (z : Int) (k : Nat) :
    takeOperands t z k = takeOperands s z k := by
  rw [h.eq]
  rfl

theorem PaysOnly.register {s t : Core w c} (h : PaysOnly s t) (reg : Register) :
    reg.value t = reg.value s := by
  rw [h.eq]
  cases reg <;> rfl

theorem useGas_paysOnly {E : Engine w c} {s t : Core w c} (h : useGas E v s = .ok u t) :
    PaysOnly s t := by
  obtain ⟨-, ⟨-, rfl⟩ | ⟨-, -, rfl⟩⟩ := useGas_eq_ok.mp h
  · exact ⟨rfl⟩
  · exact ⟨rfl⟩

theorem payGas_paysOnly {E : Engine w c} {s t : Core w c} (h : payGas E v s = .ok u t) :
    PaysOnly s t := by
  cases v with
  | none =>
    cases h
    exact .refl s
  | some v => exact useGas_paysOnly h

theorem checkError_eq_ok {E : Engine w c} {s t : Core w c} :
    checkError E s = .ok u t ↔ E.checkErrorThrows = false ∧ s = t := by
  unfold checkError
  split <;> simp_all

theorem checkError_eq_exit {E : Engine w c} {s t : Core w c} :
    checkError E s = .exit t ↔ E.checkErrorThrows = true ∧ s = t := by
  unfold checkError
  split <;> simp_all

theorem arithmPay_paysOnly {E : Engine w c} {s t : Core w c}
    (h : arithmPay E opcode s = .ok u t) : PaysOnly s t := by
  unfold arithmPay at h
  split at h
  · obtain ⟨-, rfl⟩ := checkError_eq_ok.mp h
    exact .refl s
  · exact payGas_paysOnly h

theorem takeOperands_taken (s : Core w c) (z : Int) (k j : Nat) :
    takeOperands (s.taken z k) z j = takeOperands s z j := by
  unfold Core.taken
  rw [Core.convertedTop_eq]
  rfl

theorem doArithm_eq_ok (E : Engine w c) {s t : Core w c} (h : SpAt s z) :
    doArithm E opcode s = .ok u t ↔ E.HeapServes s.heapPos (65 * arithmArity opcode) ∧
      OperandsIn z (arithmArity opcode) ∧
      ∃ s', arithmPay E opcode (s.taken z (arithmArity opcode)) = .ok () s' ∧
        E.HeapServes s'.heapPos
          (arithmCells opcode (takeOperands s' z (arithmArity opcode))) ∧
        ResultIn z (arithmArity opcode) ∧ s'.arithmed z opcode = t := by
  have hsame : ∀ s', arithmPay E opcode (s.taken z (arithmArity opcode)) = .ok () s' →
      takeOperands s' z (arithmArity opcode) = takeOperands s z (arithmArity opcode) :=
    fun s' hpay => ((arithmPay_paysOnly hpay).takeOperands z _).trans (takeOperands_taken s z _ _)
  unfold doArithm
  rw [bind_of_ok (read_apply _ _), h.spInt32 E]
  constructor
  · intro hok
    obtain ⟨_, _, ho, hok⟩ := bind_eq_ok.mp hok
    obtain ⟨hp, hin, rfl, rfl⟩ := arithmOperands_eq_ok.mp ho
    obtain ⟨_, _, hset, hok⟩ := bind_eq_ok.mp hok
    obtain rfl := setSp_ofInt_eq_ok.mp hset
    obtain ⟨_, _, hr, hput⟩ := bind_eq_ok.mp hok
    rw [arithmResult_eq] at hr
    obtain ⟨_, s', hpay, hc⟩ := bind_eq_ok.mp hr
    obtain ⟨hcells, -, rfl, rfl⟩ := arithmCompute_eq_ok.mp hc
    obtain ⟨i0, i3, rfl⟩ := stackPutReg_eq_ok.mp hput
    rw [← hsame s' hpay] at hcells
    refine ⟨hp, hin, s', hpay, hcells, (resultIn_iff hin).mpr ⟨i0, i3⟩, ?_⟩
    simp only [Core.arithmed, hsame s' hpay]
  · rintro ⟨hp, hin, s', hpay, hcells, hres, rfl⟩
    rw [hsame s' hpay] at hcells
    obtain ⟨i0, i3⟩ := (resultIn_iff hin).mp hres
    have harg : opcode = 11 → InStack (z - 3) := by
      rintro rfl
      have hin2 : OperandsIn z 2 := hin
      simp only [OperandsIn, InStack] at hin2 ⊢
      omega
    refine bind_eq_ok.mpr ⟨_, _, arithmOperands_eq_ok.mpr ⟨hp, hin, rfl, rfl⟩, ?_⟩
    refine bind_eq_ok.mpr ⟨(), _, setSp_ofInt_eq_ok.mpr rfl, ?_⟩
    rw [arithmResult_eq]
    refine bind_eq_ok.mpr ⟨_, _, bind_eq_ok.mpr ⟨(), s', hpay,
      arithmCompute_eq_ok.mpr ⟨hcells, harg, rfl, rfl⟩⟩, stackPutReg_eq_ok.mpr ⟨i0, i3, ?_⟩⟩
    simp only [Core.arithmed, hsame s' hpay]

theorem doArithm_eq_exit (E : Engine w c) {s t : Core w c} (h : SpAt s z) :
    doArithm E opcode s = .exit t ↔ E.HeapServes s.heapPos (65 * arithmArity opcode) ∧
      OperandsIn z (arithmArity opcode) ∧
      arithmPay E opcode (s.taken z (arithmArity opcode)) = .exit t := by
  unfold doArithm
  rw [bind_of_ok (read_apply _ _), h.spInt32 E]
  constructor
  · intro hex
    rcases bind_eq_exit.mp hex with hex | ⟨_, _, ho, hex⟩
    · exact absurd hex ((returnsOr_arithmOperands E _ _).noExit _ _)
    obtain ⟨hp, hin, rfl, rfl⟩ := arithmOperands_eq_ok.mp ho
    rcases bind_eq_exit.mp hex with hex | ⟨_, _, hset, hex⟩
    · exact absurd hex ((returnsOr_setSp _).noExit _ _)
    obtain rfl := setSp_ofInt_eq_ok.mp hset
    rcases bind_eq_exit.mp hex with hex | ⟨_, _, -, hex⟩
    · rw [arithmResult_eq] at hex
      rcases bind_eq_exit.mp hex with hex | ⟨_, _, -, hex⟩
      · exact ⟨hp, hin, hex⟩
      · exact absurd hex ((returnsOr_arithmCompute E _ _ _).noExit _ _)
    · exact absurd hex ((returnsOr_stackPutReg _ _).noExit _ _)
  · rintro ⟨hp, hin, hex⟩
    refine bind_eq_exit.mpr (.inr ⟨_, _, arithmOperands_eq_ok.mpr ⟨hp, hin, rfl, rfl⟩, ?_⟩)
    refine bind_eq_exit.mpr (.inr ⟨(), _, setSp_ofInt_eq_ok.mpr rfl, ?_⟩)
    rw [arithmResult_eq]
    exact bind_eq_exit.mpr (.inl (bind_eq_exit.mpr (.inl hex)))

theorem doCompare_eq_ok (E : Engine w c) {s t : Core w c} (h : SpAt s z) :
    doCompare E opcode s = .ok u t ↔ E.HeapServes s.heapPos (65 * compareArity opcode) ∧
      OperandsIn z (compareArity opcode) ∧
      ∃ s', payGas E (compareGas opcode) (s.taken z (compareArity opcode)) = .ok () s' ∧
        ResultIn z (compareArity opcode) ∧ s'.compared z opcode = t := by
  have hsame : ∀ s', payGas E (compareGas opcode) (s.taken z (compareArity opcode)) = .ok () s' →
      takeOperands s' z (compareArity opcode) = takeOperands s z (compareArity opcode) :=
    fun s' hpay => ((payGas_paysOnly hpay).takeOperands z _).trans (takeOperands_taken s z _ _)
  unfold doCompare
  rw [bind_of_ok (read_apply _ _), h.spInt32 E]
  constructor
  · intro hok
    obtain ⟨_, _, ho, hok⟩ := bind_eq_ok.mp hok
    obtain ⟨hp, hin, rfl, rfl⟩ := compareOperands_eq_ok.mp ho
    obtain ⟨_, _, hset, hok⟩ := bind_eq_ok.mp hok
    obtain rfl := setSp_ofInt_eq_ok.mp hset
    obtain ⟨_, _, hr, hput⟩ := bind_eq_ok.mp hok
    rw [compareResult_eq] at hr
    obtain ⟨_, s', hpay, hc⟩ := bind_eq_ok.mp hr
    obtain ⟨-, rfl, rfl⟩ := compareCompute_eq_ok.mp hc
    obtain ⟨i0, i3, rfl⟩ := stackPutReg_eq_ok.mp hput
    refine ⟨hp, hin, s', hpay, (resultIn_iff hin).mpr ⟨i0, i3⟩, ?_⟩
    simp only [Core.compared, hsame s' hpay]
  · rintro ⟨hp, hin, s', hpay, hres, rfl⟩
    obtain ⟨i0, i3⟩ := (resultIn_iff hin).mp hres
    have harg : opcode = 10 → InStack (z - 3) := by
      rintro rfl
      have hin2 : OperandsIn z 2 := hin
      simp only [OperandsIn, InStack] at hin2 ⊢
      omega
    refine bind_eq_ok.mpr ⟨_, _, compareOperands_eq_ok.mpr ⟨hp, hin, rfl, rfl⟩, ?_⟩
    refine bind_eq_ok.mpr ⟨(), _, setSp_ofInt_eq_ok.mpr rfl, ?_⟩
    rw [compareResult_eq]
    refine bind_eq_ok.mpr ⟨_, _, bind_eq_ok.mpr ⟨(), s', hpay,
      compareCompute_eq_ok.mpr ⟨harg, rfl, rfl⟩⟩, stackPutReg_eq_ok.mpr ⟨i0, i3, ?_⟩⟩
    simp only [Core.compared, hsame s' hpay]

theorem doCompare_eq_exit (E : Engine w c) {s t : Core w c} (h : SpAt s z) :
    doCompare E opcode s = .exit t ↔ E.HeapServes s.heapPos (65 * compareArity opcode) ∧
      OperandsIn z (compareArity opcode) ∧
      payGas E (compareGas opcode) (s.taken z (compareArity opcode)) = .exit t := by
  unfold doCompare
  rw [bind_of_ok (read_apply _ _), h.spInt32 E]
  constructor
  · intro hex
    rcases bind_eq_exit.mp hex with hex | ⟨_, _, ho, hex⟩
    · exact absurd hex ((returnsOr_compareOperands E _ _).noExit _ _)
    obtain ⟨hp, hin, rfl, rfl⟩ := compareOperands_eq_ok.mp ho
    rcases bind_eq_exit.mp hex with hex | ⟨_, _, hset, hex⟩
    · exact absurd hex ((returnsOr_setSp _).noExit _ _)
    obtain rfl := setSp_ofInt_eq_ok.mp hset
    rcases bind_eq_exit.mp hex with hex | ⟨_, _, -, hex⟩
    · rw [compareResult_eq] at hex
      rcases bind_eq_exit.mp hex with hex | ⟨_, _, -, hex⟩
      · exact ⟨hp, hin, hex⟩
      · exact absurd hex ((returnsOr_compareCompute _ _ _).noExit _ _)
    · exact absurd hex ((returnsOr_stackPutReg _ _).noExit _ _)
  · rintro ⟨hp, hin, hex⟩
    refine bind_eq_exit.mpr (.inr ⟨_, _, compareOperands_eq_ok.mpr ⟨hp, hin, rfl, rfl⟩, ?_⟩)
    refine bind_eq_exit.mpr (.inr ⟨(), _, setSp_ofInt_eq_ok.mpr rfl, ?_⟩)
    rw [compareResult_eq]
    exact bind_eq_exit.mpr (.inl (bind_eq_exit.mpr (.inl hex)))

end GvmCore
