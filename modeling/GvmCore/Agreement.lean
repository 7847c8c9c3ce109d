import GvmCore.DivisionLaws
import GvmCore.MemorySize
import GvmCore.PushLaw
import GvmCore.StorageLaw

namespace GvmCore
open Exec VBignum Digits Signed
set_option autoImplicit true

/-- Two machines, each run by its engine, hold the same contract state. An entry of the storage with
the key -1 is empty; code is what an engine reads below the code size. -/
structure Agree (E : Engine w c) (E' : Engine w' c') (s : Core w c) (t : Core w' c') : Prop where
  data : SameData 2048 s t
  sp : s.sp.toInt = t.sp.toInt
  memSize : s.memSize.toNat = t.memSize.toNat
  gas : s.gasAvailable = t.gasAvailable
  storage : ∀ k ≠ -1, s.mainStorage.load k = t.mainStorage.load k
  regs : s.regs = t.regs
  elfSize : s.elfSize.toNat = t.elfSize.toNat
  code : ∀ a, a.toNat < s.elfSize.toNat → E.fetch s.prog a = E'.fetch t.prog a
  pc : s.pc = t.pc

theorem toInt_ofInt_of_bounds (hw : 32 ≤ w) (h0 : -2 ^ 31 ≤ z) (h1 : z < 2 ^ 31) :
    (BitVec.ofInt w z).toInt = z := by
  have hpow : (2 : Int) ^ 32 ≤ 2 ^ w := two_pow_le hw
  rw [BitVec.toInt_ofInt]
  apply Int.bmod_eq_of_le <;> push_cast <;> omega

theorem SpAt.toInt (E : Engine w c) {s : Core w c} (h : SpAt s z) : s.sp.toInt = z := by
  rw [h.sp]
  exact toInt_ofInt_of_bounds E.spBits h.lower h.upper

theorem spAt_of_toInt {s : Core w c} (h : s.sp.toInt = z) (h0 : -2 ^ 31 ≤ z) (h1 : z < 2 ^ 31) :
    SpAt s z := by
  refine ⟨?_, h0, h1⟩
  rw [← h, BitVec.ofInt_toInt]

theorem SameData.word_eq {s : Core w c} {t : Core w' c'} (h : SameData 2048 s t) (i : Int) :
    s.word i = t.word i := by
  by_cases hi : InStack i
  · exact h.word i hi.2
  · rw [word_of_not_inStack s hi, word_of_not_inStack t hi]

theorem GasAfter.eq_of_covered {E : Engine w c} (h : GasAfter E g g' v)
    (hc : ∀ x ∈ v, x.toNat ≤ regValue g) : g' = v.elim g (gasSub g) := by
  cases v with
  | none => exact h
  | some x =>
    have hx := hc x rfl
    obtain ⟨-, rfl⟩ | ⟨hlt, -⟩ := h
    · rfl
    · omega

namespace Insn

/-- What an instruction reads that need not agree: program bytes behind the code, and the heap cells
of a remainder that a zero modulus leaves as they are. -/
def ReadsSame (E : Engine w c) (E' : Engine w' c') (s : Core w c) (t : Core w' c') (z : Int) :
    Insn → Prop
  | .push count => immediate E s (count + 1) = immediate E' t (count + 1)
  | .arithm op => ∀ x y, modOperands (takeOperands s z (arithmArity op)) op = some (x, y) →
      value y = 0 → leftover s (.arithm op) = leftover t (.arithm op)
  | _ => True

/-- The stack has the operands and room for the result, the addressed cells are in the memory
array, a key that is loaded has been stored, and the charge is covered. -/
structure Ready (s : Core w c) (z : Int) (I : Insn) : Prop where
  sp : SpAt s z
  operands : I.EntryIn z
  fits : I.Fits s z
  low : -1 ≤ z + I.delta
  high : z + I.delta < 2048
  stored : ∀ takesAddr, I = .mem takesAddr 4 →
    ∃ r, s.mainStorage.load ((memAddr s takesAddr z).setWidth 32) = some r
  covered : I.Covered s

section Reads

variable {E : Engine w c} {E' : Engine w' c'} {s : Core w c} {t : Core w' c'}

theorem length_leftover (s : Core w c) (I : Insn) : (leftover s I).length = 16 := by
  simp [leftover, loadDigits]

theorem leftover_of_fresh {s : Core w c} (h : s.Fresh 51) (hc : 1 ≤ I.conversions) :
    leftover s I = List.replicate 16 0 := by
  apply List.eq_replicate_iff.mpr
  refine ⟨length_leftover s I, ?_⟩
  intro d hd
  obtain ⟨i, -, rfl⟩ := List.mem_map.mp hd
  exact h _ (by omega)

theorem conversions_pos (h : modOperands o op = some xy) : 1 ≤ (Insn.arithm op).conversions := by
  match op with
  | 6 | 7 | 8 | 9 => decide
  | 0 | 1 | 2 | 3 | 4 | 5 => cases h
  | n + 10 => cases h

theorem mul_signum_iff (hx : x.length = 16) (hy : y.length = 16) (a : VBig) :
    bignumToReg (mul x (signum a)) = bignumToReg (mul y (signum a)) ↔ x = y := by
  constructor
  · intro h
    apply mul_signum_injective hx hy
    exact bignumToReg_injective ((length_mul _ _).trans hx) ((length_mul _ _).trans hy) h
  · exact fun h => by rw [h]

theorem bignumToReg_iff (hx : x.length = 16) (hy : y.length = 16) :
    bignumToReg x = bignumToReg y ↔ x = y :=
  ⟨bignumToReg_injective hx hy, congrArg bignumToReg⟩

theorem arithmReg_paid_iff (h : ∀ i ≤ z, s.word i = t.word i) (op : Nat) :
    ((Insn.arithm op).paid s z).arithmReg z op = ((Insn.arithm op).paid t z).arithmReg z op ↔
      (Insn.arithm op).ReadsSame E E' s t z := by
  have hs : takeOperands ((Insn.arithm op).paid s z) z (arithmArity op) =
      takeOperands s z (arithmArity op) := takeOperands_congr (fun i _ => paid_word s z _ i) _
  have ht : takeOperands ((Insn.arithm op).paid t z) z (arithmArity op) =
      takeOperands s z (arithmArity op) :=
    takeOperands_congr (fun i hi => (paid_word t z _ i).trans (h i hi).symm) _
  unfold Core.arithmReg ReadsSame
  rw [hs, ht, paid_word, paid_word, h (z - 3) (by omega)]
  cases hm : modOperands (takeOperands s z (arithmArity op)) op with
  | none => simp only [arithmValue, hm, reduceCtorEq, false_implies, implies_true]
  | some xy =>
    obtain ⟨x, y⟩ := xy
    obtain ⟨hx, hy⟩ := length_modOperands hm
    have hl := length_leftover s (.arithm op)
    have hl' := length_leftover t (.arithm op)
    simp only [arithmValue, hm, hx, hy, Nat.max_self, stale_paid, Option.some.injEq, Prod.mk.injEq]
    by_cases hzero : value y = 0
    · rw [modDigits_of_zero hzero (hx.trans hl.symm), modDigits_of_zero hzero (hx.trans hl'.symm)]
      have hreads : (∀ x' y', x = x' ∧ y = y' → value y' = 0 →
          leftover s (.arithm op) = leftover t (.arithm op)) ↔
          leftover s (.arithm op) = leftover t (.arithm op) :=
        ⟨fun hr => hr x y ⟨rfl, rfl⟩ hzero, fun hr _ _ _ _ => hr⟩
      rw [hreads]
      by_cases h7 : op = 7
      · rw [if_pos h7, if_pos h7]
        exact mul_signum_iff hl hl' _
      · rw [if_neg h7, if_neg h7]
        exact bignumToReg_iff hl hl'
    · rw [modDigits_congr hzero (hl.trans hl'.symm) x]
      refine iff_of_true rfl ?_
      rintro x' y' ⟨-, rfl⟩ h0
      exact absurd h0 hzero

theorem pushReg_iff (hstale : staleWord s z n = staleWord t z n) (hn : n ≤ 32) :
    pushReg E s z n = pushReg E' t z n ↔ immediate E s n = immediate E' t n := by
  have hlen : (immediate E s n).length = (immediate E' t n).length := by simp [immediate]
  have hvalue : pushReg E s z n = pushReg E' t z n ↔
      value (immediate E s n).reverse = value (immediate E' t n).reverse := by
    have hs := regValue_pushReg E s z hn
    have ht := regValue_pushReg E' t z hn
    rw [hstale] at hs
    constructor
    · intro heq
      rw [heq, ht] at hs
      exact (Nat.add_right_cancel hs).symm
    · intro heq
      apply regValue_injective
      rw [hs, ht, heq]
  rw [hvalue]
  constructor
  · intro heq
    have hrev := value_injective (by simpa using hlen) heq
    exact List.reverse_injective hrev
  · exact fun heq => by rw [heq]

theorem Ready.of_agree (h : Agree E E' s t) {I : Insn} (hr : I.Ready s z) : I.Ready t z := by
  have hword : ∀ i ≤ z, t.word i = s.word i := fun i _ => (h.data.word_eq i).symm
  constructor
  · exact spAt_of_toInt (h.sp.symm.trans (hr.sp.toInt E)) hr.sp.lower hr.sp.upper
  · exact hr.operands
  · exact (fits_congr hword I).mpr hr.fits
  · exact hr.low
  · exact hr.high
  · intro takesAddr hI
    rw [memAddr_congr hword, ← h.storage _ (memAddr_ne_empty s takesAddr z)]
    exact hr.stored takesAddr hI
  · intro v hv
    have hle := hr.covered v hv
    rwa [Core.gas, h.gas] at hle

theorem memSame_paid (takesAddr : Bool) (op : Nat) (hpc : s.pc = t.pc)
    (hload : op = 4 → ∃ r, s.mainStorage.load ((memAddr s takesAddr z).setWidth 32) = some r ∧
      t.mainStorage.load ((memAddr s takesAddr z).setWidth 32) = some r)
    (hsize : op = 9 → s.memSize.setWidth 64 = t.memSize.setWidth 64)
    (hgas : op = 10 → s.gasAvailable = t.gasAvailable) :
    (Insn.mem takesAddr op).Same E E' ((Insn.mem takesAddr op).paid s z)
      ((Insn.mem takesAddr op).paid t z) z := by
  have haddr : memAddr (paid s z (.mem takesAddr op)) takesAddr z = memAddr s takesAddr z :=
    memAddr_congr (fun i _ => paid_word s z _ i) takesAddr
  simp only [Same, haddr]
  match op with
  | 4 =>
    obtain ⟨r, hs, ht⟩ := hload rfl
    simp only [MemSame, storageValue]
    rw [paid_keeps s, paid_keeps t]
    simp only [hs, ht, Option.getD_some]
  | 8 =>
    change (paid s z _).pc = (paid t z _).pc
    rw [paid_keeps s, paid_keeps t]
    exact hpc
  | 9 =>
    change (paid s z _).memSize.setWidth 64 = (paid t z _).memSize.setWidth 64
    rw [paid_keeps s, paid_keeps t]
    exact hsize rfl
  | 10 =>
    change (paid s z _).gasAvailable = (paid t z _).gasAvailable
    rw [gasAvailable_paid, gasAvailable_paid, hgas rfl]
  | 0 | 1 | 2 | 3 | 5 | 6 | 7 | 11 => trivial
  | n + 12 => trivial

theorem Ready.same_iff (h : Agree E E' s t) (hk : E.keccak = E'.keccak) {I : Insn} (hI : I.InRange)
    (hr : I.Ready s z) : I.Same E E' (I.paid s z) (I.paid t z) z ↔ I.ReadsSame E E' s t z := by
  have hword := h.data.word_eq
  cases I with
  | noOp | chargeOnly | returnInst | dup | swap | compare => exact Iff.rfl
  | pushRegister gas reg =>
    refine iff_of_true ?_ trivial
    change reg.value (paid s z _) = reg.value (paid t z _)
    have helf : s.elfSize.setWidth 64 = t.elfSize.setWidth 64 := by
      apply BitVec.eq_of_toNat_eq
      rw [BitVec.toNat_setWidth, BitVec.toNat_setWidth, h.elfSize]
    rw [paid_keeps s, paid_keeps t]
    cases reg <;> simp only [Register.value, h.regs, helf]
  | push count =>
    change pushReg E (paid s z _) z _ = pushReg E' (paid t z _) z _ ↔ _
    rw [pushReg_paid, pushReg_paid]
    exact pushReg_iff (by simp only [staleWord, hword]) (Nat.succ_le_of_lt hI)
  | arithm op => exact arithmReg_paid_iff (fun i _ => hword i) op
  | sha3 => exact iff_of_true hk trivial
  | mem takesAddr op =>
    refine iff_of_true (memSame_paid takesAddr op h.pc ?_ ?_ fun _ => h.gas) trivial
    · rintro rfl
      obtain ⟨r, hload⟩ := hr.stored takesAddr rfl
      have hload' := h.storage _ (memAddr_ne_empty s takesAddr z)
      exact ⟨r, hload, hload'.symm.trans hload⟩
    · intro _
      apply BitVec.eq_of_toNat_eq
      rw [BitVec.toNat_setWidth, BitVec.toNat_setWidth, h.memSize]

theorem sameData_paid (h : SameData 2048 s t) (z : Int) (I : Insn) (m : Int) :
    SameData m (I.paid s z) (I.paid t z) := by
  have hm : SameData m s t := ⟨fun i _ => h.word_eq i, h.cell⟩
  refine hm.congr ?_ ?_ ?_ ?_ <;> rw [paid_keeps]

theorem Ready.readsSame (h : SameData 2048 s t) {I : Insn} (hI : I.InRange) (hr : I.Ready s z)
    (hdata : SameData 2048 (I.effect E (I.paid s z) z) (I.effect E' (I.paid t z) z)) :
    I.ReadsSame E E' s t z := by
  have hhigh := hr.high
  cases I with
  | push count =>
    have h1 := hr.fits 0 (zero_mem_pushIndices (Nat.succ_pos count))
    have h4 : InStack (z + 4) := ⟨by have := h1.1; omega, hhigh⟩
    have helement := hdata.element (z := z + 4) hhigh 0
    simp only [effect] at helement
    rw [Core.element_pushed _ (by simpa using h1) h4, Core.element_pushed _ (by simpa using h1) h4,
      pushReg_paid, pushReg_paid] at helement
    exact (pushReg_iff (by simp only [staleWord, h.word_eq]) (Nat.succ_le_of_lt hI)).mp helement
  | arithm op =>
    apply (arithmReg_paid_iff (fun i _ => h.word_eq i) op).mp
    funext k
    have hin : InStack (resultIndex z (arithmArity op) + (k : Nat)) := by
      obtain ⟨h0, h3⟩ := (resultIn_iff hr.operands).mp hr.fits
      have hk := k.isLt
      simp only [InStack] at *
      omega
    have hword := hdata.word_eq (resultIndex z (arithmArity op) + (k : Nat))
    simp only [effect, Core.arithmed_eq] at hword
    rwa [Core.word_putReg _ _ k hin, Core.word_putReg _ _ k hin] at hword
  | _ => trivial

theorem savedStorage_load (h : ∀ i, s.word i = t.word i)
    (hs : ∀ k ≠ -1, s.mainStorage.load k = t.mainStorage.load k) (I : Insn) (hk : k ≠ -1) :
    (I.savedStorage s z).load k = (I.savedStorage t z).load k := by
  cases I with
  | mem takesAddr op =>
    have haddr : memAddr t takesAddr z = memAddr s takesAddr z :=
      memAddr_congr (fun i _ => (h i).symm) takesAddr
    have hreg : ∀ i, s.reg i = t.reg i := fun i => funext fun j => h _
    simp only [savedStorage, Core.saved, haddr, hreg]
    split
    · rw [Chain.load_save _ (memAddr_ne_empty s takesAddr z) hk,
        Chain.load_save _ (memAddr_ne_empty s takesAddr z) hk, hs k hk]
    · exact hs k hk
  | _ => exact hs k hk

/-- Machines that agree do so after an instruction exactly when it has read the same in both. -/
theorem Ready.agree_iff (h : Agree E E' s t) (hk : E.keccak = E'.keccak)
    (hsize : s.memSize.toNat < 2 ^ 32) {I : Insn} (hI : I.InRange) (hr : I.Ready s z)
    (h0 : I ≠ .arithm 0) (hs : I.exec E s = .ok pw s') (ht : I.exec E' t = .ok pw' t') :
    Agree E E' s' t' ↔ I.ReadsSame E E' s t z := by
  have hr' := hr.of_agree h
  have fs := exec_facts E hI hr.sp hs
  have ft := exec_facts E' hI hr'.sp ht
  obtain ⟨-, -, -, -, heffect⟩ :=
    (exec_eq_ok_of_covered hI hr.sp hr.covered fun h => absurd h h0).mp hs
  obtain ⟨-, -, -, -, heffect'⟩ :=
    (exec_eq_ok_of_covered hI hr'.sp hr'.covered fun h => absurd h h0).mp ht
  constructor
  · intro hagree
    apply hr.readsSame h.data hI
    rw [heffect, heffect']
    exact hagree.data
  · intro hreads
    have hlow := hr.low
    have hhigh := hr.high
    constructor
    · have hsame := (hr.same_iff h hk hI).mpr hreads
      have hdata := effect_same (sameData_paid h.data z I (max 2048 (z + 1))) (by omega) hsame
      rw [heffect, heffect'] at hdata
      exact hdata.mono (by omega)
    · rw [fs.sp, ft.sp, toInt_ofInt_of_bounds E.spBits (by omega) (by omega),
        toInt_ofInt_of_bounds E'.spBits (by omega) (by omega)]
    · have haccess : I.access t z = I.access s z :=
        access_congr (fun i _ => (h.data.word_eq i).symm) I
      rw [memSize_exec hI hr.sp hsize hs, memSize_exec hI hr'.sp (h.memSize ▸ hsize) ht, sizeAfter,
        sizeAfter, haccess, h.memSize]
    · rw [fs.gas.eq_of_covered hr.covered, ft.gas.eq_of_covered hr'.covered, h.gas]
    · intro k hk
      rw [fs.storage, ft.storage]
      exact savedStorage_load h.data.word_eq h.storage I hk
    · rw [fs.regs, ft.regs, h.regs]
    · rw [fs.elfSize, ft.elfSize, h.elfSize]
    · rw [fs.elfSize, fs.prog, ft.prog]
      exact h.code
    · rw [fs.pc, ft.pc, h.pc]

end Reads

end Insn

end GvmCore
