import GvmCore.Functions
import GvmCore.Signed

namespace GvmCore
open Exec VBignum Signed
set_option autoImplicit true

namespace Core

def withSp (s : Core w c) (z : Int) : Core w c := { s with sp := BitVec.ofInt w z }

def reg (s : Core w c) (i : Int) : Reg := fun k => s.word (i + (k : Nat))

def putReg (s : Core w c) (i : Int) (r : Reg) : Core w c :=
  (((s.setWord i (r 0)).setWord (i + 1) (r 1)).setWord (i + 2) (r 2)).setWord (i + 3) (r 3)

def converted (s : Core w c) (r : Reg) : Core w c :=
  { s with
    heapPos := s.heapPos + 65
    heap := storeDigits (Function.update s.heap s.heapPos 64) s.heapPos (regToBignum r) }

theorem word_setWord_same (s : Core w c) (h : InStack i) (v : Word) :
    (s.setWord i v).word i = v := by
  simp [word, setWord, h]

theorem word_setWord_ne (s : Core w c) (h : j ≠ i) (v : Word) :
    (s.setWord i v).word j = s.word j := by
  by_cases hi : InStack i <;> by_cases hj : InStack j <;> simp only [word, setWord, hi, hj, dif_pos,
    dif_neg, not_false_eq_true]
  rw [Function.update_of_ne]
  intro he
  obtain ⟨hi0, hi1⟩ := hi
  obtain ⟨hj0, hj1⟩ := hj
  have hv := congrArg Fin.val he
  simp only at hv
  omega

theorem cell_setCell_same (s : Core w c) (h : a < 1024) (v : BitVec c) :
    (s.setCell a v).cell a = v := by
  simp [cell, setCell, h]

theorem cell_setCell_ne (s : Core w c) (h : b ≠ a) (v : BitVec c) :
    (s.setCell a v).cell b = s.cell b := by
  by_cases ha : a < 1024 <;> by_cases hb : b < 1024 <;> simp only [cell, setCell, ha, hb, dif_pos,
    dif_neg, not_false_eq_true]
  rw [Function.update_of_ne]
  intro he
  exact h (congrArg Fin.val he)

theorem setWord_eq (s : Core w c) (i : Int) (v : Word) :
    s.setWord i v = { s with stackArr := (s.setWord i v).stackArr } := by
  unfold setWord
  split <;> rfl

theorem putReg_eq (s : Core w c) (i : Int) (r : Reg) :
    s.putReg i r = { s with stackArr := (s.putReg i r).stackArr } := by
  unfold putReg
  rw [setWord_eq _ (i + 3), setWord_eq _ (i + 2), setWord_eq _ (i + 1), setWord_eq _ i]

theorem setCell_eq (s : Core w c) (a : Nat) (v : BitVec c) :
    s.setCell a v = { s with dataBus := (s.setCell a v).dataBus } := by
  unfold setCell
  split <;> rfl

theorem word_putReg (s : Core w c) (r : Reg) (k : Fin 4) (h : InStack (i + (k : Nat))) :
    (s.putReg i r).word (i + (k : Nat)) = r k := by
  unfold putReg
  match k with
  | 0 =>
    rw [word_setWord_ne, word_setWord_ne, word_setWord_ne]
    · simpa using word_setWord_same s (i := i) (by simpa using h) (r 0)
    all_goals simp
  | 1 =>
    rw [word_setWord_ne, word_setWord_ne]
    · exact word_setWord_same _ h (r 1)
    all_goals simp
  | 2 =>
    rw [word_setWord_ne]
    · exact word_setWord_same _ h (r 2)
    · simp
  | 3 => exact word_setWord_same _ h (r 3)

theorem word_putReg_of_not_mem (s : Core w c) (h : j < i ∨ i + 3 < j) (r : Reg) :
    (s.putReg i r).word j = s.word j := by
  unfold putReg
  rw [word_setWord_ne, word_setWord_ne, word_setWord_ne, word_setWord_ne] <;> omega

theorem eq_of_word {s t t' : Core w c} (ht : t = { s with stackArr := t.stackArr })
    (ht' : t' = { s with stackArr := t'.stackArr }) (h : ∀ i, InStack i → t.word i = t'.word i) :
    t = t' := by
  have harr : t.stackArr = t'.stackArr := by
    funext k
    have hk : InStack (k : Nat) := ⟨by omega, by omega⟩
    have hw := h (k : Nat) hk
    simpa [word, hk] using hw
  rw [ht, ht', harr]

end Core

/-- `sp` holds the number `z`, which fits the `int32` of the library functions. -/
structure SpAt (s : Core w c) (z : Int) : Prop where
  sp : s.sp = BitVec.ofInt w z
  lower : -2 ^ 31 ≤ z
  upper : z < 2 ^ 31

theorem spAt_toInt (s : Core 32 c) : SpAt s s.sp.toInt where
  sp := (BitVec.ofInt_toInt).symm
  lower := BitVec.le_toInt s.sp
  upper := BitVec.toInt_lt

theorem SpAt.spInt32 (E : Engine w c) {s : Core w c} (h : SpAt s z) : s.spInt32 = z := by
  have hl := h.lower
  have hu := h.upper
  rw [Core.spInt32, h.sp, setWidth_ofInt E.spBits, toInt_ofInt_of_small (by omega) (by omega)]

theorem inStack_toNat (hw : 32 ≤ w) (hl : -2 ^ 31 - 2 ^ 10 ≤ z) (hu : z ≤ 2 ^ 31 + 2 ^ 10) :
    InStack (BitVec.ofInt w z).toNat ↔ InStack z := by
  by_cases h0 : 0 ≤ z
  · rw [toNat_ofInt_of_nonneg hw h0 (by omega)]
  · have hn := toNat_ofInt_of_neg hw (not_le.mp h0) hl
    simp only [InStack]
    omega

theorem toNat_of_inStack (hw : 32 ≤ w) (h : InStack z) : ((BitVec.ofInt w z).toNat : Int) = z :=
  toNat_ofInt_of_nonneg hw h.1 (h.2.trans (by decide))

theorem stackGet_toNat (hw : 32 ≤ w) (hl : -2 ^ 31 - 2 ^ 10 ≤ z) (hu : z ≤ 2 ^ 31 + 2 ^ 10) :
    (stackGet (BitVec.ofInt w z).toNat : M w' c Word) = stackGet z := by
  funext s
  unfold stackGet
  by_cases h : InStack z
  · rw [toNat_of_inStack hw h]
  · rw [if_neg h, if_neg (fun h' => h ((inStack_toNat hw hl hu).mp h'))]

theorem stackSet_toNat (hw : 32 ≤ w) (hl : -2 ^ 31 - 2 ^ 10 ≤ z) (hu : z ≤ 2 ^ 31 + 2 ^ 10)
    (v : Word) : (stackSet (BitVec.ofInt w z).toNat v : M w' c Unit) = stackSet z v := by
  funext s
  unfold stackSet
  by_cases h : InStack z
  · rw [toNat_of_inStack hw h]
  · rw [if_neg h, if_neg (fun h' => h ((inStack_toNat hw hl hu).mp h'))]

theorem spIndex_ofInt (z k : Int) :
    spIndex (BitVec.ofInt w z) k = (BitVec.ofInt w (z + k)).toNat := by
  rw [spIndex, ← BitVec.ofInt_add]

theorem stackGet_spIndex (hw : 32 ≤ w) (hl : -2 ^ 31 - 2 ^ 10 ≤ z + k)
    (hu : z + k ≤ 2 ^ 31 + 2 ^ 10) :
    (stackGet (spIndex (BitVec.ofInt w z) k) : M w c Word) = stackGet (z + k) := by
  rw [spIndex_ofInt, stackGet_toNat hw hl hu]

theorem stackSet_spIndex (hw : 32 ≤ w) (hl : -2 ^ 31 - 2 ^ 10 ≤ z + k)
    (hu : z + k ≤ 2 ^ 31 + 2 ^ 10) (v : Word) :
    (stackSet (spIndex (BitVec.ofInt w z) k) v : M w c Unit) = stackSet (z + k) v := by
  rw [spIndex_ofInt, stackSet_toNat hw hl hu]

theorem stackGet_eq_ok {s t : Core w c} :
    stackGet i s = .ok v t ↔ InStack i ∧ s.word i = v ∧ s = t := by
  unfold stackGet
  split <;> simp_all

theorem stackSet_eq_ok {s t : Core w c} :
    stackSet i v s = .ok u t ↔ InStack i ∧ s.setWord i v = t := by
  unfold stackSet
  split <;> simp_all

theorem busGet_eq_ok {s t : Core w c} :
    busGet a s = .ok v t ↔ a < 1024 ∧ s.cell a = v ∧ s = t := by
  unfold busGet
  split <;> simp_all

theorem busSet_eq_ok {s t : Core w c} :
    busSet a v s = .ok u t ↔ a < 1024 ∧ s.setCell a v = t := by
  unfold busSet
  split <;> simp_all

theorem inStack_between (h0 : InStack i) (h3 : InStack (i + 3)) :
    InStack (i + 1) ∧ InStack (i + 2) := by
  simp only [InStack] at *
  omega

theorem stackReg_eq_ok {s t : Core w c} :
    stackReg i s = .ok r t ↔ InStack i ∧ InStack (i + 3) ∧ s.reg i = r ∧ s = t := by
  have hr : ![s.word i, s.word (i + 1), s.word (i + 2), s.word (i + 3)] = s.reg i := by
    funext k
    match k with
    | 0 => simp [Core.reg]
    | 1 => rfl
    | 2 => rfl
    | 3 => rfl
  simp only [stackReg, bind_eq_ok, stackGet_eq_ok, pure_apply, Outcome.ok.injEq]
  constructor
  · rintro ⟨_, _, ⟨h3, rfl, rfl⟩, _, _, ⟨-, rfl, rfl⟩, _, _, ⟨-, rfl, rfl⟩, _, _, ⟨h0, rfl, rfl⟩,
      rfl, rfl⟩
    exact ⟨h0, h3, hr.symm, rfl⟩
  · rintro ⟨h0, h3, rfl, rfl⟩
    obtain ⟨h1, h2⟩ := inStack_between h0 h3
    exact ⟨_, _, ⟨h3, rfl, rfl⟩, _, _, ⟨h2, rfl, rfl⟩, _, _, ⟨h1, rfl, rfl⟩, _, _, ⟨h0, rfl, rfl⟩,
      hr, rfl⟩

theorem stackPutReg_eq_ok {s t : Core w c} :
    stackPutReg i r s = .ok u t ↔ InStack i ∧ InStack (i + 3) ∧ s.putReg i r = t := by
  simp only [stackPutReg, bind_eq_ok, stackSet_eq_ok]
  constructor
  · rintro ⟨_, _, ⟨h0, rfl⟩, _, _, ⟨-, rfl⟩, _, _, ⟨-, rfl⟩, h3, rfl⟩
    exact ⟨h0, h3, rfl⟩
  · rintro ⟨h0, h3, rfl⟩
    obtain ⟨h1, h2⟩ := inStack_between h0 h3
    exact ⟨(), _, ⟨h0, rfl⟩, (), _, ⟨h1, rfl⟩, (), _, ⟨h2, rfl⟩, h3, rfl⟩

/-- `n` cells are left above `pos`; nothing is asked for when none are needed. -/
def Engine.HeapServes (E : Engine w c) (pos n : Nat) : Prop :=
  n = 0 ∨ ∀ cells ∈ E.heapCells, pos + n ≤ cells

theorem Engine.heapServes_of_le {E : Engine w c} (hE : E.heapCells = some m) (h : pos + n ≤ m) :
    E.HeapServes pos n := by
  refine .inr fun cells hcells => ?_
  rw [hE, Option.mem_some_iff] at hcells
  exact hcells ▸ h

theorem Engine.heapServes_iff {E : Engine w c} (hE : E.heapCells = some m) (hn : n ≠ 0) :
    E.HeapServes pos n ↔ pos + n ≤ m :=
  ⟨fun h => h.elim (absurd · hn) (· m hE), heapServes_of_le hE⟩

theorem bignumAlloc_eq_ok {E : Engine w c} {s t : Core w c} :
    bignumAlloc E n s = .ok pos t ↔ E.HeapServes s.heapPos (n + 1) ∧ s.heapPos = pos ∧
      t = { s with
        heapPos := s.heapPos + (n + 1)
        heap := Function.update s.heap s.heapPos (BitVec.ofNat 16 n) } := by
  have hroom : E.HeapServes s.heapPos (n + 1) ↔
      ∀ cells ∈ E.heapCells, s.heapPos + (n + 1) ≤ cells := by
    simp [Engine.HeapServes]
  rw [hroom]
  have htake : (bignumTake n : M w c Nat) s = .ok s.heapPos { s with
      heapPos := s.heapPos + (n + 1)
      heap := Function.update s.heap s.heapPos (BitVec.ofNat 16 n) } := rfl
  unfold bignumAlloc
  rw [bind_of_ok (read_apply _ _)]
  cases E.heapCells with
  | none =>
    dsimp only
    rw [htake]
    simp [eq_comm]
  | some cells =>
    dsimp only
    by_cases h1 : s.heapPos + n > cells
    · rw [if_pos h1]
      simp
      omega
    · by_cases h2 : s.heapPos + n = cells
      · rw [if_neg h1, if_pos h2]
        simp
        omega
      · have hle : s.heapPos + (n + 1) ≤ cells := by omega
        rw [if_neg h1, if_neg h2, htake]
        simp [hle, eq_comm]

theorem returnsOr_bignumAlloc_ofHeap (E : Engine w c) (n : Nat) :
    ReturnsOr (fun f => f.OfHeap ∧ E.heapCells ≠ none) (bignumAlloc E n) := by
  refine .bind (.read _) fun pos => ?_
  have htake : ReturnsOr (fun f => f.OfHeap ∧ E.heapCells ≠ none) (bignumTake n : M w c Nat) :=
    ⟨fun _ _ h => (by cases h), fun _ _ h => (by cases h)⟩
  split
  · exact htake
  · rename_i hc
    have hcells : E.heapCells ≠ none := by simp [hc]
    exact .ite (.fault ⟨.inl rfl, hcells⟩) (.ite (.fault ⟨.inr rfl, hcells⟩) htake)

theorem returnsOr_bignumAlloc (E : Engine w c) (n : Nat) : ReturnsOr E.Faults (bignumAlloc E n) :=
  (returnsOr_bignumAlloc_ofHeap E n).mono fun _ => .inr

def bigOf (r : Reg) : VBig := setBignum vbignum256 (regToBignum r)

theorem argument_eq_ok {E : Engine w c} {s t : Core w c} {m : M w c Reg}
    (hm : ∀ u r u', m u = .ok r u' → u' = u) :
    argument E m s = .ok x t ↔ E.HeapServes s.heapPos 65 ∧ ∃ r,
      m { s with heapPos := s.heapPos + 65, heap := Function.update s.heap s.heapPos 64 } =
        .ok r { s with heapPos := s.heapPos + 65, heap := Function.update s.heap s.heapPos 64 } ∧
      bigOf r = x ∧ s.converted r = t := by
  simp only [argument, bind_eq_ok, bignumAlloc_eq_ok, bignumStore, update_apply, pure_apply,
    Outcome.ok.injEq]
  constructor
  · rintro ⟨_, _, ⟨hroom, rfl, rfl⟩, r, u, hr, _, _, ⟨-, rfl⟩, rfl, rfl⟩
    obtain rfl := hm _ _ _ hr
    exact ⟨hroom, r, hr, rfl, rfl⟩
  · rintro ⟨hroom, r, hr, rfl, rfl⟩
    exact ⟨_, _, ⟨hroom, rfl, rfl⟩, r, _, hr, (), _, ⟨trivial, rfl⟩, rfl, rfl⟩

theorem returnsOr_argument (E : Engine w c) {m : M w c Reg} (hm : ReturnsOr Fault.Indexing m) :
    ReturnsOr E.Faults (argument E m) :=
  .bind (returnsOr_bignumAlloc E _) fun _ => .bind (hm.mono fun _ => .inl) fun _ =>
    .bind (.update _) fun _ => .pure _

theorem argument_stackReg_eq_ok {E : Engine w c} {s t : Core w c} :
    argument E (stackReg i) s = .ok x t ↔ E.HeapServes s.heapPos 65 ∧ InStack i ∧ InStack (i + 3) ∧
      bigOf (s.reg i) = x ∧ s.converted (s.reg i) = t := by
  rw [argument_eq_ok fun u r u' h => (stackReg_eq_ok.mp h).2.2.2.symm]
  simp only [stackReg_eq_ok, and_true]
  constructor
  · rintro ⟨hroom, r, ⟨h0, h3, rfl⟩, hx, ht⟩
    exact ⟨hroom, h0, h3, hx, ht⟩
  · rintro ⟨hroom, h0, h3, hx, ht⟩
    exact ⟨hroom, s.reg i, ⟨h0, h3, rfl⟩, hx, ht⟩

end GvmCore
