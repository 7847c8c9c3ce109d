import GvmCore.Insn

namespace GvmCore
open Exec Signed
set_option autoImplicit true

theorem returnsOr_stackGet (i : Int) : ReturnsOr Fault.Indexing (stackGet i : M w c Word) := by
  constructor <;> intro s t h <;> unfold stackGet at h <;> split at h <;> cases h
  decide

theorem returnsOr_stackSet (i : Int) (v : Word) :
    ReturnsOr Fault.Indexing (stackSet i v : M w c Unit) := by
  constructor <;> intro s t h <;> unfold stackSet at h <;> split at h <;> cases h
  decide

theorem returnsOr_busGet (a : Nat) : ReturnsOr Fault.Indexing (busGet a : M w c (BitVec c)) := by
  constructor <;> intro s t h <;> unfold busGet at h <;> split at h <;> cases h
  decide

theorem returnsOr_busSet (a : Nat) (v : BitVec c) :
    ReturnsOr Fault.Indexing (busSet a v : M w c Unit) := by
  constructor <;> intro s t h <;> unfold busSet at h <;> split at h <;> cases h
  decide

theorem returnsOr_setSp (sp : BitVec w) :
    ReturnsOr Fault.Indexing (setSp sp : M w c Unit) := .update _

theorem returnsOr_stackReg (i : Int) : ReturnsOr Fault.Indexing (stackReg i : M w c Reg) :=
  .bind (returnsOr_stackGet _) fun _ => .bind (returnsOr_stackGet _) fun _ =>
    .bind (returnsOr_stackGet _) fun _ => .bind (returnsOr_stackGet _) fun _ => .pure _

theorem returnsOr_stackPutReg (i : Int) (r : Reg) :
    ReturnsOr Fault.Indexing (stackPutReg i r : M w c Unit) :=
  .bind (returnsOr_stackSet _ _) fun _ => .bind (returnsOr_stackSet _ _) fun _ =>
    .bind (returnsOr_stackSet _ _) fun _ => returnsOr_stackSet _ _

namespace Core

/-- One element on top of the stack that ends at `z`. -/
def pushed (s : Core w c) (z : Int) (r : Reg) : Core w c := (s.putReg (z + 1) r).withSp (z + 4)

/-- The element with `k` elements above it. -/
def element (s : Core w c) (z : Int) (k : Nat) : Reg := s.reg (z - 4 * k - 3)

/-- What the decoding of the top element gives as an address. -/
def address (s : Core w c) (z : Int) : Word := singleBlock (s.word (z - 3))

theorem setWord_withSp (s : Core w c) (z i : Int) (v : Word) :
    (s.withSp z).setWord i v = (s.setWord i v).withSp z := by
  unfold setWord withSp
  split <;> rfl

theorem putReg_withSp (s : Core w c) (z i : Int) (r : Reg) :
    (s.withSp z).putReg i r = (s.putReg i r).withSp z := by
  simp only [putReg, setWord_withSp]

@[simp] theorem withSp_withSp (s : Core w c) (y z : Int) : (s.withSp y).withSp z = s.withSp z := rfl

@[simp] theorem word_withSp (s : Core w c) (z i : Int) : (s.withSp z).word i = s.word i := rfl

end Core

theorem SpAt.sub_four {s : Core w c} (h : SpAt s z) :
    { s with sp := s.sp - 4 } = s.withSp (z - 4) := by
  unfold Core.withSp
  rw [h.sp]
  exact congrArg (fun sp => ({ s with sp := sp } : Core w c)) (ofInt_sub_ofNat z 4)

def lowWord (v : Word) : Reg := ![v, 0, 0, 0]

theorem setSp_ofInt_eq_ok {s t : Core w c} :
    (setSp (BitVec.ofInt w z) : M w c Unit) s = .ok u t ↔ s.withSp z = t := by
  simp [setSp, Core.withSp]

theorem pushWords_eq_ok {E : Engine w c} {s t : Core w c} (h : SpAt s z) (r : Reg) :
    (do
      setSp (s.sp + 1)
      stackSet (spIndex (s.sp + 1) 0) (r 0)
      stackSet (spIndex (s.sp + 1) 1) (r 1)
      stackSet (spIndex (s.sp + 1) 2) (r 2)
      stackSet (spIndex (s.sp + 1) 3) (r 3)
      setSp (s.sp + 1 + 3) : M w c Unit) s = .ok u t ↔
      InStack (z + 1) ∧ InStack (z + 4) ∧ s.pushed z r = t := by
  have hl := h.lower
  have hu := h.upper
  have h1 : s.sp + 1 = BitVec.ofInt w (z + 1) := by
    rw [h.sp]
    exact ofInt_add_ofNat z 1
  have h3 : s.sp + 1 + 3 = BitVec.ofInt w (z + 4) := by
    rw [h1]
    exact (ofInt_add_ofNat (z + 1) 3).trans (congrArg _ (by omega))
  rw [h3, h1]
  simp only [stackSet_spIndex E.spBits (z := z + 1) (k := 0) (by omega) (by omega),
    stackSet_spIndex E.spBits (z := z + 1) (k := 1) (by omega) (by omega),
    stackSet_spIndex E.spBits (z := z + 1) (k := 2) (by omega) (by omega),
    stackSet_spIndex E.spBits (z := z + 1) (k := 3) (by omega) (by omega)]
  simp only [bind_eq_ok, setSp_ofInt_eq_ok, stackSet_eq_ok]
  have hput : (((((s.withSp (z + 1)).setWord (z + 1 + 0) (r 0)).setWord (z + 1 + 1) (r 1)).setWord
      (z + 1 + 2) (r 2)).setWord (z + 1 + 3) (r 3)).withSp (z + 4) = s.pushed z r := by
    simp only [Core.setWord_withSp, Core.withSp_withSp, Core.pushed, Core.putReg, add_zero]
  have h4 : z + 1 + 3 = z + 4 := by omega
  constructor
  · rintro ⟨_, _, rfl, _, _, ⟨i0, rfl⟩, _, _, ⟨-, rfl⟩, _, _, ⟨-, rfl⟩, _, _, ⟨i3, rfl⟩, rfl⟩
    rw [add_zero] at i0
    rw [h4] at i3
    exact ⟨i0, i3, hput.symm⟩
  · rintro ⟨i0, i3, rfl⟩
    obtain ⟨i1, i2⟩ := inStack_between i0 (h4 ▸ i3)
    exact ⟨(), _, rfl, (), _, ⟨by rwa [add_zero], rfl⟩, (), _, ⟨i1, rfl⟩, (), _, ⟨i2, rfl⟩, (), _,
      ⟨h4 ▸ i3, rfl⟩, hput⟩

theorem pushBlock_eq_ok (E : Engine w c) {s t : Core w c} (h : SpAt s z) :
    pushBlock v s = .ok u t ↔
      InStack (z + 1) ∧ InStack (z + 4) ∧ s.pushed z (lowWord v) = t := by
  unfold pushBlock
  rw [bind_of_ok (read_apply _ _)]
  exact pushWords_eq_ok (E := E) h (lowWord v)

theorem returnsOr_pushBlock (v : Word) : ReturnsOr Fault.Indexing (pushBlock v : M w c Unit) :=
  .bind (.read _) fun _ => .bind (returnsOr_setSp _) fun _ =>
  .bind (returnsOr_stackSet _ _) fun _ =>
    .bind (returnsOr_stackSet _ _) fun _ => .bind (returnsOr_stackSet _ _) fun _ =>
    .bind (returnsOr_stackSet _ _) fun _ => returnsOr_setSp _

theorem gasOp_eq_ok (E : Engine w c) {s t : Core w c} (h : SpAt s z) :
    gasOp s = .ok u t ↔ InStack (z + 1) ∧ InStack (z + 4) ∧ s.pushed z s.gasAvailable = t := by
  have hset : (setSp (s.sp + 1) : M w c Unit) s = .ok () { s with sp := s.sp + 1 } := rfl
  have hpush := pushWords_eq_ok (E := E) (t := t) (u := u) h s.gasAvailable
  rw [bind_of_ok hset] at hpush
  unfold gasOp
  rw [bind_of_ok (read_apply _ _), bind_of_ok hset, bind_of_ok (read_apply _ _)]
  exact hpush

theorem returnsOr_gasOp : ReturnsOr Fault.Indexing (gasOp : M w c Unit) :=
  .bind (.read _) fun _ => .bind (returnsOr_setSp _) fun _ => .bind (.read _) fun _ =>
    .bind (returnsOr_stackSet _ _) fun _ => .bind (returnsOr_stackSet _ _) fun _ =>
    .bind (returnsOr_stackSet _ _) fun _ => .bind (returnsOr_stackSet _ _) fun _ =>
    returnsOr_setSp _

theorem getSingleBlock_eq_ok (E : Engine w c) {s t : Core w c} (h : SpAt s z) :
    getSingleBlockFromStack s = .ok v t ↔
      InStack (z - 3) ∧ s.address z = v ∧ s.withSp (z - 4) = t := by
  have hl := h.lower
  have hu := h.upper
  rw [getSingleBlockFromStack_eq_ok, h.sub_four, h.sp, spIndex_ofInt,
    ← Int.sub_eq_add_neg, inStack_toNat E.spBits (by omega) (by omega)]
  constructor
  · rintro ⟨hi, hv, ht⟩
    rw [toNat_of_inStack E.spBits hi] at hv
    exact ⟨hi, hv, ht⟩
  · rintro ⟨hi, hv, ht⟩
    refine ⟨hi, ?_, ht⟩
    rwa [toNat_of_inStack E.spBits hi]

theorem returnsOr_getSingleBlockFromStack :
    ReturnsOr Fault.Indexing (getSingleBlockFromStack : M w c Word) :=
  .bind (.read _) fun _ => .bind (returnsOr_stackGet _) fun _ => .bind (returnsOr_setSp _) fun _ =>
    .pure _

theorem stackReg_bind (i : Int) (f : Word → Word → Word → Word → M w c α) :
    (do
      let r3 ← stackGet (i + 3)
      let r2 ← stackGet (i + 2)
      let r1 ← stackGet (i + 1)
      let r0 ← stackGet i
      f r0 r1 r2 r3) = stackReg i >>= fun r => f (r 0) (r 1) (r 2) (r 3) := by
  simp only [stackReg, bind_assoc, pure_bind]
  rfl

theorem dupOp_eq_ok (E : Engine w c) {s t : Core w c} (h : SpAt s z) (hc : count < 16) :
    dupOp count s = .ok u t ↔ InStack (z - 4 * count - 3) ∧ InStack (z - 4 * count) ∧
      InStack (z + 1) ∧ InStack (z + 4) ∧ s.pushed z (s.element z count) = t := by
  have hl := h.lower
  have hu := h.upper
  have hget : ∀ k < 4, (stackGet (spIndex s.sp (-(4 * count + k : Nat))) : M w c Word) =
      stackGet (z - 4 * count - 3 + (3 - k : Nat)) := by
    intro k hk
    rw [h.sp, stackGet_spIndex E.spBits (by omega) (by omega)]
    congr 1
    omega
  unfold dupOp
  rw [bind_of_ok (read_apply _ _), hget 0 (by omega), hget 1 (by omega), hget 2 (by omega),
    hget 3 (by omega)]
  simp only [Nat.sub_zero, Nat.sub_self, Nat.cast_zero, add_zero, Nat.reduceSub, Nat.cast_ofNat,
    Nat.cast_one]
  rw [stackReg_bind (z - 4 * count - 3) (fun e3 e2 e1 e0 => do
    setSp (s.sp + 1)
    stackSet (spIndex (s.sp + 1) 0) e3
    stackSet (spIndex (s.sp + 1) 1) e2
    stackSet (spIndex (s.sp + 1) 2) e1
    stackSet (spIndex (s.sp + 1) 3) e0
    setSp (s.sp + 1 + 3)), bind_eq_ok]
  simp only [stackReg_eq_ok, show z - 4 * count - 3 + 3 = z - 4 * count by omega]
  constructor
  · rintro ⟨_, _, ⟨h0, h3, rfl, rfl⟩, ht⟩
    exact ⟨h0, h3, (pushWords_eq_ok (E := E) h _).mp ht⟩
  · rintro ⟨h0, h3, ht⟩
    exact ⟨_, _, ⟨h0, h3, rfl, rfl⟩, (pushWords_eq_ok (E := E) h _).mpr ht⟩

theorem returnsOr_dupOp (count : Nat) : ReturnsOr Fault.Indexing (dupOp count : M w c Unit) :=
  .bind (.read _) fun _ => .bind (returnsOr_stackGet _) fun _ =>
  .bind (returnsOr_stackGet _) fun _ =>
    .bind (returnsOr_stackGet _) fun _ => .bind (returnsOr_stackGet _) fun _ =>
    .bind (returnsOr_setSp _) fun _ => .bind (returnsOr_stackSet _ _) fun _ =>
    .bind (returnsOr_stackSet _ _) fun _ => .bind (returnsOr_stackSet _ _) fun _ =>
    .bind (returnsOr_stackSet _ _) fun _ => returnsOr_setSp _

namespace Core

def swapRound (old s : Core w c) (z : Int) (count i : Nat) : Core w c :=
  (s.setWord (z - i) (old.word (z - 4 * (count + 1) - i))).setWord (z - 4 * (count + 1) - i)
    (old.word (z - i))

def swapped (s : Core w c) (z : Int) (count : Nat) : Core w c :=
  (List.range 4).foldl (fun t i => s.swapRound t z count i) s

theorem word_swapRound (old s : Core w c) (z : Int) (count : Nat) (hi : i < 4) (hj : j < 4)
    (hne : j ≠ i) :
    (swapRound old s z count i).word (z - 4 * (count + 1) - (j : Nat)) =
      s.word (z - 4 * (count + 1) - (j : Nat)) := by
  unfold swapRound
  rw [word_setWord_ne, word_setWord_ne] <;> omega

end Core

theorem swapWord_eq_ok (E : Engine w c) {old s t : Core w c} {count i : Nat} (hsp : SpAt old z)
    (hc : count < 16) (hi : i < 4)
    (hw : s.word (z - 4 * (count + 1) - (i : Nat)) = old.word (z - 4 * (count + 1) - (i : Nat))) :
    swapWord count old.sp i (old.word (z - (i : Nat))) s = .ok u t ↔
      InStack (z - 4 * (count + 1) - (i : Nat)) ∧ InStack (z - (i : Nat)) ∧
      old.swapRound s z count i = t := by
  have hl := hsp.lower
  have hu := hsp.upper
  have hoffs : (old.sp - BitVec.ofNat w (4 * (count + 1) + i)).setWidth 32 =
      BitVec.ofInt 32 (z - 4 * (count + 1) - (i : Nat)) := by
    rw [hsp.sp, ofInt_sub_ofNat, setWidth_ofInt E.spBits]
    congr 1
    omega
  unfold swapWord
  rw [hoffs, stackGet_toNat le_rfl (by omega) (by omega), hsp.sp]
  simp only [stackSet_spIndex E.spBits (z := z) (k := -(i : Nat)) (by omega) (by omega),
    stackSet_toNat (w := 32) (z := z - 4 * (count + 1) - (i : Nat)) le_rfl (by omega) (by omega),
    ← Int.sub_eq_add_neg, bind_eq_ok, stackGet_eq_ok, stackSet_eq_ok, Core.swapRound, hw]
  constructor
  · rintro ⟨_, _, ⟨h0, rfl, rfl⟩, _, _, ⟨h1, rfl⟩, -, rfl⟩
    exact ⟨h0, h1, rfl⟩
  · rintro ⟨h0, h1, rfl⟩
    exact ⟨_, _, ⟨h0, rfl, rfl⟩, (), _, ⟨h1, rfl⟩, h0, rfl⟩

theorem swapOp_eq_ok (E : Engine w c) {s t : Core w c} (h : SpAt s z) (hc : count < 16) :
    swapOp count s = .ok u t ↔ InStack (z - 4 * (count + 1) - 3) ∧ InStack z ∧
      s.swapped z count = t := by
  have hl := h.lower
  have hu := h.upper
  have hget : ∀ k < 4, (stackGet (spIndex s.sp (-(k : Nat))) : M w c Word) =
      stackGet (z - (k : Nat)) := by
    intro k hk
    rw [h.sp, stackGet_spIndex E.spBits (by omega) (by omega), Int.sub_eq_add_neg]
  have h0 := hget 0 (by omega)
  have h1 := hget 1 (by omega)
  have h2 := hget 2 (by omega)
  have h3 := hget 3 (by omega)
  simp only [Nat.cast_zero, neg_zero, Nat.cast_one, Nat.cast_ofNat] at h0 h1 h2 h3
  -- the words still to be read are those the rounds before did not touch
  have hkeep := fun (t : Core w c) (i j : Nat) (hi : i < 4) (hj : j < 4) (hne : j ≠ i) =>
    Core.word_swapRound s t z count hi hj hne
  have r0 := fun u t => swapWord_eq_ok E (u := u) (t := t) h hc (show 0 < 4 by decide) rfl
  have r1 := fun u t => swapWord_eq_ok E (u := u) (t := t) h hc (show 1 < 4 by decide)
    (hkeep s 0 1 (by decide) (by decide) (by decide))
  have r2 := fun u t => swapWord_eq_ok E (u := u) (t := t) h hc (show 2 < 4 by decide)
    ((hkeep _ 1 2 (by decide) (by decide) (by decide)).trans
      (hkeep s 0 2 (by decide) (by decide) (by decide)))
  have r3 := fun u t => swapWord_eq_ok E (u := u) (t := t) h hc (show 3 < 4 by decide)
    (((hkeep _ 2 3 (by decide) (by decide) (by decide)).trans
      (hkeep _ 1 3 (by decide) (by decide) (by decide))).trans
      (hkeep s 0 3 (by decide) (by decide) (by decide)))
  unfold swapOp
  rw [bind_of_ok (read_apply _ _), h3, h2, h1, h0]
  simp only [bind_eq_ok, stackGet_eq_ok]
  constructor
  · rintro ⟨_, _, ⟨-, rfl, rfl⟩, _, _, ⟨-, rfl, rfl⟩, _, _, ⟨-, rfl, rfl⟩, _, _, ⟨i0, rfl, rfl⟩,
      _, _, e0, _, _, e1, _, _, e2, e3⟩
    obtain ⟨-, -, rfl⟩ := (r0 _ _).mp e0
    obtain ⟨-, -, rfl⟩ := (r1 _ _).mp e1
    obtain ⟨-, -, rfl⟩ := (r2 _ _).mp e2
    obtain ⟨o3, -, rfl⟩ := (r3 _ _).mp e3
    exact ⟨o3, by simpa using i0, rfl⟩
  · rintro ⟨o3, i0, rfl⟩
    have hin : ∀ k : Nat, k < 4 → InStack (z - 4 * (count + 1) - k) ∧ InStack (z - k) := by
      intro k hk
      simp only [InStack] at *
      omega
    exact ⟨_, _, ⟨(hin 3 (by omega)).2, rfl, rfl⟩, _, _, ⟨(hin 2 (by omega)).2, rfl, rfl⟩, _, _,
      ⟨(hin 1 (by omega)).2, rfl, rfl⟩, _, _, ⟨(hin 0 (by omega)).2, rfl, rfl⟩,
      (), _, (r0 _ _).mpr ⟨(hin 0 (by omega)).1, (hin 0 (by omega)).2, rfl⟩,
      (), _, (r1 _ _).mpr ⟨(hin 1 (by omega)).1, (hin 1 (by omega)).2, rfl⟩,
      (), _, (r2 _ _).mpr ⟨(hin 2 (by omega)).1, (hin 2 (by omega)).2, rfl⟩,
      (r3 _ _).mpr ⟨(hin 3 (by omega)).1, (hin 3 (by omega)).2, rfl⟩⟩

theorem returnsOr_swapWord (count : Nat) (sp : BitVec w) (i : Nat) (v : Word) :
    ReturnsOr Fault.Indexing (swapWord count sp i v : M w c Unit) :=
  .bind (returnsOr_stackGet _) fun _ => .bind (returnsOr_stackSet _ _) fun _ =>
  returnsOr_stackSet _ _

theorem returnsOr_swapOp (count : Nat) : ReturnsOr Fault.Indexing (swapOp count : M w c Unit) :=
  .bind (.read _) fun _ => .bind (returnsOr_stackGet _) fun _ =>
  .bind (returnsOr_stackGet _) fun _ =>
    .bind (returnsOr_stackGet _) fun _ => .bind (returnsOr_stackGet _) fun _ =>
    .bind (returnsOr_swapWord _ _ _ _) fun _ => .bind (returnsOr_swapWord _ _ _ _) fun _ =>
    .bind (returnsOr_swapWord _ _ _ _) fun _ => returnsOr_swapWord _ _ _ _

def pushIndices (cnt : Nat) : List Nat :=
  List.range (cnt / 8) ++ (if cnt % 8 ≠ 0 then [cnt / 8] else []) ++
    List.range' (cnt / 8 + 1) (3 - cnt / 8)

def pushValue (E : Engine w c) (cnt : Nat) (s : Core w c) (j : Nat) : Word :=
  if j < cnt / 8 then pushBytes E s (cnt - 8 * j) 8
  else if j = cnt / 8 then pushBytes E s (cnt % 8) (cnt % 8)
  else 0

/-- The element PUSH leaves: a word it does not store keeps what was there before. -/
def pushReg (E : Engine w c) (s : Core w c) (z : Int) (cnt : Nat) : Reg := fun k =>
  if (k : Nat) ∈ pushIndices cnt then pushValue E cnt s k else s.word (z + 1 + (k : Nat))

def Core.setWords (s : Core w c) (b : Int) (f : Nat → Word) (l : List Nat) : Core w c :=
  l.foldl (fun s j => s.setWord (b + (j : Nat)) (f j)) s

theorem Core.setWords_eq (s : Core w c) (b : Int) (f : Nat → Word) (l : List Nat) :
    s.setWords b f l = { s with stackArr := (s.setWords b f l).stackArr } := by
  induction l generalizing s with
  | nil => rfl
  | cons j l ih =>
    have hcons : s.setWords b f (j :: l) = (s.setWord (b + j) (f j)).setWords b f l := rfl
    rw [hcons, ih, Core.setWord_eq s]

theorem Core.word_setWords (s : Core w c) (b : Int) (f : Nat → Word) (l : List Nat) (k : Nat)
    (h : InStack (b + k)) :
    (s.setWords b f l).word (b + k) = if k ∈ l then f k else s.word (b + k) := by
  induction l generalizing s with
  | nil => rfl
  | cons j l ih =>
    have hcons : s.setWords b f (j :: l) = (s.setWord (b + j) (f j)).setWords b f l := rfl
    rw [hcons, ih]
    by_cases hl : k ∈ l
    · rw [if_pos hl, if_pos (List.mem_cons_of_mem j hl)]
    · by_cases hj : k = j
      · subst hj
        rw [if_neg hl, if_pos List.mem_cons_self, word_setWord_same _ h]
      · rw [if_neg hl, if_neg (by simp [hl, hj]), word_setWord_ne _ (by omega)]

theorem Core.word_setWords_of_not_mem (s : Core w c) (b : Int) (f : Nat → Word) (l : List Nat)
    (h : ∀ j ∈ l, i ≠ b + (j : Nat)) : (s.setWords b f l).word i = s.word i := by
  induction l generalizing s with
  | nil => rfl
  | cons j l ih =>
    have hcons : s.setWords b f (j :: l) = (s.setWord (b + j) (f j)).setWords b f l := rfl
    rw [hcons, ih _ fun j' hj' => h j' (List.mem_cons_of_mem j hj'),
      word_setWord_ne _ (h j List.mem_cons_self)]

theorem storeLoop_eq_ok {s t : Core w c} {f : Core w c → Nat → Word}
    (hf : ∀ s i v j, f (s.setWord i v) j = f s j) :
    (l.foldlM (fun _ j => do
      let a ← read fun s => f s j
      stackSet (b + (j : Nat)) a : Unit → Nat → M w c Unit) ()) s = .ok u t ↔
      (∀ j ∈ l, InStack (b + (j : Nat))) ∧ s.setWords b (f s) l = t := by
  induction l generalizing s with
  | nil => simp [Core.setWords]
  | cons j l ih =>
    rw [List.foldlM_cons, bind_eq_ok]
    simp only [bind_of_ok (read_apply _ _), stackSet_eq_ok, ih]
    have hcons : ∀ v, (s.setWord (b + j) v).setWords b (f (s.setWord (b + j) v)) l =
        (s.setWord (b + j) v).setWords b (f s) l := by
      intro v
      congr 1
      funext j'
      exact hf _ _ _ _
    constructor
    · rintro ⟨_, _, ⟨hj, rfl⟩, hl, rfl⟩
      refine ⟨?_, (hcons _).symm⟩
      intro j' hj'
      rcases List.mem_cons.mp hj' with rfl | hj'
      · exact hj
      · exact hl j' hj'
    · rintro ⟨hl, rfl⟩
      exact ⟨(), _, ⟨hl j List.mem_cons_self, rfl⟩,
        fun j' hj' => hl j' (List.mem_cons_of_mem j hj'), hcons _⟩

theorem pushInst_eq (E : Engine w c) (cnt : Nat) :
    pushInst E cnt = (do
      let sp ← read fun s => s.sp + 1
      setSp sp
      (pushIndices cnt).foldlM (fun _ j => do
        let a ← read fun s => pushValue E cnt s j
        stackSet (sp.toNat + (j : Nat)) a) ()
      setSp (sp + 3)) := by
  have hblocks : ∀ sp : BitVec w, (List.range (cnt / 8)).foldlM (fun _ j => do
        let a ← read fun s => pushValue E cnt s j
        stackSet (sp.toNat + (j : Nat)) a : Unit → Nat → M w c Unit) () =
      (List.range (cnt / 8)).foldlM (fun _ j => do
        let a ← read fun s => pushBytes E s (cnt - 8 * j) 8
        stackSet (sp.toNat + (j : Nat)) a) () := by
    refine fun sp => foldlM_congr (fun j hj _ => ?_) ()
    simp only [pushValue, if_pos (List.mem_range.mp hj)]
  have hfill : ∀ sp : BitVec w, (List.range' (cnt / 8 + 1) (3 - cnt / 8)).foldlM (fun _ j => do
        let a ← read fun s => pushValue E cnt s j
        stackSet (sp.toNat + (j : Nat)) a : Unit → Nat → M w c Unit) () =
      (List.range' (cnt / 8 + 1) (3 - cnt / 8)).foldlM
        (fun _ j => stackSet (sp.toNat + (j : Nat)) 0) () := by
    refine fun sp => foldlM_congr (fun j hj _ => ?_) ()
    have hj' := List.mem_range'_1.mp hj
    simp only [pushValue, if_neg (show ¬ j < cnt / 8 by omega), if_neg (show j ≠ cnt / 8 by omega)]
    exact funext fun s => bind_of_ok (read_apply _ _)
  unfold pushInst pushIndices
  refine bind_congr fun sp => bind_congr fun _ => ?_
  rw [List.foldlM_append, List.foldlM_append]
  simp only [bind_assoc, hblocks, hfill]
  refine bind_congr fun _ => ?_
  by_cases h : cnt % 8 ≠ 0
  · simp only [if_pos h, List.foldlM_cons, List.foldlM_nil, bind_pure, pushValue,
      lt_irrefl, if_false, if_true, bind_assoc]
  · rw [if_neg h, if_neg h, List.foldlM_nil, pure_bind]

theorem mem_pushIndices_lt (hcnt : cnt ≤ 32) (h : j ∈ pushIndices cnt) : j < 4 := by
  simp only [pushIndices, List.mem_append, List.mem_range, List.mem_range'_1] at h
  rcases h with (h | h) | h
  · omega
  · split at h
    · have hj := List.mem_singleton.mp h
      omega
    · cases h
  · omega

theorem zero_mem_pushIndices (hcnt : 1 ≤ cnt) : 0 ∈ pushIndices cnt := by
  simp only [pushIndices, List.mem_append, List.mem_range]
  by_cases h : 0 < cnt / 8
  · exact .inl (.inl h)
  · rw [if_pos (by omega)]
    exact .inl (.inr (List.mem_singleton.mpr (by omega)))

theorem Core.setWords_pushReg (E : Engine w c) (s : Core w c) (hcnt : cnt ≤ 32) :
    s.setWords (z + 1) (pushValue E cnt s) (pushIndices cnt) =
      s.putReg (z + 1) (pushReg E s z cnt) := by
  refine eq_of_word (s.setWords_eq _ _ _) (s.putReg_eq _ _) fun i hi => ?_
  by_cases hin : z + 1 ≤ i ∧ i ≤ z + 4
  · obtain ⟨k, rfl⟩ : ∃ k : Fin 4, i = z + 1 + (k : Nat) :=
      ⟨⟨(i - z - 1).toNat, by omega⟩, by simp only; omega⟩
    rw [word_setWords _ _ _ _ _ hi, word_putReg _ _ _ hi]
    rfl
  · rw [word_setWords_of_not_mem, word_putReg_of_not_mem _ (by omega)]
    intro j hj
    have := mem_pushIndices_lt hcnt hj
    omega

theorem Core.setWords_withSp (s : Core w c) (b z : Int) (f : Nat → Word) (l : List Nat) :
    (s.withSp z).setWords b f l = (s.setWords b f l).withSp z := by
  induction l generalizing s with
  | nil => rfl
  | cons j l ih =>
    have hcons : ∀ s : Core w c,
        s.setWords b f (j :: l) = (s.setWord (b + j) (f j)).setWords b f l :=
      fun _ => rfl
    rw [hcons, hcons, setWord_withSp, ih]

theorem pushValue_setWord (E : Engine w c) (cnt : Nat) (s : Core w c) (i : Int)
    (v : Word) (j : Nat) :
    pushValue E cnt (s.setWord i v) j = pushValue E cnt s j := by
  rw [Core.setWord_eq]
  rfl

theorem pushInst_eq_ok (E : Engine w c) {s t : Core w c} (h : SpAt s z) (h1 : 1 ≤ cnt)
    (h32 : cnt ≤ 32) : pushInst E cnt s = .ok u t ↔
      (∀ j ∈ pushIndices cnt, InStack (z + 1 + (j : Nat))) ∧
      s.pushed z (pushReg E s z cnt) = t := by
  have hl := h.lower
  have hu := h.upper
  have hsp1 : s.sp + 1 = BitVec.ofInt w (z + 1) := by
    rw [h.sp]
    exact ofInt_add_ofNat z 1
  have hsp3 : s.sp + 1 + 3 = BitVec.ofInt w (z + 4) := by
    rw [hsp1]
    exact (ofInt_add_ofNat (z + 1) 3).trans (congrArg _ (by omega))
  have hset : (setSp (s.sp + 1) : M w c Unit) s = .ok () (s.withSp (z + 1)) := by
    rw [hsp1]
    rfl
  rw [pushInst_eq, bind_of_ok (read_apply _ _), bind_of_ok hset, bind_eq_ok, hsp3]
  simp only [storeLoop_eq_ok (pushValue_setWord E cnt), setSp_ofInt_eq_ok]
  have hbase : InStack (z + 1) → ((s.sp + 1).toNat : Int) = z + 1 := fun hi => by
    rw [hsp1, toNat_of_inStack E.spBits hi]
  have hput : ((s.withSp (z + 1)).setWords (z + 1) (pushValue E cnt (s.withSp (z + 1)))
      (pushIndices cnt)).withSp (z + 4) = s.pushed z (pushReg E s z cnt) := by
    rw [Core.setWords_withSp, Core.withSp_withSp]
    exact congrArg (Core.withSp · (z + 4)) (s.setWords_pushReg E h32)
  constructor
  · rintro ⟨_, _, ⟨hin, rfl⟩, rfl⟩
    have h0 : InStack (z + 1) := by
      have h0 := hin 0 (zero_mem_pushIndices h1)
      rwa [Nat.cast_zero, add_zero, hsp1, inStack_toNat E.spBits (by omega) (by omega)] at h0
    rw [hbase h0] at hin ⊢
    exact ⟨hin, hput.symm⟩
  · rintro ⟨hin, rfl⟩
    have h0 : InStack (z + 1) := by simpa using hin 0 (zero_mem_pushIndices h1)
    rw [hbase h0]
    exact ⟨(), _, ⟨hin, rfl⟩, hput⟩

theorem returnsOr_pushInst (E : Engine w c) (cnt : Nat) :
    ReturnsOr Fault.Indexing (pushInst E cnt) := by
  rw [pushInst_eq]
  exact .bind (.read _) fun _ => .bind (returnsOr_setSp _) fun _ =>
    .bind (.foldlM (fun _ _ => .bind (.read _) fun _ => returnsOr_stackSet _ _) _ _) fun _ =>
    returnsOr_setSp _

end GvmCore
