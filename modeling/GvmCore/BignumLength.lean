import GvmCore.BignumValue

namespace GvmCore.VBignum
set_option autoImplicit true

@[simp] theorem length_addCarry (x : VBig) (c : Nat) : (addCarry x c).length = x.length := by
  induction x generalizing c with
  | nil => rfl
  | cons x xs ih =>
    simp only [addCarry]
    split
    · rfl
    · exact congrArg (· + 1) (ih _)

@[simp] theorem length_addLoop (x y : VBig) (c : Nat) : (addLoop x y c).length = x.length := by
  induction x generalizing y c with
  | nil => cases y <;> rfl
  | cons x xs ih =>
    cases y with
    | nil => simp [addLoop]
    | cons y ys => exact congrArg (· + 1) (ih ys _)

@[simp] theorem length_add (x y : VBig) : (add x y).length = x.length := length_addLoop x y 0

theorem length_mulRow (x : VBig) (y : Nat) (w : List Nat) (c : Nat) :
    (mulRow x y w c).1.length = w.length := by
  induction x generalizing w c with
  | nil => cases w <;> rfl
  | cons x xs ih =>
    cases w with
    | nil => rfl
    | cons w ws => exact congrArg (· + 1) (ih ws _)

theorem length_mulRows (x y : VBig) (i : Nat) (w : List Nat) :
    (mulRows x y i w).length = w.length := by
  induction y generalizing i w with
  | nil => rfl
  | cons y ys ih =>
    rw [mulRows, ih, List.length_set, List.length_append, length_mulRow, List.length_take,
      List.length_drop]
    omega

@[simp] theorem length_mul (x y : VBig) : (mul x y).length = x.length := by
  rw [mul, List.length_map, List.length_take, length_mulRows, List.length_replicate]
  omega

@[simp] theorem length_bitSet (x : VBig) (bit : Nat) : (bitSet x bit).length = x.length := by
  unfold bitSet
  split
  · rfl
  · exact List.length_modify _ _ _

theorem length_foldl {f : VBig → ι → VBig} (hf : ∀ z i, (f z i).length = z.length) (l : List ι)
    (z : VBig) : (l.foldl f z).length = z.length := by
  induction l generalizing z with
  | nil => rfl
  | cons i l ih => exact (ih (f z i)).trans (hf z i)

@[simp] theorem length_setBignumPart (x y : VBig) (msb bits : Nat) :
    (setBignumPart x y msb bits).length = x.length := by
  unfold setBignumPart
  split
  · exact length_setZero x
  · refine (length_foldl (fun z i => ?_) _ _).trans (length_setZero x)
    split
    · exact length_bitSet z i
    · rfl

@[simp] theorem length_shiftDown (count : Nat) (x : VBig) :
    (shiftDown count x).1.length = x.length := by
  induction x with
  | nil => rfl
  | cons x xs ih => exact congrArg (· + 1) ih

@[simp] theorem length_bitShiftRight (x : VBig) (count : Nat) :
    (bitShiftRight x count).length = x.length := by
  unfold bitShiftRight
  split
  · dsimp only
    split
    · exact length_setZero x
    · have hy : (x.drop (count / 16) ++ List.replicate (count / 16) 0).length = x.length := by
        rw [List.length_append, List.length_drop, List.length_replicate]
        omega
      split
      · exact hy
      · rw [length_shiftDown, hy]
  · exact length_shiftDown count x

theorem length_divLoop (x y : VBig) (k : Nat) (next : Int) (q work : VBig) :
    (divLoop x y k next q work).1.length = q.length ∧
      (divLoop x y k next q work).2.length = work.length := by
  induction k generalizing next q work with
  | zero => exact ⟨rfl, rfl⟩
  | succ k ih =>
    rw [divLoop, (ih _ _ _).1, (ih _ _ _).2]
    constructor
    · split <;> simp [bitShiftLeft1]
    · split <;> split <;> simp [bitShiftLeft1]

theorem length_divLong (x y : VBig) :
    (divLong x y).1.length = x.length ∧ (divLong x y).2.length = x.length := by
  unfold divLong
  dsimp only
  rw [length_bitShiftRight, (length_divLoop _ _ _ _ _ _).1, (length_divLoop _ _ _ _ _ _).2]
  simp

end GvmCore.VBignum
