import GvmCore.SimpleBlock

namespace GvmCore
open Exec Paged
set_option autoImplicit true

namespace SimpleMemBlock

/-- What the three operations should do on the `n` cells from `a` on. -/
structure RangeLaw (b : SimpleMemBlock d) (a : BitVec 32) (n : Nat) : Prop where
  setmem_inside : b.Inside a n → ∀ inp, inp.length = n →
    ∃ b', setmem inp a b = .ok n b' ∧ b.Overwrites b' a.toNat inp
  getmem_inside : b.Inside a n →
    ∃ b', getmem a n b = .ok (b.bytes a.toNat n, n) b' ∧ b'.cell = b.cell
  round_trip : b.Inside a n → ∀ inp, inp.length = n → ∀ b', setmem inp a b = .ok n b' →
    (getmem a n b').value = some (inp, n)
  fillmem_eq_setmem : ∀ v, ∃ r b₁ b₂, setmem (List.replicate n (v.setWidth 8)) a b = .ok r b₁ ∧
    fillmem v a n b = .ok r b₂ ∧ b₂.cell = b₁.cell
  outside : ¬ b.Inside a n → (∀ inp, inp.length = n → setmem inp a b = .ok 0 b) ∧
    getmem a n b = .ok ([], 0) b ∧ ∀ v, fillmem v a n b = .ok 0 b

theorem Overwrites.cell_eq {b b₁ b₂ : SimpleMemBlock d} (h₁ : b.Overwrites b₁ x inp)
    (h₂ : b.Overwrites b₂ x inp) : b₂.cell = b₁.cell := by
  funext y
  by_cases hy : y < x ∨ x + inp.length ≤ y
  · rw [h₁.outside y hy, h₂.outside y hy]
  · obtain ⟨i, rfl⟩ : ∃ i, y = x + i := ⟨y - x, by omega⟩
    rw [h₁.inside i (by omega), h₂.inside i (by omega)]

theorem Overwrites.bytes {b b' : SimpleMemBlock d} (h : b.Overwrites b' x inp) :
    b'.bytes x inp.length = inp := by
  apply List.ext_get
  · simp [SimpleMemBlock.bytes]
  · intro i _ hi
    simp only [SimpleMemBlock.bytes, List.get_eq_getElem, List.getElem_map, List.getElem_range',
      Nat.one_mul, Nat.zero_add]
    exact h.inside i hi

theorem sum_gt_iff {a size : BitVec 32} :
    a + BitVec.ofNat 32 n > size ↔ size.toNat < (a.toNat + n) % 2 ^ 32 := by
  rw [gt_iff_lt, BitVec.lt_def, toNat_offset]

theorem sum_ge_iff {a size : BitVec 32} :
    a + BitVec.ofNat 32 n ≥ size ↔ size.toNat ≤ (a.toNat + n) % 2 ^ 32 := by
  rw [ge_iff_le, BitVec.le_def, toNat_offset]

theorem rejected {b : SimpleMemBlock d} (h : b.mSize.toNat < (a.toNat + n) % 2 ^ 32) :
    (∀ inp, inp.length = n → setmem inp a b = .ok 0 b) ∧ getmem a n b = .ok ([], 0) b ∧
      ∀ v, fillmem v a n b = .ok 0 b := by
  refine ⟨?_, ?_, ?_⟩
  · rintro inp rfl
    rw [setmem, bind_of_ok (read_apply _ _), if_pos (sum_gt_iff.mpr h)]
    rfl
  · rw [getmem, bind_of_ok (read_apply _ _), if_pos (sum_gt_iff.mpr h)]
    rfl
  · intro v
    rw [fillmem, bind_of_ok (read_apply _ _), if_pos (sum_ge_iff.mpr (Nat.le_of_lt h))]
    rfl

theorem setmem_ok {b : SimpleMemBlock d} (h : setmem inp a b = .ok r b') :
    b.mSize.toNat < (a.toNat + inp.length) % 2 ^ 32 ∨ r = inp.length := by
  rw [setmem, bind_of_ok (read_apply _ _)] at h
  split at h
  · rename_i hgt
    exact .inl (sum_gt_iff.mp hgt)
  · obtain ⟨_, _, -, hpure⟩ := bind_eq_ok.mp h
    cases hpure
    exact .inr rfl

theorem memBlock_ok {b : SimpleMemBlock d} (h : memBlock a b = .ok p b') :
    p = (a.toNat / slotSize, a.toNat % slotSize) := by
  have hidx : a.toNat - a.toNat / slotSize * slotSize = a.toNat % slotSize := by
    rw [Nat.mul_comm, Nat.mod_eq_sub]
  rw [memBlock, bind_of_ok (read_apply _ _), hidx] at h
  split at h
  · cases h
  · obtain ⟨_, _, -, hpure⟩ := bind_eq_ok.mp h
    cases hpure
    rfl

theorem loadCell_ok {b : SimpleMemBlock d} (h : loadCell a b = .ok v b') :
    a.toNat % slotSize + d ≤ slotSize := by
  obtain ⟨p, _, hblock, hload⟩ := bind_eq_ok.mp h
  obtain rfl := memBlock_ok hblock
  by_contra hlt
  simp only [if_pos (Nat.lt_of_not_le hlt)] at hload
  cases hload

theorem mapM_loadCell_ok {b : SimpleMemBlock d}
    (h : (List.range' k n).mapM (fun i => loadCell (BitVec.ofNat 32 i + a)) b = .ok inp b') :
    ∀ i, k ≤ i → i < k + n → (BitVec.ofNat 32 i + a).toNat % slotSize + d ≤ slotSize := by
  intro i hi hi'
  obtain ⟨_, _, _, hload⟩ := mapM_ok_of_mem h (List.mem_range'_1.mpr ⟨hi, hi'⟩)
  exact loadCell_ok hload

theorem forM_storeSlot_ok {b : SimpleMemBlock d}
    (h : (List.range' k n).forM (fun j => storeSlot s (i + j) v) b = .ok u b') :
    ∀ j, k ≤ j → j < k + n → i + j < slotSize := by
  intro j hj hj'
  obtain ⟨b₁, _, _, hstore⟩ := forM_ok_of_mem h (List.mem_range'_1.mpr ⟨hj, hj'⟩)
  by_contra hge
  rw [storeSlot, if_pos (Nat.le_of_not_lt hge)] at hstore
  cases hstore

theorem fillmem_ok {b : SimpleMemBlock d} (hpos : 0 < n) (h : fillmem v a n b = .ok n b') :
    (a.toNat + n) % 2 ^ 32 < b.mSize.toNat ∧ a.toNat % slotSize + n ≤ slotSize := by
  rw [fillmem, bind_of_ok (read_apply _ _)] at h
  split at h
  · cases h
    omega
  · rename_i hge
    obtain ⟨p, _, hblock, hfill⟩ := bind_eq_ok.mp h
    obtain rfl := memBlock_ok hblock
    obtain ⟨_, _, hloop, -⟩ := bind_eq_ok.mp hfill
    have hlast := forM_storeSlot_ok hloop (n - 1) (Nat.zero_le _) (by omega)
    rw [sum_ge_iff] at hge
    omega

theorem getmem_ok {b : SimpleMemBlock d} (hpos : 0 < n) (h : getmem a n b = .ok (inp, n) b') :
    ∀ i < n, (BitVec.ofNat 32 i + a).toNat % slotSize + d ≤ slotSize := by
  rw [getmem, bind_of_ok (read_apply _ _)] at h
  split at h
  · cases h
    omega
  · obtain ⟨_, _, hloop, -⟩ := bind_eq_ok.mp h
    intro i hi
    exact mapM_loadCell_ok hloop i (Nat.zero_le i) (by omega)

theorem inside_iff {b : SimpleMemBlock d} (hpos : 0 < n) :
    b.Inside a n ↔ a.toNat + n ≤ b.mSize.toNat := by
  constructor
  · intro h
    have := h (n - 1) (by omega)
    omega
  · intro h i hi
    omega

theorem rangeLaw_zero (b : SimpleMemBlock d) (a : BitVec 32) : b.RangeLaw a 0 := by
  have hset : setmem [] a b = .ok 0 b := by
    rw [setmem, bind_of_ok (read_apply _ _)]
    split <;> rfl
  have hget : ∀ b : SimpleMemBlock d, getmem a 0 b = .ok ([], 0) b := by
    intro b
    rw [getmem, bind_of_ok (read_apply _ _)]
    split <;> rfl
  have hin : b.Inside a 0 := fun i hi => absurd hi (Nat.not_lt_zero i)
  constructor
  · intro _ inp hinp
    obtain rfl := List.length_eq_zero_iff.mp hinp
    exact ⟨b, hset, .of_cell rfl rfl _⟩
  · intro _
    exact ⟨b, hget b, rfl⟩
  · intro _ inp hinp b' _
    obtain rfl := List.length_eq_zero_iff.mp hinp
    rw [hget b']
    rfl
  · intro v
    by_cases ha : a.toNat < b.mSize.toNat
    · obtain ⟨b', hfill, hover⟩ := fillmem_eq (n := 0) ha
        (Nat.le_of_lt (Nat.mod_lt a.toNat slotSize_pos)) v
      exact ⟨0, b, b', hset, hfill, funext fun y => hover.outside y (by simp; omega)⟩
    · refine ⟨0, b, b, hset, ?_, rfl⟩
      rw [fillmem, bind_of_ok (read_apply _ _), if_pos (sum_ge_iff.mpr ?_)]
      · rfl
      · have := a.isLt
        omega
  · exact fun hout => absurd hin hout

theorem rangeLaw_inside {b : SimpleMemBlock d} (hpos : 0 < n) (hlt : a.toNat + n < b.mSize.toNat)
    (hd : 0 < d) (hslot : a.toNat % slotSize + n + d ≤ slotSize + 1) : b.RangeLaw a n := by
  have hin : b.Inside a n := (inside_iff hpos).mpr (Nat.le_of_lt hlt)
  have hread : ∀ i < n, (a.toNat + i) % slotSize + d ≤ slotSize := by
    intro i hi
    rw [Nat.add_mod, Nat.mod_eq_of_lt (show i < slotSize by omega),
      Nat.mod_eq_of_lt (show a.toNat % slotSize + i < slotSize by omega)]
    omega
  constructor
  · rintro _ inp rfl
    exact setmem_eq (Nat.le_of_lt hlt)
  · intro _
    exact getmem_eq (Nat.le_of_lt hlt) hread
  · rintro _ inp rfl b' hset
    obtain ⟨b₁, hset', hover⟩ := setmem_eq (a := a) (b := b) (Nat.le_of_lt hlt)
    rw [hset] at hset'
    cases hset'
    obtain ⟨b₂, hget, -⟩ := getmem_eq (b := b') (by rw [hover.size]; exact Nat.le_of_lt hlt) hread
    rw [hget, hover.bytes]
    rfl
  · intro v
    have hcopies : a.toNat + (List.replicate n (v.setWidth 8)).length ≤ b.mSize.toNat := by
      rw [List.length_replicate]
      exact Nat.le_of_lt hlt
    obtain ⟨b₁, hset, hover₁⟩ := setmem_eq hcopies
    obtain ⟨b₂, hfill, hover₂⟩ := fillmem_eq hlt (by omega) v
    rw [List.length_replicate] at hset
    exact ⟨n, b₁, b₂, hset, hfill, hover₁.cell_eq hover₂⟩
  · exact fun hout => absurd hin hout

theorem rangeLaw_outside {b : SimpleMemBlock d} (hpos : 0 < n)
    (hout : b.mSize.toNat < a.toNat + n) (h : b.mSize.toNat < (a.toNat + n) % 2 ^ 32) :
    b.RangeLaw a n := by
  obtain ⟨hset, hget, hfill⟩ := rejected h
  have hnot : ¬ b.Inside a n := by
    rw [inside_iff hpos]
    omega
  constructor
  · exact fun hin => absurd hin hnot
  · exact fun hin => absurd hin hnot
  · exact fun hin => absurd hin hnot
  · intro v
    exact ⟨0, b, b, hset _ (List.length_replicate ..), hfill v, rfl⟩
  · exact fun _ => ⟨hset, hget, hfill⟩

/-- The three operations agree on a range exactly when it is empty, or ends before the last cell of
the block and of its slot, or is outside and not hidden by the wrap of the 32-bit sum. -/
theorem range_law_iff (hd : 0 < d) (b : SimpleMemBlock d) (a : BitVec 32) (n : Nat) :
    b.RangeLaw a n ↔ n = 0 ∨
      (a.toNat + n < b.mSize.toNat ∧ a.toNat % slotSize + n + d ≤ slotSize + 1) ∨
      (b.mSize.toNat < a.toNat + n ∧ b.mSize.toNat < (a.toNat + n) % 2 ^ 32) := by
  constructor
  · intro h
    rw [or_iff_not_imp_left]
    intro hne
    have hpos := Nat.pos_of_ne_zero hne
    by_cases hin : a.toNat + n ≤ b.mSize.toNat
    · left
      have hinside := (inside_iff hpos).mpr hin
      obtain ⟨r, b₁, b₂, hset, hfill, -⟩ := h.fillmem_eq_setmem 0
      obtain ⟨b₁', hset', -⟩ := h.setmem_inside hinside _ (List.length_replicate (n := n))
      rw [hset'] at hset
      cases hset
      obtain ⟨hsum, hslot⟩ := fillmem_ok hpos hfill
      obtain ⟨b₃, hget, -⟩ := h.getmem_inside hinside
      have hlast := getmem_ok hpos hget (n - 1) (by omega)
      have hsize := b.mSize.isLt
      have hmod : (a.toNat + (n - 1)) % slotSize = a.toNat % slotSize + (n - 1) := by
        rw [Nat.add_mod, Nat.mod_eq_of_lt (show n - 1 < slotSize by omega),
          Nat.mod_eq_of_lt (show a.toNat % slotSize + (n - 1) < slotSize by omega)]
      rw [toNat_index (show a.toNat + (n - 1) < b.mSize.toNat by omega), hmod] at hlast
      omega
    · right
      have hout : ¬ b.Inside a n := by
        rw [inside_iff hpos]
        exact hin
      have hset := (h.outside hout).1 (List.replicate n 0) List.length_replicate
      rcases setmem_ok hset with hlt | hzero
      · rw [List.length_replicate] at hlt
        exact ⟨by omega, hlt⟩
      · rw [List.length_replicate] at hzero
        omega
  · rintro (rfl | ⟨hlt, hslot⟩ | ⟨hout, hsum⟩)
    · exact rangeLaw_zero b a
    · by_cases hpos : 0 < n
      · exact rangeLaw_inside hpos hlt hd hslot
      · obtain rfl : n = 0 := by omega
        exact rangeLaw_zero b a
    · by_cases hpos : 0 < n
      · exact rangeLaw_outside hpos hout hsum
      · obtain rfl : n = 0 := by omega
        exact rangeLaw_zero b a

def page : SimpleMemBlock 4 := init 4096 fun _ _ => 0

theorem range_law_page : 0 < 4 ∧ page.RangeLaw 16 8 := by
  refine ⟨by decide, (range_law_iff (by decide) page 16 8).mpr (.inr (.inl ⟨by decide, ?_⟩))⟩
  unfold slotSize
  decide

/-- The last cell of a block can be set and not filled. -/
theorem range_law_last : (setmem [7] 4095 page).value = some 1 ∧
    (fillmem 7 4095 1 page).value = some 0 ∧ ¬ page.RangeLaw 4095 1 := by
  have hset : (setmem [7] 4095 page).value = some 1 := by
    have hin : (4095 : BitVec 32).toNat + [(7 : BitVec 8)].length ≤ page.mSize.toNat := by decide
    obtain ⟨b, hset, -⟩ := setmem_eq hin
    rw [hset]
    rfl
  have hfill : fillmem 7 4095 1 page = .ok 0 page := rfl
  refine ⟨hset, by rw [hfill]; rfl, ?_⟩
  intro h
  obtain ⟨r, b₁, b₂, hset', hfill', -⟩ := h.fillmem_eq_setmem 7
  rw [hfill] at hfill'
  cases hfill'
  have hzero : (setmem [7] 4095 page).value = some 0 := congrArg Outcome.value hset'
  rw [hset] at hzero
  cases hzero

end SimpleMemBlock

end GvmCore
