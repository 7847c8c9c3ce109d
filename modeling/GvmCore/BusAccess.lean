import GvmCore.BlockRange
import GvmCore.MemBus
import Mathlib.Data.List.GetD

namespace GvmCore
open Exec TLink
set_option autoImplicit true

/-- `TMemBus`: the areas fit the address space, do not overlap, and are different memories. -/
structure TMemBus where
  links : List TLink
  fits : ∀ l ∈ links, l.mStartAddr.toNat + l.aLen.toNat ≤ 2 ^ 32
  disjoint : links.Pairwise fun l l' => ∀ x, l.Contains x → ¬ l'.Contains x
  areas : links.Pairwise fun l l' => l.mArea ≠ l'.mArea

def TLink.sizeIn (l : TLink) (aAddr : BitVec 32) (aSizeInBytes : Nat) : Int :=
  match l.addrRange aAddr aSizeInBytes with
  | some (_, size, _) => size
  | none => 0

namespace TMemBus

/-- The array of the caller is the state. -/
def getmem (bus : TMemBus) (cells : Cells) (aAddr : BitVec 32) (aSizeInBytes : Nat) :
    Exec BusFault (List (BitVec 8)) Int :=
  transferAll (getCopy cells) aAddr aSizeInBytes bus.links 0

def setmem (bus : TMemBus) (data : List (BitVec 8)) (aAddr : BitVec 32) : Exec BusFault Cells Int :=
  transferAll (setCopy data) aAddr data.length bus.links 0

/-- The loop of `IsMemInRange`, whose comparison is one of `uint32`. -/
def inRangeLoop (aAddr : BitVec 32) (aSizeInBytes : Nat) : List TLink → Int → Bool
  | [], _ => false
  | l :: lnk, res =>
    if (BitVec.ofInt 32 (res + l.sizeIn aAddr aSizeInBytes)).toNat ≥ aSizeInBytes then true
    else inRangeLoop aAddr aSizeInBytes lnk (res + l.sizeIn aAddr aSizeInBytes)

def isMemInRange (bus : TMemBus) (aAddr : BitVec 32) (aSizeInBytes : Nat) : Bool :=
  inRangeLoop aAddr aSizeInBytes bus.links 0

end TMemBus

namespace TLink

def Mapped (links : List TLink) (x : Nat) : Prop := ∃ l ∈ links, l.Contains x

instance : Decidable (Mapped links x) := inferInstanceAs (Decidable (∃ l ∈ links, l.Contains x))

def mappedCells (links : List TLink) (x n : Nat) : Nat :=
  (List.range n).countP fun i => Mapped links (x + i)

def cellOr (cells : Cells) (x : Nat) (v : BitVec 8) : List TLink → BitVec 8
  | [] => v
  | l :: links =>
    if l.Contains x then cells l.mArea (x - l.mStartAddr.toNat) else cellOr cells x v links

def loaded (links : List TLink) (cells : Cells) (x : Nat) (data : List (BitVec 8)) :
    List (BitVec 8) :=
  data.mapIdx fun i v => cellOr cells (x + i) v links

/-- The `y`-th cell of the area of a link is one of the `n` cells from `x` on. -/
def Covers (x n : Nat) (l : TLink) (y : Nat) : Prop :=
  y < l.aLen.toNat ∧ x ≤ l.mStartAddr.toNat + y ∧ l.mStartAddr.toNat + y < x + n

instance : Decidable (Covers x n l y) := inferInstanceAs (Decidable (_ ∧ _))

/-- The cells after the array is written to every mapped cell from `x` on. -/
def stored (x : Nat) (data : List (BitVec 8)) (cells : Cells) : List TLink → Cells
  | [], k, y => cells k y
  | l :: links, k, y =>
    if k = l.mArea ∧ Covers x data.length l y then data.getD (l.mStartAddr.toNat + y - x) 0
    else stored x data cells links k y

section Count

theorem countP_contains (a : BitVec 32) (n : Nat) (l : TLink) :
    (List.range n).countP (fun i => l.Contains (a.toNat + i)) = overlap a n l := by
  induction n with
  | zero =>
    simp only [List.range_zero, List.countP_nil, overlap]
    omega
  | succ n ih =>
    rw [List.range_succ, List.countP_append, ih, List.countP_singleton]
    by_cases hin : l.Contains (a.toNat + n)
    · rw [if_pos (decide_eq_true hin)]
      unfold Contains at hin
      unfold overlap
      omega
    · rw [if_neg (by rw [decide_eq_true_eq]; exact hin)]
      unfold Contains at hin
      unfold overlap
      omega

theorem countP_or {p q : α → Bool} {xs : List α} (h : ∀ x, p x = true → ¬ q x = true) :
    xs.countP (fun x => p x || q x) = xs.countP p + xs.countP q := by
  induction xs with
  | nil => rfl
  | cons x xs ih =>
    have hx := h x
    rw [List.countP_cons, List.countP_cons, List.countP_cons, ih]
    cases hp : p x <;> cases hq : q x <;> simp_all <;> omega

theorem mapped_cons : Mapped (l :: links) x ↔ l.Contains x ∨ Mapped links x :=
  List.exists_mem_cons_iff ..

theorem mappedCells_eq_count (a : BitVec 32) (n : Nat) {links : List TLink}
    (h : links.Pairwise fun l l' => ∀ x, l.Contains x → ¬ l'.Contains x) :
    mappedCells links a.toNat n = count a n links := by
  induction links with
  | nil =>
    simp [mappedCells, Mapped, count]
  | cons l links ih =>
    rw [List.pairwise_cons] at h
    rw [count_cons, ← ih h.2, ← countP_contains, mappedCells, mappedCells, ← countP_or]
    · congr 1
      funext i
      rw [decide_eq_decide.mpr mapped_cons, Bool.decide_or]
    · intro i hi hmapped
      obtain ⟨l', hl', hi'⟩ := of_decide_eq_true hmapped
      exact h.1 l' hl' _ (of_decide_eq_true hi) hi'

theorem mappedCells_le (links : List TLink) (x n : Nat) : mappedCells links x n ≤ n := by
  have hle :=
    List.countP_le_length (p := fun i => decide (Mapped links (x + i))) (l := List.range n)
  rwa [List.length_range] at hle

theorem mappedCells_eq_iff : mappedCells links x n = n ↔ ∀ i < n, Mapped links (x + i) := by
  have hiff := List.countP_eq_length (p := fun i => decide (Mapped links (x + i)))
    (l := List.range n)
  rw [List.length_range] at hiff
  rw [mappedCells, hiff]
  simp only [List.mem_range, decide_eq_true_eq]

end Count

section Effect

theorem cellOr_of_not_mapped (h : ¬ Mapped links x) : cellOr cells x v links = v := by
  induction links with
  | nil => rfl
  | cons l links ih =>
    rw [mapped_cons, not_or] at h
    rw [cellOr, if_neg h.1, ih h.2]

theorem length_move_getCopy (cells : Cells) (a : BitVec 32) (n : Nat) (data : List (BitVec 8))
    (l : TLink) : (move (getCopy cells) a n data l).length = data.length := by
  unfold move
  split
  · exact List.length_mapIdx
  · rfl

theorem move_getCopy (cells : Cells) (a : BitVec 32) (l : TLink) {data : List (BitVec 8)}
    (hdata : data.length = n) : move (getCopy cells) a n data l = data.mapIdx fun i v =>
      if l.Contains (a.toNat + i) then cells l.mArea (a.toNat + i - l.mStartAddr.toNat) else v := by
  apply List.ext_getElem
  · rw [length_move_getCopy, List.length_mapIdx]
  intro i hi _
  rw [length_move_getCopy, hdata] at hi
  by_cases hpos : 0 < overlap a n l
  · simp only [move, if_pos hpos, getCopy, List.getElem_mapIdx]
    unfold overlap at hpos ⊢
    by_cases hin : l.Contains (a.toNat + i)
    · rw [if_pos hin]
      unfold Contains at hin
      rw [if_pos (by omega)]
      congr 1
      omega
    · rw [if_neg hin, if_neg]
      unfold Contains at hin
      omega
  · have hout : ¬ l.Contains (a.toNat + i) := by
      unfold Contains
      unfold overlap at hpos
      omega
    simp only [move, if_neg hpos, List.getElem_mapIdx, if_neg hout]

theorem foldl_getCopy {links : List TLink}
    (h : links.Pairwise fun l l' => ∀ x, l.Contains x → ¬ l'.Contains x) (cells : Cells)
    (a : BitVec 32) {data : List (BitVec 8)} (hdata : data.length = n) :
    links.foldl (move (getCopy cells) a n) data = loaded links cells a.toNat data := by
  induction links generalizing data with
  | nil => exact (List.ext_getElem (by simp [loaded]) (by simp [loaded, cellOr]))
  | cons l links ih =>
    rw [List.pairwise_cons] at h
    rw [List.foldl_cons, move_getCopy cells a l hdata, ih h.2 (by rw [List.length_mapIdx, hdata]),
      loaded, loaded, List.mapIdx_mapIdx]
    congr 1
    funext i v
    rw [Function.comp_apply, cellOr]
    split
    · rename_i hin
      exact cellOr_of_not_mapped fun ⟨l', hl', hin'⟩ => h.1 l' hl' _ hin hin'
    · rfl

theorem move_setCopy (data : List (BitVec 8)) (a : BitVec 32) (cells : Cells) (l : TLink)
    (k y : Nat) :
    move (setCopy data) a data.length cells l k y =
      if k = l.mArea ∧ Covers a.toNat data.length l y then
        data.getD (l.mStartAddr.toNat + y - a.toNat) 0
      else cells k y := by
  by_cases hpos : 0 < overlap a data.length l
  · rw [move, if_pos hpos, setCopy]
    unfold overlap at hpos ⊢
    by_cases hin : k = l.mArea ∧ Covers a.toNat data.length l y
    · rw [if_pos hin]
      unfold Covers at hin
      rw [if_pos (by omega)]
      congr 1
      omega
    · rw [if_neg hin, if_neg]
      unfold Covers at hin
      omega
  · rw [move, if_neg hpos, if_neg]
    unfold Covers
    unfold overlap at hpos
    omega

theorem stored_of_area (h : ∀ l ∈ links, k ≠ l.mArea) :
    stored x data cells links k y = cells k y := by
  induction links with
  | nil => rfl
  | cons l links ih =>
    rw [List.forall_mem_cons] at h
    rw [stored, if_neg fun hk => h.1 hk.1, ih h.2]

theorem stored_congr (h : cells k y = cells' k y) :
    stored x data cells links k y = stored x data cells' links k y := by
  induction links with
  | nil => exact h
  | cons l links ih => rw [stored, stored, ih]

theorem foldl_setCopy {links : List TLink} (h : links.Pairwise fun l l' => l.mArea ≠ l'.mArea)
    (data : List (BitVec 8)) (a : BitVec 32) (cells : Cells) :
    links.foldl (move (setCopy data) a data.length) cells = stored a.toNat data cells links := by
  induction links generalizing cells with
  | nil => rfl
  | cons l links ih =>
    rw [List.pairwise_cons] at h
    rw [List.foldl_cons, ih h.2]
    funext k y
    have hmove := move_setCopy data a cells l k y
    rw [stored]
    split
    · rename_i hin
      rw [if_pos hin] at hmove
      rw [stored_of_area fun l' hl' => hin.1 ▸ h.1 l' hl', hmove]
    · rename_i hin
      rw [if_neg hin] at hmove
      exact stored_congr hmove

end Effect

section Single

variable {a : BitVec 32} {n : Nat} (hreq : a.toNat + n ≤ 2 ^ 32) (hi : i < n)

include hreq hi

theorem toNat_single : (a + BitVec.ofNat 32 i).toNat = a.toNat + i := by
  rw [Paged.toNat_offset, Nat.mod_eq_of_lt (by omega)]

theorem Misjudged.of_single (h : Misjudged (a + BitVec.ofNat 32 i) 1 l) : Misjudged a n l := by
  unfold Misjudged at h ⊢
  rw [toNat_single hreq hi] at h
  omega

theorem ServedFrom.single
    (hdisj : links.Pairwise fun l l' => ∀ x, l.Contains x → ¬ l'.Contains x)
    (h : ServedFrom a n 0 links) : ServedFrom (a + BitVec.ofNat 32 i) 1 0 links := by
  intro pre l post heq hpre hmis
  refine h pre l post heq ?_ (hmis.of_single hreq hi)
  rcases hpre with hnil | hcount
  · exact .inl hnil
  · right
    rw [heq, List.pairwise_append] at hdisj
    rw [Nat.zero_add, ← mappedCells_eq_count _ _ hdisj.1] at hcount ⊢
    -- The byte itself is not among the mapped ones.
    have hne : mappedCells pre a.toNat n ≠ n := by
      intro hall
      have hbyte : mappedCells pre (a + BitVec.ofNat 32 i).toNat 1 = 1 := by
        rw [mappedCells_eq_iff, toNat_single hreq hi]
        intro j hj
        rw [Nat.add_assoc]
        exact mappedCells_eq_iff.mp hall _ (by omega)
      omega
    have hle := mappedCells_le pre a.toNat n
    omega

end Single

theorem stored_nil (x : Nat) (cells : Cells) (links : List TLink) :
    stored x [] cells links = cells := by
  induction links with
  | nil => rfl
  | cons l links ih =>
    funext k y
    rw [stored, ih, if_neg]
    simp only [Covers, List.length_nil]
    omega

theorem stored_head (hk : k = l.mArea) (h : ∀ l' ∈ links, k ≠ l'.mArea) :
    stored x data cells (l :: links) k y =
      if Covers x data.length l y then data.getD (l.mStartAddr.toNat + y - x) 0 else cells k y := by
  rw [stored, stored_of_area h]
  simp only [hk, true_and]

theorem stored_cons {links : List TLink} (h : links.Pairwise fun l l' => l.mArea ≠ l'.mArea)
    (x : Nat) (v : BitVec 8) (data : List (BitVec 8)) (cells : Cells) :
    stored (x + 1) data (stored x [v] cells links) links = stored x (v :: data) cells links := by
  funext k y
  induction links with
  | nil => rfl
  | cons l links ih =>
    rw [List.pairwise_cons] at h
    by_cases hk : k = l.mArea
    · have hrest : ∀ l' ∈ links, k ≠ l'.mArea := fun l' hl' => hk ▸ h.1 l' hl'
      rw [stored_head hk hrest, stored_head hk hrest, stored_head hk hrest]
      have hall : Covers x (v :: data).length l y ↔
          Covers (x + 1) data.length l y ∨ Covers x [v].length l y := by
        simp only [Covers, List.length_cons, List.length_nil]
        omega
      by_cases hlater : Covers (x + 1) data.length l y
      · have hle := hlater.2.1
        rw [if_pos hlater, if_pos (hall.mpr (.inl hlater)), show l.mStartAddr.toNat + y - x =
          l.mStartAddr.toNat + y - (x + 1) + 1 by omega, List.getD_cons_succ]
      · rw [if_neg hlater]
        by_cases hfirst : Covers x [v].length l y
        · have hzero : l.mStartAddr.toNat + y - x = 0 := by
            simp only [Covers, List.length_singleton] at hfirst
            omega
          rw [if_pos hfirst, if_pos (hall.mpr (.inr hfirst)), hzero]
          rfl
        · rw [if_neg hfirst, if_neg (by rw [hall]; exact not_or.mpr ⟨hlater, hfirst⟩)]
    · have hone : stored x [v] cells (l :: links) k y = stored x [v] cells links k y := by
        rw [stored, if_neg fun hl => hk hl.1]
      rw [stored, if_neg fun hl => hk hl.1, stored_congr hone, ih h.2, stored,
        if_neg fun hl => hk hl.1]

end TLink

namespace TMemBus

def setByte (bus : TMemBus) (a : BitVec 32) (e : BitVec 8 × Nat) : Exec BusFault Cells Unit := do
  let _ ← bus.setmem [e.1] (a + BitVec.ofNat 32 e.2)

/-- A request for `n` bytes does what `n` requests for one byte do, and says how many cells there
are. -/
structure RangeAccess (bus : TMemBus) (cells : Cells) (a : BitVec 32) (n : Nat) : Prop where
  getmem : ∀ data : List (BitVec 8), data.length = n → bus.getmem cells a n data =
    .ok (mappedCells bus.links a.toNat n) (loaded bus.links cells a.toNat data)
  getmem_each : ∀ data : List (BitVec 8), data.length = n → ∀ i < n,
    bus.getmem cells (a + BitVec.ofNat 32 i) 1 [data.getD i 0] =
      .ok (mappedCells bus.links (a.toNat + i) 1)
        [(loaded bus.links cells a.toNat data).getD i 0]
  setmem : ∀ data : List (BitVec 8), data.length = n → bus.setmem data a cells =
    .ok (mappedCells bus.links a.toNat n) (stored a.toNat data cells bus.links)
  setmem_each : ∀ data : List (BitVec 8), data.length = n → data.zipIdx.forM (bus.setByte a) cells =
    .ok () (stored a.toNat data cells bus.links)
  isMemInRange : bus.isMemInRange a n = true ↔ ∀ i < n, Mapped bus.links (a.toNat + i)

section Served

variable {bus : TMemBus}

theorem count_le (bus : TMemBus) (a : BitVec 32) (n : Nat) : count a n bus.links ≤ n := by
  rw [← mappedCells_eq_count a n bus.disjoint]
  exact mappedCells_le ..

theorem getCopy_zero (cells : Cells) (l : TLink) (x y : Nat) (data : List (BitVec 8)) :
    getCopy cells l x 0 y data = data := by
  apply List.ext_getElem
  · exact List.length_mapIdx
  intro i _ _
  simp only [getCopy, List.getElem_mapIdx]
  exact if_neg (by omega)

theorem setCopy_zero (data : List (BitVec 8)) (l : TLink) (x y : Nat) (cells : Cells) :
    setCopy data l x 0 y cells = cells := by
  funext k z
  exact if_neg (by omega)

section Request

variable {a : BitVec 32} {n : Nat} (hn : n < 2 ^ 31) (hreq : a.toNat + n ≤ 2 ^ 32)
  (h : ServedFrom a n 0 bus.links)

include hn hreq h

theorem transferAll_served {copy : TLink → Nat → Nat → Nat → σ → σ}
    (hcopy : ∀ l x y s, copy l x 0 y s = s) (s : σ) :
    transferAll copy a n bus.links 0 s =
      .ok (mappedCells bus.links a.toNat n) (bus.links.foldl (move copy a n) s) := by
  have hcount : 0 + count a n bus.links ≤ n := by
    rw [Nat.zero_add]
    exact bus.count_le a n
  have hrun := transferAll_eq hn hreq hcopy bus.fits hcount h s
  rw [Nat.zero_add] at hrun
  rw [mappedCells_eq_count a n bus.disjoint]
  exact hrun

theorem getmem_served (cells : Cells) {data : List (BitVec 8)} (hdata : data.length = n) :
    bus.getmem cells a n data =
      .ok (mappedCells bus.links a.toNat n) (loaded bus.links cells a.toNat data) := by
  rw [← foldl_getCopy bus.disjoint cells a hdata]
  exact transferAll_served hn hreq h (getCopy_zero cells) data

theorem setmem_served (cells : Cells) {data : List (BitVec 8)} (hdata : data.length = n) :
    bus.setmem data a cells =
      .ok (mappedCells bus.links a.toNat n) (stored a.toNat data cells bus.links) := by
  subst hdata
  rw [← foldl_setCopy bus.areas data a cells]
  exact transferAll_served hn hreq h (setCopy_zero data) cells

omit hn in
theorem getmem_each_served (cells : Cells) {data : List (BitVec 8)} (hdata : data.length = n)
    (hi : i < n) : bus.getmem cells (a + BitVec.ofNat 32 i) 1 [data.getD i 0] =
      .ok (mappedCells bus.links (a.toNat + i) 1)
        [(loaded bus.links cells a.toNat data).getD i 0] := by
  have haddr := toNat_single hreq hi
  have hget := getmem_served (by omega) (by omega) (h.single hreq hi bus.disjoint) cells
    (List.length_singleton (a := data.getD i 0))
  rw [haddr] at hget
  rw [hget]
  congr 1
  rw [loaded, loaded, List.mapIdx_singleton, Nat.add_zero, List.getD_eq_getElem _ _ (by omega),
    List.getD_eq_getElem _ _ (by rw [List.length_mapIdx]; omega), List.getElem_mapIdx]

omit hn in
theorem forM_setByte (data : List (BitVec 8)) (k : Nat) (hk : k + data.length ≤ n) (cells : Cells) :
    (data.zipIdx k).forM (bus.setByte a) cells =
      .ok () (stored (a.toNat + k) data cells bus.links) := by
  induction data generalizing k cells with
  | nil => exact congrArg (Outcome.ok ()) (stored_nil _ cells bus.links).symm
  | cons v data ih =>
    rw [List.length_cons] at hk
    have hset := setmem_served (by omega) (by rw [toNat_single hreq (by omega)]; omega)
      (h.single hreq (show k < n by omega) bus.disjoint) cells (List.length_singleton (a := v))
    rw [toNat_single hreq (by omega)] at hset
    rw [List.zipIdx_cons, ← stored_cons bus.areas]
    have hbyte : bus.setByte a (v, k) cells = .ok () _ := (bind_of_ok hset).trans rfl
    exact (bind_of_ok hbyte).trans (ih (k + 1) (by omega) _)

end Request

end Served

section InRange

variable {a : BitVec 32} {n : Nat} (hn : n < 2 ^ 31) (hreq : a.toNat + n ≤ 2 ^ 32)

include hn hreq

theorem inRangeLoop_iff {links : List TLink}
    (hfits : ∀ l ∈ links, l.mStartAddr.toNat + l.aLen.toNat ≤ 2 ^ 32)
    (hcount : res + count a n links ≤ n) (h : ServedFrom a n res links) :
    inRangeLoop a n links res = true ↔ links ≠ [] ∧ res + count a n links = n := by
  induction links generalizing res with
  | nil => simp [inRangeLoop]
  | cons l links ih =>
    rw [List.forall_mem_cons] at hfits
    obtain ⟨hhead, htail⟩ := servedFrom_cons.mp h
    rw [count_cons] at hcount ⊢
    have hsize : l.sizeIn a n = overlap a n l := by
      rcases addrRange_eq hfits.1 hn hreq hhead with ⟨haddr, hzero⟩ | ⟨_, _, _, haddr, rfl, -⟩
      · rw [sizeIn, haddr, hzero]
        rfl
      · rw [sizeIn, haddr]
    have hnat : (BitVec.ofInt 32 (res + l.sizeIn a n)).toNat = res + overlap a n l := by
      rw [hsize, ← Int.natCast_add, BitVec.ofInt_natCast, BitVec.toNat_ofNat,
        Nat.mod_eq_of_lt (by omega)]
    rw [inRangeLoop, hnat]
    split
    · simp only [true_iff]
      exact ⟨List.cons_ne_nil l links, by omega⟩
    · rw [hsize, ← Int.natCast_add, ih hfits.2 (by omega) (htail (by omega)), ← Nat.add_assoc]
      refine ⟨fun hrest => ⟨List.cons_ne_nil l links, hrest.2⟩, fun hrest => ⟨?_, hrest.2⟩⟩
      rintro rfl
      simp only [count, List.map_nil, List.sum_nil] at hrest
      omega

end InRange

/-- A range request is right exactly when no area that the loop comes to is misjudged; an empty one
needs some area to come to. -/
theorem range_access_iff (bus : TMemBus) (cells : Cells) (hn : n < 2 ^ 31)
    (hreq : a.toNat + n ≤ 2 ^ 32) : bus.RangeAccess cells a n ↔
      (n = 0 → bus.links ≠ []) ∧ ServedFrom a n 0 bus.links := by
  have hcount : 0 + count a n bus.links ≤ n := by
    rw [Nat.zero_add]
    exact bus.count_le a n
  constructor
  · intro h
    constructor
    · rintro rfl hnil
      have hrange := h.isMemInRange.mpr fun i hi => absurd hi (Nat.not_lt_zero i)
      rw [isMemInRange, hnil] at hrange
      cases hrange
    · have hget := h.getmem (List.replicate n 0) List.length_replicate
      rw [mappedCells_eq_count a n bus.disjoint, ← Nat.zero_add (count a n bus.links)] at hget
      exact servedFrom_of_transferAll hn hreq (getCopy_zero cells) bus.fits hcount hget
  · rintro ⟨hne, h⟩
    constructor
    · exact fun data hdata => getmem_served hn hreq h cells hdata
    · exact fun data hdata i hi => getmem_each_served hreq h cells hdata hi
    · exact fun data hdata => setmem_served hn hreq h cells hdata
    · intro data hdata
      exact forM_setByte hreq h data 0 (by omega) cells
    · rw [← mappedCells_eq_iff, mappedCells_eq_count a n bus.disjoint]
      refine (inRangeLoop_iff hn hreq bus.fits hcount h).trans ?_
      rw [Nat.zero_add]
      refine ⟨And.right, fun hall => ⟨?_, hall⟩⟩
      intro hnil
      rw [hnil] at hall
      exact hne hall.symm hnil

def twoAreas : TMemBus where
  links := [⟨16, 16, 0⟩, ⟨32, 16, 1⟩]
  fits := by decide
  disjoint := by
    simp only [List.pairwise_cons, List.mem_singleton, forall_eq, List.not_mem_nil]
    refine ⟨fun x hx hx' => ?_, fun l hl => hl.elim, List.Pairwise.nil⟩
    simp only [Contains, BitVec.reduceToNat] at hx hx'
    omega
  areas := by decide

theorem range_access_two : 20 < 2 ^ 31 ∧ (20 : BitVec 32).toNat + 20 ≤ 2 ^ 32 ∧
    twoAreas.RangeAccess (fun _ _ => 0) 20 20 := by
  refine ⟨by decide, by decide, (range_access_iff twoAreas _ (by decide) (by decide)).mpr
    ⟨fun h => absurd h (by decide), ?_⟩⟩
  rw [twoAreas, servedFrom_cons, servedFrom_cons]
  refine ⟨by decide, fun _ => ⟨by decide, fun h => absurd h (by decide)⟩⟩

/-- A request that starts before the areas and ends with the first one misses all its cells. -/
theorem range_access_end : twoAreas.getmem (fun _ _ => 7) 8 24 (List.replicate 24 0) =
      .ok 0 (List.replicate 24 0) ∧
    mappedCells twoAreas.links 8 24 = 16 ∧ ¬ twoAreas.RangeAccess (fun _ _ => 7) 8 24 := by
  have hget : twoAreas.getmem (fun _ _ => 7) 8 24 (List.replicate 24 0) =
      .ok 0 (List.replicate 24 0) := rfl
  have hcells : mappedCells twoAreas.links 8 24 = 16 := by decide
  refine ⟨hget, hcells, fun h => ?_⟩
  have hcount := h.getmem (List.replicate 24 0) List.length_replicate
  rw [hget] at hcount
  injection hcount with hres
  change (0 : Int) = mappedCells twoAreas.links 8 24 at hres
  rw [hcells] at hres
  cases hres

end TMemBus

namespace SimpleMemBlock

theorem getmem_area (b : SimpleMemBlock 1) (h : a.toNat + n < 2 ^ 32) :
    ∃ b', getmem a n b =
        .ok (if b.mSize.toNat < a.toNat + n then ([], 0) else (b.bytes a.toNat n, n)) b' ∧
      b'.cell = b.cell := by
  split
  · rename_i hout
    exact ⟨b, (rejected (by rwa [Nat.mod_eq_of_lt h])).2.1, rfl⟩
  · exact getmem_eq (by omega) fun i _ => Nat.mod_lt _ slotSize_pos

theorem setmem_area (b : SimpleMemBlock 1) (h : a.toNat + inp.length < 2 ^ 32) :
    ∃ b', setmem inp a b =
        .ok (if b.mSize.toNat < a.toNat + inp.length then 0 else inp.length) b' ∧
      b.Overwrites b' a.toNat (if b.mSize.toNat < a.toNat + inp.length then [] else inp) := by
  split
  · rename_i hout
    exact ⟨b, (rejected (by rwa [Nat.mod_eq_of_lt h])).1 inp rfl, .of_cell rfl rfl _⟩
  · exact setmem_eq (by omega)

end SimpleMemBlock

end GvmCore
