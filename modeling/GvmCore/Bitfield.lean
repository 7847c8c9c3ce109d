import GvmCore.BitRange

namespace GvmCore
open BitRange
set_option autoImplicit true

namespace Bitfield

section Code

/-- A shift; its count has to be smaller than the width. -/
def shl (x : BitVec 64) (n : Int) : Option (BitVec 64) :=
  if 0 ≤ n ∧ n < 64 then some (x <<< n.toNat) else none

def shr (x : BitVec 64) (n : Int) : Option (BitVec 64) :=
  if 0 ≤ n ∧ n < 64 then some (x >>> n.toNat) else none

/-- The assignments to `start` and `end`: the second one reads the `start` of the first. -/
def bounds (start stop : BitVec 64) : BitVec 64 × BitVec 64 :=
  let start := if start < stop then start else stop
  let stop := (if start > stop then start else stop) + 1
  (start, stop)

def mask (start stop : BitVec 64) : Option (BitVec 64) :=
  let diff := ((stop - start).setWidth 32).toInt
  if diff = 64 then some (-1) else (shl 1 diff).map (· - 1)

/-- The body of the two `set_bitfield`; `load` is what `*((uint64_t*)dst)` reads. -/
def setThrough (load : BitVec 64 → Option (BitVec 64)) (dst start stop aVal : BitVec 64) :
    Option (BitVec 64) := do
  let (start, stop) := bounds start stop
  let mask ← mask start stop
  let old ← load dst
  let cleared ← shl mask start.toNat
  let newVal ← shl (aVal &&& mask) start.toNat
  return (old &&& ~~~cleared) ||| newVal

def setBitfield : BitVec 64 → BitVec 64 → BitVec 64 → BitVec 64 → Option (BitVec 64) :=
  setThrough some

def getBitfield (aVal start stop : BitVec 64) : Option (BitVec 64) := do
  let (start, stop) := bounds start stop
  let mask ← mask start stop
  let shifted ← shr aVal start.toNat
  return shifted &&& mask

/-- `HELPER(set_bitfield)`: `dst` is the word itself, and is used as an address of the host. -/
def helperSetBitfield (host : BitVec 64 → Option (BitVec 64)) :
    BitVec 64 → BitVec 64 → BitVec 64 → BitVec 64 → Option (BitVec 64) :=
  setThrough host

def helperGetBitfield : BitVec 64 → BitVec 64 → BitVec 64 → Option (BitVec 64) := getBitfield

end Code

def low (s e : BitVec 64) : Nat := min s.toNat e.toNat

def high (s e : BitVec 64) : Nat := max s.toNat e.toNat

/-- The law of a bit field between `s` and `e`, for the word `w` and the value `v`. -/
structure Law (set : BitVec 64 → BitVec 64 → BitVec 64 → BitVec 64 → Option (BitVec 64))
    (get : BitVec 64 → BitVec 64 → BitVec 64 → Option (BitVec 64)) (w s e v : BitVec 64) :
    Prop where
  readBack : ∃ x y, set w s e v = some x ∧ get x s e = some y ∧
    y.toNat = v.toNat % 2 ^ (((s.toNat : Int) - e.toNat).natAbs + 1)
  others : ∃ x, set w s e v = some x ∧
    ∀ i < 64, i < low s e ∨ high s e < i → x.getLsbD i = w.getLsbD i
  swapSet : set w s e v = set w e s v
  swapGet : get w s e = get w e s

def Above (s e : BitVec 64) (P : Nat → Prop) : Prop := ∀ i, low s e < i → i ≤ high s e → P i

instance {P : Nat → Prop} [DecidablePred P] : Decidable (Above s e P) :=
  decidable_of_iff (∀ i ≤ high s e, low s e < i → P i)
    ⟨fun h i hlo hhi => h i hhi hlo, fun h i hhi hlo => h i hlo hhi⟩

/-- The number of bits that the code takes the field for. -/
def width (s e : BitVec 64) : Nat := if s.toNat ≤ e.toNat then e.toNat - s.toNat + 1 else 1

section Evaluation

variable {s e : BitVec 64}

theorem toNat_bounds (he : e.toNat < 64) :
    (bounds s e).1.toNat = low s e ∧ (bounds s e).2.toNat = low s e + width s e := by
  have hsucc : (e + 1).toNat = e.toNat + 1 := BitVec.toNat_add_of_lt (by simp; omega)
  by_cases hlt : s < e
  · have hnat : s.toNat < e.toNat := hlt
    have hstop : ¬ s > e := BitVec.lt_asymm hlt
    simp only [bounds, if_pos hlt, if_neg hstop, hsucc, low, width, if_pos hnat.le]
    omega
  · have hnat : ¬ s.toNat < e.toNat := hlt
    simp only [bounds, if_neg hlt, ite_self, hsucc, low, width]
    split <;> omega

theorem one_le_width : 1 ≤ width s e := by
  rw [width]
  split <;> omega

theorem low_add_width_le (he : e.toNat < 64) : low s e + width s e ≤ 64 := by
  rw [low, width]
  split <;> omega

theorem mask_eq {start stop : BitVec 64} (h : stop.toNat = start.toNat + n) (hn : n ≤ 64) :
    mask start stop = some (lowMask 64 n) := by
  have hle : start ≤ stop := BitVec.le_def.mpr (by omega)
  have hdiff : (stop - start).toNat = n := by
    rw [BitVec.toNat_sub_of_le hle]
    omega
  have hint : ((stop - start).setWidth 32).toInt = n := by
    have hnat : ((stop - start).setWidth 32).toNat = n := by
      rw [BitVec.toNat_setWidth, hdiff]
      omega
    rw [BitVec.toInt_eq_toNat_of_lt (by omega), hnat]
  simp only [mask, hint, lowMask]
  by_cases h64 : n = 64
  · rw [if_pos (by omega), if_pos h64]
    rfl
  · rw [if_neg (by omega), if_neg h64, shl, if_pos (by omega)]
    rfl

theorem shl_toNat {x start : BitVec 64} (h : start.toNat < 64) :
    shl x start.toNat = some (x <<< start.toNat) := by
  rw [shl, if_pos (by omega), Int.toNat_natCast]

theorem shr_toNat {x start : BitVec 64} (h : start.toNat < 64) :
    shr x start.toNat = some (x >>> start.toNat) := by
  rw [shr, if_pos (by omega), Int.toNat_natCast]

theorem setThrough_eq {w v : BitVec 64} (he : e.toNat < 64) :
    setThrough load w s e v = (load w).map fun m => putBits m (low s e) (width s e) v := by
  obtain ⟨hlow, hstop⟩ := toNat_bounds (s := s) he
  have hfit := low_add_width_le (s := s) he
  have hpos := one_le_width (s := s) (e := e)
  have hmask : mask (bounds s e).1 (bounds s e).2 = some (lowMask 64 (width s e)) :=
    mask_eq (by omega) (by omega)
  have hshl : ∀ x, shl x (bounds s e).1.toNat = some (x <<< low s e) := by
    intro x
    rw [shl_toNat (by omega), hlow]
  cases hload : load w with
  | none => simp [setThrough, hmask, hload]
  | some m => simp [setThrough, hmask, hload, hshl, putBits]

theorem getBitfield_eq {x : BitVec 64} (he : e.toNat < 64) :
    getBitfield x s e = some (getBits x (low s e) (width s e)) := by
  obtain ⟨hlow, hstop⟩ := toNat_bounds (s := s) he
  have hfit := low_add_width_le (s := s) he
  have hpos := one_le_width (s := s) (e := e)
  have hmask : mask (bounds s e).1 (bounds s e).2 = some (lowMask 64 (width s e)) :=
    mask_eq (by omega) (by omega)
  have hshr : shr x (bounds s e).1.toNat = some (x >>> low s e) := by
    rw [shr_toNat (by omega), hlow]
  simp [getBitfield, hmask, hshr, getBits]

end Evaluation

section Laws

variable {load : BitVec 64 → Option (BitVec 64)} {w m v s e : BitVec 64}

theorem low_comm : low s e = low e s := Nat.min_comm _ _

theorem high_comm : high s e = high e s := Nat.max_comm _ _

theorem forall_above_iff {P : Nat → Prop} :
    Above s e P ↔ ∀ i, low s e + 1 ≤ i → i < low s e + (high s e - low s e + 1) → P i := by
  have hle : low s e ≤ high s e := (Nat.min_le_left _ _).trans (Nat.le_max_left _ _)
  constructor
  · intro h i hlo hhi
    exact h i hlo (by omega)
  · intro h i hlo hhi
    exact h i hlo (by omega)

theorem width_of_le (h : s.toNat ≤ e.toNat) : width s e = high s e - low s e + 1 := by
  rw [width, if_pos h, high, low, Nat.max_eq_right h, Nat.min_eq_left h]

theorem width_of_lt (h : e.toNat < s.toNat) : width s e = 1 := by
  rw [width, if_neg (by omega)]

theorem natAbs_sub : ((s.toNat : Int) - e.toNat).natAbs = high s e - low s e := by
  rw [high, low]
  omega

/-- Of the positions in the wrong order only the lowest bit is read back. -/
theorem readBack_iff (he : e.toNat < 64) :
    (getBits (putBits m (low s e) (width s e) v) (low s e) (width s e)).toNat =
        v.toNat % 2 ^ (((s.toNat : Int) - e.toNat).natAbs + 1) ↔
      (e.toNat < s.toNat → Above s e fun i => v.getLsbD (i - low s e) = false) := by
  rw [toNat_getBits_putBits (low_add_width_le he) le_rfl, natAbs_sub]
  by_cases hle : s.toNat ≤ e.toNat
  · rw [width_of_le hle]
    exact iff_of_true rfl fun hlt => absurd hlt (by omega)
  · rw [width_of_lt (by omega), mod_two_pow_eq_iff (by omega), forall_above_iff]
    constructor
    · intro h _ i hlo hhi
      exact h (i - low s e) (by omega) (by omega)
    · intro h i hlo hhi
      have hbit := h (by omega) (low s e + i) (by omega) (by omega)
      rwa [Nat.add_sub_cancel_left] at hbit

theorem low_add_le (hs : s.toNat < 64) (he : e.toNat < 64) :
    low s e + (high s e - low s e + 1) ≤ 64 := by
  rw [high, low]
  omega

theorem widths (s e : BitVec 64) : (width s e = high s e - low s e + 1 ∧ width e s = 1) ∨
    (width s e = 1 ∧ width e s = high s e - low s e + 1) := by
  rcases Nat.lt_trichotomy s.toNat e.toNat with hlt | heq | hgt
  · exact .inl ⟨width_of_le hlt.le, width_of_lt hlt⟩
  · refine .inl ⟨width_of_le heq.le, ?_⟩
    rw [width, if_pos heq.ge, heq, Nat.sub_self]
  · refine .inr ⟨width_of_lt hgt, ?_⟩
    rw [width_of_le hgt.le, high_comm, low_comm]

theorem swapSet_iff (hs : s.toNat < 64) (he : e.toNat < 64) :
    putBits m (low s e) (width s e) v = putBits m (low e s) (width e s) v ↔
      Above s e fun i => m.getLsbD i = v.getLsbD (i - low s e) := by
  rw [low_comm (s := e), forall_above_iff,
    ← putBits_eq_putBits_iff (low_add_le hs he) (Nat.le_add_left 1 _)]
  rcases widths s e with ⟨hfull, hone⟩ | ⟨hone, hfull⟩
  · rw [hfull, hone]
  · rw [hfull, hone]
    exact eq_comm

theorem swapGet_iff (hs : s.toNat < 64) (he : e.toNat < 64) :
    getBits w (low s e) (width s e) = getBits w (low e s) (width e s) ↔
      Above s e fun i => w.getLsbD i = false := by
  rw [low_comm (s := e), forall_above_iff,
    ← getBits_eq_getBits_iff (low_add_le hs he) (Nat.le_add_left 1 _)]
  rcases widths s e with ⟨hfull, hone⟩ | ⟨hone, hfull⟩
  · rw [hfull, hone]
  · rw [hfull, hone]
    exact eq_comm

theorem others_iff (he : e.toNat < 64) :
    (∀ i < 64, i < low s e ∨ high s e < i →
        (putBits m (low s e) (width s e) v).getLsbD i = w.getLsbD i) ↔
      ∀ i < 64, i < low s e ∨ high s e < i → m.getLsbD i = w.getLsbD i := by
  have hfit := low_add_width_le (s := s) he
  have hwidth : width s e ≤ high s e - low s e + 1 := by
    rcases widths s e with ⟨h, -⟩ | ⟨h, -⟩ <;> omega
  have hle : low s e ≤ high s e := (Nat.min_le_left _ _).trans (Nat.le_max_left _ _)
  have hout : ∀ i < 64, i < low s e ∨ high s e < i →
      (putBits m (low s e) (width s e) v).getLsbD i = m.getLsbD i := by
    intro i hi hplace
    rw [getLsbD_putBits (by omega) hi, if_neg (by omega)]
  constructor
  · intro h i hi hplace
    rw [← hout i hi hplace]
    exact h i hi hplace
  · intro h i hi hplace
    rw [hout i hi hplace]
    exact h i hi hplace

/-- The words `w` and `m`, where the code changes `m` in the place of `w`, that keep the law. -/
structure Fits (w m s e v : BitVec 64) : Prop where
  others : ∀ i < 64, i < low s e ∨ high s e < i → m.getLsbD i = w.getLsbD i
  word : Above s e fun i => w.getLsbD i = false
  value : Above s e fun i => m.getLsbD i = v.getLsbD (i - low s e)
  order : e.toNat < s.toNat → Above s e fun i => v.getLsbD (i - low s e) = false

theorem law_iff (hs : s.toNat < 64) (he : e.toNat < 64) :
    Law (setThrough load) getBitfield w s e v ↔ ∃ m, load w = some m ∧ Fits w m s e v := by
  cases hload : load w with
  | none =>
    constructor
    · rintro ⟨⟨x, y, hset, -⟩, -⟩
      rw [setThrough_eq he, hload] at hset
      cases hset
    · rintro ⟨m, hm, -⟩
      cases hm
  | some m =>
    have hset : setThrough load w s e v = some (putBits m (low s e) (width s e) v) := by
      rw [setThrough_eq he, hload, Option.map_some]
    have hswap : setThrough load w e s v = some (putBits m (low e s) (width e s) v) := by
      rw [setThrough_eq hs, hload, Option.map_some]
    constructor
    · rintro ⟨⟨x, y, hx, hy, hread⟩, ⟨x', hx', hothers⟩, hswapSet, hswapGet⟩
      rw [hset] at hx hx'
      cases hx
      cases hx'
      rw [getBitfield_eq he] at hy
      cases hy
      rw [hset, hswap, Option.some.injEq] at hswapSet
      rw [getBitfield_eq he, getBitfield_eq hs, Option.some.injEq] at hswapGet
      exact ⟨m, rfl, (others_iff he).mp hothers, (swapGet_iff hs he).mp hswapGet,
        (swapSet_iff hs he).mp hswapSet, (readBack_iff he).mp hread⟩
    · rintro ⟨m', hm, hothers, hword, hvalue, horder⟩
      cases hm
      refine ⟨⟨_, _, hset, getBitfield_eq he, (readBack_iff he).mpr horder⟩,
        ⟨_, hset, (others_iff he).mpr hothers⟩, ?_, ?_⟩
      · rw [hset, hswap, (swapSet_iff hs he).mpr hvalue]
      · rw [getBitfield_eq he, getBitfield_eq hs, (swapGet_iff hs he).mpr hword]

theorem fits_self_iff : Fits w w s e v ↔
    Above s e fun i => w.getLsbD i = false ∧ v.getLsbD (i - low s e) = false := by
  constructor
  · intro h i hlo hhi
    have hword : w.getLsbD i = false := h.word i hlo hhi
    have hvalue : w.getLsbD i = v.getLsbD (i - low s e) := h.value i hlo hhi
    exact ⟨hword, hvalue.symm.trans hword⟩
  · intro h
    exact ⟨fun _ _ _ => rfl, fun i hlo hhi => (h i hlo hhi).1,
      fun i hlo hhi => (h i hlo hhi).1.trans (h i hlo hhi).2.symm,
      fun _ i hlo hhi => (h i hlo hhi).2⟩

end Laws

/-- The law of `bitfield.c` holds for the words and values whose bits above the lowest one of the
field are zero, and for all of them where the field is one bit. The helper besides that changes
the word of the host's memory that its argument points to. -/
theorem bitfield_law_iff (host : BitVec 64 → Option (BitVec 64)) (w s e v : BitVec 64)
    (hs : s.toNat < 64) (he : e.toNat < 64) :
    (Law setBitfield getBitfield w s e v ↔
      Above s e fun i => w.getLsbD i = false ∧ v.getLsbD (i - low s e) = false) ∧
    (Law (helperSetBitfield host) helperGetBitfield w s e v ↔
      ∃ m, host w = some m ∧ Fits w m s e v) := by
  constructor
  · rw [← fits_self_iff]
    apply (law_iff hs he).trans
    constructor
    · rintro ⟨m, hm, hfits⟩
      cases hm
      exact hfits
    · intro hfits
      exact ⟨w, rfl, hfits⟩
  · exact law_iff hs he

/-- A field of four bits for a word and a value that fit. -/
theorem bitfield_law_four : Law setBitfield getBitfield 0xf0 8 11 1 :=
  (bitfield_law_iff (fun _ => none) 0xf0 8 11 1 (by decide) (by decide)).1.mpr (by decide)

/-- Four bits are written and read as one where the higher position comes first. -/
theorem bitfield_reversed : setBitfield 0 3 0 15 = some 1 ∧ getBitfield 1 3 0 = some 1 ∧
    setBitfield 0 0 3 15 = some 15 ∧ ¬ Law setBitfield getBitfield 0 3 0 15 := by
  refine ⟨by decide, by decide, by decide, fun hlaw => ?_⟩
  have hswap := hlaw.swapSet
  exact absurd hswap (by decide)

end Bitfield
end GvmCore
