import GvmCore.Exec
import GvmCore.Paged
import Mathlib.Algebra.Group.Int.Defs
import Mathlib.Algebra.Ring.Nat
import Mathlib.Data.List.Basic

namespace GvmCore
open Exec
set_option autoImplicit true

/-- `TLinkStruct`: the `aLen` one-byte cells of an area, seen from `mStartAddr` on. -/
structure TLink where
  mStartAddr : BitVec 32
  aLen : BitVec 32
  mArea : Nat

abbrev Cells := Nat → Nat → BitVec 8

inductive BusFault where
  /-- An area is asked for a negative number of bytes. -/
  | request
  /-- A transfer reaches out of the array of the caller. -/
  | buffer
  deriving DecidableEq

namespace TLink

def mEndAddr (l : TLink) : BitVec 32 := l.aLen + l.mStartAddr

def InSpace (l : TLink) (addr : BitVec 32) : Prop := addr ≥ l.mStartAddr ∧ addr < l.mEndAddr

instance : Decidable (InSpace l addr) := inferInstanceAs (Decidable (_ ∧ _))

def minAddr (v1 v2 : BitVec 32) : BitVec 32 := if v1 > v2 then v2 else v1

def Meets (l : TLink) (aAddr endAddr : BitVec 32) : Prop :=
  l.InSpace aAddr ∨ l.InSpace endAddr ∨ aAddr < l.mStartAddr ∧ endAddr > l.mEndAddr

instance : Decidable (Meets l aAddr endAddr) := inferInstanceAs (Decidable (_ ∨ _))

def saddrAbs (l : TLink) (aAddr : BitVec 32) : BitVec 32 :=
  if l.InSpace aAddr then aAddr else l.mStartAddr

/-- `AddrRange` with cells of one byte: the address in the area, the size and the offset in the
array. -/
def addrRange (l : TLink) (aAddr : BitVec 32) (aInitSize : Nat) : Option (BitVec 32 × Int × Int) :=
  let endAddr := aAddr + BitVec.ofNat 32 aInitSize
  if l.Meets aAddr endAddr then
    some (l.saddrAbs aAddr - l.mStartAddr,
      (minAddr endAddr l.mEndAddr - l.saddrAbs aAddr).toInt, (l.saddrAbs aAddr - aAddr).toInt)
  else none

/-- What one area adds to a request: it serves a range that it has and no other. `copy` moves the
bytes, given the address in the area, the size and the offset in the array. -/
def transfer (copy : TLink → Nat → Nat → Nat → σ → σ) (aAddr : BitVec 32) (n : Nat) (l : TLink) :
    Exec BusFault σ Int :=
  match l.addrRange aAddr n with
  | none => return 0
  | some (saddr, size, offs) =>
    if size < 0 then fault .request
    else if l.aLen.toNat < saddr.toNat + size then return 0
    else if 0 < size ∧ ¬ (0 ≤ offs ∧ offs + size ≤ n) then fault .buffer
    else do
      update (copy l saddr.toNat size.toNat offs.toNat)
      return size

def transferAll (copy : TLink → Nat → Nat → Nat → σ → σ) (aAddr : BitVec 32) (n : Nat) :
    List TLink → Int → Exec BusFault σ Int
  | [], res => return res
  | l :: lnk, res => do
    let size ← l.transfer copy aAddr n
    if res + size ≥ n then return n else transferAll copy aAddr n lnk (res + size)

def getCopy (cells : Cells) (l : TLink) (saddr size offs : Nat) (data : List (BitVec 8)) :
    List (BitVec 8) :=
  data.mapIdx fun i v =>
    if offs ≤ i ∧ i < offs + size then cells l.mArea (saddr + (i - offs)) else v

def setCopy (data : List (BitVec 8)) (l : TLink) (saddr size offs : Nat) (cells : Cells) : Cells :=
  fun k y => if k = l.mArea ∧ saddr ≤ y ∧ y < saddr + size then data.getD (offs + (y - saddr)) 0
    else cells k y

/-- The cell at an address of the bus belongs to the area. -/
def Contains (l : TLink) (x : Nat) : Prop :=
  l.mStartAddr.toNat ≤ x ∧ x < l.mStartAddr.toNat + l.aLen.toNat

instance : Decidable (Contains l x) := inferInstanceAs (Decidable (_ ∧ _))

/-- How many cells a request has in common with the area. -/
def overlap (a : BitVec 32) (n : Nat) (l : TLink) : Nat :=
  min (a.toNat + n) (l.mStartAddr.toNat + l.aLen.toNat) - max a.toNat l.mStartAddr.toNat

/-- The requests that `AddrRange` misjudges: the area starts later and ends with the request, or the
end of one of them is the end of the address space. -/
def Misjudged (a : BitVec 32) (n : Nat) (l : TLink) : Prop :=
  0 < l.aLen.toNat ∧
    (a.toNat < l.mStartAddr.toNat ∧ a.toNat + n = l.mStartAddr.toNat + l.aLen.toNat ∨
      a.toNat + n = 2 ^ 32 ∧ a.toNat < l.mStartAddr.toNat + l.aLen.toNat ∨
      l.mStartAddr.toNat + l.aLen.toNat = 2 ^ 32 ∧
        (l.mStartAddr.toNat ≤ a.toNat ∧ 0 < n ∨ a.toNat < l.mStartAddr.toNat ∧ 0 < a.toNat + n))

instance : Decidable (Misjudged a n l) := inferInstanceAs (Decidable (_ ∧ _))

section Request

theorem toNat_minAddr (v1 v2 : BitVec 32) : (minAddr v1 v2).toNat = min v1.toNat v2.toNat := by
  unfold minAddr
  split
  · rename_i hgt
    have := BitVec.lt_def.mp hgt
    omega
  · rename_i hle
    have := BitVec.lt_def.not.mp hle
    omega

theorem toNat_mEndAddr (l : TLink) :
    l.mEndAddr.toNat = (l.mStartAddr.toNat + l.aLen.toNat) % 2 ^ 32 := by
  rw [mEndAddr, BitVec.toNat_add, Nat.add_comm]

theorem inSpace_iff : InSpace l addr ↔ l.mStartAddr.toNat ≤ addr.toNat ∧
    addr.toNat < (l.mStartAddr.toNat + l.aLen.toNat) % 2 ^ 32 := by
  rw [← toNat_mEndAddr]
  rfl

theorem meets_iff : Meets l a (a + BitVec.ofNat 32 n) ↔
    (l.mStartAddr.toNat ≤ a.toNat ∧ a.toNat < (l.mStartAddr.toNat + l.aLen.toNat) % 2 ^ 32) ∨
    (l.mStartAddr.toNat ≤ (a.toNat + n) % 2 ^ 32 ∧
      (a.toNat + n) % 2 ^ 32 < (l.mStartAddr.toNat + l.aLen.toNat) % 2 ^ 32) ∨
    (a.toNat < l.mStartAddr.toNat ∧
      (l.mStartAddr.toNat + l.aLen.toNat) % 2 ^ 32 < (a.toNat + n) % 2 ^ 32) := by
  rw [← toNat_mEndAddr, ← Paged.toNat_offset]
  rfl

theorem toNat_saddrAbs (l : TLink) (a : BitVec 32) :
    (l.mStartAddr.toNat ≤ a.toNat ∧ a.toNat < (l.mStartAddr.toNat + l.aLen.toNat) % 2 ^ 32) ∧
        (l.saddrAbs a).toNat = a.toNat ∨
      ¬ (l.mStartAddr.toNat ≤ a.toNat ∧
        a.toNat < (l.mStartAddr.toNat + l.aLen.toNat) % 2 ^ 32) ∧
        (l.saddrAbs a).toNat = l.mStartAddr.toNat := by
  rw [← inSpace_iff, saddrAbs]
  by_cases hin : l.InSpace a
  · exact .inl ⟨hin, by rw [if_pos hin]⟩
  · exact .inr ⟨hin, by rw [if_neg hin]⟩

theorem toInt_sub {x y : BitVec 32} (hle : y.toNat ≤ x.toNat) (h : x.toNat - y.toNat < 2 ^ 31) :
    (x - y).toInt = ↑(x.toNat - y.toNat) := by
  have hnat := BitVec.toNat_sub_of_le (BitVec.le_def.mpr hle)
  rw [BitVec.toInt_eq_toNat_of_lt (by omega), hnat]

theorem toInt_cases (x : BitVec 32) : x.toNat < 2 ^ 31 ∧ x.toInt = x.toNat ∨
    2 ^ 31 ≤ x.toNat ∧ x.toInt = (x.toNat : Int) - 2 ^ 32 := by
  rw [BitVec.toInt_eq_toNat_cond]
  omega

theorem mod_cases {x : Nat} (h : x ≤ 2 ^ 32) :
    x % 2 ^ 32 = x ∧ x < 2 ^ 32 ∨ x % 2 ^ 32 = 0 ∧ x = 2 ^ 32 := by
  omega

variable {l : TLink} (hfits : l.mStartAddr.toNat + l.aLen.toNat ≤ 2 ^ 32) {a : BitVec 32} {n : Nat}
  (hn : n < 2 ^ 31) (hreq : a.toNat + n ≤ 2 ^ 32)

include hfits hn hreq

omit hn in
theorem meets_cases (h : ¬ Misjudged a n l) (hmeets : l.Meets a (a + BitVec.ofNat 32 n)) :
    (l.mStartAddr.toNat + l.aLen.toNat < 2 ^ 32 ∧ a.toNat + n < 2 ^ 32 ∧
      (l.mStartAddr.toNat ≤ a.toNat ∧ a.toNat < l.mStartAddr.toNat + l.aLen.toNat ∨
        a.toNat < l.mStartAddr.toNat ∧ l.mStartAddr.toNat ≤ a.toNat + n)) ∨
    l.mStartAddr.toNat = 0 ∧ l.aLen.toNat ≤ a.toNat ∧ a.toNat + n = 2 ^ 32 := by
  have hA := l.mStartAddr.isLt
  rw [meets_iff] at hmeets
  unfold Misjudged at h
  rcases mod_cases hfits with ⟨hE, hlt⟩ | ⟨hE, htop⟩ <;>
    rcases mod_cases hreq with ⟨he, hlt'⟩ | ⟨he, hend⟩ <;>
    rw [hE, he] at hmeets
  · left
    omega
  · right
    omega
  · omega
  · omega

theorem addrRange_eq (h : ¬ Misjudged a n l) :
    (l.addrRange a n = none ∧ overlap a n l = 0) ∨
    ∃ saddr size offs, l.addrRange a n = some (saddr, size, offs) ∧ size = overlap a n l ∧
      saddr.toNat + overlap a n l ≤ l.aLen.toNat ∧
      (0 < overlap a n l →
        saddr.toNat + l.mStartAddr.toNat = max a.toNat l.mStartAddr.toNat ∧
        offs + a.toNat = max a.toNat l.mStartAddr.toNat) := by
  by_cases hmeets : l.Meets a (a + BitVec.ofNat 32 n)
  · right
    have hmin := toNat_minAddr (a + BitVec.ofNat 32 n) l.mEndAddr
    rw [Paged.toNat_offset, toNat_mEndAddr] at hmin
    have hstart := l.toNat_saddrAbs a
    refine ⟨_, _, _, if_pos hmeets, ?_⟩
    unfold overlap
    rcases meets_cases hfits hreq h hmeets with ⟨hE, he, hcases⟩ | ⟨hzero, hbehind, hend⟩
    · rw [Nat.mod_eq_of_lt hE, Nat.mod_eq_of_lt he] at hmin
      rw [Nat.mod_eq_of_lt hE] at hstart
      clear h hmeets
      rw [toInt_sub (by omega) (by omega), BitVec.toNat_sub_of_le (BitVec.le_def.mpr (by omega))]
      refine ⟨by omega, by omega, fun hpos => ?_⟩
      rw [toInt_sub (by omega) (by omega)]
      omega
    · rw [hend, Nat.mod_self, Nat.zero_min] at hmin
      rw [hzero, Nat.zero_add, Nat.mod_eq_of_lt l.aLen.isLt] at hstart
      rw [toInt_sub (by omega) (by omega), BitVec.toNat_sub_of_le (BitVec.le_def.mpr (by omega))]
      exact ⟨by omega, by omega, fun hpos => by omega⟩
  · left
    refine ⟨if_neg hmeets, ?_⟩
    rw [meets_iff] at hmeets
    unfold Misjudged at h
    unfold overlap
    rcases mod_cases hfits with ⟨hE, hlt⟩ | ⟨hE, htop⟩ <;>
      rcases mod_cases hreq with ⟨he, hlt'⟩ | ⟨he, hend⟩ <;>
      rw [hE, he] at hmeets <;> omega

omit hfits in
/-- An area that ends with the address space is asked for all its cells, and the caller has no room
for them. -/
theorem transfer_top (htop : l.mStartAddr.toNat + l.aLen.toNat = 2 ^ 32)
    (hmeets : l.Meets a (a + BitVec.ofNat 32 n)) (copy : TLink → Nat → Nat → Nat → σ → σ) (s : σ) :
    ∃ f, l.transfer copy a n s = .fault f := by
  have hmin := toNat_minAddr (a + BitVec.ofNat 32 n) l.mEndAddr
  rw [Paged.toNat_offset, toNat_mEndAddr] at hmin
  have hstart := l.toNat_saddrAbs a
  have haddr : l.addrRange a n = some _ := if_pos hmeets
  rw [meets_iff] at hmeets
  simp only [transfer, haddr]
  have hsize := toInt_cases (minAddr (a + BitVec.ofNat 32 n) l.mEndAddr - l.saddrAbs a)
  have hoffs := toInt_cases (l.saddrAbs a - a)
  have hsaddr : (l.saddrAbs a - l.mStartAddr).toNat = 0 := by
    rw [BitVec.toNat_sub_of_le (BitVec.le_def.mpr (by omega))]
    omega
  rw [BitVec.toNat_sub] at hsize hoffs
  split
  · exact ⟨_, rfl⟩
  · rw [if_neg (by omega), if_pos (by omega)]
    exact ⟨_, rfl⟩

omit hreq in
/-- A request up to the end of the address space asks an area for more than it has. -/
theorem transfer_wrap (hend : a.toNat + n = 2 ^ 32) (hin : l.InSpace a)
    (copy : TLink → Nat → Nat → Nat → σ → σ) (s : σ) : l.transfer copy a n s = .ok 0 s := by
  have hmin := toNat_minAddr (a + BitVec.ofNat 32 n) l.mEndAddr
  rw [Paged.toNat_offset, toNat_mEndAddr] at hmin
  have hstart : l.saddrAbs a = a := if_pos hin
  have haddr : l.addrRange a n = some _ := if_pos (.inl hin)
  rw [inSpace_iff] at hin
  simp only [transfer, haddr, hstart]
  have hsize := toInt_cases (minAddr (a + BitVec.ofNat 32 n) l.mEndAddr - a)
  rw [BitVec.toNat_sub] at hsize
  have hsaddr : (a - l.mStartAddr).toNat = a.toNat - l.mStartAddr.toNat :=
    BitVec.toNat_sub_of_le (BitVec.le_def.mpr hin.1)
  rw [if_neg (by omega), if_pos (by omega)]
  rfl

/-- A request that is misjudged leaves the array of the caller, or finds nothing where it has cells
in common with the area. -/
theorem transfer_misjudged (h : Misjudged a n l) (copy : TLink → Nat → Nat → Nat → σ → σ) (s : σ) :
    (∃ f, l.transfer copy a n s = .fault f) ∨
      0 < overlap a n l ∧ l.transfer copy a n s = .ok 0 s := by
  have hA := l.mStartAddr.isLt
  have ha := a.isLt
  unfold Misjudged at h
  unfold overlap
  by_cases hmeets : l.Meets a (a + BitVec.ofNat 32 n)
  · by_cases htop : l.mStartAddr.toNat + l.aLen.toNat = 2 ^ 32
    · exact .inl (transfer_top hn hreq htop hmeets copy s)
    · rw [meets_iff] at hmeets
      have hin : l.InSpace a := by
        rw [inSpace_iff]
        omega
      exact .inr ⟨by omega, transfer_wrap hfits hn (by omega) hin copy s⟩
  · have haddr : l.addrRange a n = none := if_neg hmeets
    rw [meets_iff] at hmeets
    refine .inr ⟨by omega, ?_⟩
    simp only [transfer, haddr]
    rfl

def move (copy : TLink → Nat → Nat → Nat → σ → σ) (a : BitVec 32) (n : Nat) (s : σ)
    (l : TLink) : σ :=
  if 0 < overlap a n l then
    copy l (max a.toNat l.mStartAddr.toNat - l.mStartAddr.toNat) (overlap a n l)
      (max a.toNat l.mStartAddr.toNat - a.toNat) s
  else s

theorem transfer_eq (h : ¬ Misjudged a n l) {copy : TLink → Nat → Nat → Nat → σ → σ}
    (hcopy : ∀ l x y s, copy l x 0 y s = s) (s : σ) :
    l.transfer copy a n s = .ok (overlap a n l) (move copy a n s l) := by
  rcases addrRange_eq hfits hn hreq h with ⟨haddr, hzero⟩ |
    ⟨saddr, size, offs, haddr, rfl, hroom, hpos⟩
  · simp only [transfer, haddr]
    rw [move, if_neg (by omega), hzero]
    rfl
  · have hle : overlap a n l ≤ n := by
      unfold overlap
      omega
    simp only [transfer, haddr]
    by_cases hsome : 0 < overlap a n l
    · obtain ⟨hsaddr, hoffs⟩ := hpos hsome
      have hend : max a.toNat l.mStartAddr.toNat + overlap a n l ≤ a.toNat + n := by
        unfold overlap at hsome ⊢
        omega
      rw [if_neg (by omega), if_neg (by omega), if_neg (by omega), move, if_pos hsome,
        Int.toNat_natCast,
        show saddr.toNat = max a.toNat l.mStartAddr.toNat - l.mStartAddr.toNat by omega,
        show offs.toNat = max a.toNat l.mStartAddr.toNat - a.toNat by omega]
      rfl
    · have hzero : overlap a n l = 0 := by omega
      rw [if_neg (by omega), if_neg (by omega), if_neg (by omega), move, if_neg hsome, hzero]
      change Outcome.ok _ (copy l saddr.toNat 0 offs.toNat s) = _
      rw [hcopy]

theorem transfer_le {copy : TLink → Nat → Nat → Nat → σ → σ} (hcopy : ∀ l x y s, copy l x 0 y s = s)
    (h : l.transfer copy a n s = .ok size s') : 0 ≤ size ∧ size ≤ overlap a n l := by
  by_cases hmis : Misjudged a n l
  · rcases transfer_misjudged hfits hn hreq hmis copy s with ⟨f, hfault⟩ | ⟨hpos, hok⟩
    · rw [hfault] at h
      cases h
    · rw [hok] at h
      cases h
      exact ⟨Int.le_refl 0, by omega⟩
  · rw [transfer_eq hfits hn hreq hmis hcopy] at h
    cases h
    omega

end Request

def count (a : BitVec 32) (n : Nat) (links : List TLink) : Nat := (links.map (overlap a n)).sum

theorem count_cons : count a n (l :: links) = overlap a n l + count a n links := by
  simp [count]

/-- No area that the loop comes to before the request is complete is misjudged. -/
def ServedFrom (a : BitVec 32) (n res : Nat) (links : List TLink) : Prop :=
  ∀ pre l post, links = pre ++ l :: post → pre = [] ∨ res + count a n pre < n → ¬ Misjudged a n l

theorem servedFrom_cons : ServedFrom a n res (l :: links) ↔
    ¬ Misjudged a n l ∧ (res + overlap a n l < n → ServedFrom a n (res + overlap a n l) links) := by
  constructor
  · intro h
    refine ⟨h [] l links rfl (.inl rfl), ?_⟩
    rintro hlt pre l' post rfl hpre
    refine h (l :: pre) l' post rfl (.inr ?_)
    rcases hpre with rfl | hcount
    · simpa [count] using hlt
    · rw [count_cons]
      omega
  · rintro ⟨hhead, htail⟩ pre l' post heq hpre
    cases pre with
    | nil =>
      cases heq
      exact hhead
    | cons l₀ pre =>
      cases heq
      rcases hpre with hnil | hcount
      · cases hnil
      · rw [count_cons] at hcount
        exact htail (by omega) pre l' post rfl (.inr (by omega))

theorem foldl_move_of_count {copy : TLink → Nat → Nat → Nat → σ → σ}
    (h : count a n links = 0) (s : σ) :
    links.foldl (move copy a n) s = s := by
  induction links generalizing s with
  | nil => rfl
  | cons l links ih =>
    rw [count_cons] at h
    rw [List.foldl_cons, move, if_neg (by omega)]
    exact ih (by omega) s

section Loop

variable {a : BitVec 32} {n : Nat} (hn : n < 2 ^ 31) (hreq : a.toNat + n ≤ 2 ^ 32)
  {copy : TLink → Nat → Nat → Nat → σ → σ} (hcopy : ∀ l x y s, copy l x 0 y s = s)

include hn hreq hcopy

theorem transferAll_eq {links : List TLink}
    (hfits : ∀ l ∈ links, l.mStartAddr.toNat + l.aLen.toNat ≤ 2 ^ 32)
    (hcount : res + count a n links ≤ n) (hserved : ServedFrom a n res links) (s : σ) :
    transferAll copy a n links res s =
      .ok (res + count a n links : Nat) (links.foldl (move copy a n) s) := by
  induction links generalizing res s with
  | nil => rfl
  | cons l links ih =>
    rw [List.forall_mem_cons] at hfits
    obtain ⟨hhead, htail⟩ := servedFrom_cons.mp hserved
    rw [count_cons] at hcount ⊢
    rw [transferAll, bind_of_ok (transfer_eq hfits.1 hn hreq hhead hcopy s), List.foldl_cons]
    split
    · -- The request is complete, and no cell of it is left for the other areas.
      have hzero : count a n links = 0 := by omega
      rw [foldl_move_of_count hzero, hzero, show res + (overlap a n l + 0) = n by omega]
      rfl
    · have hrest := ih hfits.2 (by omega) (htail (by omega)) (move copy a n s l)
      rw [Nat.add_assoc] at hrest
      exact hrest

theorem transferAll_le {links : List TLink}
    (hfits : ∀ l ∈ links, l.mStartAddr.toNat + l.aLen.toNat ≤ 2 ^ 32)
    (h : transferAll copy a n links res s = .ok r s') : r ≤ res + count a n links := by
  induction links generalizing res s with
  | nil =>
    cases h
    simp [count]
  | cons l links ih =>
    rw [List.forall_mem_cons] at hfits
    obtain ⟨size, s₁, hhead, hrest⟩ := bind_eq_ok.mp h
    have hle := transfer_le hfits.1 hn hreq hcopy hhead
    rw [count_cons]
    split at hrest
    · cases hrest
      omega
    · have := ih hfits.2 hrest
      omega

theorem servedFrom_of_transferAll {links : List TLink}
    (hfits : ∀ l ∈ links, l.mStartAddr.toNat + l.aLen.toNat ≤ 2 ^ 32)
    (hcount : res + count a n links ≤ n)
    (h : transferAll copy a n links res s = .ok (res + count a n links : Nat) s') :
    ServedFrom a n res links := by
  induction links generalizing res s with
  | nil =>
    intro pre l post heq
    simp at heq
  | cons l links ih =>
    rw [List.forall_mem_cons] at hfits
    rw [servedFrom_cons]
    rw [count_cons] at h hcount
    rw [transferAll] at h
    by_cases hmis : Misjudged a n l
    · rcases transfer_misjudged hfits.1 hn hreq hmis copy s with ⟨f, hfault⟩ | ⟨hpos, hok⟩
      · rw [bind_of_fault hfault] at h
        cases h
      · rw [bind_of_ok hok] at h
        split at h
        · injection h with hres
          omega
        · have := transferAll_le hn hreq hcopy hfits.2 h
          omega
    · refine ⟨hmis, fun hlt => ?_⟩
      rw [bind_of_ok (transfer_eq hfits.1 hn hreq hmis hcopy s), if_neg (by omega),
        ← Nat.add_assoc] at h
      exact ih hfits.2 (by omega) h

end Loop

end TLink

end GvmCore
