import GvmCore.Covered

namespace GvmCore
open Digits Signed
set_option autoImplicit true

theorem regValue_lowWord (v : Word) : regValue (lowWord (swapBytes v)) = v.toNat := by
  have h : regValue (lowWord (swapBytes v)) =
      value [swapBytes (swapBytes v), swapBytes 0, swapBytes 0, swapBytes 0] := rfl
  rw [h, swapBytes_swapBytes, swapBytes_zero]
  simp [value_cons, value_nil]

theorem regValue_mod (r : Reg) : regValue r % 2 ^ 64 = (swapBytes (r 0)).toNat := by
  rw [regValue, value_cons, Nat.add_mul_mod_self_left]
  exact Nat.mod_eq_of_lt (swapBytes (r 0)).isLt

theorem toNat_swapBytes_low {r : Reg} (h : regValue r < 2 ^ 64) :
    (swapBytes (r 0)).toNat = regValue r := by
  rw [← regValue_mod, Nat.mod_eq_of_lt h]

namespace Core

/-- The number the element with `k` elements above it stands for. -/
def number (s : Core w c) (z : Int) (k : Nat) : Nat := regValue (s.element z k)

theorem element_zero (s : Core w c) (z : Int) : s.element z 0 0 = s.word (z - 3) := by
  simp [element, reg]

theorem element_one (s : Core w c) (z : Int) : s.element z 1 0 = s.word (z - 7) := by
  simp only [element, reg]
  congr 1
  simp
  omega

theorem index_byte (s : Core w c) (z : Int) :
    (byteAt (s.word (z - 3)) 7).toNat = s.number z 0 % 256 := by
  have hmod := regValue_mod (s.element z 0)
  have hbyte := byteAt_swapBytes (s.element z 0 0) (show 0 < 8 by decide)
  have h0 := toNat_byteAt (swapBytes (s.element z 0 0)) 0
  rw [hbyte, ← hmod, Nat.pow_zero, Nat.div_one, Nat.mod_mod_of_dvd _ (by decide)] at h0
  rw [← s.element_zero z]
  exact h0

theorem index_byte_iff {g : Nat → Nat} (hb : b ≤ 256) :
    ((if k % 256 < b then g (k % 256) else d) = if k < b then g k else d) ↔
      k < 256 ∨ b ≤ k % 256 ∨ g (k % 256) = d := by
  by_cases hk : k < 256
  · rw [Nat.mod_eq_of_lt hk]
    exact iff_of_true rfl (.inl hk)
  · rw [if_neg (show ¬ k < b by omega)]
    by_cases hm : k % 256 < b
    · rw [if_pos hm]
      constructor
      · exact fun he => .inr (.inr he)
      · rintro (hlt | hge | he)
        · exact absurd hlt hk
        · exact absurd hm (Nat.not_lt.mpr hge)
        · exact he
    · rw [if_neg hm]
      exact iff_of_true rfl (.inr (.inl (Nat.le_of_not_lt hm)))

structure Pushes (s t : Core w c) (z : Int) (v : Nat) : Prop where
  sp : SpAt t (z + 4)
  top : t.number (z + 4) 0 = v
  deeper : ∀ k, t.element (z + 4) (k + 1) = s.element z k

/-- The `n` top elements give way to one that stands for `v`. -/
structure Yields (s t : Core w c) (z : Int) (n v : Nat) : Prop where
  sp : SpAt t (z - 4 * n + 4)
  top : t.number (z - 4 * n + 4) 0 = v
  deeper : ∀ k, t.element (z - 4 * n + 4) (k + 1) = s.element z (k + n)

structure Drops (s t : Core w c) (z : Int) (n : Nat) : Prop where
  sp : SpAt t (z - 4 * n)
  deeper : ∀ k, t.element (z - 4 * n) k = s.element z (k + n)

theorem element_pushed (s : Core w c) (h1 : InStack (y + 1)) (h4 : InStack (y + 4)) (r : Reg) :
    (s.pushed y r).element (y + 4) 0 = r := by
  funext k
  have hk : InStack (y + 1 + (k : Nat)) := by
    simp only [InStack] at *
    omega
  have hi : y + 4 - 4 * ((0 : Nat) : Int) - 3 + (k : Nat) = y + 1 + (k : Nat) := by omega
  rw [element, reg, hi]
  exact s.word_putReg r k hk

theorem element_pushed_below (s : Core w c) (r : Reg) (k : Nat) :
    (s.pushed y r).element (y + 4) (k + 1) = s.element y k := by
  funext j
  have hi : y + 4 - 4 * ((k + 1 : Nat) : Int) - 3 + (j : Nat) =
      y - 4 * (k : Int) - 3 + (j : Nat) := by
    omega
  rw [element, reg, hi]
  exact s.word_putReg_of_not_mem (.inl (by omega)) r

theorem drops_of_word {s t : Core w c} {n : Nat} (hw : ∀ i ≤ z, t.word i = s.word i)
    (hsp : SpAt t (z - 4 * n)) : s.Drops t z n := by
  refine ⟨hsp, ?_⟩
  intro k
  funext j
  have hi : z - 4 * (n : Int) - 4 * (k : Int) - 3 + (j : Nat) =
      z - 4 * ((k + n : Nat) : Int) - 3 + (j : Nat) := by omega
  rw [element, reg, hi]
  exact hw _ (by omega)

theorem Drops.of_pc {s t : Core w c} {n : Nat} (h : s.Drops t z n) (pc : BitVec 32) :
    s.Drops { t with pc := pc } z n :=
  ⟨⟨h.sp.sp, h.sp.lower, h.sp.upper⟩, h.deeper⟩

theorem number_pushed (t : Core w c) (h1 : InStack (z + 1)) (h4 : InStack (z + 4)) (r : Reg) :
    (t.pushed z r).number (z + 4) 0 = regValue r :=
  congrArg regValue (t.element_pushed h1 h4 r)

theorem spAt_pushed (t : Core w c) (h1 : InStack (z + 1)) (h4 : InStack (z + 4)) (r : Reg) :
    SpAt (t.pushed z r) (z + 4) := by
  obtain ⟨h0, -⟩ := h1
  obtain ⟨-, hhigh⟩ := h4
  exact ⟨rfl, by omega, by omega⟩

theorem pushes_pushed_iff {s t : Core w c} (hw : ∀ i ≤ z, t.word i = s.word i)
    (h1 : InStack (z + 1))
    (h4 : InStack (z + 4)) : s.Pushes (t.pushed z r) z v ↔ regValue r = v := by
  constructor
  · intro h
    rw [← t.number_pushed h1 h4 r]
    exact h.top
  · intro h
    refine ⟨t.spAt_pushed h1 h4 r, (t.number_pushed h1 h4 r).trans h, ?_⟩
    intro k
    rw [element_pushed_below]
    exact Insn.element_congr hw k

theorem yields_pushed_iff {s t : Core w c} {z : Int} {n : Nat}
    (hw : ∀ i ≤ z - 4 * n, t.word i = s.word i) (h1 : InStack (z - 4 * n + 1))
    (h4 : InStack (z - 4 * n + 4)) : s.Yields (t.pushed (z - 4 * n) r) z n v ↔ regValue r = v := by
  constructor
  · intro h
    rw [← t.number_pushed h1 h4 r]
    exact h.top
  · intro h
    refine ⟨t.spAt_pushed h1 h4 r, (t.number_pushed h1 h4 r).trans h, ?_⟩
    intro k
    funext j
    have hi : z - 4 * (n : Int) - 4 * (k : Int) - 3 + (j : Nat) =
        z - 4 * ((k + n : Nat) : Int) - 3 + (j : Nat) := by omega
    rw [element_pushed_below, element, reg, hi]
    exact hw _ (by omega)

theorem Pushes.of_pc {s t : Core w c} (h : s.Pushes t z v) (pc : BitVec 32) :
    s.Pushes { t with pc := pc } z v :=
  ⟨⟨h.sp.sp, h.sp.lower, h.sp.upper⟩, h.top, h.deeper⟩

theorem pushes_pc_iff {s t : Core w c} (pc : BitVec 32) :
    s.Pushes { t with pc := pc } z v ↔ s.Pushes t z v :=
  ⟨fun h => h.of_pc t.pc, fun h => h.of_pc pc⟩

end Core

end GvmCore
