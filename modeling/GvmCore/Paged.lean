import Mathlib.Algebra.Group.Nat.Defs
import Mathlib.Logic.Function.Basic

namespace GvmCore.Paged
set_option autoImplicit true

theorem toNat_offset (a : BitVec w) (n : Nat) :
    (a + BitVec.ofNat w n).toNat = (a.toNat + n) % 2 ^ w := by
  rw [BitVec.toNat_add, BitVec.toNat_ofNat, Nat.add_mod_mod]

/-- An array in pages that are allocated when they are first used; `fresh` is what the memory of a
page holds then. -/
structure Pages (β : Type) where
  pages : Nat → Option (Nat → β)
  fresh : Nat → Nat → β

namespace Pages

def contents (m : Pages β) (k : Nat) : Nat → β := (m.pages k).getD (m.fresh k)

def cell (p : Nat) (m : Pages β) (x : Nat) : β := m.contents (x / p) (x % p)

def allocate (m : Pages β) (k : Nat) : Pages β :=
  if (m.pages k).isNone then { m with pages := Function.update m.pages k (some (m.fresh k)) } else m

def set (m : Pages β) (k i : Nat) (v : β) : Pages β :=
  { m with pages := Function.update m.pages k (some (Function.update (m.contents k) i v)) }

@[simp] theorem contents_allocate (m : Pages β) (k : Nat) :
    (m.allocate k).contents = m.contents := by
  unfold allocate
  split
  · rename_i hnone
    funext j
    by_cases hj : j = k
    · subst hj
      simp [contents, Option.isNone_iff_eq_none.mp hnone]
    · simp [contents, Function.update_of_ne hj]
  · rfl

@[simp] theorem cell_allocate (m : Pages β) (p k : Nat) : (m.allocate k).cell p = m.cell p := by
  funext x
  simp only [cell, contents_allocate]

theorem contents_set (m : Pages β) (k i : Nat) (v : β) (j : Nat) :
    (m.set k i v).contents j =
      if j = k then Function.update (m.contents k) i v else m.contents j := by
  by_cases hj : j = k
  · subst hj
    simp [contents, set]
  · simp [contents, set, hj]

theorem cell_set (m : Pages β) (hi : i < p) (k : Nat) (v : β) (x : Nat) :
    (m.set k i v).cell p x = if x = k * p + i then v else m.cell p x := by
  have hx : x = k * p + i ↔ x / p = k ∧ x % p = i := by
    rw [Nat.div_mod_unique (by omega), Nat.mul_comm, Nat.add_comm, eq_comm]
    exact (and_iff_left hi).symm
  rw [cell, contents_set]
  by_cases hk : x / p = k
  · by_cases hm : x % p = i
    · rw [if_pos hk, if_pos (hx.mpr ⟨hk, hm⟩), hm, Function.update_self]
    · rw [if_pos hk, if_neg fun h => hm (hx.mp h).2, Function.update_of_ne hm, ← hk]
      rfl
  · rw [if_neg hk, if_neg fun h => hk (hx.mp h).1]
    rfl

end Pages

end GvmCore.Paged
