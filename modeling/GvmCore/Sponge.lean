import Mathlib.Data.List.Basic

namespace GvmCore
set_option autoImplicit true

namespace Sponge

/-- A message on its way into the sponge: the state so far and the start of the next block. -/
structure Absorbing (σ α : Type) where
  state : σ
  block : List α

variable (absorb : σ → List α → σ) (r : Nat)

/-- One element more; a block of `r` elements is absorbed at once. -/
def feed (p : Absorbing σ α) (a : α) : Absorbing σ α :=
  if p.block.length + 1 = r then ⟨absorb p.state (p.block ++ [a]), []⟩
  else ⟨p.state, p.block ++ [a]⟩

def feedAll (p : Absorbing σ α) (m : List α) : Absorbing σ α := m.foldl (feed absorb r) p

def absorbBlocks : Nat → σ → List α → σ
  | 0, s, _ => s
  | k + 1, s, m => absorbBlocks k (absorb s (m.take r)) (m.drop r)

variable {absorb r}

@[simp] theorem feedAll_nil (p : Absorbing σ α) : feedAll absorb r p [] = p := rfl

theorem feedAll_append (p : Absorbing σ α) (m n : List α) :
    feedAll absorb r p (m ++ n) = feedAll absorb r (feedAll absorb r p m) n :=
  List.foldl_append

theorem feedAll_of_lt {p : Absorbing σ α} (h : p.block.length + m.length < r) :
    feedAll absorb r p m = ⟨p.state, p.block ++ m⟩ := by
  induction m generalizing p with
  | nil => rw [feedAll_nil, List.append_nil]
  | cons a m ih =>
    rw [List.length_cons] at h
    have hfeed : feed absorb r p a = ⟨p.state, p.block ++ [a]⟩ := if_neg (by omega)
    change feedAll absorb r (feed absorb r p a) m = _
    rw [hfeed, ih (by rw [List.length_append, List.length_singleton]; omega), List.append_assoc,
      List.singleton_append]

theorem feedAll_of_eq {p : Absorbing σ α} (h : p.block.length + m.length = r) (hm : m ≠ []) :
    feedAll absorb r p m = ⟨absorb p.state (p.block ++ m), []⟩ := by
  obtain ⟨n, a, rfl⟩ := (List.eq_nil_or_concat' m).resolve_left hm
  rw [List.length_append, List.length_singleton] at h
  have hbefore : feedAll absorb r p n = ⟨p.state, p.block ++ n⟩ := feedAll_of_lt (by omega)
  have hlen : (p.block ++ n).length + 1 = r := by
    rw [List.length_append]
    omega
  rw [feedAll_append, hbefore, ← List.append_assoc]
  exact if_pos hlen

theorem feedAll_blocks (hr : 0 < r) (h : m.length = k * r) :
    feedAll absorb r ⟨s, []⟩ m = ⟨absorbBlocks absorb r k s m, []⟩ := by
  induction k generalizing s m with
  | zero =>
    rw [Nat.zero_mul] at h
    rw [List.length_eq_zero_iff.mp h]
    rfl
  | succ k ih =>
    rw [Nat.succ_mul] at h
    have htake : (m.take r).length = r := List.length_take_of_le (by omega)
    have hdrop : (m.drop r).length = k * r := by
      rw [List.length_drop]
      omega
    have hne : m.take r ≠ [] := List.ne_nil_of_length_pos (by omega)
    calc feedAll absorb r ⟨s, []⟩ m
        = feedAll absorb r (feedAll absorb r ⟨s, []⟩ (m.take r)) (m.drop r) := by
          rw [← feedAll_append, List.take_append_drop]
      _ = feedAll absorb r ⟨absorb s (m.take r), []⟩ (m.drop r) := by
          have hfull : (⟨s, []⟩ : Absorbing σ α).block.length + (m.take r).length = r :=
            (Nat.zero_add _).trans htake
          rw [feedAll_of_eq hfull hne, List.nil_append]
      _ = ⟨absorbBlocks absorb r (k + 1) s m, []⟩ := ih hdrop

theorem length_block_feedAll (p : Absorbing σ α) (hp : p.block.length < r) (m : List α) :
    (feedAll absorb r p m).block.length = (p.block.length + m.length) % r := by
  induction m generalizing p with
  | nil => exact (Nat.mod_eq_of_lt hp).symm
  | cons a m ih =>
    change (feedAll absorb r (feed absorb r p a) m).block.length = _
    rw [List.length_cons]
    by_cases hfull : p.block.length + 1 = r
    · have hfeed : feed absorb r p a = ⟨absorb p.state (p.block ++ [a]), []⟩ := if_pos hfull
      rw [hfeed, ih _ (by rw [List.length_nil]; omega), List.length_nil, Nat.zero_add,
        show p.block.length + (m.length + 1) = m.length + r by omega, Nat.add_mod_right]
    · have hfeed : feed absorb r p a = ⟨p.state, p.block ++ [a]⟩ := if_neg hfull
      have hlen : (p.block ++ [a]).length = p.block.length + 1 := List.length_append
      rw [hfeed, ih _ (by rw [hlen]; omega), hlen, Nat.add_assoc, Nat.add_comm 1]

end Sponge

end GvmCore
