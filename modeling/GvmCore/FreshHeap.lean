import GvmCore.BignumLength
import GvmCore.Rest

namespace GvmCore
open Exec VBignum
set_option autoImplicit true

/-- The digit cells from `k` above the heap position on have never been written. -/
def Core.Fresh (k : Nat) (s : Core w c) : Prop := ∀ i, s.heapPos + k ≤ i → s.heap i = 0

theorem storeDigits_above (h : pos + x.length < i) : storeDigits heap pos x i = heap i := by
  rw [storeDigits, if_neg (by omega)]

theorem Core.Fresh.mono {s : Core w c} (h : s.Fresh k) (hk : k ≤ k') : s.Fresh k' :=
  fun i hi => h i (by omega)

theorem Core.heap_converted (s : Core w c) (r : Reg) (h : s.heapPos + 65 ≤ i) :
    (s.converted r).heap i = s.heap i := by
  have hlen : (regToBignum r).length = 64 := length_regToBignum r
  have hne : i ≠ s.heapPos := by omega
  simp only [Core.converted]
  rw [storeDigits_above (by omega), Function.update_of_ne hne]

theorem Core.heap_convertedTop (s : Core w c) (z : Int) (k : Nat) (h : s.heapPos + 65 * k ≤ i) :
    (s.convertedTop z k).heap i = s.heap i := by
  induction k with
  | zero => rfl
  | succ k ih =>
    have hpos := s.heapPos_convertedTop z k
    exact (Core.heap_converted _ _ (by omega)).trans (ih (by omega))

theorem Core.Fresh.converted {s : Core w c} (h : s.Fresh 65) (r : Reg) :
    (s.converted r).Fresh 0 := by
  intro i hi
  rw [s.heap_converted r hi]
  exact h i hi

theorem Core.Fresh.convertedTop {s : Core w c} (h : s.Fresh k) (hk : k ≤ 65) (z : Int) (n : Nat) :
    (s.convertedTop z n).Fresh k := by
  induction n with
  | zero => exact h
  | succ n ih => exact ((ih.mono hk).converted _).mono (by omega)

theorem Core.Fresh.stale {s : Core w c} (h : s.Fresh 0) (n : Nat) :
    s.stale n = List.replicate n 0 := by
  refine List.eq_replicate_iff.mpr ⟨by simp [Core.stale, loadDigits], ?_⟩
  intro d hd
  obtain ⟨i, -, rfl⟩ := List.mem_map.mp hd
  exact h _ (by omega)

theorem divHeap_above (h : pos + 2 * (x.length + 1) ≤ i) : divHeap x y heap pos i = heap i := by
  obtain ⟨hq, hr⟩ := length_divLong x y
  unfold divHeap
  split
  · rfl
  · have h1 : i ≠ pos := by omega
    have h2 : i ≠ pos + (x.length + 1) := by omega
    dsimp only
    rw [storeDigits_above (by omega), storeDigits_above (by omega), Function.update_of_ne h2,
      Function.update_of_ne h1]

theorem length_divPair_fst (x y rem : VBig) : (divPair x y rem).1.length = x.length := by
  unfold divPair
  split
  · simp
  · split <;> simp

theorem length_divPair_snd (x y rem : VBig) : (divPair x y rem).2.length = rem.length := by
  unfold divPair
  split
  · simp
  · split <;> simp

theorem modHeap_above (hl : max x.length y.length ≤ n) (h : pos + 3 * (n + 1) ≤ i) :
    modHeap x y heap pos i = heap i := by
  have h1 : i ≠ pos := by omega
  have hx : x.length ≤ n := le_of_max_le_left hl
  have hrem : (divPair x y (loadDigits heap pos (max x.length y.length))).2.length =
      max x.length y.length := by
    rw [length_divPair_snd]
    simp [loadDigits]
  rw [modHeap]
  rw [storeDigits_above (by omega), divHeap_above (by omega), Function.update_of_ne h1]

theorem length_takeOperands (s : Core w c) (z : Int) (k : Nat) :
    (takeOperands s z k).a.length = 16 ∧ (takeOperands s z k).b.length = 16 ∧
      (takeOperands s z k).c.length = 16 := by
  refine ⟨?_, ?_, ?_⟩ <;> simp only [takeOperands] <;> split <;> simp

theorem length_modOperands (h : modOperands (takeOperands (s : Core w c) z k) op = some (x, y)) :
    x.length = 16 ∧ y.length = 16 := by
  obtain ⟨ha, hb, hc⟩ := length_takeOperands s z k
  unfold modOperands at h
  split at h <;> cases h <;> simp [ha, hb, hc]

theorem Core.Fresh.usedHeap {s : Core w c} (h : s.Fresh 0) (z : Int) (I : Insn)
    (hi : s.heapPos + 51 ≤ i) : I.usedHeap s z i = 0 := by
  have h0 : s.heap i = 0 := h i (by omega)
  cases I with
  | arithm op =>
    have ha := (length_takeOperands s z (arithmArity op)).1
    simp only [Insn.usedHeap, arithmHeap]
    cases hm : modOperands (takeOperands s z (arithmArity op)) op with
    | some xy =>
      obtain ⟨x, y⟩ := xy
      obtain ⟨hx, hy⟩ := length_modOperands hm
      exact (modHeap_above (max_le hx.le hy.le) (by omega)).trans h0
    | none =>
      dsimp only
      split
      · exact (divHeap_above (by omega)).trans h0
      · exact h0
  | _ => exact h0

end GvmCore
