import GvmCore.GasAccounting

namespace GvmCore
open Exec Signed
set_option autoImplicit true

/-- The offset and the size the printer takes from the stack. -/
def Core.printOffs (s : Core w c) (z : Int) : Nat := (swapBytes (s.word (z - 3))).toNat

def Core.printSize (s : Core w c) (z : Int) : Nat := (swapBytes (s.word (z - 7))).toNat

/-- The two stack words are there and the range is inside the memory. -/
def Core.Printable (s : Core w c) (z : Int) : Prop :=
  InStack (z - 3) ∧ InStack (z - 7) ∧ ∀ i < s.printSize z, s.printOffs z + i < 1024

theorem resultMessage_eq_ok (E : Engine w c) {s u : Core w c} (h : SpAt s z)
    (hgas : s.gasAvailable 0 ≠ 0) : resultMessage s = .ok l u ↔ s.Printable z ∧
      .result (s.bytes (s.printOffs z) (s.printSize z)) = l ∧ s.withSp (z - 8) = u := by
  have hl := h.lower
  have hu := h.upper
  have hsp : s.sp - 8 = BitVec.ofInt w (z - 8) := by
    rw [h.sp]
    exact ofInt_sub_ofNat z 8
  have h3 : (stackGet (spIndex s.sp (-3)) : M w c Word) = stackGet (z - 3) := by
    rw [h.sp, stackGet_spIndex E.spBits (by omega) (by omega)]
    rfl
  have h7 : (stackGet (spIndex s.sp (-7)) : M w c Word) = stackGet (z - 7) := by
    rw [h.sp, stackGet_spIndex E.spBits (by omega) (by omega)]
    rfl
  unfold resultMessage
  rw [bind_of_ok (read_apply _ _), if_neg hgas, bind_of_ok (read_apply _ _), h3, h7, hsp]
  simp only [bind_eq_ok, stackGet_eq_ok, setSp, update_apply, mapM_busGet_eq_ok, pure_apply,
    Outcome.ok.injEq, List.mem_range]
  constructor
  · rintro ⟨_, _, ⟨i3, rfl, rfl⟩, _, _, ⟨i7, rfl, rfl⟩, _, _, ⟨-, rfl⟩, _, _,
      ⟨hin, rfl, rfl⟩, rfl, rfl⟩
    refine ⟨⟨i3, i7, hin⟩, ?_, rfl⟩
    rw [List.map_map]
    rfl
  · rintro ⟨⟨i3, i7, hin⟩, rfl, rfl⟩
    refine ⟨_, _, ⟨i3, rfl, rfl⟩, _, _, ⟨i7, rfl, rfl⟩, (), _, ⟨trivial, rfl⟩, _, _,
      ⟨hin, rfl, rfl⟩, ?_, rfl⟩
    rw [List.map_map]
    rfl

theorem resultMessage_same (E : Engine w c) (E' : Engine w' c') {s u : Core w c} {t : Core w' c'}
    (hs : SpAt s z) (ht : SpAt t z) (hdata : SameData m s t) (hm : z - 3 < m)
    (hgas : s.gasAvailable 0 = 0 ↔ t.gasAvailable 0 = 0) (h : resultMessage s = .ok l u) :
    ∃ u', resultMessage t = .ok l u' := by
  by_cases h0 : s.gasAvailable 0 = 0
  · rw [resultMessage_of_zero h0] at h
    cases h
    exact ⟨t, resultMessage_of_zero (hgas.mp h0)⟩
  · have hoffs : s.printOffs z = t.printOffs z := by
      rw [Core.printOffs, hdata.word _ (by omega)]
      rfl
    have hsize : s.printSize z = t.printSize z := by
      rw [Core.printSize, hdata.word _ (by omega)]
      rfl
    obtain ⟨hprint, rfl, -⟩ := (resultMessage_eq_ok E hs h0).mp h
    rw [hdata.bytes, hoffs, hsize]
    refine ⟨_, (resultMessage_eq_ok E' ht (mt hgas.mpr h0)).mpr ⟨?_, rfl, rfl⟩⟩
    unfold Core.Printable at hprint ⊢
    rw [← hoffs, ← hsize]
    exact hprint

end GvmCore
