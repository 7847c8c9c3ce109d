import GvmCore.Arithmetic
import GvmCore.Cemu
import GvmCore.ReduceLaw
import GvmCore.SquareLaw

namespace GvmCore
open Exec Digits VBignum
set_option autoImplicit true

theorem Engine.HeapServes.mono {E : Engine w c} (h : E.HeapServes pos n) (hm : m ≤ n) :
    E.HeapServes pos m := by
  obtain ⟨k, rfl⟩ := Nat.exists_eq_add_of_le hm
  exact ((E.heapServes_add pos m k).mp h).1

/-- `t` has `n` more digit cells in use than `s`; otherwise only cells above those of `s` differ. -/
structure Core.Grown (s : Core w c) (n : Nat) (t : Core w c) : Prop where
  eq : t = { s with heapPos := s.heapPos + n, heap := t.heap }
  kept : ∀ i < s.heapPos, t.heap i = s.heap i

namespace Core.Grown

variable {E : Engine w c} {s t u : Core w c} {g : Fault → φ}

theorem refl (s : Core w c) : s.Grown 0 s := ⟨rfl, fun _ _ => rfl⟩

theorem heapPos (h : s.Grown n t) : t.heapPos = s.heapPos + n := by
  rw [h.eq]

theorem trans (h : s.Grown n t) (h' : t.Grown m u) : s.Grown (n + m) u := by
  constructor
  · rw [h'.eq, h.eq]
    simp only [Nat.add_assoc]
  · intro i hi
    rw [h'.kept i (by rw [h.heapPos]; omega), h.kept i hi]

theorem alloc (h : s.Grown n t) (hE : E.HeapServes s.heapPos (n + (k + 1))) :
    ∃ t', mapFault g (bignumAlloc E k) t = .ok (s.heapPos + n) t' ∧ s.Grown (n + (k + 1)) t' := by
  have hserves : E.HeapServes t.heapPos (k + 1) := by
    rw [h.heapPos]
    exact ((E.heapServes_add _ _ _).mp hE).2
  refine ⟨_, mapFault_of_ok (bignumAlloc_eq_ok.mpr ⟨hserves, h.heapPos, rfl⟩), h.trans ⟨rfl, ?_⟩⟩
  intro i hi
  exact Function.update_of_ne (by omega) _ _

theorem store (h : s.Grown n t) (hp : s.heapPos ≤ p) (x : VBig) :
    ∃ t', mapFault g (bignumStore p x) t = .ok () t' ∧ s.Grown n t' := by
  refine ⟨_, mapFault_of_ok rfl, ?_, ?_⟩
  · rw [h.eq]
  · intro i hi
    rw [← h.kept i hi]
    exact if_neg (by omega)

theorem free (h : s.Grown (n + (k + 1)) t) :
    ∃ t', mapFault g (bignumFree k) t = .ok () t' ∧ s.Grown n t' := by
  refine ⟨_, mapFault_of_ok rfl, ?_, h.kept⟩
  rw [h.eq]
  simp [← Nat.add_assoc]

end Core.Grown

theorem divHeap_below (h : i < pos) : divHeap x y heap pos i = heap i := by
  unfold divHeap
  split
  · rfl
  · have h1 : i ≠ pos := by omega
    have h2 : i ≠ pos + (x.length + 1) := by omega
    simp only
    rw [storeDigits, if_neg (by omega), storeDigits, if_neg (by omega), Function.update_of_ne h2,
      Function.update_of_ne h1]

/-- Where `n` cells are left the code returns `a`, and gives back every cell it takes. -/
def Yields (E : Engine w c) (n : Nat) (m : PowerM w c α) (a : α) : Prop :=
  ∀ s, E.HeapServes s.heapPos n → ∃ t, m s = .ok a t ∧ s.Grown 0 t

namespace Yields

variable {E : Engine w c} {m : PowerM w c α} {f : α → PowerM w c β}

theorem pure (E : Engine w c) (a : α) : Yields E n (pure a) a := fun s _ => ⟨s, rfl, .refl s⟩

theorem mono (h : Yields E k m a) (hk : k ≤ n) : Yields E n m a := fun s hs => h s (hs.mono hk)

theorem bind (hm : Yields E n m a) (hf : Yields E n (f a) b) : Yields E n (m >>= f) b := by
  intro s hs
  obtain ⟨t, ht, hgrown⟩ := hm s hs
  obtain ⟨u, hu, hgrown'⟩ := hf t (by rwa [hgrown.heapPos])
  exact ⟨u, by rw [bind_of_ok ht, hu], hgrown.trans hgrown'⟩

theorem inner {s t : Core w c} (h : Yields E k m a) (hs : s.Grown n t)
    (hE : E.HeapServes s.heapPos (n + k)) :
    ∃ t', m t = .ok a t' ∧ s.Grown n t' := by
  have hserves : E.HeapServes t.heapPos k := by
    rw [hs.heapPos]
    exact ((E.heapServes_add _ _ _).mp hE).2
  obtain ⟨u, hu, hgrown⟩ := h t hserves
  exact ⟨u, hu, hs.trans hgrown⟩

end Yields

section Parts

variable (E : Engine w c) {m : Modulus} {mu x y : VBig}

theorem yields_mul (h : x.length + y.length + 1 ≤ 2048) : Yields E 0 (bignumMul x y) (mul x y) := by
  unfold bignumMul
  rw [if_neg (by omega)]
  exact .pure E _

theorem yields_squareHalf (hl : 2 ≤ x.length) (hx : value x < 2 ^ (16 * (x.length / 2)))
    (hv : value x < 2 ^ (16 * k)) (hk : k ≤ 128) : ∃ r, Yields E 0 (bignumSquareHalf x) r ∧
      value r = value x * value x ∧ r.length = x.length := by
  have htake := value_take_of_lt hx
  have hused : usedBelow x (x.length / 2) ≤ k := by rwa [usedBelow_le_iff, htake]
  have hle := usedBelow_le x (x.length / 2)
  obtain ⟨hvalue, hlen⟩ := value_squareDigits x (t := usedBelow x (x.length / 2)) (by omega)
  refine ⟨_, fun s _ => ⟨s, bignumSquareHalf_eq hl (hused.trans hk) s, .refl s⟩, ?_, hlen⟩
  rw [hvalue, value_take_usedBelow, htake]

theorem yields_reduceSign (k : Nat) (r : VBig) :
    Yields E (k + 17) (reduceSign E k r) (barrettSigned k r) := by
  intro s hs
  unfold reduceSign barrettSigned
  by_cases h : bitTest r (16 * r.length - 1) = true
  · rw [if_pos h, if_pos h]
    have hcells : E.HeapServes s.heapPos (0 + (k + 16 + 1)) := by rwa [Nat.zero_add]
    obtain ⟨t1, h1, g1⟩ := (Core.Grown.refl s).alloc (g := PowerFault.core) hcells
    obtain ⟨t2, h2, g2⟩ := g1.store (g := PowerFault.core) (Nat.le_refl _)
      (bitSet (List.replicate (k + 16) 0) (16 * (k + 1)))
    obtain ⟨t3, h3, g3⟩ := g2.free (g := PowerFault.core)
    refine ⟨t3, ?_, g3⟩
    rw [bind_of_ok h1]
    simp only [Nat.add_zero]
    rw [bind_of_ok h2, bind_of_ok h3]
    rfl
  · rw [if_neg h, if_neg h]
    exact ⟨s, rfl, .refl s⟩

theorem yields_reduce (h : m.Helper mu) (hq : x.length + 3 * m.used + 4 ≤ 2048)
    (hr : x.length + m.digits.length + 1 ≤ 2048) :
    Yields E (3 * x.length + 2 * m.used + 22) (bignumReduce E x m mu) (m.reduced mu x) := by
  intro s hs
  have hk := m.used_spec.1
  have hlen := h.length
  let n := x.length + mu.length - (m.used - 1)
  let q := barrettQuotient m.used x mu
  have hn : n = x.length + m.used + 2 := by omega
  obtain ⟨t1, h1, g1⟩ := (Core.Grown.refl s).alloc (g := PowerFault.core) (k := n)
    (hs.mono (by omega))
  obtain ⟨t2, h2, g2⟩ := (yields_mul E (y := mu)
    (x := bitShiftRight (setBignum (List.replicate n 0) x) (16 * (m.used - 1)))
    (by simp; omega)).inner g1 (hs.mono (by omega))
  obtain ⟨t3, h3, g3⟩ := g2.alloc (g := PowerFault.core) (k := x.length) (hs.mono (by omega))
  obtain ⟨t4, h4, g4⟩ := g3.alloc (g := PowerFault.core) (k := x.length) (hs.mono (by omega))
  obtain ⟨t5, h5, g5⟩ := (yields_mul E (y := m.digits) (x := setBignum (setZero x) q)
    (by simpa using hr)).inner g4 (hs.mono (by omega))
  obtain ⟨t6, h6, g6⟩ := (yields_reduceSign E m.used
    (barrettDifference m.used x q m.digits)).inner g5 (hs.mono (by omega))
  obtain ⟨t7, h7, g7⟩ := g6.store (g := PowerFault.core) (p := s.heapPos + (0 + (n + 1) +
    (x.length + 1))) (by omega) (clearFrom (mul (setBignum (setZero x) q) m.digits) (m.used + 1))
  obtain ⟨t8, h8, g8⟩ := g7.free (g := PowerFault.core)
  obtain ⟨t9, h9, g9⟩ := g8.store (g := PowerFault.core) (p := s.heapPos + (0 + (n + 1))) (by omega)
    (clearFrom (setBignum (setZero x) x) (m.used + 1))
  obtain ⟨t10, h10, g10⟩ := g9.free (g := PowerFault.core)
  obtain ⟨t11, h11, g11⟩ := g10.store (g := PowerFault.core) (p := s.heapPos + 0) (by omega) q
  obtain ⟨t12, h12, g12⟩ := g11.free (g := PowerFault.core)
  refine ⟨t12, ?_, g12⟩
  unfold bignumReduce
  refine (bind_of_ok h1).trans <| (bind_of_ok h2).trans <| (bind_of_ok h3).trans <|
    (bind_of_ok h4).trans <| (bind_of_ok h5).trans <| (bind_of_ok h6).trans <|
    (bind_of_ok h7).trans <| (bind_of_ok h8).trans <| (bind_of_ok h9).trans <|
    (bind_of_ok h10).trans <| (bind_of_ok h11).trans <| (bind_of_ok h12).trans rfl

/-- The power of two that `v_bignum_reduce_begin` divides by the modulus. -/
def Modulus.radixPower (m : Modulus) : VBig :=
  bitSet (List.replicate (2 * m.used + 1) 0) (16 * 2 * m.used)

def Modulus.reciprocal (m : Modulus) : VBig := (divPair m.radixPower m.digits []).1

theorem Modulus.length_radixPower (m : Modulus) : m.radixPower.length = 2 * m.used + 1 := by
  simp [radixPower]

theorem Modulus.value_radixPower (m : Modulus) :
    value m.radixPower = 2 ^ (16 * (2 * m.used)) := by
  rw [← Nat.mul_assoc]
  exact value_bitSet_zero (by omega)

theorem Modulus.helper_reciprocal (m : Modulus) (hk : 16 * (2 * m.used + 1) < 2 ^ 32) :
    m.Helper m.reciprocal := by
  have hvalue := m.value_radixPower
  have hpos : 0 < value m.digits := Nat.pos_of_ne_zero m.ne_zero
  have hle : value m.digits ≤ value m.radixPower := by
    rw [hvalue]
    exact m.value_lt_used.le.trans (Nat.pow_le_pow_right (by decide) (by omega))
  have hmsb : ¬ bitMsb m.digits > bitMsb m.radixPower := by
    have hsize := Nat.size_le_size hle
    rw [bitMsb_eq, bitMsb_eq]
    omega
  have hmsb0 : ¬ bitMsb m.digits < 0 := by
    have hsize : 0 < (value m.digits).size := Nat.size_pos.mpr hpos
    rw [bitMsb_eq]
    omega
  have hlong : m.reciprocal = setBignum m.radixPower (divLong m.radixPower m.digits).1 := by
    rw [reciprocal, divPair, if_neg hmsb, if_neg hmsb0]
  obtain ⟨hlow, hhigh⟩ := divLong_two_pow hvalue hpos (Int.not_lt.mp hmsb)
    (by rw [m.length_radixPower]; exact hk)
  have hmu : value m.reciprocal = value (divLong m.radixPower m.digits).1 := by
    rw [hlong, value_setBignum, Nat.mod_eq_of_lt]
    refine lt_of_le_of_lt ((Nat.le_mul_of_pos_right _ hpos).trans hlow) ?_
    rw [← hvalue]
    exact value_lt m.radixPower
  refine ⟨?_, by rwa [hmu], by rwa [hmu]⟩
  rw [hlong, length_setBignum, m.length_radixPower]

theorem reduceBegin_spec (m : Modulus) {s : Core w c}
    (hs : E.HeapServes s.heapPos (6 * m.used + 6)) :
    ∃ t, bignumReduceBegin E m s = .ok m.reciprocal t ∧ s.Grown (2 * m.used + 2) t := by
  let b := m.radixPower
  obtain ⟨t1, h1, g1⟩ := (Core.Grown.refl s).alloc (g := PowerFault.core) (k := 2 * m.used + 1)
    (hs.mono (by omega))
  have hcells : divCells b m.digits ≤ 2 * (2 * m.used + 2) := by
    rw [divCells, m.length_radixPower]
    split <;> omega
  have hserves : E.HeapServes t1.heapPos (divCells b m.digits) := by
    rw [g1.heapPos]
    exact (((E.heapServes_add _ _ _).mp (hs.mono (by omega))).2).mono hcells
  have h2 : mapFault PowerFault.core (bignumDiv E b m.digits []) t1 = _ :=
    mapFault_of_ok (bignumDiv_eq_ok.mpr ⟨hserves, rfl, rfl⟩)
  have g2 : t1.Grown 0 { t1 with heap := divHeap b m.digits t1.heap t1.heapPos } :=
    ⟨rfl, fun i hi => divHeap_below hi⟩
  obtain ⟨t3, h3, g3⟩ := (g1.trans g2).store (g := PowerFault.core) (p := s.heapPos + 0)
    (by omega) m.reciprocal
  refine ⟨t3, (bind_of_ok h1).trans <| (bind_of_ok h2).trans <| (bind_of_ok h3).trans rfl, ?_⟩
  have hsum : 0 + (2 * m.used + 1 + 1) + 0 = 2 * m.used + 2 := by omega
  rwa [hsum] at g3

end Parts

/-- Square-and-multiply: one more bit of the exponent from the top. -/
theorem pow_append_bit (a y i : Nat) :
    a ^ (y / 2 ^ i) = a ^ (y / 2 ^ (i + 1)) * a ^ (y / 2 ^ (i + 1)) *
      (if y.testBit i then a else 1) := by
  have hdiv : y / 2 ^ (i + 1) = y / 2 ^ i / 2 := by rw [pow_succ, Nat.div_div_eq_div_mul]
  have hbit : y.testBit i = decide (y / 2 ^ i % 2 = 1) := by
    rw [Nat.testBit_eq_decide_div_mod_eq]
  have hsplit : y / 2 ^ i = y / 2 ^ i / 2 + y / 2 ^ i / 2 + y / 2 ^ i % 2 := by omega
  rw [hdiv, hbit, ← pow_add]
  by_cases h : y / 2 ^ i % 2 = 1
  · rw [if_pos (by simpa using h), ← pow_succ]
    congr 1
    omega
  · rw [if_neg (by simpa using h), mul_one]
    congr 1
    omega

section Power

variable {E : Engine w c} {n : Modulus} {mu x y : VBig}

/-- The working number when `i` bits of the exponent are left. -/
structure Powered (x y : VBig) (n : Modulus) (i : Nat) (tmp : VBig) : Prop where
  length : tmp.length = 2 * x.length
  lt : value tmp < 2 ^ (16 * n.used)
  modEq : value tmp ≡ value x ^ (value y / 2 ^ i) [MOD value n.digits]

/-- What the two products of a round need. -/
structure Fits (x : VBig) (n : Modulus) : Prop where
  base : value x < 2 ^ (16 * n.used)
  used : n.used ≤ x.length
  modulus : n.digits.length ≤ 2 * x.length
  square : n.used ≤ 128
  buffer : x.length ≤ 511

theorem mul_lt_square (ha : a < 2 ^ (16 * k)) (hb : b < 2 ^ (16 * k)) :
    a * b < 2 ^ (16 * (2 * k)) := by
  have hpow : 2 ^ (16 * (2 * k)) = 2 ^ (16 * k) * 2 ^ (16 * k) := by
    rw [← Nat.pow_add]
    congr 1
    omega
  rw [hpow]
  exact Nat.mul_lt_mul'' ha hb

namespace Fits

theorem reduce (hf : Fits x n) (h : n.Helper mu) {z : VBig} (hl : z.length = 2 * x.length)
    (hv : value z < 2 ^ (16 * (2 * n.used))) :
    ∃ r, Yields E (6 * x.length + 2 * n.used + 22) (bignumReduce E z n mu) r ∧
      value r = value z % value n.digits ∧ r.length = 2 * x.length := by
  have h1 := hf.used
  have h2 := hf.modulus
  have h3 := hf.square
  have h4 := hf.buffer
  obtain ⟨hvalue, hlen⟩ := Modulus.reduced_spec h (x := z) (by omega) hv
  refine ⟨n.reduced mu z, (yields_reduce E h (by omega) (by omega)).mono (by omega), hvalue, ?_⟩
  rw [hlen, hl]

theorem squared (hf : Fits x n) (h : n.Helper mu) (hp : Powered x y n i tmp) :
    ∃ r, Yields E (6 * x.length + 2 * n.used + 22)
        (bignumSquareHalf tmp >>= fun z => bignumReduce E z n mu) r ∧
      value r = value tmp * value tmp % value n.digits ∧ r.length = 2 * x.length := by
  have hused := hf.used
  have hk := n.used_spec.1
  have hlen := hp.length
  obtain ⟨r, hy, hvalue, hl⟩ := yields_squareHalf E (x := tmp) (by omega)
    (hp.lt.trans_le (Nat.pow_le_pow_right (by decide) (by omega))) hp.lt hf.square
  obtain ⟨r', hy', hvalue', hl'⟩ := hf.reduce (E := E) h (hl.trans hlen) (by
    rw [hvalue]
    exact mul_lt_square hp.lt hp.lt)
  exact ⟨r', (hy.mono (Nat.zero_le _)).bind hy', by rw [hvalue', hvalue], hl'⟩

theorem multiplied (hf : Fits x n) (h : n.Helper mu) {z : VBig} (hl : z.length = 2 * x.length)
    (hv : value z < 2 ^ (16 * n.used)) :
    ∃ r, Yields E (6 * x.length + 2 * n.used + 22)
        (bignumMul z x >>= fun z => bignumReduce E z n mu) r ∧
      value r = value z * value x % value n.digits ∧ r.length = 2 * x.length := by
  have hused := hf.used
  have hbuffer := hf.buffer
  have hlt := mul_lt_square hv hf.base
  have hvalue : value (mul z x) = value z * value x := by
    rw [value_mul, Nat.mod_eq_of_lt]
    exact hlt.trans_le (Nat.pow_le_pow_right (by decide) (by omega))
  obtain ⟨r, hy, hvalue', hl'⟩ := hf.reduce (E := E) (z := mul z x) h (by rw [length_mul, hl])
    (by rwa [hvalue])
  have hmul := yields_mul E (x := z) (y := x) (by omega)
  exact ⟨r, (hmul.mono (Nat.zero_le _)).bind hy, by rw [hvalue', hvalue], hl'⟩

end Fits

theorem powLoop_spec (hf : Fits x n) (h : n.Helper mu) (hp : Powered x y n i tmp) :
    ∃ r, Yields E (6 * x.length + 2 * n.used + 22) (powLoop E x y n mu i tmp) r ∧
      Powered x y n 0 r ∧ (i ≠ 0 ∨ value tmp < value n.digits → value r < value n.digits) := by
  induction i generalizing tmp with
  | zero => exact ⟨tmp, .pure E tmp, hp, fun h => h.resolve_left (fun h => h rfl)⟩
  | succ i ih =>
    have hn : 0 < value n.digits := Nat.pos_of_ne_zero n.ne_zero
    have hbit := pow_append_bit (value x) (value y) i
    obtain ⟨r1, hy1, hv1, hl1⟩ := hf.squared (E := E) h hp
    have hlt1 : value r1 < value n.digits := by
      rw [hv1]
      exact Nat.mod_lt _ hn
    have hmod1 : value r1 ≡ value x ^ (value y / 2 ^ (i + 1)) * value x ^ (value y / 2 ^ (i + 1))
        [MOD value n.digits] := by
      rw [hv1]
      exact (Nat.mod_modEq _ _).trans (hp.modEq.mul hp.modEq)
    rw [powLoop, ← bind_assoc]
    by_cases hb : bitTest y i = true
    · have htest : (value y).testBit i = true := by rwa [bitTest_eq] at hb
      rw [if_pos htest] at hbit
      obtain ⟨r2, hy2, hv2, hl2⟩ := hf.multiplied (E := E) h hl1 (hlt1.trans n.value_lt_used)
      have hlt2 : value r2 < value n.digits := by
        rw [hv2]
        exact Nat.mod_lt _ hn
      have hmod2 : value r2 ≡ value x ^ (value y / 2 ^ i) [MOD value n.digits] := by
        rw [hv2, hbit]
        exact (Nat.mod_modEq _ _).trans (hmod1.mul_right _)
      obtain ⟨r, hy, hr, hsmall⟩ := ih ⟨hl2, hlt2.trans n.value_lt_used, hmod2⟩
      refine ⟨r, hy1.bind ?_, hr, fun _ => hsmall (.inr hlt2)⟩
      rw [if_pos hb, ← bind_assoc]
      exact hy2.bind hy
    · have htest : ¬ (value y).testBit i = true := by rwa [bitTest_eq] at hb
      rw [if_neg htest, Nat.mul_one] at hbit
      rw [← hbit] at hmod1
      obtain ⟨r, hy, hr, hsmall⟩ := ih ⟨hl1, hlt1.trans n.value_lt_used, hmod1⟩
      refine ⟨r, hy1.bind ?_, hr, fun _ => hsmall (.inr hlt1)⟩
      rw [if_neg hb]
      exact hy

theorem powLoop_msb (hf : Fits x n) (h : n.Helper mu) :
    ∃ r, Yields E (6 * x.length + 2 * n.used + 22) (powLoop E x y n mu (bitMsb y).toNat
        (setBignum (List.replicate (2 * x.length) 0) x)) r ∧
      r.length = 2 * x.length ∧ value r < 2 ^ (16 * n.used) ∧
      value r = if value y ≤ 1 then value x else value x ^ value y % value n.digits := by
  have hlen : (setBignum (List.replicate (2 * x.length) 0) x).length = 2 * x.length := by simp
  have hvalue : value (setBignum (List.replicate (2 * x.length) 0) x) = value x := by
    rw [value_setBignum, List.length_replicate, Nat.mod_eq_of_lt]
    exact (value_lt x).trans_le (Nat.pow_le_pow_right (by decide) (by omega))
  by_cases hy : value y ≤ 1
  · have hsize : (value y).size ≤ 1 := Nat.size_le.mpr (by omega)
    have hmsb : (bitMsb y).toNat = 0 := by
      rw [bitMsb_eq]
      omega
    rw [hmsb, if_pos hy]
    exact ⟨_, .pure E _, hlen, by rw [hvalue]; exact hf.base, hvalue⟩
  · have hsize : 1 < (value y).size := Nat.lt_size.mpr (by omega)
    obtain ⟨i, hi⟩ : ∃ i, (value y).size = i + 1 := ⟨(value y).size - 1, by omega⟩
    have hmsb : (bitMsb y).toNat = i := by
      rw [bitMsb_eq, hi]
      omega
    have htop : value y / 2 ^ i = 1 := by
      have hle : 2 ^ i ≤ value y := Nat.lt_size.mp (by omega)
      have hlt : value y < 2 ^ (i + 1) := Nat.size_le.mp hi.le
      exact Nat.div_eq_of_lt_le (by omega) (by omega)
    have hstart : Powered x y n i (setBignum (List.replicate (2 * x.length) 0) x) := by
      refine ⟨hlen, by rw [hvalue]; exact hf.base, ?_⟩
      rw [hvalue, htop, Nat.pow_one]
    obtain ⟨r, hyields, hr, hsmall⟩ := powLoop_spec (E := E) hf h hstart
    have hmod := hr.modEq
    rw [Nat.pow_zero, Nat.div_one] at hmod
    rw [hmsb, if_neg hy]
    refine ⟨r, hyields, hr.length, hr.lt, ?_⟩
    rw [← hmod, Nat.mod_eq_of_lt (hsmall (.inl (by omega)))]

theorem powMod_yields (hf : Fits x n) :
    ∃ r, Yields E (8 * x.length + 4 * n.used + 25) (bignumPowMod E x y n) r ∧
      r.length = x.length ∧
      value r = if value y ≤ 1 then value x else value x ^ value y % value n.digits := by
  have hused := hf.used
  have hsquare := hf.square
  have hmu := n.helper_reciprocal (by omega)
  obtain ⟨tmp, htmp, hlen, hlt, hvalue⟩ := powLoop_msb (E := E) (y := y) hf hmu
  refine ⟨setBignum x tmp, ?_, length_setBignum _ _, ?_⟩
  · intro s hs
    obtain ⟨t1, h1, g1⟩ := (Core.Grown.refl s).alloc (g := PowerFault.core) (k := 2 * x.length)
      (hs.mono (by omega))
    have hserves : E.HeapServes t1.heapPos (6 * n.used + 6) := by
      rw [g1.heapPos]
      exact ((E.heapServes_add _ _ _).mp (hs.mono (by omega))).2
    obtain ⟨t2, h2, g2⟩ := reduceBegin_spec E n hserves
    obtain ⟨t3, h3, g3⟩ := htmp.inner (g1.trans g2) (hs.mono (by omega))
    obtain ⟨t4, h4, g4⟩ := g3.free (g := PowerFault.core)
    obtain ⟨t5, h5, g5⟩ := g4.store (g := PowerFault.core) (p := s.heapPos + 0) (by omega) tmp
    obtain ⟨t6, h6, g6⟩ := g5.free (g := PowerFault.core)
    have hend : bignumReduceEnd n.reciprocal t3 = .ok () t4 := by
      rw [bignumReduceEnd, hmu.length]
      exact h4
    exact ⟨t6, (bind_of_ok h1).trans <| (bind_of_ok h2).trans <| (bind_of_ok h3).trans <|
      (bind_of_ok hend).trans <| (bind_of_ok h5).trans <| (bind_of_ok h6).trans rfl, g6⟩
  · rw [value_setBignum, Nat.mod_eq_of_lt, hvalue]
    exact hlt.trans_le (Nat.pow_le_pow_right (by decide) (by omega))

/-- `v_bignum_pow_mod` returns for every base with no more digits than the modulus. Its result is
the power, but for the exponents zero and one, for which it gives the base back. -/
theorem pow_mod_iff (hE : E.heapCells = some heapSize) (s : Core w c)
    (hx : value x < 2 ^ (16 * n.used)) (hlen : n.used ≤ x.length)
    (hn : n.digits.length ≤ 2 * x.length) (hsquare : n.used ≤ 128)
    (hheap : s.heapPos + (8 * x.length + 4 * n.used + 25) ≤ heapSize) :
    ∃ r t, bignumPowMod E x y n s = .ok r t ∧ r.length = x.length ∧
      t = { s with heap := t.heap } ∧ (∀ i < s.heapPos, t.heap i = s.heap i) ∧
      (value r = value x ^ value y % value n.digits ↔
        2 ≤ value y ∨ value y = 1 ∧ value x < value n.digits ∨
          value y = 0 ∧ value x = 1 % value n.digits) := by
  have hserves := Engine.heapServes_of_le hE hheap
  have hbuffer : x.length ≤ 511 := by
    unfold heapSize at hheap
    omega
  obtain ⟨r, hyields, hl, hvalue⟩ := powMod_yields (E := E) (y := y)
    ⟨hx, hlen, hn, hsquare, hbuffer⟩
  obtain ⟨t, ht, hgrown⟩ := hyields s hserves
  refine ⟨r, t, ht, hl, hgrown.eq, hgrown.kept, ?_⟩
  have hn0 : 0 < value n.digits := Nat.pos_of_ne_zero n.ne_zero
  rw [hvalue]
  by_cases h2 : 2 ≤ value y
  · rw [if_neg (by omega)]
    exact iff_of_true rfl (.inl h2)
  · rw [if_pos (by omega)]
    rcases (by omega : value y = 0 ∨ value y = 1) with h0 | h1
    · rw [h0, Nat.pow_zero]
      constructor
      · exact fun h => .inr (.inr ⟨rfl, h⟩)
      · rintro (h | ⟨h, -⟩ | ⟨-, h⟩)
        · omega
        · omega
        · exact h
    · rw [h1, Nat.pow_one]
      constructor
      · exact fun h => .inr (.inl ⟨rfl, h ▸ Nat.mod_lt _ hn0⟩)
      · rintro (h | ⟨-, h⟩ | ⟨h, -⟩)
        · omega
        · exact (Nat.mod_eq_of_lt h).symm
        · omega

theorem pow_mod_iff_two_digits :
    ∃ r t, bignumPowMod (cemu .zero) [5, 7] [11] ⟨[3, 8], by decide⟩ (Evm.init 1000).core =
      .ok r t ∧ value r = 345776 := by
  obtain ⟨r, t, h, -, -, -, hiff⟩ := pow_mod_iff (x := [5, 7]) (y := [11])
    (n := ⟨[3, 8], by decide⟩) (rfl : (cemu .zero).heapCells = some heapSize)
    (Evm.init 1000).core (by decide) (by decide) (by decide) (by decide) (by decide)
  exact ⟨r, t, h, (hiff.mpr (.inl (by decide))).trans (by decide)⟩

/-- The reduction with its helper value computes the remainder of every number of at most twice the
modulus' digits. -/
theorem barrett_mod (hE : E.heapCells = some heapSize) (s : Core w c)
    (hx : value x < 2 ^ (16 * (2 * n.used))) (hlen : n.digits.length ≤ x.length)
    (hheap : s.heapPos + (3 * x.length + 6 * n.used + 24) ≤ heapSize) :
    ∃ mu r t u v, bignumReduceBegin E n s = .ok mu t ∧ bignumReduce E x n mu t = .ok r u ∧
      bignumReduceEnd mu u = .ok () v ∧ value r = value x % value n.digits ∧
      r.length = x.length ∧ v = { s with heap := v.heap } ∧
      ∀ i < s.heapPos, v.heap i = s.heap i := by
  have hserves := Engine.heapServes_of_le hE hheap
  unfold heapSize at hheap
  have hmu := n.helper_reciprocal (by omega)
  obtain ⟨t, ht, gt⟩ := reduceBegin_spec E n (hserves.mono (by omega))
  obtain ⟨u, hu, gu⟩ := (yields_reduce E (x := x) hmu (by omega) (by omega)).inner
    ((Core.Grown.refl s).trans gt) (hserves.mono (by omega))
  obtain ⟨v, hv, gv⟩ := gu.free (g := PowerFault.core)
  obtain ⟨hvalue, hl⟩ := Modulus.reduced_spec hmu hlen hx
  refine ⟨n.reciprocal, _, t, u, v, ht, hu, ?_, hvalue, hl, gv.eq, gv.kept⟩
  rw [bignumReduceEnd, hmu.length]
  exact hv

theorem barrett_mod_three_digits :
    ∃ mu r t u v, bignumReduceBegin (cemu .zero) ⟨[3, 8], by decide⟩ (Evm.init 1000).core =
        .ok mu t ∧
      bignumReduce (cemu .zero) [5, 7, 9] ⟨[3, 8], by decide⟩ mu t = .ok r u ∧
      bignumReduceEnd mu u = .ok () v ∧ value r = value ([5, 7, 9] : VBig) % 524291 := by
  obtain ⟨mu, r, t, u, v, h1, h2, h3, h4, -⟩ := barrett_mod (x := [5, 7, 9])
    (n := ⟨[3, 8], by decide⟩) (rfl : (cemu .zero).heapCells = some heapSize)
    (Evm.init 1000).core (by decide) (by decide) (by decide)
  exact ⟨mu, r, t, u, v, h1, h2, h3, h4⟩

end Power

end GvmCore
