import GvmCore.BignumValue

namespace GvmCore
open Digits
set_option autoImplicit true

/-- The 256-bit number in four stack or gas words: word 0 is the lowest, each word has its bytes
swapped. -/
def regValue (reg : Reg) : Nat :=
  value [swapBytes (reg 0), swapBytes (reg 1), swapBytes (reg 2), swapBytes (reg 3)]

theorem regValue_lt (reg : Reg) : regValue reg < 2 ^ 256 :=
  value_lt [swapBytes (reg 0), swapBytes (reg 1), swapBytes (reg 2), swapBytes (reg 3)]

theorem regValue_injective {r r' : Reg} (h : regValue r = regValue r') : r = r' := by
  rw [regValue, regValue] at h
  have hl := value_injective (by simp) h
  simp only [List.cons.injEq, and_true] at hl
  funext i
  match i with
  | 0 => exact swapBytes_inj hl.1
  | 1 => exact swapBytes_inj hl.2.1
  | 2 => exact swapBytes_inj hl.2.2.1
  | 3 => exact swapBytes_inj hl.2.2.2

namespace VBignum

theorem length_flatMap_pairs {f : ι → List Char} {l : List ι} (h : ∀ i ∈ l, (f i).length = 2) :
    (l.flatMap f).length = 2 * l.length := by
  induction l with
  | nil => rfl
  | cons i l ih =>
    have hi := h i List.mem_cons_self
    have hl := fun j hj => h j (List.mem_cons_of_mem i hj)
    rw [List.flatMap_cons, List.length_append, hi, ih hl, List.length_cons]
    ring

theorem hexValue_flatMap_pairs {f : ι → List Char} {l : List ι} (h : ∀ i ∈ l, (f i).length = 2) :
    hexValue (l.flatMap f) = (l.map fun i => hexValue (f i)).foldl (fun n b => 256 * n + b) 0 := by
  suffices hs : ∀ n, (l.map fun i => hexValue (f i)).foldl (fun n b => 256 * n + b) n =
      n * 16 ^ (2 * l.length) + hexValue (l.flatMap f) by
    simpa using (hs 0).symm
  induction l with
  | nil => simp
  | cons i l ih =>
    intro n
    have hl := fun j hj => h j (List.mem_cons_of_mem i hj)
    rw [List.map_cons, List.foldl_cons, ih hl, List.flatMap_cons, hexValue_append,
      length_flatMap_pairs hl, List.length_cons, Nat.mul_add, Nat.pow_add]
    ring

theorem length_hexPad_byteAt (v : Word) (j : Nat) : (hexPad 2 (byteAt v j).toNat).length = 2 :=
  length_hexPad (by decide) (toNat_byteAt_lt v j)

theorem hexValue_block (v : Word) :
    hexValue ((List.range 8).flatMap fun j => hexPad 2 (byteAt v j).toNat) =
      (swapBytes v).toNat := by
  rw [hexValue_flatMap_pairs fun j _ => length_hexPad_byteAt v j, toNat_swapBytes]
  simp only [hexValue_hexPad]

theorem length_block (v : Word) :
    ((List.range 8).flatMap fun j => hexPad 2 (byteAt v j).toNat).length = 16 :=
  length_flatMap_pairs fun j _ => length_hexPad_byteAt v j

@[simp] theorem length_regToBignum (reg : Reg) : (regToBignum reg).length = 64 := by
  rw [regToBignum, length_setStringHex, List.length_replicate]

theorem value_regToBignum (reg : Reg) : value (regToBignum reg) = regValue reg := by
  have hall : ∀ c ∈ ([3, 2, 1, 0] : List (Fin 4)).flatMap fun i =>
      (List.range 8).flatMap fun j => hexPad 2 (byteAt (reg i) j).toNat, isxdigit c = true := by
    intro c hc
    obtain ⟨i, -, hi⟩ := List.mem_flatMap.mp hc
    obtain ⟨j, -, hj⟩ := List.mem_flatMap.mp hi
    exact isxdigit_of_mem_hexPad 2 _ c hj
  have h0 := (swapBytes (reg 0)).isLt
  have h1 := (swapBytes (reg 1)).isLt
  have h2 := (swapBytes (reg 2)).isLt
  have h3 := (swapBytes (reg 3)).isLt
  rw [regToBignum, digitString]
  refine (value_setStringHex hall _).trans ?_
  simp only [List.flatMap_cons, List.flatMap_nil, hexValue_append, hexValue_block,
    length_block, List.length_append, List.length_replicate, hexValue_nil, List.length_nil,
    regValue, value_cons, value_nil]
  omega

theorem value_setBignum_regToBignum {x : VBig} (hx : x.length = 16) (reg : Reg) :
    value (setBignum x (regToBignum reg)) = regValue reg := by
  rw [value_setBignum, hx, value_regToBignum]
  exact Nat.mod_eq_of_lt (regValue_lt reg)

theorem hexValue_drop_take {string : List Char} {n : Nat} (h : n + 2 ≤ string.length) :
    hexValue ((string.drop n).take 2) = hexValue string / 16 ^ (string.length - n - 2) % 256 := by
  have hs : string = string.take n ++ ((string.drop n).take 2 ++ string.drop (n + 2)) := by
    rw [← List.drop_drop, List.take_append_drop, List.take_append_drop]
  have hl2 : ((string.drop n).take 2).length = 2 := by
    rw [List.length_take, List.length_drop]
    omega
  have hl : (string.drop (n + 2)).length = string.length - n - 2 := by
    rw [List.length_drop]
    omega
  have hb := hexValue_lt ((string.drop n).take 2)
  have hc := hexValue_lt (string.drop (n + 2))
  have hv := congrArg hexValue hs
  rw [hexValue_append, hexValue_append, List.length_append, hl2, hl] at hv
  rw [hl2] at hb
  rw [hl] at hc
  have hv' : hexValue string = hexValue (string.drop (n + 2)) + 16 ^ (string.length - n - 2) *
      (hexValue ((string.drop n).take 2) + 256 * hexValue (string.take n)) := by
    rw [hv, Nat.pow_add]
    ring
  rw [hv', Nat.add_mul_div_left _ _ (by positivity), Nat.div_eq_of_lt hc, Nat.zero_add,
    Nat.add_mul_mod_self_left, Nat.mod_eq_of_lt (show _ < 256 from hb)]

theorem length_hexPad_digit (d : VBigDig) : (hexPad 4 d.toNat).length = 4 :=
  length_hexPad (by decide) d.isLt

theorem length_sprintHex (x : VBig) : (sprintHex x).length = 4 * x.length := by
  induction x with
  | nil => rfl
  | cons d ds ih =>
    rw [sprintHex, List.reverse_cons, List.flatMap_append, List.length_append]
    change (sprintHex ds).length + _ = _
    rw [ih, List.flatMap_singleton, length_hexPad_digit, List.length_cons]
    ring

theorem hexValue_sprintHex (x : VBig) : hexValue (sprintHex x) = value x := by
  induction x with
  | nil => rfl
  | cons d ds ih =>
    rw [sprintHex, List.reverse_cons, List.flatMap_append, hexValue_append]
    change hexValue (sprintHex ds) * _ + _ = _
    rw [ih, List.flatMap_singleton, length_hexPad_digit, hexValue_hexPad, value_cons]
    ring

theorem bignumToReg_eq {x : VBig} (hx : x.length = 16) (i : Fin 4) :
    bignumToReg x i = swapBytes (BitVec.ofNat 64 (value x / 2 ^ (64 * i.val))) := by
  have hl : (sprintHex x).length = 64 := by rw [length_sprintHex, hx]
  have hi := i.isLt
  have hpiece : ∀ j ≤ 14, ((['0', 'x'] ++ sprintHex x).drop (64 - 16 * i.val - j)).take 2 =
      ((sprintHex x).drop (62 - 16 * i.val - j)).take 2 := by
    intro j hj
    rw [show 64 - 16 * i.val - j = (62 - 16 * i.val - j) + 2 by omega]
    rfl
  have hlen : ∀ k ∈ List.range 8,
      (((sprintHex x).drop (62 - 16 * i.val - 2 * k)).take 2).length = 2 := by
    intro k hk
    have hk8 := List.mem_range.mp hk
    rw [List.length_take, List.length_drop, hl]
    omega
  have hbyte : ∀ k ∈ List.range 8,
      hexValue (((sprintHex x).drop (62 - 16 * i.val - 2 * k)).take 2) =
        (byteAt (BitVec.ofNat 64 (value x / 2 ^ (64 * i.val))) k).toNat := by
    intro k hk
    have hk8 := List.mem_range.mp hk
    rw [hexValue_drop_take (by rw [hl]; omega), hl, hexValue_sprintHex, toNat_byteAt,
      BitVec.toNat_ofNat, show 64 - (62 - 16 * i.val - 2 * k) - 2 = 16 * i.val + 2 * k by omega,
      Nat.pow_add, ← Nat.div_div_eq_div_mul]
    have h1 : (16 : Nat) ^ (16 * i.val) = 2 ^ (64 * i.val) := by
      rw [show (16 : Nat) = 2 ^ 4 by decide, ← Nat.pow_mul]
      ring_nf
    have h2 : (16 : Nat) ^ (2 * k) = 256 ^ k := by rw [Nat.pow_mul]
    rw [h1, h2]
    have h3 : (2 : Nat) ^ 64 = 256 ^ k * 256 ^ (8 - k) := by
      rw [← Nat.pow_add, show k + (8 - k) = 8 by omega]
      rfl
    have h4 : 256 ∣ 256 ^ (8 - k) := dvd_pow_self 256 (by omega)
    rw [h3, Nat.mod_mul_right_div_self, Nat.mod_mod_of_dvd _ h4]
  apply BitVec.eq_of_toNat_eq
  rw [toNat_swapBytes, ← List.map_congr_left hbyte, ← hexValue_flatMap_pairs hlen]
  have htext : ([0, 2, 4, 6, 8, 10, 12, 14].flatMap fun j =>
      ((['0', 'x'] ++ sprintHex x).drop (64 - 16 * i.val - j)).take 2) =
      (List.range 8).flatMap fun k => ((sprintHex x).drop (62 - 16 * i.val - 2 * k)).take 2 := by
    rw [show [0, 2, 4, 6, 8, 10, 12, 14] = (List.range 8).map (2 * ·) from rfl, List.flatMap_map]
    apply List.flatMap_congr
    intro k hk
    have hk8 := List.mem_range.mp hk
    exact hpiece (2 * k) (by omega)
  have hlt := hexValue_lt ((List.range 8).flatMap fun k =>
    ((sprintHex x).drop (62 - 16 * i.val - 2 * k)).take 2)
  rw [length_flatMap_pairs hlen] at hlt
  simp only [bignumToReg, strtoull16]
  rw [htext, BitVec.toNat_ofNat]
  exact Nat.mod_eq_of_lt hlt

theorem swapBytes_bignumToReg {x : VBig} (hx : x.length = 16) (i : Fin 4) :
    swapBytes (bignumToReg x i) = BitVec.ofNat 64 (value x / 2 ^ (64 * i.val)) := by
  rw [bignumToReg_eq hx, swapBytes_swapBytes]

theorem regValue_bignumToReg {x : VBig} (hx : x.length = 16) :
    regValue (bignumToReg x) = value x := by
  have hlt := value_lt x
  rw [hx] at hlt
  have h3 : ((3 : Fin 4) : Nat) = 3 := rfl
  simp only [regValue, swapBytes_bignumToReg hx, value_cons, value_nil, BitVec.toNat_ofNat,
    Fin.val_zero, Fin.val_one, Fin.val_two, h3]
  omega

end VBignum
end GvmCore
