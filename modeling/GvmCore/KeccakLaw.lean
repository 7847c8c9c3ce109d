import GvmCore.HashLaw
import GvmCore.Keccak
import GvmCore.KeccakPermutation
import GvmCore.Sponge
import Mathlib

namespace GvmCore
open Sponge
set_option autoImplicit true

namespace KeccakP

def cell (x y : ZMod 5) : Fin 25 := ⟨x.val + 5 * y.val, by
  have := ZMod.val_lt x
  have := ZMod.val_lt y
  omega⟩

def laneOf (block : List (BitVec 8)) (i : Nat) : Word :=
  wordOfBytes ((List.range 8).map fun j => block.getD (8 * i + j) 0)

def absorbBlock (s : Lanes) (block : List (BitVec 8)) : Lanes :=
  permute fun x y => s x y ^^^ laneOf block (cell x y)

/-- `k` bytes whose bits are a one, zeros and a one. -/
def padding (k : Nat) : List (BitVec 8) :=
  (List.range k).map fun i => (if i = 0 then 0x01 else 0) ||| if i + 1 = k then 0x80 else 0

def padded (r : Nat) (m : List (BitVec 8)) : List (BitVec 8) := m ++ padding (r - m.length % r)

/-- The state after a padded message, with blocks of `r` bytes. -/
def hash (r : Nat) (m : List (BitVec 8)) : Lanes :=
  absorbBlocks absorbBlock r ((padded r m).length / r) 0 (padded r m)

def hashByte (s : Lanes) (j : Nat) : BitVec 8 :=
  (byteAt (s (j / 8 : Nat) (j / 40 : Nat)) (j % 8)).setWidth 8

end KeccakP

namespace Keccak
open KeccakP

section Arrays

variable {l : List β} {idx : β → Fin n} {g : β → α → α} {v : Vector α n}

theorem get_set (v : Vector α n) (i j : Fin n) (a : α) :
    (v.set i a).get j = if i = j then a else v.get j := by
  refine (Vector.getElem_set i.isLt j.isLt).trans ?_
  simp only [Fin.ext_iff]
  rfl

theorem get_foldl_set_of_ne (h : ∀ q ∈ l, idx q ≠ i) :
    (l.foldl (fun v q => v.set (idx q) (g q (v.get (idx q)))) v).get i = v.get i := by
  induction l generalizing v with
  | nil => rfl
  | cons q l ih =>
    rw [List.foldl_cons, ih fun q hq => h q (List.mem_cons_of_mem _ hq), get_set,
      if_neg (h q List.mem_cons_self)]

theorem get_foldl_set (hl : l.Pairwise fun p q => idx p ≠ idx q) (hp : p ∈ l) :
    (l.foldl (fun v q => v.set (idx q) (g q (v.get (idx q)))) v).get (idx p) =
      g p (v.get (idx p)) := by
  induction l generalizing v with
  | nil => cases hp
  | cons q l ih =>
    obtain ⟨hq, hl⟩ := List.pairwise_cons.mp hl
    rw [List.foldl_cons]
    rcases List.mem_cons.mp hp with rfl | hp
    · rw [get_foldl_set_of_ne fun q' hq' => (hq q' hq').symm, get_set, if_pos rfl]
    · rw [ih hl hp, get_set, if_neg (hq p hp)]

end Arrays

theorem rotateLeft_eq (x : Word) (n : BitVec 32) : rotateLeft x n = x.rotateLeft n.toNat := by
  have hlow : (n &&& 63).toNat = n.toNat % 64 := by
    rw [BitVec.toNat_and]
    exact Nat.and_two_pow_sub_one_eq_mod n.toNat 6
  have hhigh : (-(n &&& 63) &&& 63).toNat = (64 - n.toNat % 64) % 64 := by
    rw [BitVec.toNat_and, BitVec.toNat_neg, hlow]
    refine (Nat.and_two_pow_sub_one_eq_mod _ 6).trans ?_
    omega
  rw [rotateLeft, hlow, hhigh, BitVec.rotateLeft_def]
  by_cases h0 : n.toNat % 64 = 0
  · rw [h0, Nat.sub_zero, Nat.mod_self, BitVec.ushiftRight_zero, BitVec.shiftLeft_zero,
      BitVec.ushiftRight_eq_zero le_rfl, BitVec.or_self, BitVec.or_zero]
  · rw [Nat.mod_eq_of_lt (show 64 - n.toNat % 64 < 64 by omega)]

theorem index1_eq (x : Int) : index1 x = (x : ZMod 5) := by
  fun_induction index1 x with
  | case1 x hx ih =>
    rw [ih, Int.cast_add]
    have h5 : ((5 : Int) : ZMod 5) = 0 := by decide
    rw [h5, add_zero]
  | case2 x hx =>
    obtain ⟨k, rfl⟩ := Int.eq_ofNat_of_zero_le (Int.not_lt.mp hx)
    exact (Int.cast_natCast (R := ZMod 5) k).symm

theorem index2_eq (x y : Int) : index2 x y = cell x y := by
  apply Fin.ext
  change (index1 x : Nat) + 5 * (index1 y : Nat) = _
  rw [index1_eq, index1_eq]
  rfl

/-- The array as the state of the permutation. -/
def lanes (A : Vector Word 25) : Lanes := fun x y => A.get (cell x y)

def pair (x y : ZMod 5) : Nat × Nat := (x.val, y.val)

theorem pair_mem (x y : ZMod 5) : pair x y ∈ lanePairs := by
  revert x y
  decide

theorem index2_pair (x y : ZMod 5) : index2 (pair x y).1 (pair x y).2 = cell x y := by
  rw [index2_eq]
  simp [pair]

theorem lanePairs_pairwise : lanePairs.Pairwise fun p q => index2 p.1 p.2 ≠ index2 q.1 q.2 := by
  simp only [index2_eq]
  decide

theorem columns_eq (A : Vector Word 25) (x : Int) :
    (columns A).get (index1 x) = parity (lanes A) x := by
  have hval : (((index1 x : Nat) : Int) : ZMod 5) = x := by
    rw [index1_eq, Int.cast_natCast]
    exact ZMod.natCast_zmod_val (x : ZMod 5)
  refine (Vector.getElem_ofFn (index1 x).isLt).trans ?_
  simp only [index2_eq, hval]
  rfl

theorem lanes_mixColumns (A : Vector Word 25) : lanes (mixColumns A) = theta (lanes A) := by
  funext x y
  have h := get_foldl_set (v := A) (g := fun p v => v ^^^ ((columns A).get (index1 (p.1 - 1)) ^^^
    rotateLeft ((columns A).get (index1 (p.1 + 1))) 1)) lanePairs_pairwise (pair_mem x y)
  rw [index2_pair] at h
  refine h.trans ?_
  rw [columns_eq, columns_eq, rotateLeft_eq]
  simp [theta, lanes, pair]

theorem moved_pairwise : lanePairs.Pairwise fun p q =>
    index2 p.2 (p.1 * 2 + 3 * p.2) ≠ index2 q.2 (q.1 * 2 + 3 * q.2) := by
  simp only [index2_eq]
  decide

theorem R_eq (x y : ZMod 5) : (R.get (cell x y)).toNat = offset x y := by
  revert x y
  decide

theorem lanes_moveLanes (A B : Vector Word 25) : lanes (moveLanes A B) = pi (rho (lanes A)) := by
  funext x y
  have hplace : index2 (pair (x + 3 * y) x).2
      ((pair (x + 3 * y) x).1 * 2 + 3 * (pair (x + 3 * y) x).2) = cell x y := by
    rw [index2_eq]
    revert x y
    decide
  have h := get_foldl_set (v := B) (g := fun p _ => rotateLeft (A.get (index2 p.1 p.2))
    (R.get (index2 p.1 p.2))) moved_pairwise (pair_mem (x + 3 * y) x)
  rw [hplace, index2_pair, rotateLeft_eq, R_eq] at h
  exact h

theorem lanes_mixRows (B A : Vector Word 25) : lanes (mixRows B A) = chi (lanes B) := by
  funext x y
  have h := get_foldl_set (v := A) (g := fun p _ => B.get (index2 p.1 p.2) ^^^
    (~~~B.get (index2 (p.1 + 1) p.2) &&& B.get (index2 (p.1 + 2) p.2))) lanePairs_pairwise
    (pair_mem x y)
  rw [index2_pair] at h
  refine h.trans ?_
  simp [index2_eq, chi, lanes, pair]

theorem RC_eq (n : Fin 24) : RC.get n = roundConstant n := by
  revert n
  decide

theorem lanes_set_zero (A : Vector Word 25) (n : Fin 24) (h0 : 0 < 25) :
    lanes (A.set 0 (A.get 0 ^^^ RC.get n) h0) = iota n (lanes A) := by
  funext x y
  have hzero : 0 = cell x y ↔ x = 0 ∧ y = 0 := by
    revert x y
    decide
  refine (get_set A 0 (cell x y) _).trans ?_
  simp only [hzero, RC_eq]
  by_cases h : x = 0 ∧ y = 0
  · obtain ⟨rfl, rfl⟩ := h
    rfl
  · rw [if_neg h, iota, if_neg h]
    rfl

theorem lanes_keccakRound (A : Vector Word 25) (n : Fin 24) :
    lanes (keccakRound A n) = KeccakP.round n (lanes A) := by
  rw [keccakRound, lanes_set_zero, lanes_mixRows, lanes_moveLanes, lanes_mixColumns,
    KeccakP.round]

theorem lanes_keccakf (A : Vector Word 25) : lanes (keccakf A) = permute (lanes A) := by
  have hfold : ∀ l : List (Fin 24), lanes (l.foldl keccakRound A) =
      (l.map Fin.val).foldl (fun a n => KeccakP.round n a) (lanes A) := by
    intro l
    induction l using List.reverseRecOn with
    | nil => rfl
    | append_singleton l n ih =>
      rw [List.foldl_concat, lanes_keccakRound, ih, List.map_append, List.foldl_append]
      rfl
  rw [keccakf, hfold]
  rfl

theorem cell_surjective (k : Fin 25) : k = cell ((k : Nat) : ZMod 5) ((k / 5 : Nat) : ZMod 5) := by
  revert k
  decide

theorem lanes_bijective : Function.Bijective lanes := by
  constructor
  · intro A B h
    apply Vector.ext
    intro i hi
    have hi' := congrFun (congrFun h ((i : Nat) : ZMod 5)) ((i / 5 : Nat) : ZMod 5)
    rw [lanes, lanes, ← cell_surjective ⟨i, hi⟩] at hi'
    exact hi'
  · intro a
    refine ⟨Vector.ofFn fun k => a ((k : Nat) : ZMod 5) ((k / 5 : Nat) : ZMod 5), ?_⟩
    funext x y
    refine (Vector.getElem_ofFn (cell x y).isLt).trans ?_
    have hx : (((cell x y : Fin 25) : Nat) : ZMod 5) = x := by
      revert x y
      decide
    have hy : (((cell x y : Fin 25) : Nat) / 5 : Nat) = y.val := by
      revert x y
      decide
    rw [hx, hy, ZMod.natCast_zmod_val]

/-- The unrolled code is the permutation of the standard, and no two states are mapped to one. -/
theorem keccakf_permutes : Function.Bijective keccakf ∧
    ∀ A, lanes (keccakf A) = permute (lanes A) := by
  refine ⟨⟨?_, ?_⟩, lanes_keccakf⟩
  · intro A B h
    apply lanes_bijective.injective
    apply permute_bijective.injective
    rw [← lanes_keccakf, ← lanes_keccakf, h]
  · intro B
    obtain ⟨a, ha⟩ := permute_bijective.surjective (lanes B)
    obtain ⟨A, rfl⟩ := lanes_bijective.surjective a
    rw [← lanes_keccakf] at ha
    exact ⟨A, lanes_bijective.injective ha⟩

def slice (input : Nat → BitVec 8) (off len : Nat) : List (BitVec 8) :=
  (List.range len).map fun i => input (off + i)

@[simp] theorem length_slice : (slice input off len).length = len := by
  rw [slice, List.length_map, List.length_range]

theorem slice_append (input : Nat → BitVec 8) (off m n : Nat) :
    slice input off m ++ slice input (off + m) n = slice input off (m + n) := by
  simp only [slice, List.range_add, List.map_append, List.map_map]
  congr 1
  apply List.map_congr_left
  intro i _
  exact congrArg input (Nat.add_assoc off m i)

theorem laneOf_of_le (block : List (BitVec 8)) (h : block.length ≤ 8 * i) : laneOf block i = 0 := by
  have hzero : (List.range 8).map (fun j => block.getD (8 * i + j) 0) = List.replicate 8 0 := by
    apply List.map_eq_replicate_iff.mpr
    intro j _
    rw [List.getD_eq_getElem?_getD, List.getElem?_eq_none (by omega)]
    rfl
  rw [laneOf, hzero]
  rfl

theorem bufferWord_eq (buffer : Vector (BitVec 8) n) (i : Nat) :
    bufferWord buffer i = laneOf buffer.toList i := by
  unfold bufferWord laneOf
  congr 2
  funext j
  rw [List.getD_eq_getElem?_getD, Vector.getElem?_toList]

theorem lanes_keccakProcessBuffer (A : Vector Word 25) (buffer : Vector (BitVec 8) n) (h : 8 ∣ n) :
    lanes (keccakProcessBuffer A buffer) = absorbBlock (lanes A) buffer.toList := by
  rw [keccakProcessBuffer, lanes_keccakf, absorbBlock]
  congr 1
  funext x y
  refine (Vector.getElem_mapFinIdx (cell x y).isLt).trans ?_
  simp only [littleToNative64_eq, bufferWord_eq]
  split
  · rfl
  · have hle : buffer.toList.length ≤ 8 * (cell x y : Nat) := by
      rw [Vector.length_toList]
      omega
    rw [laneOf_of_le _ hle]
    exact BitVec.xor_zero.symm

theorem copyIn_succ {buffer : Vector (BitVec 8) n} {k c : Nat} (h : k + (c + 1) ≤ n) :
    copyIn input off buffer k (c + 1) h =
      (copyIn input off buffer k c (by omega)).set (k + c) (input (off + c)) (by omega) := by
  unfold copyIn
  rw [List.finRange_succ_last, List.foldl_append, List.foldl_map]
  rfl

theorem take_copyIn {buffer : Vector (BitVec 8) n} {k c : Nat} (h : k + c ≤ n) :
    (copyIn input off buffer k c h).toList.take (k + c) =
      buffer.toList.take k ++ slice input off c := by
  induction c with
  | zero => exact (List.append_nil _).symm
  | succ c ih =>
    rw [copyIn_succ, Vector.toList_set, ← Nat.add_assoc, List.take_add_one,
      List.take_set_of_le le_rfl, ih (by omega),
      List.getElem?_set_self (by rw [Vector.length_toList]; omega),
      ← slice_append input off c 1, List.append_assoc]
    rfl

/-- The state as the absorption of a message that is not at its end. -/
def KeccakState.absorbing (st : KeccakState length) : Absorbing Lanes (BitVec 8) :=
  ⟨lanes st.A, st.buffer.toList.take st.bufferLen⟩

theorem length_block_absorbing (st : KeccakState length) :
    st.absorbing.block.length = st.bufferLen := by
  have := st.room
  change (st.buffer.toList.take st.bufferLen).length = _
  rw [List.length_take, Vector.length_toList]
  omega

theorem absorbing_takeIn (st : KeccakState length) (h8 : 8 ∣ blockLen length) (hlen : 0 < len) :
    (takeIn input off len st).absorbing = feedAll absorbBlock (blockLen length) st.absorbing
      (slice input off (cpLen st len)) := by
  have hfits := cpLen_fits st len
  have hpos := cpLen_pos st hlen
  have htake : (copyIn input off st.buffer st.bufferLen (cpLen st len) hfits).toList.take _ = _ :=
    take_copyIn hfits
  have hblock := length_block_absorbing st
  have hslice : (slice input off (cpLen st len)).length = cpLen st len := length_slice
  by_cases hfull : st.bufferLen + cpLen st len = blockLen length
  · have hne : slice input off (cpLen st len) ≠ [] := List.ne_nil_of_length_pos (by omega)
    rw [feedAll_of_eq (by omega) hne, takeIn, dif_pos hfull]
    rw [hfull, List.take_of_length_le (by rw [Vector.length_toList])] at htake
    change Absorbing.mk (lanes (keccakProcessBuffer _ _)) [] = _
    rw [lanes_keccakProcessBuffer _ _ h8, htake]
    rfl
  · rw [feedAll_of_lt (by omega), takeIn, dif_neg hfull]
    exact congrArg (Absorbing.mk _) htake

theorem absorbing_keccakUpdate (st : KeccakState length) (h8 : 8 ∣ blockLen length) :
    (keccakUpdate input off len st).absorbing =
      feedAll absorbBlock (blockLen length) st.absorbing (slice input off len) := by
  fun_induction keccakUpdate input off len st with
  | case1 off len st hlen ih =>
    have hle := cpLen_le st len
    rw [ih, absorbing_takeIn st h8 hlen, ← feedAll_append, slice_append, Nat.add_sub_cancel' hle]
  | case2 off len st hlen =>
    rw [Nat.eq_zero_of_not_pos hlen]
    rfl

theorem length_padding (k : Nat) : (padding k).length = k := by
  rw [padding, List.length_map, List.length_range]

theorem getElem?_padding (h : i < k) : (padding k)[i]? =
    some ((if i = 0 then 0x01 else 0) ||| if i + 1 = k then 0x80 else 0) := by
  rw [padding, List.getElem?_map, List.getElem?_range h]
  rfl

theorem getElem?_keccakAddPadding (st : KeccakState length) (i : Nat) (hi : i < blockLen length) :
    (keccakAddPadding st).toList[i]? = if i < st.bufferLen then st.buffer.toList[i]?
      else (padding (blockLen length - st.bufferLen))[i - st.bufferLen]? := by
  have hroom := st.room
  have hsome : ∀ v : Vector (BitVec 8) (blockLen length), v.toList[i]? = some v[i] := by
    intro v
    rw [Vector.getElem?_toList, Vector.getElem?_eq_getElem hi]
  rw [hsome, hsome]
  split
  · rename_i hlt
    congr 1
    unfold keccakAddPadding
    split
    · exact Vector.getElem_set_ne _ _ (by omega)
    · rw [Vector.getElem_set_ne _ _ (by omega), Vector.getElem_mapFinIdx, if_neg (by omega),
        Vector.getElem_set_ne _ _ (by omega)]
  · rename_i hge
    rw [getElem?_padding (by omega)]
    congr 1
    unfold keccakAddPadding
    split
    · -- the only byte left is the first and the last of the padding
      have hi' : i = st.bufferLen := by omega
      subst hi'
      rw [Vector.getElem_set_self, if_pos (by omega), if_pos (by omega)]
      rfl
    · by_cases hlast : i = blockLen length - 1
      · subst hlast
        rw [Vector.getElem_set_self, if_neg (by omega), if_pos (by omega)]
        rfl
      · rw [Vector.getElem_set_ne _ _ (by omega), Vector.getElem_mapFinIdx,
          if_neg (show ¬i - st.bufferLen + 1 = _ by omega)]
        by_cases hfirst : i = st.bufferLen
        · subst hfirst
          rw [if_neg (by omega), Vector.getElem_set_self, if_pos (by omega)]
          rfl
        · rw [if_pos (by omega), if_neg (by omega)]
          rfl

theorem toList_keccakAddPadding (st : KeccakState length) : (keccakAddPadding st).toList =
    st.absorbing.block ++ padding (blockLen length - st.bufferLen) := by
  have hroom := st.room
  have hblock := length_block_absorbing st
  apply List.ext_getElem?
  intro i
  by_cases hi : i < blockLen length
  · rw [getElem?_keccakAddPadding st i hi, List.getElem?_append, hblock]
    split
    · rename_i hlt
      exact (List.getElem?_take_of_lt hlt).symm
    · rfl
  · rw [List.getElem?_eq_none (by rw [Vector.length_toList]; omega), List.getElem?_eq_none]
    rw [List.length_append, hblock, length_padding]
    omega

theorem length_padded (hr : 0 < r) (m : List (BitVec 8)) :
    (padded r m).length = (padded r m).length / r * r := by
  have hmod := Nat.mod_lt m.length hr
  have hlen : (padded r m).length = m.length / r * r + r := by
    have hdiv := Nat.div_add_mod' m.length r
    rw [padded, List.length_append, length_padding]
    omega
  have hdvd : r ∣ (padded r m).length := by
    rw [hlen]
    exact ⟨m.length / r + 1, by rw [Nat.mul_add, Nat.mul_one, Nat.mul_comm]⟩
  exact (Nat.div_mul_cancel hdvd).symm

theorem lanes_last (st : KeccakState length) (h8 : 8 ∣ blockLen length)
    (h : st.absorbing = feedAll absorbBlock (blockLen length) ⟨0, []⟩ m) :
    lanes (keccakProcessBuffer st.A (keccakAddPadding st)) = hash (blockLen length) m := by
  have hroom := st.room
  have hpos : 0 < blockLen length := Nat.zero_lt_of_lt hroom
  have hblock := length_block_absorbing st
  have hmod : st.bufferLen = m.length % blockLen length := by
    rw [← hblock, h, length_block_feedAll _ hpos]
    exact congrArg (· % _) (Nat.zero_add _)
  have hpad : (padding (blockLen length - st.bufferLen)).length = blockLen length - st.bufferLen :=
    length_padding _
  have hne : padding (blockLen length - st.bufferLen) ≠ [] :=
    List.ne_nil_of_length_pos (by omega)
  have hfeed : feedAll absorbBlock (blockLen length) ⟨0, []⟩ (padded (blockLen length) m) =
      ⟨absorbBlock st.absorbing.state
        (st.absorbing.block ++ padding (blockLen length - st.bufferLen)), []⟩ := by
    rw [padded, ← hmod, feedAll_append, ← h, feedAll_of_eq (by omega) hne]
  rw [feedAll_blocks hpos (length_padded hpos m)] at hfeed
  rw [lanes_keccakProcessBuffer _ _ h8, toList_keccakAddPadding]
  exact (congrArg Absorbing.state hfeed).symm

theorem charAt_keccakDigest (H : Heap) (st : KeccakState length) (h8 : 8 ∣ blockLen length)
    (h : st.absorbing = feedAll absorbBlock (blockLen length) ⟨0, []⟩ m) (hj : j < 200)
    (hlen : 8 * (j / 8) < length) :
    charAt (keccakDigest H st).1 j = hashByte (hash (blockLen length) m) j := by
  have hk : j / 8 < 25 := by omega
  have hlane := congrFun (congrFun (lanes_last st h8 h) ((j / 8 : Nat) : ZMod 5))
    ((j / 40 : Nat) : ZMod 5)
  have hplace : cell ((j / 8 : Nat) : ZMod 5) ((j / 40 : Nat) : ZMod 5) = ⟨j / 8, hk⟩ := by
    rw [show j / 40 = j / 8 / 5 by omega]
    exact (cell_surjective ⟨j / 8, hk⟩).symm
  rw [lanes, hplace] at hlane
  rw [hashByte, ← hlane, charAt, keccakDigest]
  simp only [hlen, hk, if_true, dif_pos, nativeToLittle64_eq]
  rfl

/-- The calls that a program makes on one state. -/
inductive Call where
  | update (input : Nat → BitVec 8) (off len : Nat)
  | digest (H : Heap)

def runCalls (st : KeccakState length) : List Call → List (Nat → Word)
  | [] => []
  | .update input off len :: calls => runCalls (keccakUpdate input off len st) calls
  | .digest H :: calls => (keccakDigest H st).1 :: runCalls (keccakDigest H st).2 calls

/-- What has been put in before each digest, since the one before it. -/
def messages (m : List (BitVec 8)) : List Call → List (List (BitVec 8))
  | [] => []
  | .update input off len :: calls => messages (m ++ slice input off len) calls
  | .digest _ :: calls => m :: messages [] calls

theorem absorbing_zero (buffer : Vector (BitVec 8) (blockLen length)) (h : 0 < blockLen length) :
    (KeccakState.mk (Vector.replicate 25 0) buffer 0 h).absorbing = ⟨0, []⟩ := by
  have hlanes : lanes (Vector.replicate 25 0) = 0 := by
    funext x y
    exact Vector.getElem_replicate (cell x y).isLt
  rw [KeccakState.absorbing, hlanes]
  rfl

theorem runCalls_messages (h8 : 8 ∣ blockLen length) (calls : List Call) (st : KeccakState length)
    (h : st.absorbing = feedAll absorbBlock (blockLen length) ⟨0, []⟩ m) :
    List.Forall₂ (fun tmp m => ∀ j < 200, 8 * (j / 8) < length →
      charAt tmp j = hashByte (hash (blockLen length) m) j)
      (runCalls st calls) (messages m calls) := by
  induction calls generalizing st m with
  | nil => exact .nil
  | cons call calls ih =>
    cases call with
    | update input off len =>
      apply ih
      rw [absorbing_keccakUpdate st h8, h, feedAll_append]
    | digest H =>
      apply List.Forall₂.cons
      · intro j hj hlen
        exact charAt_keccakDigest H st h8 h hj hlen
      · exact ih _ (absorbing_zero _ _)

/-- However the bytes come in, and however often the state is used again, a digest is the hash of
what was put in since the last one. -/
theorem digests_of_calls (hpos : 0 < blockLen length) (h8 : 8 ∣ blockLen length)
    (calls : List Call) :
    List.Forall₂ (fun tmp m => ∀ j < 200, 8 * (j / 8) < length →
      charAt tmp j = hashByte (hash (blockLen length) m) j)
      (runCalls (keccakCreate length hpos) calls) (messages [] calls) :=
  runCalls_messages h8 calls _ (absorbing_zero _ _)

def Heap.zero : Heap := ⟨fun _ => 0, fun _ => 0⟩

theorem digests_of_two_parts : List.Forall₂ (fun tmp m => ∀ j < 200, 8 * (j / 8) < 256 →
      charAt tmp j = hashByte (hash (blockLen 256) m) j)
    (runCalls (keccakCreate 256 (by decide))
      [.update (BitVec.ofNat 8) 0 100, .update (BitVec.ofNat 8) 100 150, .digest .zero])
    (messages []
      [.update (BitVec.ofNat 8) 0 100, .update (BitVec.ofNat 8) 100 150, .digest .zero]) :=
  digests_of_calls (by decide) (by decide) _

theorem slice_getD (m : List (BitVec 8)) : slice (fun i => m.getD i 0) 0 m.length = m := by
  apply List.ext_getElem length_slice
  intro i h _
  rw [length_slice] at h
  simp [slice, h]

theorem keccakAlgDigest_eq (H : Heap) (m : List (BitVec 8)) (j : Fin 32) :
    keccakAlgDigest H m j = hashByte (hash 136 m) j := by
  have hj := j.isLt
  have h : (keccakUpdate (fun i => m.getD i 0) 0 m.length
      (keccakCreate 256 (by decide))).absorbing = feedAll absorbBlock (blockLen 256) ⟨0, []⟩ m := by
    rw [absorbing_keccakUpdate _ (by decide), slice_getD]
    exact congrArg (feedAll _ _ · m) (absorbing_zero _ _)
  exact charAt_keccakDigest H _ (by decide) h (by omega) (by omega)

end Keccak

section Sha3

variable {E : Engine w c} {s t : Core w c}

/-- With the code of the repository behind it, SHA3 leaves Keccak-256 of the memory it is given. -/
theorem sha3_keccak256 (H : Keccak.Heap) (hk : E.keccak = Keccak.keccakAlgDigest H)
    (hsp : SpAt s z) (hlow : 7 ≤ z) (hhigh : z < 2048) (hgas : 30 ≤ s.gas)
    (hheap : E.HeapServes s.heapPos 65) (hsize : Insn.hashSize s z ≤ 255)
    (hrange : Insn.hashOffs s z + Insn.hashSize s z ≤ 1024) :
    ∃ t, mainDecode E 0x20 s = .ok .none t ∧ s.Yields t z 2 (digestValue fun j =>
      KeccakP.hashByte (KeccakP.hash 136 (s.bytes (Insn.hashOffs s z) (Insn.hashSize s z))) j) := by
  have hcovered : Insn.sha3.Covered s := by
    rintro v ⟨⟩
    exact hgas
  have hfits : Insn.sha3.Fits s z :=
    ⟨⟨by omega, by omega⟩, ⟨by omega, by omega⟩, fun i hi => by omega, hsize⟩
  have hexec : ∀ t, Insn.sha3.exec E s = .ok .none t ↔ _ :=
    fun t => Insn.exec_eq_ok_of_covered trivial hsp hcovered nofun
  have hdata : (Insn.sha3.paid s z).dataBus = s.dataBus := by rw [Insn.paid_keeps]
  have hhashed := hashed_effect (E := E) (Insn.sha3.paid_word s z) hdata hlow hhigh
  have hdigest : s.digest E z = fun j : Fin 32 => KeccakP.hashByte (KeccakP.hash 136
      (s.bytes (Insn.hashOffs s z) (Insn.hashSize s z))) j := by
    funext j
    rw [Core.digest, hk, Keccak.keccakAlgDigest_eq]
  rw [mainDecode_of_listed E s (I := .sha3) (by decide) (by decide), ← hdigest]
  exact ⟨_, (hexec _).mpr ⟨trivial, hheap, hfits, rfl, rfl⟩, hhashed.yields⟩

end Sha3

theorem sha3_keccak256_four_bytes :
    ∃ t, mainDecode (cemu ⟨Keccak.keccakAlgDigest .zero, fun _ _ => 0⟩) 0x20 (stackOf [0, 4]) =
      .ok .none t ∧ (stackOf [0, 4]).Yields t 7 2 (digestValue fun j =>
        KeccakP.hashByte (KeccakP.hash 136 ((stackOf [0, 4]).bytes
          (Insn.hashOffs (stackOf [0, 4]) 7) (Insn.hashSize (stackOf [0, 4]) 7))) j) := by
  have h0 : (stackOf [0, 4]).number 7 0 = 0 := number_stackOf (l := [0, 4]) (by decide) (by decide)
  have h1 : (stackOf [0, 4]).number 7 1 = 4 := number_stackOf (l := [0, 4]) (by decide) (by decide)
  have hoffs : Insn.hashOffs (stackOf [0, 4]) 7 = 0 := by
    rw [hashOffs_eq, h0]
    decide
  have hsize : Insn.hashSize (stackOf [0, 4]) 7 = 4 := by
    rw [hashSize_eq, h1]
    decide
  have hgas := (stackOf_keeps [0, 4]).1
  have hsp : SpAt (stackOf [0, 4]) 7 := spAt_stackOf (l := [0, 4]) (by decide)
  apply sha3_keccak256 .zero rfl hsp (by decide) (by decide)
  · rw [Core.gas, hgas]
    decide
  · exact heapServes_stackOf [0, 4] (by decide)
  · rw [hsize]
    decide
  · rw [hoffs, hsize]
    decide

end GvmCore
