import GvmCore.BlockRange
import GvmCore.Lockstep

namespace GvmCore
open Exec SimpleMemBlock
set_option autoImplicit true

/-- The bytes that pairs of hex digits stand for. -/
def decodeHex : List Char → List (BitVec 8)
  | a :: b :: digits => BitVec.ofNat 8 (16 * xdigitValue a + xdigitValue b) :: decodeHex digits
  | _ => []

namespace Evm

/-- `SetMem` of one byte; `LoadElf` does not look at the result. -/
def setMemByte (e : BitVec 8 × Nat) : BlockM d Unit := do
  let _ ← setmem [e.1] (BitVec.ofNat 32 e.2)

/-- The loop of `LoadElf` on the program memory. The last address is the size. -/
def loadProgMem (text : List Char) : BlockM 4 Nat := do
  let bytes := readHexFile text '\x00' '\x00'
  bytes.zipIdx.forM setMemByte
  return bytes.length - 1

end Evm

namespace Qemu

structure Ram where
  size : BitVec 64
  mem : Nat → BitVec 8

def getImageSize (text : List Char) : Int := (BitVec.ofNat 32 text.length).toInt

def romReset (data : List (BitVec 8)) (ram : Ram) : Ram :=
  { ram with mem := fun a =>
    if a < data.length ∧ a < ram.size.toNat then data.getD a 0 else ram.mem a }

/-- `load_image_targphys` at address 0; `none` where the board gives up. -/
def loadImage (text : List Char) (ram : Ram) : Option (Ram × Nat) :=
  let size := getImageSize text
  -- The comparison with `max_sz` is one of `uint64_t`.
  if BitVec.ofInt 64 size > ram.size then none
  else if 0 < size then
    let data := romAddFile text
    some (romReset data ram, data.length)
  else some (ram, 0)

end Qemu

/-- The interpreter places `bytes` from address 0 on, writes no other cell and reports their
number, whatever the program memory holds before. -/
def CemuLoads (text : List Char) (bytes : List (BitVec 8)) : Prop :=
  ∀ b : SimpleMemBlock 4, b.mSize.toNat = progMemSize → b.Inside 0 bytes.length ∧
    ∃ b', Evm.loadProgMem text b = .ok bytes.length b' ∧ b.Overwrites b' 0 bytes

/-- The same of the board, with `ramSize` bytes of memory. -/
def QemuLoads (text : List Char) (bytes : List (BitVec 8)) (ramSize : BitVec 64) : Prop :=
  ∀ mem, ∃ mem', Qemu.loadImage text ⟨ramSize, mem⟩ = some (⟨ramSize, mem'⟩, bytes.length) ∧
    (∀ i (h : i < bytes.length), mem' i = bytes.get ⟨i, h⟩) ∧
    ∀ y, bytes.length ≤ y → mem' y = mem y

section Cemu

theorem setMemByte_eq {b : SimpleMemBlock d} (hk : k + 1 < 2 ^ 32) (v : BitVec 8) :
    ∃ b', Evm.setMemByte (v, k) b = .ok () b' ∧
      b.Overwrites b' k ([v].take (b.mSize.toNat - k)) := by
  have haddr : (BitVec.ofNat 32 k).toNat = k := by
    rw [BitVec.toNat_ofNat, Nat.mod_eq_of_lt (by omega)]
  by_cases hlt : k < b.mSize.toNat
  · have hin : (BitVec.ofNat 32 k).toNat + [v].length ≤ b.mSize.toNat := by
      rw [haddr]
      exact hlt
    obtain ⟨b', hset, hover⟩ := setmem_eq hin
    rw [haddr] at hover
    refine ⟨b', (bind_of_ok hset).trans rfl, ?_⟩
    rw [List.take_of_length_le (by simp only [List.length_singleton]; omega)]
    exact hover
  · have hout : b.mSize.toNat < ((BitVec.ofNat 32 k).toNat + 1) % 2 ^ 32 := by
      rw [haddr, Nat.mod_eq_of_lt hk]
      omega
    refine ⟨b, (bind_of_ok ((rejected hout).1 [v] rfl)).trans rfl, ?_⟩
    rw [Nat.sub_eq_zero_of_le (Nat.le_of_not_lt hlt), List.take_zero]
    exact .of_cell rfl rfl k

theorem forM_setMemByte (bytes : List (BitVec 8)) (k : Nat) {b : SimpleMemBlock d}
    (hk : k + bytes.length < 2 ^ 32) :
    ∃ b', (bytes.zipIdx k).forM Evm.setMemByte b = .ok () b' ∧
      b.Overwrites b' k (bytes.take (b.mSize.toNat - k)) := by
  induction bytes generalizing k b with
  | nil => exact ⟨b, rfl, by rw [List.take_nil]; exact .of_cell rfl rfl k⟩
  | cons v bytes ih =>
    rw [List.length_cons] at hk
    obtain ⟨b₁, hset, hover₁⟩ := setMemByte_eq (b := b) (show k + 1 < 2 ^ 32 by omega) v
    obtain ⟨b', hrest, hover⟩ := ih (k + 1) (b := b₁) (by omega)
    refine ⟨b', ?_, ?_⟩
    · rw [List.zipIdx_cons]
      exact (bind_of_ok hset).trans hrest
    · rw [hover₁.size] at hover
      by_cases hlt : k < b.mSize.toNat
      · obtain ⟨m, hm⟩ : ∃ m, b.mSize.toNat - k = m + 1 := ⟨b.mSize.toNat - k - 1, by omega⟩
        rw [show b.mSize.toNat - (k + 1) = m by omega] at hover
        rw [hm, List.take_succ_cons, List.take_nil] at hover₁
        rw [hm, List.take_succ_cons]
        exact hover₁.cons hover
      · rw [show b.mSize.toNat - (k + 1) = 0 by omega, List.take_zero] at hover
        rw [show b.mSize.toNat - k = 0 by omega, List.take_zero] at hover₁ ⊢
        refine .of_cell (hover.size.trans hover₁.size) (funext fun y => ?_) k
        rw [hover.outside y (by simp only [List.length_nil]; omega),
          hover₁.outside y (by simp only [List.length_nil]; omega)]

theorem loadProgMem_eq {b : SimpleMemBlock 4}
    (hlen : (Evm.readHexFile text '\x00' '\x00').length < 2 ^ 32) :
    ∃ b', Evm.loadProgMem text b = .ok ((Evm.readHexFile text '\x00' '\x00').length - 1) b' ∧
      b.Overwrites b' 0 ((Evm.readHexFile text '\x00' '\x00').take b.mSize.toNat) := by
  obtain ⟨b', hrun, hover⟩ := forM_setMemByte (Evm.readHexFile text '\x00' '\x00') 0 (b := b)
    (by rw [Nat.zero_add]; exact hlen)
  exact ⟨b', (bind_of_ok hrun).trans rfl, hover⟩

theorem loadProgMem_loadElf {b : SimpleMemBlock 4} {d : Evm}
    (hlen : (Evm.readHexFile text '\x00' '\x00').length < 2 ^ 32)
    (hsize : b.mSize.toNat = progMemSize)
    (hprog : ∀ x < progMemSize, b.cell x = d.core.prog (BitVec.ofNat 32 x)) :
    ∃ n b', Evm.loadProgMem text b = .ok n b' ∧
      (d.loadElf text).core.elfSize = BitVec.ofNat 32 n ∧
      ∀ x < progMemSize, b'.cell x = (d.loadElf text).core.prog (BitVec.ofNat 32 x) := by
  obtain ⟨b', hload, hover⟩ := loadProgMem_eq (b := b) hlen
  refine ⟨_, b', hload, rfl, ?_⟩
  intro x hx
  have haddr : (BitVec.ofNat 32 x).toNat = x := by
    simp only [progMemSize] at hx
    rw [BitVec.toNat_ofNat, Nat.mod_eq_of_lt (by omega)]
  simp only [Evm.loadElf, haddr]
  by_cases hlt : x < (Evm.readHexFile text '\x00' '\x00').length
  · have htake := hover.inside x (by rw [List.length_take]; omega)
    rw [Nat.zero_add] at htake
    rw [htake, if_pos hlt, List.get_eq_getElem, List.getElem_take, List.getD_eq_getElem _ _ hlt]
  · rw [if_neg hlt, hover.outside x (by rw [List.length_take]; omega)]
    exact hprog x hx

end Cemu

section Text

/-- `n` pairs of hex digits. -/
inductive HexPairs : Nat → List Char → Prop where
  | nil : HexPairs 0 []
  | cons : isxdigit a = true → isxdigit b = true → HexPairs n digits →
      HexPairs (n + 1) (a :: b :: digits)

theorem HexPairs.of_digits (hdigits : ∀ c ∈ digits, isxdigit c = true)
    (hlen : digits.length = 2 * n) : HexPairs n digits := by
  induction n generalizing digits with
  | zero =>
    obtain rfl := List.length_eq_zero_iff.mp hlen
    exact .nil
  | succ n ih =>
    rcases digits with _ | ⟨a, _ | ⟨b, digits⟩⟩
    · cases hlen
    · simp only [List.length_singleton] at hlen
      omega
    · simp only [List.forall_mem_cons] at hdigits
      simp only [List.length_cons] at hlen
      exact .cons hdigits.1 hdigits.2.1 (ih hdigits.2.2 (by omega))

theorem HexPairs.length (h : HexPairs n digits) : digits.length = 2 * n := by
  induction h with
  | nil => rfl
  | cons ha hb h ih =>
    simp only [List.length_cons, ih]
    omega

theorem HexPairs.length_decodeHex (h : HexPairs n digits) : (decodeHex digits).length = n := by
  induction h with
  | nil => rfl
  | cons ha hb h ih => rw [decodeHex, List.length_cons, ih]

theorem romDigit_pair (ha : isxdigit a = true) (hb : isxdigit b = true) :
    (Qemu.romDigit a <<< 4) + Qemu.romDigit b =
      BitVec.ofNat 8 (16 * xdigitValue a + xdigitValue b) := by
  rw [Qemu.romDigit, Qemu.romDigit, if_pos ha, if_pos hb]
  apply BitVec.eq_of_toNat_eq
  simp only [BitVec.toNat_add, BitVec.toNat_shiftLeft, BitVec.toNat_ofNat, Nat.shiftLeft_eq]
  omega

theorem HexPairs.romAddFile (h : HexPairs n digits) (hend : ending = [] ∨ ending = ['\n']) :
    Qemu.romAddFile (digits ++ ending) = decodeHex digits := by
  induction h with
  | nil => rcases hend with rfl | rfl <;> rfl
  | cons ha hb h ih =>
    rw [List.cons_append, List.cons_append, Qemu.romAddFile, decodeHex, romDigit_pair ha hb, ih]

theorem HexPairs.readHexFile (h : HexPairs n digits) (hend : ending = [] ∨ ending = ['\n'])
    (a b : Char) : ∃ v, Evm.readHexFile (digits ++ ending) a b = decodeHex digits ++ [v] := by
  induction h generalizing a b with
  | nil => rcases hend with rfl | rfl <;> exact ⟨_, rfl⟩
  | @cons c c' n digits hc hc' h ih =>
    obtain ⟨v, hv⟩ := ih c c'
    refine ⟨v, ?_⟩
    rw [List.cons_append, List.cons_append, Evm.readHexFile, decodeHex, hv, getHex_pair hc hc',
      romDigit_pair hc hc']
    rfl

end Text

section Board

variable {text : List Char} (hlen : text.length < 2 ^ 31)

include hlen

theorem getImageSize_eq : Qemu.getImageSize text = text.length := by
  have hnat : (BitVec.ofNat 32 text.length).toNat = text.length := by
    rw [BitVec.toNat_ofNat, Nat.mod_eq_of_lt (by omega)]
  rw [Qemu.getImageSize, BitVec.toInt_eq_toNat_of_lt (by rw [hnat]; omega), hnat]

theorem imageSize_gt_iff (max : BitVec 64) :
    BitVec.ofInt 64 (Qemu.getImageSize text) > max ↔ max.toNat < text.length := by
  rw [getImageSize_eq hlen, gt_iff_lt, BitVec.lt_def, BitVec.ofInt_natCast, BitVec.toNat_ofNat,
    Nat.mod_eq_of_lt (by omega)]

theorem loadImage_large (h : ram.size.toNat < text.length) : Qemu.loadImage text ram = none := by
  rw [Qemu.loadImage, if_pos ((imageSize_gt_iff hlen _).mpr h)]

theorem loadImage_fits (hpos : 0 < text.length) (h : text.length ≤ ram.size.toNat) :
    Qemu.loadImage text ram =
      some (Qemu.romReset (Qemu.romAddFile text) ram, (Qemu.romAddFile text).length) := by
  have hfits : ¬ BitVec.ofInt 64 (Qemu.getImageSize text) > ram.size := by
    rw [imageSize_gt_iff hlen]
    omega
  have hsize : 0 < Qemu.getImageSize text := by
    rw [getImageSize_eq hlen]
    omega
  rw [Qemu.loadImage, if_neg hfits, if_pos hsize]

theorem loadImage_reset {ramSize : BitVec 64} (hpos : 0 < text.length)
    (h : text.length ≤ ramSize.toNat) (gas : Word) :
    ∃ n ram, Qemu.loadImage text ⟨ramSize, fun _ => 0⟩ = some (ram, n) ∧
      (Qemu.reset text gas).env.elfSize = BitVec.ofNat 64 n ∧
      ∀ a, a.toNat < ramSize.toNat → ram.mem a.toNat = (Qemu.reset text gas).env.prog a := by
  refine ⟨_, _, loadImage_fits hlen hpos h, rfl, ?_⟩
  intro a ha
  simp only [Qemu.romReset, Qemu.reset]
  by_cases hlt : a.toNat < (Qemu.romAddFile text).length
  · rw [if_pos ⟨hlt, ha⟩]
  · rw [if_neg (by omega), List.getD_eq_default _ _ (Nat.le_of_not_lt hlt)]

end Board

theorem HexPairs.qemuLoads_iff (h : HexPairs n digits) (hend : ending = [] ∨ ending = ['\n'])
    (hpos : 0 < (digits ++ ending).length) (hlen : (digits ++ ending).length < 2 ^ 31)
    (ramSize : BitVec 64) : QemuLoads (digits ++ ending) (decodeHex digits) ramSize ↔
      (digits ++ ending).length ≤ ramSize.toNat := by
  constructor
  · intro hloads
    by_contra hlarge
    obtain ⟨mem', hload, -⟩ := hloads fun _ => 0
    rw [loadImage_large hlen (Nat.lt_of_not_le hlarge)] at hload
    cases hload
  · intro hram mem
    have hload : Qemu.loadImage (digits ++ ending) ⟨ramSize, mem⟩ = _ :=
      loadImage_fits hlen hpos hram
    rw [h.romAddFile hend] at hload
    refine ⟨_, hload, ?_, ?_⟩
    · intro i hi
      have hsmall : (decodeHex digits).length ≤ ramSize.toNat := by
        rw [List.length_append, h.length] at hram
        rw [h.length_decodeHex]
        omega
      rw [if_pos ⟨hi, Nat.lt_of_lt_of_le hi hsmall⟩, List.getD_eq_getElem _ _ hi]
      rfl
    · intro y hy
      rw [if_neg (by omega)]

theorem HexPairs.loadProgMem_extra (h : HexPairs n digits) (hend : ending = [] ∨ ending = ['\n'])
    (hlt : n < progMemSize) : ∃ v, ∀ b : SimpleMemBlock 4, b.mSize.toNat = progMemSize →
      ∃ b', Evm.loadProgMem (digits ++ ending) b = .ok n b' ∧ b'.cell n = v := by
  have hbytes := h.length_decodeHex
  obtain ⟨v, hread⟩ := h.readHexFile hend '\x00' '\x00'
  have hcount : (Evm.readHexFile (digits ++ ending) '\x00' '\x00').length = n + 1 := by
    rw [hread, List.length_append, List.length_singleton, hbytes]
  have hmax : progMemSize = 524288 := rfl
  have hlen : (Evm.readHexFile (digits ++ ending) '\x00' '\x00').length < 2 ^ 32 := by omega
  refine ⟨v, fun b hsize => ?_⟩
  obtain ⟨b', hload, hover⟩ := loadProgMem_eq (b := b) hlen
  rw [hcount, Nat.add_sub_cancel] at hload
  rw [hread, List.take_of_length_le (by
    rw [List.length_append, hbytes]
    change n + 1 ≤ _
    omega)] at hover
  have hcell := hover.inside n (by rw [List.length_append, hbytes]; exact Nat.lt_succ_self n)
  rw [Nat.zero_add, List.get_eq_getElem, List.getElem_append_right (Nat.le_of_eq hbytes)] at hcell
  exact ⟨b', hload, by simpa [hbytes] using hcell⟩

theorem HexPairs.cemuLoads_full (h : HexPairs progMemSize digits)
    (hend : ending = [] ∨ ending = ['\n']) :
    CemuLoads (digits ++ ending) (decodeHex digits) := by
  have hbytes := h.length_decodeHex
  obtain ⟨v, hread⟩ := h.readHexFile hend '\x00' '\x00'
  have hcount : (Evm.readHexFile (digits ++ ending) '\x00' '\x00').length = progMemSize + 1 := by
    rw [hread, List.length_append, List.length_singleton, hbytes]
  have hmax : progMemSize = 524288 := rfl
  have hlen : (Evm.readHexFile (digits ++ ending) '\x00' '\x00').length < 2 ^ 32 := by omega
  intro b hsize
  constructor
  · intro i hi
    change 0 + i < _
    omega
  · obtain ⟨b', hload, hover⟩ := loadProgMem_eq (b := b) hlen
    rw [hcount, Nat.add_sub_cancel, ← hbytes] at hload
    rw [hread, List.take_append_of_le_length (by omega), List.take_of_length_le (by omega)] at hover
    exact ⟨b', hload, hover⟩

/-- The interpreter stores a byte more than the file has, unless the memory ends before it. -/
theorem HexPairs.cemuLoads_iff (h : HexPairs n digits) (hend : ending = [] ∨ ending = ['\n']) :
    CemuLoads (digits ++ ending) (decodeHex digits) ↔ n = progMemSize := by
  have hbytes := h.length_decodeHex
  constructor
  · intro hloads
    have hle : n ≤ progMemSize := by
      by_contra hgt
      have hlast := (hloads (init 524288 fun _ _ => 0) rfl).1 progMemSize (by omega)
      exact absurd hlast (by decide)
    by_contra hne
    obtain ⟨v, hextra⟩ := h.loadProgMem_extra hend (by omega)
    -- A memory whose cells all differ from the byte that is stored.
    obtain ⟨-, b', hload, hover⟩ := hloads (init 524288 fun _ _ => v + 1) rfl
    obtain ⟨b₁, hload₁, hcell⟩ := hextra (init 524288 fun _ _ => v + 1) rfl
    rw [hload₁] at hload
    injection hload with _ hb
    subst hb
    rw [hover.outside n (by omega)] at hcell
    have hsame : v + 1 = v := hcell
    bv_omega
  · rintro rfl
    exact h.cemuLoads_full hend

/-- The loaders agree only on a program that fills the program memory of the interpreter. -/
theorem loaders_agree_iff (hdigits : ∀ c ∈ digits, isxdigit c = true)
    (hlen : digits.length = 2 * n) (hend : ending = [] ∨ ending = ['\n']) (ramSize : BitVec 64) :
    (CemuLoads (digits ++ ending) (decodeHex digits) ∧
      QemuLoads (digits ++ ending) (decodeHex digits) ramSize) ↔
      n = progMemSize ∧ (digits ++ ending).length ≤ ramSize.toNat := by
  have hpairs := HexPairs.of_digits hdigits hlen
  have htext : (digits ++ ending).length < 2 * n + 2 := by
    rw [List.length_append, hlen]
    rcases hend with rfl | rfl <;> simp
  rw [hpairs.cemuLoads_iff hend]
  apply and_congr_right
  intro hn
  have hmax : progMemSize = 524288 := rfl
  have hpos : 0 < (digits ++ ending).length := by
    rw [List.length_append]
    omega
  exact hpairs.qemuLoads_iff hend hpos (by omega) ramSize

/-- A file of zeros that fills the program memory, with a newline at its end. -/
theorem loaders_agree_full :
    CemuLoads (List.replicate (2 * progMemSize) '0' ++ ['\n'])
        (decodeHex (List.replicate (2 * progMemSize) '0')) ∧
      QemuLoads (List.replicate (2 * progMemSize) '0' ++ ['\n'])
        (decodeHex (List.replicate (2 * progMemSize) '0')) 0x8000000 := by
  refine (loaders_agree_iff ?_ List.length_replicate (.inr rfl) 0x8000000).mpr ⟨rfl, ?_⟩
  · intro c hc
    rw [List.eq_of_mem_replicate hc]
    decide
  · rw [List.length_append, List.length_replicate]
    decide

/-- PUSH1 alone: the interpreter leaves a second copy behind it. -/
theorem loaders_agree_short :
    (∃ b', Evm.loadProgMem "60".toList (init 524288 fun _ _ => 0) = .ok 1 b' ∧ b'.cell 1 = 0x60) ∧
      ¬ (CemuLoads "60".toList (decodeHex "60".toList) ∧
        QemuLoads "60".toList (decodeHex "60".toList) 0x8000000) := by
  constructor
  · have hlen : (Evm.readHexFile "60".toList '\x00' '\x00').length < 2 ^ 32 := by decide
    obtain ⟨b', hload, hover⟩ := loadProgMem_eq (b := init 524288 fun _ _ => 0) hlen
    exact ⟨b', hload, hover.inside 1 (by decide)⟩
  · rintro ⟨hcemu, -⟩
    have hpairs : HexPairs 1 "60".toList := .cons (by decide) (by decide) .nil
    have hone := (hpairs.cemuLoads_iff (.inl rfl)).mp hcemu
    revert hone
    decide

end GvmCore
