import GvmCore.Qemu
import GvmCore.Insn

namespace GvmCore
set_option autoImplicit true

def argEntries (ocode : BitVec 8) : Option Nat :=
  match getInstNum ocode with
  | 11 => some 12
  | 12 => some 12
  | 13 => some 11
  | _ => none

/-- A byte is listed unless its pattern looks it up in an argument list without such an entry. -/
def Listed (ocode : BitVec 8) : Prop := ∀ n ∈ argEntries ocode, (ocode &&& 0xf).toNat < n

instance (ocode : BitVec 8) : Decidable (Listed ocode) :=
  match h : argEntries ocode with
  | none => .isTrue fun n hn => by rw [h] at hn; cases hn
  | some n => decidable_of_iff ((ocode &&& 0xf).toNat < n) (by simp [Listed, h])

example : ∀ ocode, ¬ Listed ocode ↔
    ocode ∈ [0x0c, 0x0d, 0x0e, 0x0f, 0x1b, 0x1c, 0x1d, 0x1e, 0x1f,
      0x5c, 0x5d, 0x5e, 0x5f] := by decide +kernel

theorem operand_lt (ocode : BitVec 8) : (ocode &&& 0xf).toNat < 16 := by
  rw [BitVec.toNat_and]
  exact Nat.lt_of_le_of_lt Nat.and_le_right (by decide)

namespace Engine

variable {E : Engine w c}

theorem resolve_eq_decode (s : Core w c) {ocode : BitVec 8}
    (h : ∀ site (s : Core w c), ∀ n ∈ argEntries ocode,
      E.argValue n site (ocode &&& 0xf).toNat s = BitVec.ofNat 64 (ocode &&& 0xf).toNat) :
    E.resolve s ocode = Insn.decode ocode := by
  have hop := operand_lt ocode
  have h32 : ((BitVec.ofNat 64 (ocode &&& 0xf).toNat).setWidth 32).toNat =
      (ocode &&& 0xf).toNat := by
    rw [BitVec.toNat_setWidth, BitVec.toNat_ofNat]
    omega
  unfold argEntries at h
  unfold resolve Insn.decode takesAddr
  generalize getInstNum ocode = n at h ⊢
  generalize (ocode &&& 0xf).toNat = opcode at hop h h32 ⊢
  match n with
  | 11 =>
    have h12 : ∀ site s, E.argValue 12 site opcode s = BitVec.ofNat 64 opcode :=
      fun site s => h site s 12 rfl
    have h0 : BitVec.ofNat 64 opcode ≠ 0 ↔ opcode ≠ 0 := by
      rw [ne_eq, BitVec.toNat_eq, BitVec.toNat_ofNat, Nat.mod_eq_of_lt (by omega)]
      rfl
    have h8 : BitVec.ofNat 64 opcode < 8 ↔ opcode < 8 := by
      rw [BitVec.lt_def, BitVec.toNat_ofNat, Nat.mod_eq_of_lt (by omega)]
      rfl
    simp only [h12, h32, h0, h8]
  | 12 => simp only [h _ _ 12 rfl, h32]
  | 13 => simp only [h _ _ 11 rfl, h32]
  | 0 | 1 | 2 | 3 | 4 | 5 | 6 | 7 | 8 | 9 | 10 => rfl
  | n + 14 => rfl

theorem resolve_eq_returnInst (s : Core w c) (ocode : BitVec 8) :
    E.resolve s ocode = .returnInst ↔ Insn.decode ocode = .returnInst := by
  unfold resolve Insn.decode
  generalize getInstNum ocode = n
  match n with
  | 11 | 12 | 13 => simp
  | 0 | 1 | 2 | 3 | 4 | 5 | 6 | 7 | 8 | 9 | 10 => rfl
  | n + 14 => rfl

end Engine

theorem cemuWith_resolve (heapCells : Option Nat) (W : World 32 8) (s : Core 32 8)
    (ocode : BitVec 8) : (cemuWith heapCells W).resolve s ocode = Insn.decode ocode := by
  refine Engine.resolve_eq_decode s fun site s n _ => ?_
  unfold Engine.argValue
  split <;> rfl

theorem resolve_of_listed (E : Engine w c) (s : Core w c) (h : Listed ocode) :
    E.resolve s ocode = Insn.decode ocode :=
  Engine.resolve_eq_decode s fun _ _ n hn => if_pos (h n hn)

theorem mainDecode_of_listed (E : Engine w c) (s : Core w c) {I : Insn} (h : Listed ocode)
    (hd : Insn.decode ocode = I) : mainDecode E ocode s = I.exec E s := by
  rw [mainDecode_eq, resolve_of_listed E s h, hd]

theorem decode_eq_returnInst : ∀ ocode, Insn.decode ocode = .returnInst ↔ ocode = 0xf3 := by
  decide +kernel

theorem decode_eq_stop : ∀ ocode, Insn.decode ocode = .arithm 0 ↔ ocode = 0 := by
  decide +kernel

end GvmCore
