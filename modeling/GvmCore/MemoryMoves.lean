import GvmCore.Moves

namespace GvmCore
open Exec Signed
set_option autoImplicit true

namespace Core

/-- Eight cells from `a` on as one word, the first one lowest. -/
def loadWord (s : Core w c) (a : Nat) : Word :=
  (List.range 8).foldl (fun d i => d ||| (s.cell (a + i)).setWidth 64 <<< (8 * i)) 0

def loadReg (s : Core w c) (a : Nat) : Reg := fun k => s.loadWord (a + 8 * (3 - k))

def storeWord (s : Core w c) (a : Nat) (v : Word) : Core w c :=
  (List.range 8).foldl (fun s i => s.setCell (a + i) (((byteAt v i).setWidth 8).setWidth c)) s

def storeReg (s : Core w c) (a : Nat) (r : Reg) : Core w c :=
  (((s.storeWord a (r 3)).storeWord (a + 8) (r 2)).storeWord (a + 16) (r 1)).storeWord
    (a + 24) (r 0)

/-- `mem_size` after an access that ends at `a`. -/
def grown (s : Core w c) (a : Word) : Core w c :=
  if a > s.memSize.setWidth 64 then { s with memSize := a.setWidth w } else s

end Core

theorem toNat_add_of_lt (hw : 32 ≤ w) (h : a.toNat + i < 2 ^ 32) :
    (a + BitVec.ofNat w i).toNat = a.toNat + i := by
  have hp : 2 ^ 32 ≤ 2 ^ w := Nat.pow_le_pow_right (by decide) hw
  rw [BitVec.toNat_add, BitVec.toNat_ofNat, Nat.add_mod_mod, Nat.mod_eq_of_lt (by omega)]

theorem cells_inside_iff (hw : 32 ≤ w) (a : BitVec w) (h0 : 0 < n) :
    (∀ i < n, (a + BitVec.ofNat w i).toNat < 1024) ↔ a.toNat + n ≤ 1024 := by
  constructor
  · intro h
    have hstep : ∀ i < n, a.toNat + i < 1024 := by
      intro i hi
      induction i with
      | zero => simpa using h 0 hi
      | succ i ih =>
        have hlt := h (i + 1) hi
        have hprev := ih (by omega)
        rwa [toNat_add_of_lt hw (by omega)] at hlt
    have := hstep (n - 1) (by omega)
    omega
  · intro h i hi
    rw [toNat_add_of_lt hw (by omega)]
    omega

theorem forall_lt_succ_add {P : Nat → Prop} :
    (∀ i < n + 1, P (k + i)) ↔ P k ∧ ∀ i < n, P (k + 1 + i) := by
  constructor
  · intro h
    refine ⟨h 0 (by omega), fun i hi => ?_⟩
    have hsucc := h (i + 1) (by omega)
    rwa [Nat.add_right_comm, Nat.add_assoc]
  · rintro ⟨h0, h⟩ i hi
    cases i with
    | zero => exact h0
    | succ i =>
      have hsucc := h i (by omega)
      rwa [Nat.add_right_comm, Nat.add_assoc] at hsucc

theorem loadLoop_eq_ok (addr : BitVec 32) {s t : Core w c} {d : Word} :
    ((List.range' k n).foldlM (fun (dataVal, addr) i => do
      let dataTmp ← busGet addr.toNat
      return (dataVal ||| dataTmp.setWidth 64 <<< (8 * i), addr + 1) :
      Word × BitVec 32 → Nat → M w c (Word × BitVec 32)) (d, addr + BitVec.ofNat 32 k)) s =
        .ok r t ↔
      (∀ i < n, (addr + BitVec.ofNat 32 (k + i)).toNat < 1024) ∧
      ((List.range' k n).foldl (fun d i => d |||
        (s.cell (addr + BitVec.ofNat 32 i).toNat).setWidth 64 <<< (8 * i)) d,
        addr + BitVec.ofNat 32 (k + n)) = r ∧ s = t := by
  induction n generalizing k d with
  | zero => simp
  | succ n ih =>
    have hnext : addr + BitVec.ofNat 32 k + 1 = addr + BitVec.ofNat 32 (k + 1) := by
      rw [BitVec.ofNat_add, BitVec.add_assoc]
      rfl
    have hlast : k + (n + 1) = k + 1 + n := by omega
    rw [List.range'_succ, List.foldlM_cons, List.foldl_cons, hlast,
      forall_lt_succ_add (P := fun i => (addr + BitVec.ofNat 32 i).toNat < 1024)]
    simp only [bind_eq_ok, busGet_eq_ok, pure_apply, Outcome.ok.injEq]
    constructor
    · rintro ⟨_, _, ⟨_, _, ⟨h0, rfl, rfl⟩, rfl, rfl⟩, h⟩
      rw [hnext, ih] at h
      exact ⟨⟨h0, h.1⟩, h.2⟩
    · rintro ⟨⟨h0, hin⟩, hrest⟩
      refine ⟨_, _, ⟨_, _, ⟨h0, rfl, rfl⟩, rfl, rfl⟩, ?_⟩
      rw [hnext, ih]
      exact ⟨hin, hrest⟩

theorem loadBlock_eq_ok {s t : Core w c} {addr : BitVec 32} :
    loadBlock addr s = .ok r t ↔ addr.toNat + 8 ≤ 1024 ∧
      (s.loadWord addr.toNat, addr + 8) = r ∧ s = t := by
  have hloop := loadLoop_eq_ok addr (s := s) (t := t) (k := 0) (n := 8) (d := 0) (r := r)
  simp only [BitVec.ofNat_eq_ofNat, BitVec.add_zero, Nat.zero_add, ← List.range_eq_range',
    cells_inside_iff (w := 32) le_rfl addr (show 0 < 8 by decide)] at hloop
  refine hloop.trans (and_congr_right fun hin => ?_)
  have hcells : (List.range 8).foldl (fun d i => d |||
      (s.cell (addr + BitVec.ofNat 32 i).toNat).setWidth 64 <<< (8 * i)) 0 =
      s.loadWord addr.toNat := by
    refine List.foldl_ext _ _ _ fun d i hi => ?_
    have hi' := List.mem_range.mp hi
    rw [toNat_add_of_lt le_rfl (by omega)]
  rw [← hcells]
  rfl

theorem returnsOr_loadBlock (addr : BitVec 32) :
    ReturnsOr Fault.Indexing (loadBlock addr : M w c _) :=
  .foldlM (fun _ _ => .bind (returnsOr_busGet _) fun _ => .pure _) _ _

theorem putReg_setSp_eq_ok {s t : Core w c} :
    (do
      stackPutReg (z + 1) r
      setSp (BitVec.ofInt w (z + 4)) : M w c Unit) s = .ok u t ↔
      InStack (z + 1) ∧ InStack (z + 4) ∧ s.pushed z r = t := by
  simp only [bind_eq_ok, stackPutReg_eq_ok, setSp_ofInt_eq_ok, show z + 1 + 3 = z + 4 by omega]
  constructor
  · rintro ⟨_, _, ⟨h0, h3, rfl⟩, rfl⟩
    exact ⟨h0, h3, rfl⟩
  · rintro ⟨h0, h3, rfl⟩
    exact ⟨(), _, ⟨h0, h3, rfl⟩, rfl⟩

theorem mloadInst_eq_ok (E : Engine w c) {s t : Core w c} (h : SpAt s z) {addr : BitVec 32} :
    mloadInst addr s = .ok u t ↔ addr.toNat + 32 ≤ 1024 ∧ InStack (z + 1) ∧ InStack (z + 4) ∧
      s.pushed z (s.loadReg addr.toNat) = t := by
  have hl := h.lower
  have hu := h.upper
  have hblock : ∀ (a : BitVec 32), a.toNat + 8 ≤ 1024 →
      loadBlock a s = .ok (s.loadWord a.toNat, a + 8) s :=
    fun a ha => loadBlock_eq_ok.mpr ⟨ha, rfl, rfl⟩
  have htail : ∀ r : Reg, (do
      let sp ← read Core.sp
      stackSet (spIndex sp 1) (r 0)
      stackSet (spIndex sp 2) (r 1)
      stackSet (spIndex sp 3) (r 2)
      stackSet (spIndex sp 4) (r 3)
      setSp (sp + 4) : M w c Unit) s = (do
        stackPutReg (z + 1) r
        setSp (BitVec.ofInt w (z + 4)) : M w c Unit) s := by
    intro r
    have h4 : s.sp + 4 = BitVec.ofInt w (z + 4) := by
      rw [h.sp]
      exact ofInt_add_ofNat z 4
    rw [bind_of_ok (read_apply _ _), h4]
    simp only [h.sp, stackSet_spIndex E.spBits (z := z) (k := 1) (by omega) (by omega),
      stackSet_spIndex E.spBits (z := z) (k := 2) (by omega) (by omega),
      stackSet_spIndex E.spBits (z := z) (k := 3) (by omega) (by omega),
      stackSet_spIndex E.spBits (z := z) (k := 4) (by omega) (by omega), stackPutReg, bind_assoc,
      add_assoc, Int.reduceAdd]
  have h8 := fun (a : BitVec 32) (ha : a.toNat + 8 ≤ 1024) =>
    toNat_add_of_lt (w := 32) (a := a) (i := 8) le_rfl (by omega)
  unfold mloadInst
  constructor
  · intro hok
    obtain ⟨_, _, h3, hok⟩ := bind_eq_ok.mp hok
    obtain ⟨i3, rfl, rfl⟩ := loadBlock_eq_ok.mp h3
    obtain ⟨_, _, h2, hok⟩ := bind_eq_ok.mp hok
    obtain ⟨i2, rfl, rfl⟩ := loadBlock_eq_ok.mp h2
    obtain ⟨_, _, h1, hok⟩ := bind_eq_ok.mp hok
    obtain ⟨i1, rfl, rfl⟩ := loadBlock_eq_ok.mp h1
    obtain ⟨_, _, h0, hok⟩ := bind_eq_ok.mp hok
    obtain ⟨i0, rfl, rfl⟩ := loadBlock_eq_ok.mp h0
    have e8 : (addr + 8).toNat = addr.toNat + 8 := h8 addr i3
    have e16 : (addr + 8 + 8).toNat = addr.toNat + 16 := (h8 _ i2).trans (by rw [e8])
    have e24 : (addr + 8 + 8 + 8).toNat = addr.toNat + 24 := (h8 _ i1).trans (by rw [e16])
    rw [e24] at i0
    dsimp only at hok
    rw [e8, e16, e24] at hok
    exact ⟨by omega, putReg_setSp_eq_ok.mp ((htail (s.loadReg addr.toNat)).symm.trans hok)⟩
  · rintro ⟨hin, hok⟩
    have e8 : (addr + 8).toNat = addr.toNat + 8 := h8 addr (by omega)
    have e16 : (addr + 8 + 8).toNat = addr.toNat + 16 := (h8 _ (by omega)).trans (by rw [e8])
    have e24 : (addr + 8 + 8 + 8).toNat = addr.toNat + 24 := (h8 _ (by omega)).trans (by rw [e16])
    rw [bind_of_ok (hblock addr (by omega))]
    dsimp only
    rw [bind_of_ok (hblock _ (by omega))]
    dsimp only
    rw [bind_of_ok (hblock _ (by omega))]
    dsimp only
    rw [bind_of_ok (hblock _ (by omega))]
    dsimp only
    rw [e8, e16, e24]
    exact (htail (s.loadReg addr.toNat)).trans (putReg_setSp_eq_ok.mpr hok)

theorem returnsOr_mloadInst (addr : BitVec 32) :
    ReturnsOr Fault.Indexing (mloadInst addr : M w c Unit) :=
  .bind (returnsOr_loadBlock _) fun _ => .bind (returnsOr_loadBlock _) fun _ =>
    .bind (returnsOr_loadBlock _) fun _ => .bind (returnsOr_loadBlock _) fun _ =>
    .bind (.read _) fun _ => .bind (returnsOr_stackSet _ _) fun _ =>
    .bind (returnsOr_stackSet _ _) fun _ => .bind (returnsOr_stackSet _ _) fun _ =>
    .bind (returnsOr_stackSet _ _) fun _ => returnsOr_setSp _

theorem cellLoop_eq_ok (addr : Word) {s t : Core w c} {f : Nat → BitVec c} :
    ((List.range' k n).foldlM (fun addr i => do
      busSet addr.toNat (f i)
      return addr + 1 : Word → Nat → M w c Word) (addr + BitVec.ofNat 64 k)) s = .ok r t ↔
      (∀ i < n, (addr + BitVec.ofNat 64 (k + i)).toNat < 1024) ∧
      addr + BitVec.ofNat 64 (k + n) = r ∧
      (List.range' k n).foldl
        (fun s i => s.setCell (addr + BitVec.ofNat 64 i).toNat (f i)) s = t := by
  induction n generalizing k s with
  | zero => simp
  | succ n ih =>
    have hnext : addr + BitVec.ofNat 64 k + 1 = addr + BitVec.ofNat 64 (k + 1) := by
      rw [BitVec.ofNat_add, BitVec.add_assoc]
      rfl
    have hlast : k + (n + 1) = k + 1 + n := by omega
    rw [List.range'_succ, List.foldlM_cons, List.foldl_cons, hlast,
      forall_lt_succ_add (P := fun i => (addr + BitVec.ofNat 64 i).toNat < 1024)]
    simp only [bind_eq_ok, busSet_eq_ok, pure_apply, Outcome.ok.injEq]
    constructor
    · rintro ⟨_, _, ⟨_, _, ⟨h0, rfl⟩, rfl, rfl⟩, h⟩
      rw [hnext, ih] at h
      exact ⟨⟨h0, h.1⟩, h.2⟩
    · rintro ⟨⟨h0, hin⟩, hrest⟩
      refine ⟨_, _, ⟨(), _, ⟨h0, rfl⟩, rfl, rfl⟩, ?_⟩
      rw [hnext, ih]
      exact ⟨hin, hrest⟩

theorem storeBlock_eq_ok {s t : Core w c} {addr : Word} :
    storeBlock addr v s = .ok r t ↔ addr.toNat + 8 ≤ 1024 ∧ addr + 8 = r ∧
      s.storeWord addr.toNat v = t := by
  have hloop := cellLoop_eq_ok addr (s := s) (t := t) (k := 0) (n := 8) (r := r)
    (f := fun i => ((byteAt v i).setWidth 8).setWidth c)
  simp only [BitVec.ofNat_eq_ofNat, BitVec.add_zero, Nat.zero_add, ← List.range_eq_range',
    cells_inside_iff (w := 64) (by decide) addr (show 0 < 8 by decide)] at hloop
  refine hloop.trans (and_congr_right fun hin => ?_)
  have hcells : (List.range 8).foldl (fun s i => s.setCell (addr + BitVec.ofNat 64 i).toNat
      (((byteAt v i).setWidth 8).setWidth c)) s = s.storeWord addr.toNat v := by
    refine List.foldl_ext _ _ _ fun s i hi => ?_
    have hi' := List.mem_range.mp hi
    rw [toNat_add_of_lt (by decide) (by omega)]
  rw [← hcells]
  rfl

theorem returnsOr_storeBlock (addr v : Word) :
    ReturnsOr Fault.Indexing (storeBlock addr v : M w c Word) :=
  .foldlM (fun _ _ => .bind (returnsOr_busSet _ _) fun _ => .pure _) _ _

theorem storeBlocks_eq_ok {s t : Core w c} {addr : Word} (r : Reg) :
    (do
      let addrVal ← storeBlock addr (r 3)
      let addrVal ← storeBlock addrVal (r 2)
      let addrVal ← storeBlock addrVal (r 1)
      let addrVal ← storeBlock addrVal (r 0)
      growMemory addrVal : M w c Unit) s = .ok u t ↔
      addr.toNat + 32 ≤ 1024 ∧ (s.storeReg addr.toNat r).grown (addr + 32) = t := by
  have h8 := fun (a : Word) (ha : a.toNat + 8 ≤ 1024) =>
    toNat_add_of_lt (w := 64) (a := a) (i := 8) (by decide) (by omega)
  have hend : addr + 8 + 8 + 8 + 8 = addr + 32 := by
    simp only [BitVec.add_assoc]
    rfl
  simp only [bind_eq_ok, storeBlock_eq_ok, growMemory, update_apply, Outcome.ok.injEq]
  constructor
  · rintro ⟨_, _, ⟨i3, rfl, rfl⟩, _, _, ⟨i2, rfl, rfl⟩, _, _, ⟨i1, rfl, rfl⟩, _, _,
      ⟨i0, rfl, rfl⟩, -, rfl⟩
    have e8 : (addr + 8).toNat = addr.toNat + 8 := h8 addr i3
    have e16 : (addr + 8 + 8).toNat = addr.toNat + 16 := (h8 _ i2).trans (by rw [e8])
    have e24 : (addr + 8 + 8 + 8).toNat = addr.toNat + 24 := (h8 _ i1).trans (by rw [e16])
    rw [e24] at i0
    rw [e24, e16, e8, hend]
    exact ⟨by omega, rfl⟩
  · rintro ⟨hin, rfl⟩
    have e8 : (addr + 8).toNat = addr.toNat + 8 := h8 addr (by omega)
    have e16 : (addr + 8 + 8).toNat = addr.toNat + 16 := (h8 _ (by omega)).trans (by rw [e8])
    have e24 : (addr + 8 + 8 + 8).toNat = addr.toNat + 24 := (h8 _ (by omega)).trans (by rw [e16])
    refine ⟨_, _, ⟨by omega, rfl, rfl⟩, _, _, ⟨by omega, rfl, rfl⟩, _, _,
      ⟨by omega, rfl, rfl⟩, _, _, ⟨by omega, rfl, rfl⟩, trivial, ?_⟩
    rw [e24, e16, e8, hend]
    rfl

theorem mStoreInst_eq_ok (E : Engine w c) {s t : Core w c} (h : SpAt s z) {addr : Word} :
    mStoreInst addr s = .ok u t ↔ InStack (z - 3) ∧ InStack z ∧ addr.toNat + 32 ≤ 1024 ∧
      ((s.withSp (z - 4)).storeReg addr.toNat (s.reg (z - 3))).grown (addr + 32) = t := by
  have hl := h.lower
  have hu := h.upper
  have hget : ∀ k : Nat, k < 4 → (stackGet (spIndex s.sp (-(k : Nat))) : M w c Word) =
      stackGet (z - 3 + (3 - k : Nat)) := by
    intro k hk
    rw [h.sp, stackGet_spIndex E.spBits (by omega) (by omega)]
    congr 1
    omega
  have h0 := hget 0 (by omega)
  have h1 := hget 1 (by omega)
  have h2 := hget 2 (by omega)
  have h3 := hget 3 (by omega)
  simp only [Nat.cast_zero, neg_zero, Nat.cast_one, Nat.cast_ofNat, Nat.sub_zero, Nat.reduceSub,
    add_zero] at h0 h1 h2 h3
  have hset : (setSp (s.sp - 4) : M w c Unit) s = .ok () (s.withSp (z - 4)) :=
    congrArg (Outcome.ok ()) h.sub_four
  unfold mStoreInst
  rw [bind_of_ok (read_apply _ _), h0, h1, h2, h3,
    stackReg_bind (z - 3) (fun d0 d1 d2 d3 => do
      setSp (s.sp - 4)
      let addrVal ← storeBlock addr d3
      let addrVal ← storeBlock addrVal d2
      let addrVal ← storeBlock addrVal d1
      let addrVal ← storeBlock addrVal d0
      growMemory addrVal), bind_eq_ok]
  simp only [stackReg_eq_ok, show z - 3 + 3 = z by omega]
  constructor
  · rintro ⟨_, _, ⟨i0, i3, rfl, rfl⟩, hok⟩
    rw [bind_of_ok hset] at hok
    exact ⟨i0, i3, (storeBlocks_eq_ok (s.reg (z - 3))).mp hok⟩
  · rintro ⟨i0, i3, hok⟩
    refine ⟨_, _, ⟨i0, i3, rfl, rfl⟩, ?_⟩
    rw [bind_of_ok hset]
    exact (storeBlocks_eq_ok (s.reg (z - 3))).mpr hok

theorem returnsOr_mStoreInst (addr : Word) :
    ReturnsOr Fault.Indexing (mStoreInst addr : M w c Unit) :=
  .bind (.read _) fun _ => .bind (returnsOr_stackGet _) fun _ =>
  .bind (returnsOr_stackGet _) fun _ =>
    .bind (returnsOr_stackGet _) fun _ => .bind (returnsOr_stackGet _) fun _ =>
    .bind (returnsOr_setSp _) fun _ => .bind (returnsOr_storeBlock _ _) fun _ =>
    .bind (returnsOr_storeBlock _ _) fun _ => .bind (returnsOr_storeBlock _ _) fun _ =>
    .bind (returnsOr_storeBlock _ _) fun _ => .update _

theorem mStore8Inst_eq_ok (E : Engine w c) {s t : Core w c} (h : SpAt s z) {addr : Word} :
    mStore8Inst addr s = .ok u t ↔ InStack (z - 3) ∧ addr.toNat < 1024 ∧
      (((s.withSp (z - 4)).setCell addr.toNat
        (((byteAt (s.word (z - 3)) 7).setWidth 8).setWidth c)).grown addr) = t := by
  have hl := h.lower
  have hu := h.upper
  have hget : (stackGet (spIndex s.sp (-3)) : M w c Word) = stackGet (z - 3) := by
    rw [h.sp, stackGet_spIndex E.spBits (by omega) (by omega), Int.sub_eq_add_neg]
  have hset : (setSp (s.sp - 4) : M w c Unit) s = .ok () (s.withSp (z - 4)) :=
    congrArg (Outcome.ok ()) h.sub_four
  unfold mStore8Inst
  rw [bind_of_ok (read_apply _ _), hget, bind_eq_ok]
  simp only [stackGet_eq_ok]
  constructor
  · rintro ⟨_, _, ⟨i3, rfl, rfl⟩, hok⟩
    rw [bind_of_ok hset, bind_eq_ok] at hok
    obtain ⟨_, _, hb, hok⟩ := hok
    obtain ⟨ha, rfl⟩ := busSet_eq_ok.mp hb
    cases hok
    exact ⟨i3, ha, rfl⟩
  · rintro ⟨i3, ha, rfl⟩
    refine ⟨_, _, ⟨i3, rfl, rfl⟩, ?_⟩
    rw [bind_of_ok hset, bind_of_ok (busSet_eq_ok (u := ()).mpr ⟨ha, rfl⟩)]
    rfl

theorem returnsOr_mStore8Inst (addr : Word) :
    ReturnsOr Fault.Indexing (mStore8Inst addr : M w c Unit) :=
  .bind (.read _) fun _ => .bind (returnsOr_stackGet _) fun _ => .bind (returnsOr_setSp _) fun _ =>
    .bind (returnsOr_busSet _ _) fun _ => .update _

end GvmCore
