import GvmCore.MemoryMoves

namespace GvmCore
open Exec Signed
set_option autoImplicit true

theorem mapM_busGet_eq_ok {s t : Core w c} {f : Nat → Nat} {l : List Nat} :
    l.mapM (fun i => (busGet (f i) : M w c (BitVec c))) s = .ok r t ↔
      (∀ i ∈ l, f i < 1024) ∧ l.map (fun i => s.cell (f i)) = r ∧ s = t := by
  induction l generalizing r s t with
  | nil => simp
  | cons i l ih =>
    simp only [List.mapM_cons, bind_eq_ok, busGet_eq_ok, ih, pure_apply, Outcome.ok.injEq]
    constructor
    · rintro ⟨_, _, ⟨hi, rfl, rfl⟩, _, _, ⟨hl, rfl, rfl⟩, rfl, rfl⟩
      exact ⟨List.forall_mem_cons.mpr ⟨hi, hl⟩, rfl, rfl⟩
    · rintro ⟨hl, rfl, rfl⟩
      obtain ⟨hi, hl⟩ := List.forall_mem_cons.mp hl
      exact ⟨_, _, ⟨hi, rfl, rfl⟩, _, _, ⟨hl, rfl, rfl⟩, rfl, rfl⟩

def Core.bytes (s : Core w c) (offs size : Nat) : List (BitVec 8) :=
  (List.range size).map fun i => (s.cell (offs + i)).setWidth 8

def hashReg (E : Engine w c) (s : Core w c) (offs size : Nat) : Reg := fun i =>
  keccakBlocks (E.keccak (s.bytes offs size)) i.rev

theorem keccakAlg_eq_ok (E : Engine w c) {s t : Core w c} (h : SpAt s z) :
    keccakAlg E offs size s = .ok u t ↔ (∀ i < size, offs + i < 1024) ∧ size ≤ 255 ∧
      InStack (z + 1) ∧ InStack (z + 4) ∧ s.pushed z (hashReg E s offs size) = t := by
  have hcells : ((List.range size).map fun i => s.cell (offs + i)).map (·.setWidth 8) =
      s.bytes offs size := by
    rw [List.map_map]
    rfl
  unfold keccakAlg
  rw [bind_of_ok (read_apply _ _), h.spInt32 E, bind_eq_ok]
  simp only [mapM_busGet_eq_ok, List.mem_range]
  constructor
  · rintro ⟨_, _, ⟨hin, rfl, rfl⟩, hok⟩
    rw [hcells] at hok
    split at hok
    · cases hok
    · exact ⟨hin, by omega, putReg_setSp_eq_ok.mp hok⟩
  · rintro ⟨hin, hsize, hok⟩
    refine ⟨_, _, ⟨hin, rfl, rfl⟩, ?_⟩
    rw [hcells, if_neg (by omega)]
    exact putReg_setSp_eq_ok.mpr hok

theorem returnsOr_keccakAlg (E : Engine w c) (offs size : Nat) :
    ReturnsOr (fun f => f.Indexing ∨ f = .keccakBuffer ∧ 255 < size) (keccakAlg E offs size) := by
  refine .bind (.read _) fun _ => .bind (.mapM (fun _ => (returnsOr_busGet _).mono fun _ => .inl) _)
    fun _ => ?_
  split
  · rename_i hsize
    exact .fault (.inr ⟨rfl, hsize⟩)
  · exact .bind ((returnsOr_stackPutReg _ _).mono fun _ => .inl) fun _ => .update _

theorem SpAt.withSp {s : Core w c} (hl : -2 ^ 31 ≤ z) (hu : z < 2 ^ 31) : SpAt (s.withSp z) z :=
  ⟨rfl, hl, hu⟩

/-- The value SLOAD finds for a key; a key that is not there leaves `data_tmp` as it was. -/
def storageValue (E : Engine w c) (s : Core w c) (offs : BitVec 32) : Reg :=
  (s.mainStorage.load offs).getD (E.uninit s)

theorem loadFromStorage_eq_ok (E : Engine w c) {s t : Core w c} (h : SpAt s z) :
    loadFromStorage E offs s = .ok u t ↔ InStack (z + 1) ∧ InStack (z + 4) ∧
      s.pushed z (fun j => swapBytes (storageValue E s offs j.rev)) = t := by
  unfold loadFromStorage
  rw [bind_of_ok (read_apply _ _), bind_of_ok (read_apply _ _), h.spInt32 E]
  exact putReg_setSp_eq_ok

theorem returnsOr_loadFromStorage (E : Engine w c) (offs : BitVec 32) :
    ReturnsOr Fault.Indexing (loadFromStorage E offs) :=
  .bind (.read _) fun _ => .bind (.read _) fun _ => .bind (returnsOr_stackPutReg _ _) fun _ =>
    returnsOr_setSp _

def Core.saved (s : Core w c) (z : Int) (offs : BitVec 32) : Core w c :=
  { s.withSp (z - 4) with
    mainStorage := s.mainStorage.save offs fun j => swapBytes (s.reg (z - 3) j.rev) }

theorem saveToStorage_eq_ok (E : Engine w c) {s t : Core w c} (h : SpAt s z) :
    saveToStorage offs s = .ok u t ↔ InStack (z - 3) ∧ InStack z ∧ s.saved z offs = t := by
  unfold saveToStorage
  rw [bind_of_ok (read_apply _ _), h.spInt32 E]
  simp only [bind_eq_ok, stackReg_eq_ok, setSp_ofInt_eq_ok, update_apply, Outcome.ok.injEq,
    show z - 3 + 3 = z by omega]
  constructor
  · rintro ⟨_, _, ⟨i0, i3, rfl, rfl⟩, _, _, rfl, -, rfl⟩
    exact ⟨i0, i3, rfl⟩
  · rintro ⟨i0, i3, rfl⟩
    exact ⟨_, _, ⟨i0, i3, rfl, rfl⟩, (), _, rfl, trivial, rfl⟩

theorem returnsOr_saveToStorage (offs : BitVec 32) :
    ReturnsOr Fault.Indexing (saveToStorage offs : M w c Unit) :=
  .bind (.read _) fun _ => .bind (returnsOr_stackReg _) fun _ => .bind (returnsOr_setSp _) fun _ =>
    .update _

end GvmCore
