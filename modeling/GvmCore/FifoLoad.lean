import GvmCore.RegFifo

namespace GvmCore
open Exec RingBuffer
set_option autoImplicit true

namespace TRegFifo

def getData : FifoM α n (List α × Int) := do
  let size ← read getCurSize
  let dval ← (List.range size.toNat).mapM fun i => do
    let cnt ← read fun f => f.mReadCnt.mRead
    cellGet ((cnt + (i : Nat)).tmod n)
  return (dval, size)

/-- `SetData`: the block replaces whatever the cells held. -/
def setData (dval : List α) : FifoM α n Int :=
  if dval.length > n then return 0
  else do
    assignRead 0
    assignWrite dval.length
    dval.zipIdx.forM fun e => cellSet (e.2 : Nat) e.1
    Exec.update TRegFifo.update
    return 1

structure ValidCounters (f : TRegFifo α n) : Prop where
  write : 0 ≤ f.mWriteCnt.mRead ∧ f.mWriteCnt.mRead < n
  read : f.mReadCnt.mRead = -1 ∨ 0 ≤ f.mReadCnt.mRead ∧ f.mReadCnt.mRead < n

/-- The same accesses give the same results on both, and sizes that agree. -/
def SameQueue [Zero α] (f g : TRegFifo α n) : Prop := ∀ cs : List (Cycle α), ∃ outs f' g',
  cs.mapM clock f = .ok outs f' ∧ cs.mapM clock g = .ok outs g' ∧ f'.getCurSize = g'.getCurSize

/-- After `SetData` and `update` the FIFO holds the block as if it had been written to it. -/
def LoadsBlock [Zero α] (f : TRegFifo α n) (dval : List α) : Prop := ∃ f',
  setData dval f = .ok 1 f' ∧ getData f'.update = .ok (dval, dval.length) f'.update ∧
  ValidCounters f'.update ∧ (f'.update.mReadCnt.mRead = -1 ↔ dval = []) ∧
  ∀ g : TRegFifo α n, ∃ outs g', (dval.map Cycle.write).mapM clock g.reset.update = .ok outs g' ∧
    SameQueue f'.update g'

theorem getData_size {f : TRegFifo α n} (h : getData f = .ok (dval, size) f') :
    size = f.getCurSize := by
  rw [getData, bind_of_ok (read_apply _ _), bind_eq_ok] at h
  obtain ⟨_, _, -, hpure⟩ := h
  cases hpure
  rfl

theorem Settled.mapM_cellGet {f : TRegFifo α n} (h : Settled f ro w q) (s : Nat)
    (hs : s + k ≤ q.length) :
    ((List.range' s k).mapM fun i => do
      let cnt ← read fun f : TRegFifo α n => f.mReadCnt.mRead
      cellGet ((cnt + (i : Nat)).tmod n)) f = .ok ((q.drop s).take k) f := by
  induction k generalizing s with
  | zero => rfl
  | succ k ih =>
    have hlt : s < q.length := by omega
    have hcell : (do
        let cnt ← read fun f : TRegFifo α n => f.mReadCnt.mRead
        cellGet ((cnt + (s : Nat)).tmod n)) f = .ok (q.get ⟨s, hlt⟩) f := by
      rw [bind_of_ok (read_apply _ _), h.readCnt_mRead]
      cases h.holds with
      | empty w => exact absurd hlt (Nat.not_lt_zero s)
      | items r hne hlen hcells =>
        rw [← hcells s hlt]
        exact cellGet_val f (around r s)
    rw [List.range'_succ, List.mapM_cons, bind_of_ok hcell, bind_of_ok (ih (s + 1) (by omega)),
      List.drop_eq_getElem_cons hlt]
    rfl

theorem Settled.getData {f : TRegFifo α n} (h : Settled f ro w q) :
    TRegFifo.getData f = .ok (q, q.length) f := by
  have hcells := h.mapM_cellGet 0 (k := q.length) (by omega)
  rw [List.drop_zero, List.take_length] at hcells
  rw [TRegFifo.getData, bind_of_ok (read_apply _ _), h.getCurSize, Int.toNat_natCast,
    List.range_eq_range', bind_of_ok hcells]
  rfl

theorem forM_cellSet (l : List α) (k : Nat) (f : TRegFifo α n) (hk : k + l.length ≤ n) :
    ∃ cells,
      (l.zipIdx k).forM (fun e => cellSet (e.2 : Nat) e.1) f = .ok () { f with cells := cells } ∧
      (∀ i (h : i < l.length), cells ⟨k + i, by omega⟩ = l.get ⟨i, h⟩) ∧
      ∀ i : Fin n, (i : Nat) < k → cells i = f.cells i := by
  induction l generalizing k f with
  | nil => exact ⟨f.cells, rfl, nofun, fun _ _ => rfl⟩
  | cons v l ih =>
    rw [List.length_cons] at hk
    have hset := cellSet_val f ⟨k, by omega⟩ v
    obtain ⟨cells, hrun, hitems, hbefore⟩ := ih (k + 1)
      { f with cells := Function.update f.cells ⟨k, by omega⟩ v } (by omega)
    refine ⟨cells, ?_, ?_, ?_⟩
    · rw [List.zipIdx_cons]
      exact (bind_of_ok hset).trans hrun
    · intro i hi
      cases i with
      | zero =>
        rw [hbefore ⟨k + 0, by omega⟩ (Nat.lt_succ_self k)]
        exact Function.update_self _ _ _
      | succ i =>
        have hitem := hitems i (Nat.lt_of_succ_lt_succ hi)
        rw [List.get_cons_succ, ← hitem]
        congr 2
        omega
    · intro i hi
      rw [hbefore i (by omega)]
      apply Function.update_of_ne
      rintro rfl
      exact Nat.lt_irrefl k hi

theorem setData_eq {dval : List α} (f : TRegFifo α n) (hlen : dval.length ≤ n) :
    ∃ cells, setData dval f = .ok 1 ⟨cells, ⟨0, 0⟩, ⟨dval.length, dval.length⟩⟩ ∧
      ∀ i (h : i < dval.length), cells ⟨i, by omega⟩ = dval.get ⟨i, h⟩ := by
  obtain ⟨cells, hrun, hitems, -⟩ := forM_cellSet dval 0
    { f with
      mReadCnt := f.mReadCnt.assign 0, mWriteCnt := f.mWriteCnt.assign dval.length } (by omega)
  refine ⟨cells, ?_, ?_⟩
  · rw [setData, if_neg (by omega)]
    have hcounters : (assignRead 0 >>= fun _ => assignWrite dval.length) f = .ok () { f with
        mReadCnt := f.mReadCnt.assign 0, mWriteCnt := f.mWriteCnt.assign dval.length } := rfl
    rw [← bind_assoc, bind_of_ok hcounters, bind_of_ok hrun]
    rfl
  · intro i hi
    rw [← hitems i hi]
    congr 2
    omega

theorem settled_setData {cells : Fin n → α} (hpos : 0 < dval.length) (hlt : dval.length < n)
    (hcells : ∀ i (h : i < dval.length), cells ⟨i, by omega⟩ = dval.get ⟨i, h⟩) :
    Settled ⟨cells, ⟨0, 0⟩, ⟨dval.length, dval.length⟩⟩ (some ⟨0, by omega⟩)
    ⟨dval.length, hlt⟩ dval := by
  have haround : ∀ i, (hi : i < n) → around ⟨0, by omega⟩ i = (⟨i, hi⟩ : Fin n) := by
    intro i hi
    apply Fin.ext
    simp only [around, Nat.zero_add]
    exact Nat.mod_eq_of_lt hi
  have hholds : Holds cells (some ⟨0, by omega⟩) (around ⟨0, by omega⟩ dval.length) dval := by
    refine .items _ (List.length_pos_iff.mp hpos) hlt.le ?_
    intro i hi
    rw [haround i (by omega)]
    exact hcells i hi
  rw [haround _ hlt] at hholds
  exact ⟨⟨rfl, rfl, hholds⟩, rfl, rfl⟩

end TRegFifo

theorem Queue.run_writes [Zero α] (l q : List α) (h : q.length + l.length ≤ n) :
    (Queue.run n (l.map Cycle.write) q).2 = q ++ l := by
  induction l generalizing q with
  | nil => simp [Queue.run]
  | cons v l ih =>
    rw [List.length_cons] at h
    have hpush : Queue.push n q v = q ++ [v] := if_neg (by omega)
    have hrest := ih (q ++ [v]) (by simp only [List.length_append, List.length_singleton]; omega)
    simp only [List.map_cons, Queue.run, Queue.cycle, hpush, hrest, List.append_assoc,
      List.singleton_append]

namespace TRegFifo

theorem Settled.sameQueue [Zero α] {f g : TRegFifo α n} (hf : Settled f ro w q)
    (hg : Settled g ro' w' q) : SameQueue f g := by
  intro cs
  obtain ⟨f', _, _, hrun, hf'⟩ := hf.run cs
  obtain ⟨g', _, _, hrun', hg'⟩ := hg.run cs
  exact ⟨_, f', g', hrun, hrun', hf'.getCurSize.trans hg'.getCurSize.symm⟩

/-- `SetData` loads a block exactly when it is not empty and leaves a cell free: the counters it
sets for an empty block are those of a full FIFO, and for a full one the write counter is
outside. -/
theorem bulk_load_iff [Zero α] (hn : 0 < n) (f : TRegFifo α n) {dval : List α}
    (hlen : dval.length ≤ n) : LoadsBlock f dval ↔ 0 < dval.length ∧ dval.length < n := by
  obtain ⟨cells, hset, hcells⟩ := setData_eq f hlen
  constructor
  · rintro ⟨f', hset', hdata, hvalid, -, -⟩
    rw [hset] at hset'
    cases hset'
    constructor
    · by_contra hpos
      have hzero : dval.length = 0 := by omega
      have hsize := getData_size hdata
      simp [getCurSize, TRegFifo.update, TPdReg.update, hzero] at hsize
      omega
    · have hwrite := hvalid.write.2
      simp only [TRegFifo.update, TPdReg.update] at hwrite
      omega
  · rintro ⟨hpos, hlt⟩
    have hs := settled_setData hpos hlt hcells
    refine ⟨_, hset, hs.toViews.update.getData, ⟨?_, .inr ?_⟩, ?_, ?_⟩
    · exact ⟨Int.natCast_nonneg _, Int.ofNat_lt.mpr hlt⟩
    · exact ⟨le_rfl, Int.ofNat_lt.mpr hn⟩
    · exact iff_of_false (show (0 : Int) ≠ -1 by decide) (List.length_pos_iff.mp hpos)
    · intro g
      obtain ⟨g', _, _, hrun, hg⟩ := (settled_reset g hn).run (dval.map Cycle.write)
      rw [Queue.run_writes dval [] (by simpa using hlen), List.nil_append] at hg
      exact ⟨_, g', hrun, hs.toViews.update.sameQueue hg⟩

theorem bulk_load_two : ∃ f : TRegFifo Int 3, LoadsBlock f [5, 6] :=
  ⟨⟨fun _ => 0, ⟨0, 0⟩, ⟨0, 0⟩⟩,
    (bulk_load_iff (by decide) _ (by decide)).mpr ⟨by decide, by decide⟩⟩

/-- After an empty block the FIFO reports two elements. -/
theorem bulk_load_empty : ¬ LoadsBlock zeroFifo [] ∧
    ∃ f', setData [] zeroFifo = .ok 1 f' ∧ f'.update.getCurSize = 2 := by
  refine ⟨?_, _, rfl, by decide⟩
  rintro ⟨f', hset, hdata, -⟩
  have hf : setData [] zeroFifo = .ok 1 ((setData [] zeroFifo).get zeroFifo) := rfl
  rw [hf] at hset
  cases hset
  exact absurd (getData_size hdata) (by decide)

end TRegFifo

end GvmCore
