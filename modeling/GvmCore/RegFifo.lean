import GvmCore.Exec
import GvmCore.RingBuffer
import Mathlib.Algebra.Ring.Int.Defs

namespace GvmCore
open Exec RingBuffer
set_option autoImplicit true

/-- What one clock cycle does with a queue before the registers are updated. -/
inductive Cycle (α : Type) where
  | idle
  | read
  | write (v : α)
  | readWrite (v : α)
  | writeRead (v : α)

namespace Queue

variable [Zero α]

/-- A full queue drops what is written. -/
def push (n : Nat) (q : List α) (v : α) : List α := if q.length = n then q else q ++ [v]

/-- A bounded queue in one cycle: what its read returns and the queue after it. A read finds
what was there when the cycle began; without anything it returns zero. -/
def cycle (n : Nat) : Cycle α → List α → Option α × List α
  | .idle, q => (none, q)
  | .read, q => (some (q.headD 0), q.tail)
  | .write v, q => (none, push n q v)
  | .readWrite v, q => (some (q.headD 0), push n q.tail v)
  | .writeRead v, q => (some (q.headD 0), if q = [] then push n q v else (push n q v).tail)

def run (n : Nat) : List (Cycle α) → List α → List (Option α) × List α
  | [], q => ([], q)
  | c :: cs, q =>
    let (out, q) := cycle n c q
    let (outs, q) := run n cs q
    (out :: outs, q)

def added (n : Nat) (q : List α) (v : α) : List α := if q.length = n then [] else [v]

def accepts (n : Nat) : Cycle α → List α → List α
  | .write v, q => added n q v
  | .readWrite v, q => added n q.tail v
  | .writeRead v, q => added n q v
  | _, _ => []

/-- The values that were not dropped, in the order of the writes. -/
def accepted (n : Nat) : List (Cycle α) → List α → List α
  | [], _ => []
  | c :: cs, q => accepts n c q ++ accepted n cs (cycle n c q).2

/-- The results of the reads in cycles that did not start empty. -/
def returned (n : Nat) : List (Cycle α) → List α → List α
  | [], _ => []
  | c :: cs, q => (if q = [] then [] else (cycle n c q).1.toList) ++ returned n cs (cycle n c q).2

omit [Zero α] in
theorem push_eq (n : Nat) (q : List α) (v : α) :
    push n q v = q ++ added n q v := by
  unfold push added
  split
  · rw [List.append_nil]
  · rfl

theorem cycle_conserves (n : Nat) (c : Cycle α) (q : List α) : q ++ accepts n c q =
    (if q = [] then [] else (cycle n c q).1.toList) ++ (cycle n c q).2 := by
  cases q with
  | nil => cases c <;> simp [accepts, cycle, push_eq]
  | cons x q => cases c <;> simp [accepts, cycle, push_eq]

/-- Nothing is lost and nothing is returned twice: what was accepted has been returned, in order, or
is still in the queue. -/
theorem run_conserves (n : Nat) (cs : List (Cycle α)) (q : List α) :
    q ++ accepted n cs q = returned n cs q ++ (run n cs q).2 := by
  induction cs generalizing q with
  | nil => simp [accepted, returned, run]
  | cons c cs ih =>
    have hcycle := cycle_conserves n c q
    have hrun := ih (cycle n c q).2
    simp only [accepted, returned, run]
    rw [← List.append_assoc, hcycle, List.append_assoc, hrun, List.append_assoc]

end Queue

/-- `tPdReg`: what is assigned can be read after the next `update`. -/
structure TPdReg (β : Type) where
  mRead : β
  mWrite : β

def TPdReg.assign (r : TPdReg β) (v : β) : TPdReg β := { r with mWrite := v }

def TPdReg.update (r : TPdReg β) : TPdReg β := { r with mRead := r.mWrite }

/-- `tRegFifo`. A read counter of -1 marks an empty queue. -/
structure TRegFifo (α : Type) (vSize : Nat) where
  cells : Fin vSize → α
  mReadCnt : TPdReg Int
  mWriteCnt : TPdReg Int

inductive CellFault where
  | mk

abbrev FifoM (α : Type) (n : Nat) := Exec CellFault (TRegFifo α n)

namespace TRegFifo

def reset (f : TRegFifo α n) : TRegFifo α n :=
  { f with mReadCnt := f.mReadCnt.assign (-1), mWriteCnt := f.mWriteCnt.assign 0 }

def update (f : TRegFifo α n) : TRegFifo α n :=
  { f with mReadCnt := f.mReadCnt.update, mWriteCnt := f.mWriteCnt.update }

def cellGet (i : Int) : FifoM α n α := fun f =>
  if h : 0 ≤ i ∧ i < n then .ok (f.cells ⟨i.toNat, by omega⟩) f else .fault .mk

def cellSet (i : Int) (v : α) : FifoM α n Unit := fun f =>
  if h : 0 ≤ i ∧ i < n then
    .ok () { f with cells := Function.update f.cells ⟨i.toNat, by omega⟩ v }
  else .fault .mk

def assignRead (v : Int) : FifoM α n Unit :=
  Exec.update fun f => { f with mReadCnt := f.mReadCnt.assign v }

def assignWrite (v : Int) : FifoM α n Unit :=
  Exec.update fun f => { f with mWriteCnt := f.mWriteCnt.assign v }

def next : FifoM α n Unit := do
  let nextRead ← read fun f => (f.mReadCnt.mRead + 1).tmod n
  assignRead nextRead
  let write ← read fun f => f.mWriteCnt.mWrite
  if nextRead ≠ write then pure () else assignRead (-1)

def get [Zero α] : FifoM α n α := do
  let cnt ← read fun f => f.mReadCnt.mRead
  if cnt = -1 then return 0
  else do
    let res ← cellGet cnt
    next
    return res

def put (v : α) : FifoM α n Unit := do
  let pending ← read fun f => f.mReadCnt.mWrite
  let cnt ← read fun f => f.mWriteCnt.mRead
  if pending = cnt then pure ()
  else do
    cellSet cnt v
    if pending = -1 then assignRead cnt
    assignWrite ((cnt + 1).tmod n)

def getCurSize (f : TRegFifo α n) : Int :=
  if f.mReadCnt.mWrite = -1 then 0
  else
    let size := f.mWriteCnt.mWrite - f.mReadCnt.mWrite
    if size ≤ 0 then size + n else size

def operate [Zero α] : Cycle α → FifoM α n (Option α)
  | .idle => pure none
  | .read => some <$> get
  | .write v => do
    put v
    return none
  | .readWrite v => do
    let x ← get
    put v
    return some x
  | .writeRead v => do
    put v
    some <$> get

def clock [Zero α] (c : Cycle α) : FifoM α n (Option α) := do
  let out ← operate c
  Exec.update TRegFifo.update
  return out

def counter : Option (Fin n) → Int
  | none => -1
  | some r => r

/-- The pending counters and the cells hold `q`. -/
structure Views (f : TRegFifo α n) (ro : Option (Fin n)) (w : Fin n) (q : List α) : Prop where
  readCnt : f.mReadCnt.mWrite = counter ro
  writeCnt : f.mWriteCnt.mWrite = w
  holds : Holds f.cells ro w q

/-- Between cycles nothing is pending. -/
structure Settled (f : TRegFifo α n) (ro : Option (Fin n)) (w : Fin n) (q : List α) : Prop extends
    Views f ro w q where
  readCnt_mRead : f.mReadCnt.mRead = counter ro
  writeCnt_mRead : f.mWriteCnt.mRead = w

theorem counter_inj {r s : Option (Fin n)} : counter r = counter s ↔ r = s := by
  cases r with
  | none =>
    cases s with
    | none => simp
    | some s =>
      simp only [counter, reduceCtorEq]
  | some r =>
    cases s with
    | none =>
      simp only [counter, reduceCtorEq]
    | some s =>
      simp only [counter, Option.some.injEq, Fin.ext_iff]
      omega

theorem counter_some_ne (r : Fin n) : counter (some r) ≠ -1 := by
  simp only [counter]
  omega

theorem tmod_succ (r : Fin n) : ((r : Int) + 1).tmod n = (RingBuffer.next r : Nat) := by
  have h : ((r : Int) + 1) = ((r + 1 : Nat) : Int) := by omega
  rw [h]
  rfl

theorem Views.getCurSize {f : TRegFifo α n} (h : Views f ro w q) : f.getCurSize = q.length := by
  unfold TRegFifo.getCurSize
  rw [h.readCnt, h.writeCnt]
  cases h.holds with
  | empty w => rfl
  | items r hne hlen hcells =>
    have hpos := List.length_pos_iff.mpr hne
    have hr := r.isLt
    rw [if_neg (counter_some_ne r)]
    simp only [counter, val_around r hlen]
    split <;> split <;> omega

theorem get_of_empty [Zero α] {f : TRegFifo α n} (h : f.mReadCnt.mRead = -1) : get f = .ok 0 f := by
  rw [get, bind_of_ok (read_apply _ _), if_pos h]
  rfl

theorem cellGet_val (f : TRegFifo α n) (r : Fin n) : cellGet (r : Nat) f = .ok (f.cells r) f := by
  rw [cellGet, dif_pos (by omega)]
  rfl

theorem cellSet_val (f : TRegFifo α n) (r : Fin n) (v : α) :
    cellSet (r : Nat) v f = .ok () { f with cells := Function.update f.cells r v } := by
  rw [cellSet, dif_pos (by omega)]
  rfl

theorem next_eq {f : TRegFifo α n} {r w : Fin n} (hr : f.mReadCnt.mRead = counter (some r))
    (hw : f.mWriteCnt.mWrite = w) : next f = .ok () { f with
      mReadCnt := f.mReadCnt.assign
        (counter (if RingBuffer.next r = w then none else some (RingBuffer.next r))) } := by
  rw [next, bind_of_ok (read_apply _ _), hr, counter, tmod_succ]
  simp only [assignRead, bind_def, update_apply, read_apply, hw]
  by_cases h : RingBuffer.next r = w
  · simp [h, counter, update_apply, TPdReg.assign]
  · have hne : ((RingBuffer.next r : Nat) : Int) ≠ (w : Nat) := by
      intro he
      exact h (Fin.ext (by omega))
    simp [h, hne, counter, pure_apply]

theorem get_eq [Zero α] {f : TRegFifo α n} {r w : Fin n} (hr : f.mReadCnt.mRead = counter (some r))
    (hw : f.mWriteCnt.mWrite = w) (h : Holds f.cells (some r) w (x :: q)) : get f = .ok x { f with
      mReadCnt := f.mReadCnt.assign
        (counter (if RingBuffer.next r = w then none else some (RingBuffer.next r))) } := by
  have hcell := cellGet_val f r
  rw [h.head] at hcell
  rw [get, bind_of_ok (read_apply _ _), hr, if_neg (counter_some_ne r)]
  rw [counter, bind_of_ok hcell, bind_of_ok (next_eq hr hw)]
  rfl

theorem put_eq {f : TRegFifo α n} {w : Fin n} (hr : f.mReadCnt.mWrite = counter ro)
    (hw : f.mWriteCnt.mRead = w) (hfull : ro ≠ some w) (v : α) : put v f = .ok () { f with
      cells := Function.update f.cells w v
      mReadCnt := f.mReadCnt.assign (counter (some (ro.getD w)))
      mWriteCnt := f.mWriteCnt.assign (RingBuffer.next w : Nat) } := by
  have hne : counter ro ≠ (w : Nat) := fun he => hfull (counter_inj.mp (he.trans rfl))
  rw [put, bind_of_ok (read_apply _ _), bind_of_ok (read_apply _ _), hr, hw, if_neg hne,
    bind_of_ok (cellSet_val f w v), tmod_succ]
  cases ro with
  | none => simp [counter, assignRead, assignWrite, bind_def, update_apply]
  | some r =>
    rw [if_neg (counter_some_ne r)]
    simp only [assignWrite, update_apply, Option.getD_some, ← hr]
    rfl

theorem put_of_full {f : TRegFifo α n} {w : Fin n} (hr : f.mReadCnt.mWrite = counter (some w))
    (hw : f.mWriteCnt.mRead = w) (v : α) : put v f = .ok () f := by
  rw [put, bind_of_ok (read_apply _ _), bind_of_ok (read_apply _ _), hr, hw,
    if_pos (show counter (some w) = (w : Nat) from rfl)]
  rfl

/-- A write adds the value unless the queue is full; the counters that are read stay. -/
theorem Views.put {f : TRegFifo α n} (h : Views f ro w q) (hw : f.mWriteCnt.mRead = w) (v : α) :
    ∃ f' ro' w', TRegFifo.put v f = .ok () f' ∧ Views f' ro' w' (Queue.push n q v) ∧
      f'.mReadCnt.mRead = f.mReadCnt.mRead ∧ (ro ≠ none → ro' = ro) := by
  by_cases hfull : q.length = n
  · have hro := h.holds.full_iff.mpr hfull
    refine ⟨f, ro, w, put_of_full (h.readCnt.trans (congrArg counter hro)) hw v, ?_, rfl,
      fun _ => rfl⟩
    rw [Queue.push, if_pos hfull]
    exact h
  · have hro : ro ≠ some w := fun he => hfull (h.holds.full_iff.mp he)
    refine ⟨_, some (ro.getD w), RingBuffer.next w, put_eq h.readCnt hw hro v,
      ⟨rfl, rfl, ?_⟩, rfl, ?_⟩
    · rw [Queue.push, if_neg hfull]
      exact h.holds.concat hfull v
    · intro hsome
      obtain ⟨r, rfl⟩ := Option.ne_none_iff_exists'.mp hsome
      rfl

/-- A read takes the first item, if the counter it reads has been one of an item. -/
theorem Views.get [Zero α] {f : TRegFifo α n} (h : Views f ro w q) (hne : q ≠ [])
    (hr : f.mReadCnt.mRead = counter ro) :
    ∃ f' ro', TRegFifo.get f = .ok (q.headD 0) f' ∧ Views f' ro' w q.tail ∧
      f'.mWriteCnt = f.mWriteCnt := by
  obtain ⟨x, q, rfl⟩ := List.exists_cons_of_ne_nil hne
  have hro : ro ≠ none := fun he => hne (h.holds.isNone_iff.mp he)
  obtain ⟨r, rfl⟩ := Option.ne_none_iff_exists'.mp hro
  exact ⟨_, _, get_eq hr h.writeCnt h.holds, ⟨rfl, h.writeCnt, h.holds.tail⟩, rfl⟩

theorem Views.update {f : TRegFifo α n} (h : Views f ro w q) : Settled f.update ro w q where
  readCnt := h.readCnt
  writeCnt := h.writeCnt
  holds := h.holds
  readCnt_mRead := h.readCnt
  writeCnt_mRead := h.writeCnt

theorem Settled.get [Zero α] {f : TRegFifo α n} (h : Settled f ro w q) :
    ∃ f' ro', TRegFifo.get f = .ok (q.headD 0) f' ∧ Views f' ro' w q.tail ∧
      f'.mWriteCnt = f.mWriteCnt := by
  by_cases hq : q = []
  · have hro := h.holds.isNone_iff.mpr hq
    have hempty : f.mReadCnt.mRead = -1 := h.readCnt_mRead.trans (congrArg counter hro)
    subst hq
    exact ⟨f, ro, get_of_empty hempty, h.toViews, rfl⟩
  · exact h.toViews.get hq h.readCnt_mRead

theorem Settled.operate [Zero α] {f : TRegFifo α n} (h : Settled f ro w q) (c : Cycle α) :
    ∃ f' ro' w', TRegFifo.operate c f = .ok (Queue.cycle n c q).1 f' ∧
      Views f' ro' w' (Queue.cycle n c q).2 := by
  cases c with
  | idle => exact ⟨f, ro, w, rfl, h.toViews⟩
  | read =>
    obtain ⟨f', ro', hget, hv, -⟩ := h.get
    exact ⟨f', ro', w, by rw [TRegFifo.operate, map_eq_pure_bind, bind_of_ok hget]; rfl, hv⟩
  | write v =>
    obtain ⟨f', ro', w', hput, hv, -⟩ := h.toViews.put h.writeCnt_mRead v
    exact ⟨f', ro', w', by rw [TRegFifo.operate, bind_of_ok hput]; rfl, hv⟩
  | readWrite v =>
    obtain ⟨f₁, ro₁, hget, hv₁, hcnt⟩ := h.get
    obtain ⟨f', ro', w', hput, hv, -⟩ := hv₁.put (by rw [hcnt, h.writeCnt_mRead]) v
    exact ⟨f', ro', w', by rw [TRegFifo.operate, bind_of_ok hget, bind_of_ok hput]; rfl, hv⟩
  | writeRead v =>
    obtain ⟨f₁, ro₁, w₁, hput, hv₁, hread, hro⟩ := h.toViews.put h.writeCnt_mRead v
    have hrun : TRegFifo.operate (.writeRead v) f = (some <$> TRegFifo.get) f₁ := by
      rw [TRegFifo.operate, bind_of_ok hput]
    by_cases hq : q = []
    · -- the counter that is read still says that the queue is empty
      have hnone := h.holds.isNone_iff.mpr hq
      have hempty : f₁.mReadCnt.mRead = -1 := by
        rw [hread, h.readCnt_mRead, hnone]
        rfl
      refine ⟨f₁, ro₁, w₁, ?_, ?_⟩
      · rw [hrun, map_eq_pure_bind, bind_of_ok (get_of_empty hempty), hq]
        rfl
      · simp only [Queue.cycle, if_pos hq]
        exact hv₁
    · have hsome : ro ≠ none := fun he => hq (h.holds.isNone_iff.mp he)
      have hne : Queue.push n q v ≠ [] := by
        rw [Queue.push_eq]
        simp [hq]
      have hhead : (Queue.push n q v).headD 0 = q.headD 0 := by
        obtain ⟨x, q, rfl⟩ := List.exists_cons_of_ne_nil hq
        rw [Queue.push_eq]
        rfl
      obtain ⟨f', ro', hget, hv, -⟩ := hv₁.get hne (by rw [hread, h.readCnt_mRead, hro hsome])
      refine ⟨f', ro', w₁, ?_, ?_⟩
      · rw [hrun, map_eq_pure_bind, bind_of_ok hget, hhead]
        rfl
      · simp only [Queue.cycle, if_neg hq]
        exact hv

theorem Settled.clock [Zero α] {f : TRegFifo α n} (h : Settled f ro w q) (c : Cycle α) :
    ∃ f' ro' w', TRegFifo.clock c f = .ok (Queue.cycle n c q).1 f' ∧
      Settled f' ro' w' (Queue.cycle n c q).2 := by
  obtain ⟨f', ro', w', hop, hv⟩ := h.operate c
  refine ⟨f'.update, ro', w', ?_, hv.update⟩
  rw [TRegFifo.clock, bind_of_ok hop]
  rfl

theorem Settled.run [Zero α] {f : TRegFifo α n} (h : Settled f ro w q) (cs : List (Cycle α)) :
    ∃ f' ro' w', cs.mapM TRegFifo.clock f = .ok (Queue.run n cs q).1 f' ∧
      Settled f' ro' w' (Queue.run n cs q).2 := by
  induction cs generalizing f ro w q with
  | nil => exact ⟨f, ro, w, rfl, h⟩
  | cons c cs ih =>
    obtain ⟨f₁, ro₁, w₁, hclock, h₁⟩ := h.clock c
    obtain ⟨f', ro', w', hrun, h'⟩ := ih h₁
    refine ⟨f', ro', w', ?_, h'⟩
    rw [List.mapM_cons, bind_of_ok hclock, bind_of_ok hrun]
    rfl

theorem settled_reset (f : TRegFifo α n) (hn : 0 < n) : Settled f.reset.update none ⟨0, hn⟩ [] where
  readCnt := rfl
  writeCnt := rfl
  holds := .empty _
  readCnt_mRead := rfl
  writeCnt_mRead := rfl

/-- The register FIFO is a bounded queue: after any cycles it has returned what the queue
returns, in the order of the writes that were not dropped, and its size is the queue's, within a
cycle too. -/
theorem refines_queue [Zero α] (hn : 0 < n) (f : TRegFifo α n) (cs : List (Cycle α)) :
    Queue.accepted n cs [] = Queue.returned n cs [] ++ (Queue.run n cs []).2 ∧
    ∃ f', cs.mapM clock f.reset.update = .ok (Queue.run n cs []).1 f' ∧
      f'.getCurSize = (Queue.run n cs []).2.length ∧
      ∀ c, ∃ f'', operate c f' = .ok (Queue.cycle n c (Queue.run n cs []).2).1 f'' ∧
        f''.getCurSize = (Queue.cycle n c (Queue.run n cs []).2).2.length := by
  refine ⟨Queue.run_conserves n cs [], ?_⟩
  obtain ⟨f', ro', w', hrun, h'⟩ := (settled_reset f hn).run cs
  refine ⟨f', hrun, h'.getCurSize, ?_⟩
  intro c
  obtain ⟨f'', ro'', w'', hop, hv⟩ := h'.operate c
  exact ⟨f'', hop, hv.getCurSize⟩

def zeroFifo : TRegFifo Int 2 := ⟨fun _ => 0, ⟨0, 0⟩, ⟨0, 0⟩⟩

theorem refines_queue_two : ∃ f' : TRegFifo Int 2,
    [Cycle.write 5, .writeRead 6, .write 7, .readWrite 8].mapM clock zeroFifo.reset.update =
      .ok [none, some 5, none, some 6] f' ∧ f'.getCurSize = 2 := by
  obtain ⟨-, f', hrun, hsize, -⟩ := refines_queue (by decide) zeroFifo
    [Cycle.write 5, .writeRead 6, .write 7, .readWrite 8]
  exact ⟨f', hrun, hsize⟩

end TRegFifo

end GvmCore
