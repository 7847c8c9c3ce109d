import GvmCore.Exec
import GvmCore.LinkedList

namespace GvmCore
open Exec Linked
set_option autoImplicit true

inductive PointType where
  | standard | singleExec | onNext | watchpoint
  deriving DecidableEq

/-- The data of a `tBPoint`; the pointer to the next one is in its heap cell. -/
structure BPoint where
  addr : BitVec 32
  mType : PointType
  deriving DecidableEq

/-- The break points of a device: the heap, with the number of its nodes, and the two ends. -/
structure BreakPoints where
  heap : Heap BPoint Nat
  nodes : Nat
  fbp : Option Nat
  lbp : Option Nat
  isNoBreakPoints : Bool

inductive PointFault where
  /-- A pointer to no node is followed. -/
  | dangling
  /-- A loop has met more nodes than there are. -/
  | endless
  deriving DecidableEq

abbrev BpM := Exec PointFault BreakPoints

/-- The condition for which `CheckBreakPoints` stops. -/
def BPoint.Stops (pc : BitVec 32) (bp : BPoint) : Prop :=
  bp.addr = pc ∧ bp.mType ≠ .watchpoint ∨ bp.mType = .onNext

instance : Decidable (BPoint.Stops pc bp) := inferInstanceAs (Decidable (_ ∨ _))

def BPoint.OneShot (bp : BPoint) : Prop := bp.mType = .singleExec ∨ bp.mType = .onNext

instance : Decidable (BPoint.OneShot bp) := inferInstanceAs (Decidable (_ ∨ _))

/-- The condition for which `ClearBreakPoint` removes; the address is compared with -1 too. -/
def BPoint.Clears (addr : BitVec 32) (bp : BPoint) : Prop := bp.addr = addr ∨ bp.addr = -1

instance : Decidable (BPoint.Clears addr bp) := inferInstanceAs (Decidable (_ ∨ _))

namespace BreakPoints

def load (p : Nat) : BpM (Cell BPoint Nat) := do
  match ← read fun s => s.heap p with
  | some cell => return cell
  | none => fault .dangling

def store (p : Nat) (cell : Option (Cell BPoint Nat)) : BpM Unit :=
  update fun s => { s with heap := Function.update s.heap p cell }

def setNext (p : Nat) (next : Option Nat) : BpM Unit := do
  let cell ← load p
  store p (some { cell with next := next })

def setBreakPoint (bp : Nat) (addr : BitVec 32) (aType : PointType) : BpM Nat := do
  store bp (some ⟨⟨addr, aType⟩, none⟩)
  update fun s => { s with nodes := s.nodes + 1 }
  match ← read fbp with
  | none => update fun s => { s with fbp := some bp, lbp := some bp }
  | some _ =>
    match ← read lbp with
    | none => fault .dangling
    | some last => do
      setNext last (some bp)
      update fun s => { s with lbp := some bp }
  return 1

def unlink (prev : Option Nat) (bp : Nat) (next : Option Nat) : BpM Unit := do
  match prev with
  | none => update fun s => { s with fbp := next }
  | some prev => setNext prev next
  if next = none then update fun s => { s with lbp := prev }
  store bp none
  update fun s => { s with nodes := s.nodes - 1 }

def clearLoop (addr : BitVec 32) : Nat → Option Nat → Option Nat → BpM Nat
  | _, _, none => return 0
  | 0, _, some _ => fault .endless
  | fuel + 1, prev, some bp => do
    let cell ← load bp
    if cell.value.Clears addr then do
      unlink prev bp cell.next
      return 1
    else clearLoop addr fuel (some bp) cell.next

def clearBreakPoint (addr : BitVec 32) : BpM Nat := do
  clearLoop addr (← read nodes) none (← read fbp)

def checkLoop (pc : BitVec 32) : Nat → Option Nat → BpM Bool
  | _, none => do return !(← read isNoBreakPoints)
  | 0, some _ => fault .endless
  | fuel + 1, some bp => do
    let cell ← load bp
    if cell.value.Stops pc then do
      if cell.value.OneShot then do
        let _ ← clearBreakPoint cell.value.addr
      update fun s => { s with isNoBreakPoints := false }
      return true
    else checkLoop pc fuel cell.next

def checkBreakPoints (pc : BitVec 32) : BpM Bool := do
  checkLoop pc (← read nodes) (← read fbp)

/-- The break points in their order, each with its node. -/
structure Points (s : BreakPoints) (l : List (Nat × BPoint)) : Prop where
  holds : Holds s.heap s.fbp s.lbp l
  nodes : s.nodes = l.length

theorem load_eq {s : BreakPoints} (h : s.heap p = some cell) : load p s = .ok cell s := by
  rw [load, bind_of_ok (read_apply _ _), h]
  rfl

theorem setNext_eq {s : BreakPoints} (h : s.heap p = some ⟨v, next'⟩) (next : Option Nat) :
    setNext p next s =
      .ok () { s with heap := Function.update s.heap p (some ⟨v, next⟩) } := by
  rw [setNext, bind_of_ok (load_eq h)]
  rfl

theorem setBreakPoint_points {s : BreakPoints} (h : s.Points l) (hnew : s.heap p = none)
    (addr : BitVec 32) (aType : PointType) :
    ∃ s', setBreakPoint p addr aType s = .ok 1 s' ∧ s'.Points (l ++ [(p, ⟨addr, aType⟩)]) := by
  have hp : p ∉ l.map Prod.fst := by
    intro hmem
    obtain ⟨e, he, rfl⟩ := List.mem_map.mp hmem
    obtain ⟨next, hheap⟩ := h.holds.chain.heap_eq he
    rw [hnew] at hheap
    cases hheap
  obtain rfl | ⟨l, ⟨q, w⟩, rfl⟩ := List.eq_nil_or_concat' l
  · have hfirst : s.fbp = none := h.holds.chain
    refine ⟨{ s with
      heap := Function.update s.heap p (some ⟨⟨addr, aType⟩, none⟩), nodes := s.nodes + 1
      fbp := some p, lbp := some p }, ?_, ?_, ?_⟩
    · simp only [setBreakPoint, store, bind_def, update_apply, read_apply, hfirst]
      rfl
    · exact Holds.push_nil s.heap p ⟨addr, aType⟩
    · change s.nodes + 1 = _
      rw [h.nodes]
      rfl
  · have hnonempty : s.fbp ≠ none := by
      rw [ne_eq, h.holds.chain.first_eq_none_iff]
      simp
    have hlast : s.lbp = some q := by
      rw [h.holds.last]
      simp
    obtain ⟨next, hq⟩ := h.holds.chain.heap_eq (e := (q, w)) (by simp)
    have hne : q ≠ p := by
      rintro rfl
      simp at hp
    have hholds := h.holds.push hp ⟨addr, aType⟩
    have hnodes := h.nodes
    obtain ⟨heap, nodes, fbp, lbp, flag⟩ := s
    obtain ⟨first, rfl⟩ := Option.ne_none_iff_exists'.mp hnonempty
    obtain rfl : lbp = some q := hlast
    have hlink := setNext_eq (s := ⟨Function.update heap p (some ⟨⟨addr, aType⟩, none⟩), nodes + 1,
      some first, some q, flag⟩) ((Function.update_of_ne hne ..).trans hq) (some p)
    refine ⟨_, (bind_of_ok hlink).trans rfl, hholds, ?_⟩
    rw [List.length_append, ← hnodes]
    rfl

theorem unlink_head {s : BreakPoints} (h : s.Points ((p, v) :: post))
    (hnext : s.heap p = some ⟨v, next⟩) :
    ∃ s', unlink none p next s = .ok () s' ∧ s'.Points post := by
  refine ⟨⟨Function.update s.heap p none, s.nodes - 1, next, if next = none then none else s.lbp,
    s.isNoBreakPoints⟩, ?_, h.holds.remove_head hnext, ?_⟩
  · rw [unlink]
    by_cases hnone : next = none
    · rw [if_pos hnone, if_pos hnone]
      rfl
    · rw [if_neg hnone, if_neg hnone]
      rfl
  · rw [h.nodes]
    rfl

theorem unlink_behind {s : BreakPoints} (h : s.Points (pre ++ [(q, w)] ++ (p, v) :: post))
    (hnext : s.heap p = some ⟨v, next⟩) :
    ∃ s', unlink (some q) p next s = .ok () s' ∧ s'.Points (pre ++ [(q, w)] ++ post) := by
  obtain ⟨next', hq⟩ := h.holds.chain.heap_eq (e := (q, w)) (by simp)
  refine ⟨⟨Function.update (Function.update s.heap q (some ⟨w, next⟩)) p none, s.nodes - 1, s.fbp,
    if next = none then some q else s.lbp, s.isNoBreakPoints⟩, ?_, h.holds.remove hnext, ?_⟩
  · simp only [unlink]
    rw [bind_of_ok (setNext_eq hq next)]
    by_cases hnone : next = none
    · rw [if_pos hnone, if_pos hnone]
      rfl
    · rw [if_neg hnone, if_neg hnone]
      rfl
  · rw [h.nodes]
    simp only [List.length_append, List.length_cons]
    omega

theorem clearLoop_points {s : BreakPoints} (h : s.Points (pre ++ rest))
    (hrest : Seg s.heap bp rest none) (hprev : prev = (pre.map Prod.fst).getLast?)
    (hfuel : rest.length ≤ fuel) (addr : BitVec 32) :
    ∃ r s', clearLoop addr fuel prev bp s = .ok r s' ∧
      s'.Points (pre ++ rest.eraseP fun e => e.2.Clears addr) := by
  induction rest generalizing pre bp prev fuel with
  | nil =>
    cases hrest
    exact ⟨0, s, by rw [clearLoop]; rfl, h⟩
  | cons e rest ih =>
    obtain ⟨rfl, next, hheap, hrest⟩ := hrest
    cases fuel with
    | zero => cases hfuel
    | succ fuel =>
      rw [clearLoop, bind_of_ok (load_eq hheap)]
      by_cases hclears : e.2.Clears addr
      · have herase : (e :: rest).eraseP (fun e => e.2.Clears addr) = rest :=
          List.eraseP_cons_of_pos (by simpa using hclears)
        rw [if_pos hclears, herase]
        obtain rfl | ⟨pre, ⟨q, w⟩, rfl⟩ := List.eq_nil_or_concat' pre
        · obtain ⟨s', hunlink, hpoints⟩ := unlink_head h hheap
          subst hprev
          exact ⟨1, s', (bind_of_ok hunlink).trans rfl, hpoints⟩
        · obtain ⟨s', hunlink, hpoints⟩ := unlink_behind h hheap
          obtain rfl : prev = some q := by simpa using hprev
          exact ⟨1, s', (bind_of_ok hunlink).trans rfl, hpoints⟩
      · rw [if_neg hclears, List.eraseP_cons_of_neg (by simpa using hclears),
          List.append_cons]
        rw [List.append_cons] at h
        exact ih h hrest (by simp) (Nat.le_of_succ_le_succ hfuel)

theorem clearBreakPoint_points {s : BreakPoints} (h : s.Points l) (addr : BitVec 32) :
    ∃ r s', clearBreakPoint addr s = .ok r s' ∧ s'.Points (l.eraseP fun e => e.2.Clears addr) := by
  have hnil : s.Points ([] ++ l) := h
  exact clearLoop_points hnil h.holds.chain rfl (Nat.le_of_eq h.nodes.symm) addr

def checked (pc : BitVec 32) (l rest : List (Nat × BPoint)) : List (Nat × BPoint) :=
  match rest.find? fun e => e.2.Stops pc with
  | some e => if e.2.OneShot then l.eraseP fun x => x.2.Clears e.2.addr else l
  | none => l

theorem checked_of_find (h : rest.find? (fun e => e.2.Stops pc) = some e)
    (l : List (Nat × BPoint)) :
    checked pc l rest = if e.2.OneShot then l.eraseP fun x => x.2.Clears e.2.addr else l := by
  rw [checked, h]

theorem checkLoop_points {s : BreakPoints} (h : s.Points l) (hrest : Seg s.heap bp rest none)
    (hfuel : rest.length ≤ fuel) (pc : BitVec 32) :
    ∃ r s', checkLoop pc fuel bp s = .ok r s' ∧ s'.Points (checked pc l rest) := by
  induction rest generalizing bp fuel with
  | nil =>
    cases hrest
    exact ⟨_, s, by rw [checkLoop]; rfl, h⟩
  | cons e rest ih =>
    obtain ⟨rfl, next, hheap, hrest⟩ := hrest
    cases fuel with
    | zero => cases hfuel
    | succ fuel =>
      rw [checkLoop, bind_of_ok (load_eq hheap)]
      by_cases hstops : e.2.Stops pc
      · have hfind : (e :: rest).find? (fun e => e.2.Stops pc) = some e :=
          List.find?_cons_of_pos (by simpa using hstops)
        rw [if_pos hstops, checked_of_find hfind]
        by_cases hone : e.2.OneShot
        · obtain ⟨r, s', hclear, hpoints⟩ := clearBreakPoint_points h e.2.addr
          simp only [if_pos hone]
          exact ⟨true, _, (bind_of_ok hclear).trans rfl, hpoints.holds, hpoints.nodes⟩
        · simp only [if_neg hone]
          exact ⟨true, _, rfl, h.holds, h.nodes⟩
      · have hfind : (e :: rest).find? (fun e => e.2.Stops pc) = rest.find? fun e => e.2.Stops pc :=
          List.find?_cons_of_neg (by simpa using hstops)
        rw [if_neg hstops, checked, hfind]
        exact ih hrest (Nat.le_of_succ_le_succ hfuel)

theorem checkBreakPoints_points {s : BreakPoints} (h : s.Points l) (pc : BitVec 32) :
    ∃ r s', checkBreakPoints pc s = .ok r s' ∧ s'.Points (checked pc l l) :=
  checkLoop_points h h.holds.chain (Nat.le_of_eq h.nodes.symm) pc

/-- Every node leads to the last one, and the ends are null together. -/
structure WellFormed (s : BreakPoints) : Prop where
  points : ∃ l, s.Points l
  null : s.fbp = none ↔ s.lbp = none

theorem Points.wellFormed {s : BreakPoints} (h : s.Points l) : s.WellFormed :=
  ⟨⟨l, h⟩, h.holds.null_iff⟩

theorem Points.unique {s : BreakPoints} (h : s.Points l) (h' : s.Points l') : l = l' :=
  h.holds.chain.unique h'.holds.chain

end BreakPoints

open BreakPoints

/-- The states that calls of the three functions lead to. -/
inductive BpRun : BreakPoints → Prop where
  | start (flag) : BpRun ⟨fun _ => none, 0, none, none, flag⟩
  | set : BpRun s → s.heap p = none → setBreakPoint p addr aType s = .ok r s' → BpRun s'
  | clear : BpRun s → clearBreakPoint addr s = .ok r s' → BpRun s'
  | check : BpRun s → checkBreakPoints pc s = .ok r s' → BpRun s'

theorem BpRun.points (h : BpRun s) : ∃ l, s.Points l := by
  induction h with
  | start flag => exact ⟨[], ⟨rfl, rfl, List.nodup_nil⟩, rfl⟩
  | set _ hnew hset ih =>
    obtain ⟨l, hl⟩ := ih
    obtain ⟨s', hset', hpoints⟩ := setBreakPoint_points hl hnew _ _
    rw [hset'] at hset
    cases hset
    exact ⟨_, hpoints⟩
  | clear _ hclear ih =>
    obtain ⟨l, hl⟩ := ih
    obtain ⟨r, s', hclear', hpoints⟩ := clearBreakPoint_points hl _
    rw [hclear'] at hclear
    cases hclear
    exact ⟨_, hpoints⟩
  | check _ hcheck ih =>
    obtain ⟨l, hl⟩ := ih
    obtain ⟨r, s', hcheck', hpoints⟩ := checkBreakPoints_points hl _
    rw [hcheck'] at hcheck
    cases hcheck
    exact ⟨_, hpoints⟩

namespace BreakPoints

/-- `CheckBreakPoints` stops at `e`, which is to be removed. -/
structure StopsAt (s : BreakPoints) (pc : BitVec 32) (pre : List (Nat × BPoint)) (e : Nat × BPoint)
    (post : List (Nat × BPoint)) : Prop where
  points : s.Points (pre ++ e :: post)
  before : ∀ x ∈ pre, ¬ x.2.Stops pc
  stops : e.2.Stops pc
  oneShot : e.2.OneShot

/-- A one-shot break point that is hit is the one that is removed. -/
def RemovesHit (s : BreakPoints) (pc : BitVec 32) : Prop :=
  ∃ r s', checkBreakPoints pc s = .ok r s' ∧ s'.WellFormed ∧
    ∀ pre e post, s.StopsAt pc pre e post → s'.Points (pre ++ post)

theorem StopsAt.checked_eq (h : StopsAt s pc pre e post) :
    checked pc (pre ++ e :: post) (pre ++ e :: post) =
      (pre ++ e :: post).eraseP fun x => x.2.Clears e.2.addr := by
  have hnone : pre.find? (fun e => e.2.Stops pc) = none := by
    rw [List.find?_eq_none]
    intro x hx
    simpa using h.before x hx
  have hfind : (pre ++ e :: post).find? (fun e => e.2.Stops pc) = some e := by
    rw [List.find?_append, hnone, Option.none_or]
    exact List.find?_cons_of_pos (by simpa using h.stops)
  rw [checked_of_find hfind, if_pos h.oneShot]

theorem StopsAt.not_mem (h : StopsAt s pc pre e post) : e ∉ pre ++ post := by
  have hnodup := h.points.holds.nodup
  rw [List.map_append, List.map_cons, List.nodup_middle, List.nodup_cons,
    ← List.map_append] at hnodup
  exact fun hmem => hnodup.1 (List.mem_map_of_mem hmem)

/-- The list stays well formed. The break point that is hit is removed exactly when the search by
its address does not find another one before it. -/
theorem breakpoints_iff (hrun : BpRun s) (pc : BitVec 32) :
    (s.WellFormed ∧ s.RemovesHit pc) ↔
      ∀ pre e post, s.StopsAt pc pre e post → ∀ x ∈ pre, x.2.addr ≠ e.2.addr ∧ x.2.addr ≠ -1 := by
  obtain ⟨l, hl⟩ := hrun.points
  obtain ⟨r, s', hcheck, hpoints⟩ := checkBreakPoints_points hl pc
  constructor
  · rintro ⟨-, r', t, hcheck', -, hexact⟩ pre e post h x hx
    rw [hcheck] at hcheck'
    cases hcheck'
    obtain rfl := hl.unique h.points
    rw [h.checked_eq] at hpoints
    have heq := hpoints.unique (hexact pre e post h)
    rw [← not_or]
    intro hclears
    -- Otherwise the other one is erased, and the one that was hit is still there.
    rw [List.eraseP_append_left (p := fun x => x.2.Clears e.2.addr) (decide_eq_true hclears) _ hx]
      at heq
    exact h.not_mem (heq ▸ List.mem_append_right _ List.mem_cons_self)
  · intro h
    refine ⟨hl.wellFormed, r, s', hcheck, hpoints.wellFormed, ?_⟩
    intro pre e post hstops
    obtain rfl := hl.unique hstops.points
    have hpre : ∀ x ∈ pre, ¬ decide (x.2.Clears e.2.addr) = true := by
      intro x hx
      rw [decide_eq_true_eq]
      exact not_or.mpr (h pre e post hstops x hx)
    have hself : (e :: post).eraseP (fun x => x.2.Clears e.2.addr) = post :=
      List.eraseP_cons_of_pos (decide_eq_true (.inl rfl))
    rw [hstops.checked_eq, List.eraseP_append_right _ hpre, hself] at hpoints
    exact hpoints

def onePoint (p : BPoint) : BreakPoints :=
  ⟨Function.update (fun _ => none) 0 (some ⟨p, none⟩), 1, some 0, some 0, true⟩

def twoPoints (p : BPoint) : BreakPoints :=
  ⟨Function.update (Function.update (onePoint p).heap 1 (some ⟨⟨8, .singleExec⟩, none⟩)) 0
    (some ⟨p, some 1⟩), 2, some 0, some 1, true⟩

theorem twoPoints_run (p : BPoint) : BpRun (twoPoints p) := by
  have hone : BpRun (onePoint p) := .set (.start true) rfl rfl
  have hset : setBreakPoint 1 8 .singleExec (onePoint p) = .ok 1 (twoPoints p) := rfl
  exact .set hone rfl hset

theorem twoPoints_points (p : BPoint) :
    (twoPoints p).Points [(0, p), (1, ⟨8, .singleExec⟩)] := by
  have hone : Holds (onePoint p).heap (some 0) (some 0) ([] ++ [(0, p)]) := Holds.push_nil _ 0 _
  exact ⟨hone.push (by simp) ⟨8, .singleExec⟩, rfl⟩

theorem breakpoints_two : BpRun (twoPoints ⟨12, .singleExec⟩) ∧
    (twoPoints ⟨12, .singleExec⟩).WellFormed ∧ (twoPoints ⟨12, .singleExec⟩).RemovesHit 8 := by
  refine ⟨twoPoints_run _, (breakpoints_iff (twoPoints_run _) 8).mpr ?_⟩
  intro pre e post h x hx
  have hlist := h.points.unique (twoPoints_points _)
  rcases pre with _ | ⟨a, _ | ⟨b, pre⟩⟩
  · cases hx
  · cases hlist
    rw [List.mem_singleton.mp hx]
    decide
  · have hlen := congrArg List.length hlist
    simp at hlen

abbrev watchedPoint : BreakPoints := twoPoints ⟨8, .watchpoint⟩

/-- The watchpoint is removed in place of the break point that was hit. -/
theorem breakpoints_watched : BpRun watchedPoint ∧
    watchedPoint.StopsAt 8 [(0, ⟨8, .watchpoint⟩)] (1, ⟨8, .singleExec⟩) [] ∧
    (∃ r s, checkBreakPoints 8 watchedPoint = .ok r s ∧ s.Points [(1, ⟨8, .singleExec⟩)]) ∧
    ¬ watchedPoint.RemovesHit 8 := by
  have hstops : watchedPoint.StopsAt 8 [(0, ⟨8, .watchpoint⟩)] (1, ⟨8, .singleExec⟩) [] :=
    ⟨twoPoints_points _, by decide, by decide, by decide⟩
  obtain ⟨r, s, hcheck, hpoints⟩ := checkBreakPoints_points (twoPoints_points ⟨8, .watchpoint⟩) 8
  refine ⟨twoPoints_run _, hstops, ⟨r, s, hcheck, hpoints⟩, ?_⟩
  rintro ⟨r', s', hcheck', -, hexact⟩
  rw [hcheck] at hcheck'
  cases hcheck'
  have heq := hpoints.unique (hexact _ _ _ hstops)
  revert heq
  decide

end BreakPoints

end GvmCore
