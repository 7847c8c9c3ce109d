import GvmCore.PipeLine
import Mathlib.Data.List.Perm.Basic
import Mathlib.Data.Nat.ModEq
import Mathlib.Tactic.Linarith

namespace GvmCore.PipeLine
set_option autoImplicit true

namespace TPipeLine

variable {s : TPipeLine α} {n i j k : Nat} {x : α} {again : Bool}

/-- What a call of stage `i` makes of it. -/
def stagePipe (n i : Nat) (again : Bool) (s : TPipeLine α) : TPipe :=
  if s.allowed n i then
    let q := if i = 0 then (s.pipes 0).writeInst2Pipe (some s.curCount)
      else { s.pipes i with repeateCount := 0 }
    if again then q else q.sendNext
  else { s.pipes i with writeReq := false }

theorem stage_eq : s.stage n i x again =
    (if s.allowed n i then if i = 0 then some x else (s.pipes i).getCurInst.map s.insts else none,
      { insts := if i = 0 ∧ s.allowed n i then Function.update s.insts s.curCount x else s.insts
        pipes := Function.update s.pipes i (s.stagePipe n i again)
        curCount :=
          if i = 0 ∧ s.allowed n i then
            if s.curCount + 1 = (n + 1) * 2 then 0 else s.curCount + 1
          else s.curCount }) := by
  unfold stage stagePipe allowExec
  cases hok : s.allowed n i with
  | false => simp [setPipe]
  | true =>
    by_cases hi : i = 0
    · subst hi
      cases again <;> simp [getCurInst, fill, repeate, sendNext, setPipe]
    · cases again <;> simp [getCurInst, hi, repeate, sendNext, setPipe]

theorem stage_pipes : (s.stage n i x again).2.pipes =
    Function.update s.pipes i (s.stagePipe n i again) := by
  rw [stage_eq]

theorem stage_insts : (s.stage n i x again).2.insts =
    if i = 0 ∧ s.allowed n i then Function.update s.insts s.curCount x else s.insts := by
  rw [stage_eq]

theorem stage_curCount : (s.stage n i x again).2.curCount =
    if i = 0 ∧ s.allowed n i then
      if s.curCount + 1 = (n + 1) * 2 then 0 else s.curCount + 1
    else s.curCount := by
  rw [stage_eq]

theorem stage_fst : (s.stage n i x again).1 =
    if s.allowed n i then if i = 0 then some x else (s.pipes i).getCurInst.map s.insts
    else none := by
  rw [stage_eq]

@[simp] theorem allowNext_stagePipe :
    (s.stagePipe n i again).allowNext = (s.pipes i).allowNext := by
  unfold stagePipe
  by_cases hi : i = 0
  · subst hi
    split <;> cases again <;> simp [TPipe.writeInst2Pipe, TPipe.sendNext]
  · rw [if_neg hi]
    split <;> cases again <;> simp [TPipe.sendNext]

theorem allowed_stage (h : j ≠ i) : (s.stage n i x again).2.allowed n j = s.allowed n j := by
  have hnext : ((s.stage n i x again).2.pipes (j + 1)).allowNext = (s.pipes (j + 1)).allowNext := by
    rw [stage_pipes]
    by_cases hj : j + 1 = i
    · subst hj
      rw [Function.update_self, allowNext_stagePipe]
    · rw [Function.update_of_ne hj]
  have hself : (s.stage n i x again).2.pipes j = s.pipes j := by
    rw [stage_pipes, Function.update_of_ne h]
  unfold allowed
  rw [hnext, hself]

theorem stagePipe_stage (h : j ≠ i) (b : Bool) :
    (s.stage n i x again).2.stagePipe n j b = s.stagePipe n j b := by
  have hself : (s.stage n i x again).2.pipes j = s.pipes j := by
    rw [stage_pipes, Function.update_of_ne h]
  unfold stagePipe
  rw [allowed_stage h]
  by_cases hj : j = 0
  · subst hj
    have hcount : (s.stage n i x again).2.curCount = s.curCount := by
      rw [stage_curCount, if_neg (fun h' => h h'.1.symm)]
    rw [hself, hcount]
  · simp only [hj, if_false, hself]

section Calls

variable {order : List Nat} {r : Nat → Bool}

/-- Whatever their order, the calls of a cycle change each stage as if it were called alone. -/
theorem calls_pipes (hnd : order.Nodup) (s : TPipeLine α) (j : Nat) :
    (s.calls n k x r order).2.pipes j =
      if j ∈ order then s.stagePipe n j (r j) else s.pipes j := by
  induction order generalizing s with
  | nil => simp [calls]
  | cons i order ih =>
    obtain ⟨hi, hnd⟩ := List.nodup_cons.mp hnd
    rw [calls, ih hnd]
    by_cases hj : j = i
    · subst hj
      rw [if_neg hi, if_pos List.mem_cons_self, stage_pipes, Function.update_self]
    · have hmem : j ∈ i :: order ↔ j ∈ order := by simp [hj]
      simp only [hmem]
      rw [stagePipe_stage hj, stage_pipes, Function.update_of_ne hj]

theorem allowed_calls (hj : j ∉ order) (s : TPipeLine α) :
    (s.calls n k x r order).2.allowed n j = s.allowed n j := by
  induction order generalizing s with
  | nil => rfl
  | cons i order ih =>
    rw [List.mem_cons, not_or] at hj
    rw [calls, ih hj.2, allowed_stage hj.1]

theorem calls_rest (h0 : 0 ∉ order) (s : TPipeLine α) :
    (s.calls n k x r order).2.insts = s.insts ∧
      (s.calls n k x r order).2.curCount = s.curCount := by
  induction order generalizing s with
  | nil => exact ⟨rfl, rfl⟩
  | cons i order ih =>
    rw [List.mem_cons, not_or] at h0
    have hne : ¬ (i = 0 ∧ s.allowed n i = true) := fun h => h0.1 h.1.symm
    obtain ⟨hinsts, hcount⟩ := ih h0.2 (s.stage n i x (r i)).2
    rw [stage_insts, if_neg hne] at hinsts
    rw [stage_curCount, if_neg hne] at hcount
    exact ⟨hinsts, hcount⟩

theorem calls_first (hnd : order.Nodup) (h0 : 0 ∈ order) (s : TPipeLine α) :
    (s.calls n k x r order).2.insts =
        (if s.allowed n 0 then Function.update s.insts s.curCount x else s.insts) ∧
      (s.calls n k x r order).2.curCount =
        (if s.allowed n 0 then if s.curCount + 1 = (n + 1) * 2 then 0 else s.curCount + 1
        else s.curCount) := by
  induction order generalizing s with
  | nil => cases h0
  | cons i order ih =>
    obtain ⟨hi, hnd⟩ := List.nodup_cons.mp hnd
    by_cases hzero : i = 0
    · subst hzero
      obtain ⟨hinsts, hcount⟩ := calls_rest (n := n) (k := k) (x := x) (r := r) hi
        (s.stage n 0 x (r 0)).2
      rw [stage_insts] at hinsts
      rw [stage_curCount] at hcount
      simp only [true_and] at hinsts hcount
      exact ⟨hinsts, hcount⟩
    · have hne : ¬ (i = 0 ∧ s.allowed n i = true) := fun h => hzero h.1
      obtain ⟨hinsts, hcount⟩ := ih hnd (List.mem_of_ne_of_mem (Ne.symm hzero) h0)
        (s.stage n i x (r i)).2
      rw [stage_insts, if_neg hne, stage_curCount, if_neg hne, allowed_stage (Ne.symm hzero)]
        at hinsts
      rw [stage_curCount, if_neg hne, allowed_stage (Ne.symm hzero)] at hcount
      exact ⟨hinsts, hcount⟩

end Calls

/-- What the clock edge makes of a stage that is asked to take in what the stage before it sends. -/
def received (n j : Nat) (s : TPipeLine α) : TPipe :=
  if 1 ≤ j ∧ j ≤ n then
    if (s.pipes j).nextReq && (s.pipes (j - 1)).writeReq then
      { (s.pipes j).writeInst2Pipe (s.pipes (j - 1)).writeInst with allowNext := true }
    else { s.pipes j with allowNext := (s.pipes j).nextReq }
  else s.pipes j

def latched (n j : Nat) (s : TPipeLine α) : TPipe :=
  { s.received n j with
    writeReq := (s.pipes j).writeReq && !(decide (j < n) && (s.pipes (j + 1)).nextReq) }

theorem update_succ (n : Nat) (s : TPipeLine α) :
    s.update (n + 1) = (s.update n).updateRound n := by
  rw [update, List.range_succ, List.foldl_append]
  rfl

@[simp] theorem writeReq_received : (s.received n j).writeReq = (s.pipes j).writeReq := by
  unfold received
  split
  · split <;> rfl
  · rfl

@[simp] theorem writeInst_received : (s.received n j).writeInst = (s.pipes j).writeInst := by
  unfold received
  split
  · split <;> rfl
  · rfl

theorem repeateCount_received : (s.received n j).repeateCount = (s.pipes j).repeateCount := by
  unfold received
  split
  · split <;> rfl
  · rfl

theorem latched_of_le (h : n ≤ j) : s.latched n j = s.received n j := by
  have hreq : ((s.pipes j).writeReq && !(decide (j < n) && (s.pipes (j + 1)).nextReq)) =
      (s.received n j).writeReq := by
    simp [Nat.not_lt.mpr h]
  rw [latched, hreq]

theorem latched_above (h : n < j) : s.latched n j = s.pipes j := by
  rw [latched_of_le h.le, received, if_neg (by omega)]

theorem latched_succ (h : j ≠ n) (h' : j ≠ n + 1) : s.latched (n + 1) j = s.latched n j := by
  have h1 : 1 ≤ j ∧ j ≤ n + 1 ↔ 1 ≤ j ∧ j ≤ n := by omega
  have h2 : j < n + 1 ↔ j < n := by omega
  simp only [latched, received, h1, h2]

theorem latched_done : s.latched (n + 1) n = { s.latched n n with
    writeReq := (s.pipes n).writeReq && !(s.pipes (n + 1)).nextReq } := by
  have h1 : 1 ≤ n ∧ n ≤ n + 1 ↔ 1 ≤ n ∧ n ≤ n := by omega
  simp only [latched, received, h1, Nat.lt_succ_self, decide_true, Bool.true_and]

theorem latched_taken : s.latched (n + 1) (n + 1) =
    if (s.pipes (n + 1)).nextReq && (s.pipes n).writeReq then
      { (s.pipes (n + 1)).writeInst2Pipe (s.pipes n).writeInst with allowNext := true }
    else { s.pipes (n + 1) with allowNext := (s.pipes (n + 1)).nextReq } := by
  have h1 : 1 ≤ n + 1 ∧ n + 1 ≤ n + 1 := by omega
  rw [latched_of_le (Nat.le_refl _), received, if_pos h1, Nat.add_sub_cancel]

/-- The rounds of the update do not disturb each other. -/
theorem update_eq (n : Nat) (s : TPipeLine α) :
    (s.update n).insts = s.insts ∧ (s.update n).curCount = s.curCount ∧
      ∀ j, (s.update n).pipes j = s.latched n j := by
  induction n with
  | zero =>
    refine ⟨rfl, rfl, fun j => ?_⟩
    rw [latched_of_le (Nat.zero_le j), received, if_neg (by omega)]
    rfl
  | succ n ih =>
    obtain ⟨hinsts, hcount, hpipes⟩ := ih
    have hnext : (s.update n).pipes (n + 1) = s.pipes (n + 1) := by
      rw [hpipes, latched_above (Nat.lt_succ_self n)]
    have hlast : (s.update n).pipes n = s.received n n := by
      rw [hpipes, latched_of_le (Nat.le_refl n)]
    rw [update_succ, updateRound, hnext, hlast, writeReq_received, writeInst_received]
    by_cases h : ((s.pipes (n + 1)).nextReq && (s.pipes n).writeReq) = true
    · rw [if_pos h]
      refine ⟨hinsts, hcount, fun j => ?_⟩
      by_cases hj : j = n
      · subst hj
        rw [Bool.and_eq_true] at h
        rw [latched_done, latched_of_le (Nat.le_refl j), h.1, h.2]
        exact Function.update_self _ _ _
      · by_cases hj' : j = n + 1
        · subst hj'
          rw [latched_taken, if_pos h]
          exact (Function.update_of_ne hj _ _).trans (Function.update_self _ _ _)
        · rw [latched_succ hj hj', ← hpipes]
          exact (Function.update_of_ne hj _ _).trans (Function.update_of_ne hj' _ _)
    · rw [if_neg h]
      refine ⟨hinsts, hcount, fun j => ?_⟩
      by_cases hj' : j = n + 1
      · subst hj'
        rw [latched_taken, if_neg h]
        exact Function.update_self _ _ _
      · refine (Function.update_of_ne hj' _ _).trans ?_
        rw [hpipes]
        by_cases hj : j = n
        · subst hj
          have hkeep : ((s.pipes j).writeReq && !(s.pipes (j + 1)).nextReq) =
              (s.received j j).writeReq := by
            rw [writeReq_received]
            cases hw : (s.pipes j).writeReq <;> cases hr : (s.pipes (j + 1)).nextReq <;>
              simp [hw, hr] at h ⊢
          rw [latched_done, hkeep, latched_of_le (Nat.le_refl j)]
        · rw [latched_succ hj hj']

theorem cycle_eq (n k : Nat) (x : α) (c : Cycle) (s : TPipeLine α) :
    (s.cycle n k x c).2.insts = (s.calls n k x c.again c.order).2.insts ∧
      (s.cycle n k x c).2.curCount = (s.calls n k x c.again c.order).2.curCount ∧
      ∀ j, (s.cycle n k x c).2.pipes j = (s.calls n k x c.again c.order).2.latched n j :=
  update_eq n _

end TPipeLine

open TPipeLine

def Cycle.Complete (n : Nat) (c : Cycle) : Prop := c.order.Perm (List.range (n + 1))

instance (n : Nat) (c : Cycle) : Decidable (c.Complete n) :=
  inferInstanceAs (Decidable (c.order.Perm (List.range (n + 1))))

theorem Cycle.Complete.nodup (h : Cycle.Complete n c) : c.order.Nodup :=
  h.nodup_iff.mpr List.nodup_range

theorem Cycle.Complete.mem (h : Cycle.Complete n c) : i ∈ c.order ↔ i ≤ n := by
  rw [h.mem_iff, List.mem_range]
  omega

/-- The pipeline before cycle `t` of a run without a stall: stage `j` holds the instruction of
cycle `t - j`, and every stage expects the next one. -/
structure Full (n : Nat) (inst : Nat → α) (t : Nat) (s : TPipeLine α) : Prop where
  count : s.curCount = t % ((n + 1) * 2)
  insts : ∀ k < t, t ≤ k + (n + 1) * 2 → s.insts (k % ((n + 1) * 2)) = inst k
  size : ∀ j, (s.pipes j).maxBufSize = 1
  settled : ∀ j, (s.pipes j).repeateCount = 0
  first : (s.pipes 0).bufSize = 0
  request : ∀ j < n, (s.pipes j).writeReq = false
  next : ∀ j, 1 ≤ j → j ≤ n → (s.pipes j).allowNext = true
  held : ∀ j, 1 ≤ j → j ≤ n → j ≤ t → (s.pipes j).bufSize = 1 ∧ (s.pipes j).nextReq = false ∧
    (s.pipes j).curInst = some ((t - j) % ((n + 1) * 2))
  empty : ∀ j, 1 ≤ j → j ≤ n → t < j → (s.pipes j).bufSize = 0 ∧ (s.pipes j).nextReq = true

/-- A stage that has sent the instruction of cycle `t - j`, or had none. -/
structure Sent (n t j : Nat) (p : TPipe) : Prop where
  size : p.maxBufSize = 1
  settled : p.repeateCount = 0
  free : p.bufSize = 0
  next : p.nextReq = true
  request : p.writeReq = true ↔ j ≤ t
  inst : j ≤ t → p.writeInst = some ((t - j) % ((n + 1) * 2))

namespace Full

variable {inst : Nat → α} {s : TPipeLine α}

theorem reset (inst : Nat → α) (n : Nat) (s : TPipeLine α) : Full n inst 0 s.reset where
  count := (Nat.zero_mod _).symm
  insts k hk := absurd hk (Nat.not_lt_zero k)
  size _ := rfl
  settled _ := rfl
  first := rfl
  request _ _ := rfl
  next _ _ _ := rfl
  held j h1 _ h0 := by omega
  empty _ _ _ _ := ⟨rfl, rfl⟩

variable (h : Full n inst t s) (hn : 1 ≤ n)
include h hn

theorem allowed_zero : s.allowed n 0 = true := by
  rw [allowed, if_neg (by omega), if_pos rfl]
  exact h.next 1 (Nat.le_refl 1) hn

omit hn in
theorem allowed_iff (h1 : 1 ≤ j) (hj : j ≤ n) : s.allowed n j = true ↔ j ≤ t := by
  have hbuf : (s.pipes j).bufNotEmpty = true ↔ j ≤ t := by
    rw [TPipe.bufNotEmpty, decide_eq_true_iff]
    by_cases hjt : j ≤ t
    · rw [(h.held j h1 hj hjt).1]
      simp [hjt]
    · rw [(h.empty j h1 hj (by omega)).1]
      simp [hjt]
  unfold allowed
  by_cases hjn : j = n
  · rw [if_pos hjn, hbuf]
  · rw [if_neg hjn, if_neg (by omega), h.next (j + 1) (by omega) (by omega), Bool.true_or,
      Bool.true_and, hbuf]

theorem sent_stagePipe (hj : j ≤ n) (again : Bool) (hagain : j ≤ t → again = false) :
    Sent n t j (s.stagePipe n j again) := by
  unfold stagePipe
  by_cases h0 : j = 0
  · subst h0
    obtain rfl := hagain (Nat.zero_le t)
    rw [if_pos (h.allowed_zero hn)]
    simp only [if_true, Bool.false_eq_true, if_false]
    constructor
    · exact h.size 0
    · rfl
    · simp [TPipe.sendNext, TPipe.writeInst2Pipe, h.first]
    · rfl
    · simp [TPipe.sendNext]
    · simp [TPipe.sendNext, TPipe.writeInst2Pipe, h.count]
  · by_cases hjt : j ≤ t
    · obtain ⟨hbuf, -, hcur⟩ := h.held j (by omega) hj hjt
      obtain rfl := hagain hjt
      rw [if_pos ((h.allowed_iff (by omega) hj).mpr hjt)]
      simp only [h0, if_false, Bool.false_eq_true]
      constructor
      · exact h.size j
      · rfl
      · simp [TPipe.sendNext, hbuf]
      · rfl
      · simp [TPipe.sendNext, hjt]
      · simp [TPipe.sendNext, hcur]
    · obtain ⟨hbuf, hnext⟩ := h.empty j (by omega) hj (by omega)
      rw [if_neg (by rw [h.allowed_iff (by omega) hj]; exact hjt)]
      exact ⟨h.size j, h.settled j, hbuf, hnext, by simp [hjt], fun h => absurd h hjt⟩

end Full

section Latch

variable {s : TPipeLine α} (hs : ∀ i ≤ n, Sent n t i (s.pipes i))
include hs

/-- After every stage has sent, the clock edge moves each instruction on by one stage. -/
theorem received_of_sent (h1 : 1 ≤ j) (hj : j ≤ n) : s.received n j =
    if j ≤ t + 1 then
      { (s.pipes j).writeInst2Pipe (some ((t + 1 - j) % ((n + 1) * 2))) with allowNext := true }
    else { s.pipes j with allowNext := true } := by
  have hbefore : (s.pipes (j - 1)).writeReq = true ↔ j ≤ t + 1 := by
    rw [(hs (j - 1) (by omega)).request]
    omega
  rw [received, if_pos ⟨h1, hj⟩, (hs j hj).next, Bool.true_and]
  by_cases hjt : j ≤ t + 1
  · have hindex : t - (j - 1) = t + 1 - j := by omega
    rw [if_pos (hbefore.mpr hjt), if_pos hjt, (hs (j - 1) (by omega)).inst (by omega), hindex]
  · rw [if_neg (mt hbefore.mp hjt), if_neg hjt]

theorem request_of_sent (hj : j < n) : (s.latched n j).writeReq = false := by
  simp [latched, hj, (hs (j + 1) hj).next]

end Latch

theorem mod_succ_eq {t N : Nat} (hN : 0 < N) :
    (if t % N + 1 = N then 0 else t % N + 1) = (t + 1) % N := by
  have hlt := Nat.mod_lt t hN
  have hstep : (t + 1) % N = (t % N + 1) % N := (Nat.mod_add_mod t N 1).symm
  rw [hstep]
  by_cases h : t % N + 1 = N
  · rw [if_pos h, h, Nat.mod_self]
  · rw [if_neg h]
    exact (Nat.mod_eq_of_lt (by omega)).symm

theorem mod_ne_of_lt {k t N : Nat} (hk : k < t) (ht : t < k + N) : k % N ≠ t % N := by
  intro h
  have hdvd : N ∣ t - k := (Nat.modEq_iff_dvd' hk.le).mp h
  have hle := Nat.le_of_dvd (by omega) hdvd
  omega

namespace Full

variable {inst : Nat → α} {s : TPipeLine α} {c : Cycle}

theorem insts_calls (h : Full n inst t s) (hn : 1 ≤ n) (hc : c.Complete n) (hk : j < t + 1)
    (ht : t + 1 ≤ j + (n + 1) * 2) :
    (s.calls n k (inst t) c.again c.order).2.insts (j % ((n + 1) * 2)) = inst j := by
  obtain ⟨hinsts, -⟩ := calls_first (n := n) (k := k) (x := inst t) (r := c.again) hc.nodup
    (hc.mem.mpr (Nat.zero_le n)) s
  rw [hinsts, if_pos (h.allowed_zero hn), h.count]
  rcases Nat.lt_succ_iff_lt_or_eq.mp hk with hlt | rfl
  · rw [Function.update_of_ne (mod_ne_of_lt hlt (by omega)), h.insts j hlt (by omega)]
  · exact Function.update_self _ _ _

theorem sent_calls (h : Full n inst t s) (hn : 1 ≤ n) (hc : c.Complete n)
    (hlive : ∀ j ≤ n, j ≤ t → c.again j = false) :
    ∀ i ≤ n, Sent n t i ((s.calls n k (inst t) c.again c.order).2.pipes i) := by
  intro i hi
  rw [calls_pipes hc.nodup, if_pos (hc.mem.mpr hi)]
  exact h.sent_stagePipe hn hi _ (hlive i hi)

theorem cycle_snd (h : Full n inst t s) (hn : 1 ≤ n) (hc : c.Complete n)
    (hlive : ∀ j ≤ n, j ≤ t → c.again j = false) :
    Full n inst (t + 1) (s.cycle n k (inst t) c).2 := by
  obtain ⟨huinsts, hucount, hupipes⟩ := cycle_eq n k (inst t) c s
  have hsent := h.sent_calls (k := k) hn hc hlive
  have hfield : ∀ j, ((s.cycle n k (inst t) c).2.pipes j).maxBufSize = 1 ∧
      ((s.cycle n k (inst t) c).2.pipes j).repeateCount = 0 := by
    intro j
    rw [hupipes]
    by_cases hj : j ≤ n
    · unfold latched received
      have := hsent j hj
      split
      · split <;> exact ⟨this.size, this.settled⟩
      · exact ⟨this.size, this.settled⟩
    · rw [latched_above (by omega), calls_pipes hc.nodup, if_neg (mt hc.mem.mp hj)]
      exact ⟨h.size j, h.settled j⟩
  constructor
  · obtain ⟨-, hcount⟩ := calls_first (n := n) (k := k) (x := inst t) (r := c.again) hc.nodup
      (hc.mem.mpr (Nat.zero_le n)) s
    rw [hucount, hcount, if_pos (h.allowed_zero hn), h.count, mod_succ_eq (by omega)]
  · intro j hj ht
    rw [huinsts, h.insts_calls hn hc hj ht]
  · exact fun j => (hfield j).1
  · exact fun j => (hfield j).2
  · rw [hupipes]
    exact (hsent 0 (Nat.zero_le n)).free
  · intro j hj
    rw [hupipes]
    exact request_of_sent hsent hj
  · intro j h1 hj
    rw [hupipes, latched, received_of_sent hsent h1 hj]
    split <;> rfl
  · intro j h1 hj hjt
    rw [hupipes, latched, received_of_sent hsent h1 hj, if_pos hjt]
    simp [TPipe.writeInst2Pipe, (hsent j hj).free, (hsent j hj).size]
  · intro j h1 hj hjt
    rw [hupipes, latched, received_of_sent hsent h1 hj, if_neg (by omega)]
    exact ⟨(hsent j hj).free, (hsent j hj).next⟩

end Full

section Work

variable {order : List Nat} {r : Nat → Bool}

theorem calls_fst_of_notMem (hk : k ∉ order) (s : TPipeLine α) :
    (s.calls n k x r order).1 = [] := by
  induction order generalizing s with
  | nil => rfl
  | cons i order ih =>
    rw [List.mem_cons, not_or] at hk
    rw [calls, if_neg (Ne.symm hk.1), List.nil_append, ih hk.2]

theorem calls_fst_zero (hnd : order.Nodup) (h0 : 0 ∈ order) (s : TPipeLine α) :
    (s.calls n 0 x r order).1 = if s.allowed n 0 then [x] else [] := by
  induction order generalizing s with
  | nil => cases h0
  | cons i order ih =>
    obtain ⟨hi, hnd⟩ := List.nodup_cons.mp hnd
    rw [calls]
    by_cases hzero : i = 0
    · subst hzero
      rw [if_pos rfl, calls_fst_of_notMem hi, List.append_nil, stage_fst]
      split <;> rfl
    · rw [if_neg hzero, List.nil_append, ih hnd (List.mem_of_ne_of_mem (Ne.symm hzero) h0),
        allowed_stage (Ne.symm hzero)]

theorem calls_append (a b : List Nat) (s : TPipeLine α) :
    s.calls n k x r (a ++ b) =
      ((s.calls n k x r a).1 ++ ((s.calls n k x r a).2.calls n k x r b).1,
        ((s.calls n k x r a).2.calls n k x r b).2) := by
  induction a generalizing s with
  | nil => rfl
  | cons i a ih =>
    rw [List.cons_append, calls, ih]
    simp only [calls, List.append_assoc]

theorem calls_fst (hk0 : k ≠ 0) (hnd : order.Nodup) (hk : k ∈ order) (s : TPipeLine α)
    (hplace : ∀ p, (s.pipes k).getCurInst = some p → p ≠ s.curCount) :
    (s.calls n k x r order).1 =
      if s.allowed n k then ((s.pipes k).getCurInst.map s.insts).toList else [] := by
  obtain ⟨a, b, rfl⟩ := List.append_of_mem hk
  obtain ⟨hnda, hndb, hdisj⟩ := List.nodup_append.mp hnd
  have ha : k ∉ a := fun h => hdisj k h k List.mem_cons_self rfl
  have hb : k ∉ b := (List.nodup_cons.mp hndb).1
  have hpipe : (s.calls n k x r a).2.pipes k = s.pipes k := by
    rw [calls_pipes hnda, if_neg ha]
  have hcontent : (s.pipes k).getCurInst.map (s.calls n k x r a).2.insts =
      (s.pipes k).getCurInst.map s.insts := by
    cases hp : (s.pipes k).getCurInst with
    | none => rfl
    | some p =>
      have hne := hplace p hp
      by_cases h0 : 0 ∈ a
      · rw [(calls_first hnda h0 s).1]
        split
        · rw [Option.map_some, Option.map_some, Function.update_of_ne hne]
        · rfl
      · rw [(calls_rest h0 s).1]
  rw [calls_append, calls_fst_of_notMem ha, List.nil_append, calls, if_pos rfl,
    calls_fst_of_notMem hb, List.append_nil, stage_fst, if_neg hk0, allowed_calls ha, hpipe,
    hcontent]
  split <;> rfl

end Work

namespace Full

variable {inst : Nat → α} {s : TPipeLine α} {c : Cycle}

theorem cycle_fetched (h : Full n inst t s) (hn : 1 ≤ n) (hc : c.Complete n) :
    (s.cycle n 0 (inst t) c).1 = [inst t] := by
  have hfst := calls_fst_zero (n := n) (x := inst t) (r := c.again) hc.nodup
    (hc.mem.mpr (Nat.zero_le n)) s
  rw [if_pos (h.allowed_zero hn)] at hfst
  exact hfst

theorem cycle_retired (h : Full n inst t s) (hn : 1 ≤ n) (hc : c.Complete n) :
    (s.cycle n n (inst t) c).1 = if n ≤ t then [inst (t - n)] else [] := by
  have hcur : n ≤ t → (s.pipes n).getCurInst = some ((t - n) % ((n + 1) * 2)) := by
    intro ht
    obtain ⟨hbuf, -, hcur⟩ := h.held n hn (Nat.le_refl n) ht
    rw [TPipe.getCurInst, if_pos hbuf, hcur]
  have hplace : ∀ p, (s.pipes n).getCurInst = some p → p ≠ s.curCount := by
    intro p hp
    by_cases ht : n ≤ t
    · rw [hcur ht, Option.some.injEq] at hp
      rw [← hp, h.count]
      exact mod_ne_of_lt (by omega) (by omega)
    · rw [TPipe.getCurInst, (h.empty n hn (Nat.le_refl n) (by omega)).1, if_neg (by decide)] at hp
      cases hp
  have hfst := calls_fst (n := n) (x := inst t) (r := c.again) (by omega : n ≠ 0) hc.nodup
    (hc.mem.mpr (Nat.le_refl n)) s hplace
  refine Eq.trans hfst ?_
  have hiff := h.allowed_iff hn (Nat.le_refl n)
  by_cases ht : n ≤ t
  · rw [if_pos (hiff.mpr ht), if_pos ht, hcur ht, Option.map_some,
      h.insts (t - n) (by omega) (by omega)]
    rfl
  · rw [if_neg (mt hiff.mp ht), if_neg ht]

end Full

/-- From cycle `t` on no stage that holds an instruction repeats. -/
def Flowing (n t : Nat) (cs : List Cycle) : Prop :=
  ∀ i c, cs[i]? = some c → ∀ j ≤ n, j ≤ t + i → c.again j = false

theorem Flowing.head (h : Flowing n t (c :: cs)) : ∀ j ≤ n, j ≤ t → c.again j = false :=
  h 0 c rfl

theorem Flowing.tail (h : Flowing n t (c :: cs)) : Flowing n (t + 1) cs := by
  intro i c' hi j hj hjt
  exact h (i + 1) c' hi j hj (by omega)

section Runs

variable {inst : Nat → α} {s : TPipeLine α} {cs : List Cycle}

theorem Full.fetched (hn : 1 ≤ n) (h : Full n inst t s) (hc : ∀ c ∈ cs, c.Complete n)
    (hflow : Flowing n t cs) : s.worked n 0 inst t cs = (List.range' t cs.length).map inst := by
  induction cs generalizing t s with
  | nil => rfl
  | cons c cs ih =>
    obtain ⟨hc0, hcs⟩ := List.forall_mem_cons.mp hc
    rw [worked, h.cycle_fetched hn hc0, ih (h.cycle_snd hn hc0 hflow.head) hcs hflow.tail]
    rfl

theorem Full.retired (hn : 1 ≤ n) (h : Full n inst t s) (hc : ∀ c ∈ cs, c.Complete n)
    (hflow : Flowing n t cs) :
    s.worked n n inst t cs = ((List.range (t + cs.length - n)).drop (t - n)).map inst := by
  induction cs generalizing t s with
  | nil =>
    rw [worked, List.drop_eq_nil_of_le (by simp)]
    rfl
  | cons c cs ih =>
    obtain ⟨hc0, hcs⟩ := List.forall_mem_cons.mp hc
    rw [worked, h.cycle_retired hn hc0, ih (h.cycle_snd hn hc0 hflow.head) hcs hflow.tail,
      List.length_cons, Nat.add_right_comm t 1, Nat.add_assoc t]
    by_cases ht : n ≤ t
    · have hlt : t - n < (List.range (t + (cs.length + 1) - n)).length := by
        rw [List.length_range]
        omega
      have hnext : t + 1 - n = t - n + 1 := by omega
      rw [if_pos ht, List.drop_eq_getElem_cons hlt, List.getElem_range, hnext]
      rfl
    · have h0 : t - n = 0 := by omega
      have h1 : t + 1 - n = 0 := by omega
      rw [if_neg ht, h0, h1, List.nil_append]

end Runs

/-- No stage after the first holds `x`, and only stages of `E` ask to send it. -/
structure Absent (n : Nat) (x : α) (E : Nat → Prop) (s : TPipeLine α) : Prop where
  cur : ∀ i p, i ≠ 0 → i ≤ n → (s.pipes i).bufSize ≠ 0 → (s.pipes i).curInst = some p →
    s.insts p ≠ x
  write : ∀ i p, i < n → ¬ E i → (s.pipes i).writeReq = true → (s.pipes i).writeInst = some p →
    s.insts p ≠ x

theorem bufSize_of_allowed {s : TPipeLine α} (hi : i ≠ 0) (h : s.allowed n i = true) :
    0 < (s.pipes i).bufSize := by
  unfold allowed at h
  rw [if_neg hi] at h
  split at h
  · simpa [TPipe.bufNotEmpty] using h
  · rw [Bool.and_eq_true] at h
    simpa [TPipe.bufNotEmpty] using h.2

theorem stagePipe_held {s : TPipeLine α} (hi : i ≠ 0) (h : (s.stagePipe n i again).bufSize ≠ 0) :
    (s.pipes i).bufSize ≠ 0 ∧ (s.stagePipe n i again).curInst = (s.pipes i).curInst := by
  unfold stagePipe at h ⊢
  split at h
  · rename_i hok
    have hbuf := bufSize_of_allowed hi hok
    rw [if_pos hok]
    refine ⟨by omega, ?_⟩
    simp only [hi, if_false]
    split <;> rfl
  · rename_i hok
    rw [if_neg hok]
    exact ⟨h, rfl⟩

theorem stagePipe_sends {s : TPipeLine α} (h : (s.stagePipe n i again).writeReq = true) :
    ((s.pipes i).writeReq = true ∧ (s.stagePipe n i again).writeInst = (s.pipes i).writeInst) ∨
    (i ≠ 0 ∧ (s.pipes i).bufSize ≠ 0 ∧
      (s.stagePipe n i again).writeInst = (s.pipes i).curInst) ∨
    (i = 0 ∧ s.allowed n i = true ∧ (s.stagePipe n i again).writeInst = some s.curCount) := by
  unfold stagePipe at h ⊢
  split at h
  · rename_i hok
    rw [if_pos hok]
    by_cases hi : i = 0
    · subst hi
      simp only [if_true] at h ⊢
      cases again with
      | true => exact .inl ⟨h, rfl⟩
      | false => exact .inr (.inr ⟨trivial, hok, rfl⟩)
    · simp only [hi, if_false] at h ⊢
      have hbuf := bufSize_of_allowed hi hok
      cases again with
      | true => exact .inl ⟨h, rfl⟩
      | false => exact .inr (.inl ⟨hi, by omega, rfl⟩)
  · cases h

namespace Absent

variable {s u : TPipeLine α} {x y : α} {E : Nat → Prop}

theorem insts_stage (hy : y ≠ x) (hp : s.insts p ≠ x) : (s.stage n i y again).2.insts p ≠ x := by
  rw [stage_insts]
  split
  · by_cases h : p = s.curCount
    · subst h
      rwa [Function.update_self]
    · rwa [Function.update_of_ne h]
  · exact hp

theorem stage (h : Absent n x E s) (hy : y ≠ x) (i : Nat) (again : Bool) :
    Absent n x E (s.stage n i y again).2 := by
  constructor
  · intro j p hj hjn hbuf hcur
    apply insts_stage hy
    rw [stage_pipes] at hbuf hcur
    by_cases hji : j = i
    · subst hji
      rw [Function.update_self] at hbuf hcur
      obtain ⟨hbuf', hcur'⟩ := stagePipe_held hj hbuf
      exact h.cur j p hj hjn hbuf' (hcur' ▸ hcur)
    · rw [Function.update_of_ne hji] at hbuf hcur
      exact h.cur j p hj hjn hbuf hcur
  · intro j p hjn hE hreq hinst
    rw [stage_pipes] at hreq hinst
    by_cases hji : j = i
    · subst hji
      rw [Function.update_self] at hreq hinst
      rcases stagePipe_sends hreq with ⟨hold, hsame⟩ | ⟨hj, hbuf, hsame⟩ | ⟨hj, hok, hsame⟩
      · exact insts_stage hy (h.write j p hjn hE hold (hsame ▸ hinst))
      · exact insts_stage hy (h.cur j p hj hjn.le hbuf (hsame ▸ hinst))
      · subst hj
        rw [hsame, Option.some.injEq] at hinst
        rw [stage_insts, if_pos ⟨rfl, hok⟩, ← hinst, Function.update_self]
        exact hy
    · rw [Function.update_of_ne hji] at hreq hinst
      exact insts_stage hy (h.write j p hjn hE hreq hinst)

theorem stage_ne (h : Absent n x E s) (hi : i ≠ 0) (hin : i ≤ n) :
    (s.stage n i y again).1 ≠ some x := by
  rw [stage_fst, if_neg hi]
  split
  · rename_i hok
    intro hx
    obtain ⟨p, hp, hx⟩ := Option.map_eq_some_iff.mp hx
    have hbuf := bufSize_of_allowed hi hok
    rw [TPipe.getCurInst] at hp
    split at hp
    · exact h.cur i p hi hin (by omega) hp hx
    · cases hp
  · simp

theorem calls (h : Absent n x E s) (hy : y ≠ x) (hn : n ≠ 0) (r : Nat → Bool)
    (order : List Nat) :
    Absent n x E (s.calls n n y r order).2 ∧ x ∉ (s.calls n n y r order).1 := by
  induction order generalizing s with
  | nil => exact ⟨h, List.not_mem_nil⟩
  | cons i order ih =>
    obtain ⟨habsent, hrest⟩ := ih (h.stage hy i (r i))
    refine ⟨habsent, ?_⟩
    rw [TPipeLine.calls, List.mem_append, not_or]
    refine ⟨?_, hrest⟩
    split
    · rename_i hik
      subst hik
      rw [Option.mem_toList]
      exact h.stage_ne hn (Nat.le_refl i)
    · exact List.not_mem_nil

theorem latch (h : Absent n x E s) (hE : ∀ i < n, E i → (s.pipes (i + 1)).nextReq = false)
    (hpipes : ∀ j, u.pipes j = s.latched n j) (hinsts : u.insts = s.insts) : Absent n x E u := by
  constructor
  · intro j p hj hjn hbuf hcur
    rw [hinsts]
    rw [hpipes, latched, received] at hbuf hcur
    have hin : 1 ≤ j ∧ j ≤ n := by omega
    rw [if_pos hin] at hbuf hcur
    split at hbuf
    · rename_i hreq
      rw [if_pos hreq] at hcur
      rw [Bool.and_eq_true] at hreq
      have hstage : j - 1 + 1 = j := by omega
      refine h.write (j - 1) p (by omega) (fun he => ?_) hreq.2 hcur
      have hno := hE (j - 1) (by omega) he
      rw [hstage, hreq.1] at hno
      cases hno
    · rename_i hreq
      rw [if_neg hreq] at hcur
      exact h.cur j p hj hjn hbuf hcur
  · intro j p hjn he hreq hinst
    rw [hinsts]
    rw [hpipes] at hreq hinst
    have hinst' : (s.pipes j).writeInst = some p := by
      rw [← writeInst_received (n := n)]
      exact hinst
    have hreq' : (s.pipes j).writeReq = true := by
      simp only [latched, Bool.and_eq_true] at hreq
      exact hreq.1
    exact h.write j p hjn he hreq' hinst'

theorem cycle (h : Absent n x (fun _ => False) s) (hy : y ≠ x) (hn : 1 ≤ n) (c : Cycle) :
    Absent n x (fun _ => False) (s.cycle n n y c).2 ∧ x ∉ (s.cycle n n y c).1 := by
  obtain ⟨habsent, hout⟩ := h.calls hy (by omega : n ≠ 0) c.again c.order
  obtain ⟨hinsts, -, hpipes⟩ := cycle_eq n n y c s
  exact ⟨habsent.latch (fun _ _ he => he.elim) hpipes hinsts, hout⟩

/-- What no stage holds is never worked on again. -/
theorem run {inst : Nat → α} (h : Absent n x (fun _ => False) s) (hn : 1 ≤ n)
    (hx : ∀ i, t ≤ i → inst i ≠ x) (cs : List Cycle) : x ∉ s.worked n n inst t cs := by
  induction cs generalizing t s with
  | nil => exact List.not_mem_nil
  | cons c cs ih =>
    obtain ⟨habsent, hout⟩ := h.cycle (hx t (Nat.le_refl t)) hn c
    rw [worked, List.mem_append, not_or]
    exact ⟨hout, ih habsent fun i hi => hx i (by omega)⟩

end Absent

theorem Absent.shrink {s : TPipeLine α} (h : Absent n x E s)
    (hE : ∀ i, E i → (s.pipes i).writeReq = false) : Absent n x (fun _ => False) s := by
  refine ⟨h.cur, fun i p hi _ hreq hinst => h.write i p hi (fun he => ?_) hreq hinst⟩
  rw [hE i he] at hreq
  cases hreq

section Loss

variable {inst : Nat → α} {s : TPipeLine α} {c : Cycle}

theorem writeReq_repeats (h : (s.stagePipe n i true).writeReq = true) :
    (s.pipes i).writeReq = true := by
  unfold stagePipe at h
  split at h
  · by_cases hi : i = 0
    · subst hi
      exact h
    · simp only [hi, if_false] at h
      exact h
  · cases h

theorem Full.calls_held (h : Full n inst t s) (hn : 1 ≤ n) (hc : c.Complete n) (hi : i ≠ 0)
    (hin : i ≤ n) (hbuf : ((s.calls n k (inst t) c.again c.order).2.pipes i).bufSize ≠ 0)
    (hcur : ((s.calls n k (inst t) c.again c.order).2.pipes i).curInst = some p) :
    i ≤ t ∧ c.again i = true ∧ (s.calls n k (inst t) c.again c.order).2.insts p = inst (t - i) := by
  rw [calls_pipes hc.nodup, if_pos (hc.mem.mpr hin)] at hbuf hcur
  obtain ⟨hbuf', hsame⟩ := stagePipe_held hi hbuf
  have hit : i ≤ t := by
    by_contra hlt
    exact hbuf' (h.empty i (by omega) hin (by omega)).1
  have hagain : c.again i = true := by
    by_contra hno
    exact hbuf (h.sent_stagePipe hn hin _ fun _ => Bool.eq_false_of_not_eq_true hno).free
  rw [hsame, (h.held i (by omega) hin hit).2.2, Option.some.injEq] at hcur
  rw [← hcur]
  exact ⟨hit, hagain, h.insts_calls hn hc (by omega) (by omega)⟩

theorem Full.calls_sends (h : Full n inst t s) (hn : 1 ≤ n) (hc : c.Complete n) (hin : i < n)
    (hreq : ((s.calls n k (inst t) c.again c.order).2.pipes i).writeReq = true)
    (hinst : ((s.calls n k (inst t) c.again c.order).2.pipes i).writeInst = some p) :
    i ≤ t ∧ c.again i = false ∧
      (s.calls n k (inst t) c.again c.order).2.insts p = inst (t - i) := by
  rw [calls_pipes hc.nodup, if_pos (hc.mem.mpr hin.le)] at hreq hinst
  have hagain : c.again i = false := by
    by_contra hyes
    rw [Bool.not_eq_false] at hyes
    rw [hyes] at hreq
    have hold := writeReq_repeats hreq
    rw [h.request i hin] at hold
    cases hold
  have hsent := h.sent_stagePipe hn hin.le (c.again i) fun _ => hagain
  have hit := hsent.request.mp hreq
  rw [hsent.inst hit, Option.some.injEq] at hinst
  rw [← hinst]
  exact ⟨hit, hagain, h.insts_calls hn hc (by omega) (by omega)⟩

variable (h : Full n inst t s) (hn : 1 ≤ n) (hinj : Function.Injective inst) (hc : c.Complete n)
include h hn hinj hc

theorem Full.not_retired (hm : t < m + n) : inst m ∉ (s.cycle n n (inst t) c).1 := by
  rw [h.cycle_retired hn hc]
  split
  · rw [List.mem_singleton]
    exact hinj.ne (by omega)
  · exact List.not_mem_nil

/-- After the calls of a cycle an instruction is only where a stage repeats it or sends it. -/
theorem Full.absent_calls
    (hheld : ∀ i ≠ 0, i ≤ t → c.again i = true → t - i ≠ m)
    (hsends : ∀ i, ¬ E i → i ≤ t → c.again i = false → t - i ≠ m) :
    Absent n (inst m) E (s.calls n n (inst t) c.again c.order).2 := by
  constructor
  · intro i p hi hin hbuf hcur
    obtain ⟨hit, hrepeats, hp⟩ := h.calls_held hn hc hi hin hbuf hcur
    rw [hp]
    exact hinj.ne (hheld i hi hit hrepeats)
  · intro i p hin hE hreq hinst
    obtain ⟨hit, hsent, hp⟩ := h.calls_sends hn hc hin hreq hinst
    rw [hp]
    exact hinj.ne (hsends i hE hit hsent)

theorem Full.lost_first (hagain : c.again 0 = true) (cs : List Cycle) :
    inst t ∉ s.worked n n inst t (c :: cs) := by
  obtain ⟨hinsts, -, hpipes⟩ := cycle_eq n n (inst t) c s
  have hother : ∀ i, c.again i = false → i ≠ 0 := by
    rintro i hno rfl
    rw [hagain] at hno
    cases hno
  have habsent : Absent n (inst t) (fun _ => False) (s.calls n n (inst t) c.again c.order).2 :=
    h.absent_calls hn hinj hc (fun i hi hit _ => by omega) fun i _ hit hno => by
      have := hother i hno
      omega
  have hnext := habsent.latch (fun _ _ he => he.elim) hpipes hinsts
  rw [worked, List.mem_append, not_or]
  exact ⟨h.not_retired hn hinj hc (by omega),
    hnext.run hn (fun i hi => hinj.ne (by omega)) cs⟩

omit hinj in
theorem Full.closed_behind (hj : j < n) (hjt : j < t) (hagain : c.again (j + 1) = true)
    (hsends : c.again j = false) :
    ((s.calls n k (inst t) c.again c.order).2.pipes (j + 1)).nextReq = false ∧
      (s.cycle n k (inst t) c).2.allowed n j = false := by
  obtain ⟨-, -, hpipes⟩ := cycle_eq n k (inst t) c s
  have hnext : ((s.calls n k (inst t) c.again c.order).2.pipes (j + 1)).nextReq = false := by
    rw [calls_pipes hc.nodup, if_pos (hc.mem.mpr hj), hagain, stagePipe,
      if_pos ((h.allowed_iff (Nat.succ_pos j) hj).mpr hjt)]
    exact (h.held (j + 1) (Nat.succ_pos j) hj hjt).2.1
  have hclosed : ((s.cycle n k (inst t) c).2.pipes (j + 1)).allowNext = false := by
    rw [hpipes, latched, received, if_pos ⟨Nat.succ_pos j, hj⟩, hnext, Bool.false_and,
      if_neg Bool.false_ne_true]
  have hsettled : ((s.cycle n k (inst t) c).2.pipes j).repeateCount = 0 := by
    rw [hpipes, latched, repeateCount_received, calls_pipes hc.nodup, if_pos (hc.mem.mpr hj.le)]
    exact (h.sent_stagePipe hn hj.le _ fun _ => hsends).settled
  refine ⟨hnext, ?_⟩
  rw [allowed, if_neg (by omega), hclosed, hsettled]
  split <;> rfl

/-- When a later stage repeats, the instruction sent to it is dropped in the next cycle. -/
theorem Full.lost_behind (hj : j < n) (hjt : j < t) (hagain : c.again (j + 1) = true)
    (hsends : c.again j = false) (cs : List Cycle) (hcs : ∀ c ∈ cs, c.Complete n) :
    inst (t - j) ∉ s.worked n n inst t (c :: cs) := by
  obtain ⟨hinsts, -, hpipes⟩ := cycle_eq n n (inst t) c s
  obtain ⟨hnext, hstop⟩ := h.closed_behind (k := n) hn hc hj hjt hagain hsends
  have hother : ∀ i, c.again i = true → i ≠ j := by
    rintro i hyes rfl
    rw [hsends] at hyes
    cases hyes
  have habsent : Absent n (inst (t - j)) (· = j) (s.calls n n (inst t) c.again c.order).2 :=
    h.absent_calls hn hinj hc
      (fun i _ hit hyes => by
        have := hother i hyes
        omega)
      fun i hne hit _ => by omega
  have hlatched := habsent.latch (fun i _ hi => hi ▸ hnext) hpipes hinsts
  have hlater : ∀ i, t + 1 ≤ i → inst i ≠ inst (t - j) :=
    fun i hi => hinj.ne (by omega)
  rw [worked, List.mem_append, not_or]
  constructor
  · exact h.not_retired hn hinj hc (by omega)
  · cases cs with
    | nil => exact List.not_mem_nil
    | cons d cs =>
      obtain ⟨hd, -⟩ := List.forall_mem_cons.mp hcs
      -- the stage is not allowed now, and gives up its request
      have hgiven : ∀ i, i = j → (((s.cycle n n (inst t) c).2.calls n n (inst (t + 1)) d.again
          d.order).2.pipes i).writeReq = false := by
        rintro i rfl
        rw [calls_pipes hd.nodup, if_pos (hd.mem.mpr hj.le), stagePipe, hstop,
          if_neg Bool.false_ne_true]
      obtain ⟨hcalls, hout⟩ := hlatched.calls (hlater (t + 1) (Nat.le_refl _)) (by omega : n ≠ 0)
        d.again d.order
      obtain ⟨hinsts', -, hpipes'⟩ :=
        cycle_eq n n (inst (t + 1)) d (s.cycle n n (inst t) c).2
      have hgone := (hcalls.shrink hgiven).latch (fun _ _ he => he.elim) hpipes' hinsts'
      rw [worked, List.mem_append, not_or]
      exact ⟨hout, hgone.run hn (fun i hi => hlater i (by omega)) cs⟩

end Loss

section Outcome

variable {inst : Nat → α} {cs : List Cycle}

theorem calls_snd (k l : Nat) (r : Nat → Bool) (order : List Nat) (s : TPipeLine α) :
    (s.calls n k x r order).2 = (s.calls n l x r order).2 := by
  induction order generalizing s with
  | nil => rfl
  | cons i order ih => exact ih (s.stage n i x (r i)).2

theorem cycle_snd_eq (k l : Nat) (c : Cycle) (s : TPipeLine α) :
    (s.cycle n k x c).2 = (s.cycle n l x c).2 :=
  congrArg (update n) (calls_snd k l c.again c.order s)

theorem Flowing.cons (hhead : ∀ j ≤ n, j ≤ t → c.again j = false) (htail : Flowing n (t + 1) cs) :
    Flowing n t (c :: cs) := by
  intro i d hi j hj hjt
  cases i with
  | zero =>
    obtain rfl : c = d := Option.some.inj hi
    exact hhead j hj hjt
  | succ i => exact htail i d hi j hj (by omega)

theorem Flowing.of_forall (h : ∀ c ∈ cs, ∀ j, c.again j = false) : Flowing n t cs :=
  fun _ c hi j _ _ => h c (List.mem_of_getElem? hi) j

theorem Flowing.append (h : Flowing n t cs) (hds : ∀ c ∈ ds, ∀ j, c.again j = false) :
    Flowing n t (cs ++ ds) := by
  induction cs generalizing t with
  | nil => exact Flowing.of_forall hds
  | cons c cs ih => exact Flowing.cons h.head (ih h.tail)

/-- The first cycle in which a stage that holds an instruction repeats loses one that has been
decoded and has not yet reached the last stage. -/
theorem Full.lost {s : TPipeLine α} (hn : 1 ≤ n) (hinj : Function.Injective inst)
    (h : Full n inst t s) (hcs : ∀ c ∈ cs, c.Complete n) (hstall : ¬ Flowing n t cs) :
    ∃ m, t < m + n ∧ (t ≤ m → inst m ∈ s.worked n 0 inst t cs) ∧
      ∀ ds : List Cycle, (∀ c ∈ ds, c.Complete n) →
        inst m ∉ s.worked n n inst t (cs ++ ds) := by
  classical
  induction cs generalizing t s with
  | nil => exact absurd (Flowing.of_forall fun c hc => absurd hc List.not_mem_nil) hstall
  | cons c cs ih =>
    obtain ⟨hc, hcs⟩ := List.forall_mem_cons.mp hcs
    have hfetched : inst t ∈ s.worked n 0 inst t (c :: cs) := by
      rw [worked, h.cycle_fetched hn hc]
      exact List.mem_append_left _ (List.mem_singleton_self _)
    have hrest : ∀ ds : List Cycle, (∀ c ∈ ds, c.Complete n) → ∀ c ∈ cs ++ ds, c.Complete n :=
      fun ds hds => List.forall_mem_append.mpr ⟨hcs, hds⟩
    by_cases hlive : ∃ j, j ≤ n ∧ j ≤ t ∧ c.again j = true
    · -- the least stage that repeats
      obtain ⟨hj, hjt, hagain⟩ := Nat.find_spec hlive
      have hleast : ∀ i < Nat.find hlive, c.again i = false := by
        intro i hi
        have hno := Nat.find_min hlive hi
        exact Bool.eq_false_of_not_eq_true fun hyes => hno ⟨by omega, by omega, hyes⟩
      cases hfind : Nat.find hlive with
      | zero =>
        rw [hfind] at hagain
        exact ⟨t, by omega, fun _ => hfetched, fun ds _ => h.lost_first hn hinj hc hagain _⟩
      | succ j =>
        rw [hfind] at hj hjt hagain hleast
        refine ⟨t - j, by omega, fun hle => ?_, fun ds hds => h.lost_behind hn hinj hc (by omega)
          (by omega) hagain (hleast j (Nat.lt_succ_self j)) _ (hrest ds hds)⟩
        obtain rfl : j = 0 := by omega
        exact hfetched
    · have hhead : ∀ j ≤ n, j ≤ t → c.again j = false := fun j hj hjt =>
        Bool.eq_false_of_not_eq_true fun hyes => hlive ⟨j, hj, hjt, hyes⟩
      have hstall' : ¬ Flowing n (t + 1) cs := fun hflow => hstall (Flowing.cons hhead hflow)
      obtain ⟨m, hm, hin, hout⟩ := ih (h.cycle_snd (k := n) hn hc hhead) hcs hstall'
      refine ⟨m, by omega, fun hle => ?_, fun ds hds => ?_⟩
      · rcases Nat.eq_or_lt_of_le hle with rfl | hlt
        · exact hfetched
        · rw [worked, cycle_snd_eq 0 n]
          exact List.mem_append_right _ (hin hlt)
      · rw [List.cons_append, worked, List.mem_append, not_or]
        exact ⟨h.not_retired hn hinj hc (by omega), hout ds hds⟩

def Idle (s : TPipeLine α) : Prop := ∀ j, (s.pipes j).bufSize = 0

theorem Idle.stage {s : TPipeLine α} (h : Idle s) (i : Nat) (again : Bool) :
    (s.stage 0 i x again).1 = none ∧ Idle (s.stage 0 i x again).2 := by
  have hno : s.allowed 0 i = false := by
    by_cases hi : i = 0 <;> simp [allowed, TPipe.bufNotEmpty, hi, h _]
  refine ⟨by rw [stage_fst, hno]; rfl, fun j => ?_⟩
  rw [stage_pipes, stagePipe, hno]
  by_cases hj : j = i
  · subst hj
    simpa using h j
  · rw [Function.update_of_ne hj]
    exact h j

theorem Idle.calls {s : TPipeLine α} (h : Idle s) (r : Nat → Bool) (order : List Nat) :
    (s.calls 0 k x r order).1 = [] ∧ Idle (s.calls 0 k x r order).2 := by
  induction order generalizing s with
  | nil => exact ⟨rfl, h⟩
  | cons i order ih =>
    obtain ⟨hnone, hnext⟩ := h.stage (x := x) i (r i)
    obtain ⟨hnil, hidle⟩ := ih hnext
    refine ⟨?_, hidle⟩
    rw [TPipeLine.calls, hnil, hnone]
    split <;> rfl

/-- Without stages behind the first nothing is ever decoded: the only stage waits for an
instruction that nobody sends. -/
theorem Idle.worked {s : TPipeLine α} (h : Idle s) : s.worked 0 k inst t cs = [] := by
  induction cs generalizing t s with
  | nil => rfl
  | cons c cs ih =>
    obtain ⟨hnil, hidle⟩ := h.calls (k := k) (x := inst t) c.again c.order
    have hcycle : (s.cycle 0 k (inst t) c).1 = [] := hnil
    rw [TPipeLine.worked, hcycle, List.nil_append]
    exact ih hidle

/-- A pipeline in which no stage with an instruction repeats is a delay line, whatever the order
in which its stages are called. -/
theorem retired_in_order (hn : 1 ≤ n) (hcs : ∀ c ∈ cs, c.Complete n) (hflow : Flowing n 0 cs)
    (s : TPipeLine α) :
    s.reset.worked n 0 inst 0 cs = (List.range cs.length).map inst ∧
      s.reset.worked n n inst 0 cs = (List.range (cs.length - n)).map inst := by
  have hfull := Full.reset inst n s
  refine ⟨?_, ?_⟩
  · rw [hfull.fetched hn hcs hflow, List.range_eq_range']
  · rw [hfull.retired hn hcs hflow, Nat.zero_sub, List.drop_zero, Nat.zero_add]

def plainCycle (n : Nat) : Cycle := ⟨List.range (n + 1), fun _ => false⟩

def emptyLine : TPipeLine Nat := ⟨fun _ => 0, fun _ => .reset, 0⟩

theorem retired_in_order_two_stages : emptyLine.reset.worked 1 1 id 0
    [plainCycle 1, ⟨[1, 0], fun _ => false⟩, plainCycle 1] = [0, 1] := by
  have hcs : ∀ c ∈ [plainCycle 1, ⟨[1, 0], fun _ => false⟩, plainCycle 1],
      Cycle.Complete 1 c ∧ ∀ j, c.again j = false := by
    intro c hc
    simp only [List.mem_cons, List.not_mem_nil, or_false] at hc
    rcases hc with rfl | rfl | rfl
    · exact ⟨by decide, fun _ => rfl⟩
    · exact ⟨by decide, fun _ => rfl⟩
    · exact ⟨by decide, fun _ => rfl⟩
  exact (retired_in_order (Nat.le_refl 1) (fun c hc => (hcs c hc).1)
    (Flowing.of_forall fun c hc => (hcs c hc).2) emptyLine).2

/-- Every instruction that is decoded can still reach the last stage exactly if no stage with an
instruction has repeated, or the pipeline is too short to decode any. -/
theorem no_loss_iff (hinj : Function.Injective inst) (hcs : ∀ c ∈ cs, c.Complete n)
    (s : TPipeLine α) :
    (∀ x ∈ s.reset.worked n 0 inst 0 cs, ∃ ds : List Cycle, (∀ c ∈ ds, c.Complete n) ∧
      x ∈ s.reset.worked n n inst 0 (cs ++ ds)) ↔ n = 0 ∨ Flowing n 0 cs := by
  have hfull := Full.reset inst n s
  rcases Nat.eq_zero_or_pos n with rfl | hn
  · refine ⟨fun _ => .inl rfl, fun _ x hx => ?_⟩
    have hidle : Idle s.reset := fun _ => rfl
    rw [hidle.worked] at hx
    exact absurd hx List.not_mem_nil
  constructor
  · intro hall
    refine .inr (by_contra fun hstall => ?_)
    obtain ⟨m, -, hin, hout⟩ := hfull.lost hn hinj hcs hstall
    obtain ⟨ds, hds, hx⟩ := hall (inst m) (hin (Nat.zero_le m))
    exact hout ds hds hx
  · rintro (h0 | hflow) x hx
    · omega
    · -- after `n` more cycles everything has come through
      have hplain : ∀ c ∈ List.replicate n (plainCycle n), c = plainCycle n :=
        fun c hc => List.eq_of_mem_replicate hc
      have hds : ∀ c ∈ List.replicate n (plainCycle n), c.Complete n := by
        intro c hc
        rw [hplain c hc]
        exact List.Perm.refl _
      have hlast := hfull.retired hn (List.forall_mem_append.mpr ⟨hcs, hds⟩)
        (hflow.append fun c hc j => by rw [hplain c hc]; rfl)
      refine ⟨_, hds, ?_⟩
      rw [hlast]
      rw [hfull.fetched hn hcs hflow] at hx
      simpa using hx

/-- The second stage repeats in the second cycle. -/
theorem no_loss_iff_two_stages : ¬ ∀ x ∈ emptyLine.reset.worked 1 0 id 0
    [plainCycle 1, ⟨[0, 1], (· == 1)⟩], ∃ ds : List Cycle, (∀ c ∈ ds, c.Complete 1) ∧
      x ∈ emptyLine.reset.worked 1 1 id 0 ([plainCycle 1, ⟨[0, 1], (· == 1)⟩] ++ ds) := by
  have hcs : ∀ c ∈ [plainCycle 1, ⟨[0, 1], (· == 1)⟩], Cycle.Complete 1 c := by
    simp only [List.forall_mem_cons]
    exact ⟨by decide, by decide, fun _ h => absurd h List.not_mem_nil⟩
  intro hall
  rcases (no_loss_iff Function.injective_id hcs emptyLine).mp hall with h0 | hflow
  · cases h0
  · cases hflow 1 _ rfl 1 (Nat.le_refl 1) (Nat.le_refl 1)

end Outcome

end GvmCore.PipeLine
