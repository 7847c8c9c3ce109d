import Mathlib.Logic.Relation

namespace GvmCore
open Relation
set_option autoImplicit true

namespace SimThread

inductive Call where
  | start
  | stop
  | stepInto
  deriving DecidableEq

/-- How a call of `SingleClock` goes on from where it is: to its next statement, with
`IsNoBreakPoints`, or out of it by an `ErrorHeader*`. Every clock returns, and throws nothing
else. -/
inductive Clocked where
  | passed (noBreakPoints : Bool)
  | threw
  | exited
  deriving DecidableEq

/-- Where `Runner` is. An update `IsRunned &= b` reads (`r`) and then writes. -/
inductive Runner where
  | waitStart
  | testRunned
  | loopHead
  | clock
  | breakAnd (b r : Bool)
  | clockEnd
  | warnAnd (b r : Bool)
  | exitCaught
  | sendStop
  deriving DecidableEq

/-- Where the owner is in its current call. -/
inductive Owner where
  | idle
  | sendStart
  | waitStop
  | clock
  | breakAnd (b r : Bool)
  | clockEnd
  deriving DecidableEq

/-- The two threads, the variable and the two signals between them. A signal that is pending already
is not counted. `started` says that no `Stop` has returned since the last `Start`. -/
structure State where
  isRunned : Bool
  startPending : Bool
  stopPending : Bool
  runner : Runner
  owner : Owner
  calls : List Call
  started : Bool
  deriving DecidableEq

def init (calls : List Call) : State where
  isRunned := false
  startPending := false
  stopPending := false
  runner := .waitStart
  owner := .idle
  calls := calls
  started := false

/-- One step of the simulation thread; `none` is a thread that waits. -/
def runnerStep (e : Clocked) (s : State) : Option State :=
  match s.runner with
  | .waitStart =>
    if s.startPending then some { s with startPending := false, runner := .testRunned } else none
  | .testRunned => some { s with runner := if s.isRunned then .loopHead else .sendStop }
  | .loopHead => some { s with runner := if s.isRunned then .clock else .sendStop }
  | .clock =>
    match e with
    | .passed noBreakPoints => some { s with runner := .breakAnd noBreakPoints s.isRunned }
    | .threw => some { s with runner := .warnAnd false s.isRunned }
    | .exited => some { s with runner := .exitCaught }
  | .breakAnd b r => some { s with isRunned := r && b, runner := .clockEnd }
  -- a warning is thrown only now, and makes `WarnFlag == 0` false
  | .clockEnd =>
    match e with
    | .passed _ => some { s with runner := .warnAnd true s.isRunned }
    | .threw => some { s with runner := .warnAnd false s.isRunned }
    | .exited => some { s with runner := .exitCaught }
  | .warnAnd b r => some { s with isRunned := r && b, runner := .loopHead }
  | .exitCaught => some { s with isRunned := false, runner := .sendStop }
  | .sendStop => some { s with stopPending := true, runner := .waitStart }

/-- One step of the owner: `Start`, `Stop` and `StepInto` of `TDevice`. An exception leaves
`StepInto`. -/
def ownerStep (e : Clocked) (s : State) : Option State :=
  match s.owner with
  | .idle =>
    match s.calls with
    | [] => none
    | .start :: calls =>
      some { s with isRunned := true, owner := .sendStart, calls := calls, started := true }
    | .stop :: calls => some { s with isRunned := false, owner := .waitStop, calls := calls }
    | .stepInto :: calls => some { s with isRunned := true, owner := .clock, calls := calls }
  | .sendStart => some { s with startPending := true, owner := .idle }
  | .waitStop =>
    if s.stopPending then some { s with stopPending := false, owner := .idle, started := false }
    else none
  | .clock =>
    match e with
    | .passed noBreakPoints => some { s with owner := .breakAnd noBreakPoints s.isRunned }
    | _ => some { s with owner := .idle }
  | .breakAnd b r => some { s with isRunned := r && b, owner := .clockEnd }
  | .clockEnd =>
    match e with
    | .passed noBreakPoints =>
      some { s with isRunned := s.isRunned && noBreakPoints, owner := .idle }
    | _ => some { s with owner := .idle }

def Step (s t : State) : Prop := ∃ e, runnerStep e s = some t ∨ ownerStep e s = some t

def Runner.InClock : Runner → Prop
  | .clock => True
  | .breakAnd _ _ => True
  | .clockEnd => True
  | _ => False

def Owner.InClock : Owner → Prop
  | .clock => True
  | .breakAnd _ _ => True
  | .clockEnd => True
  | _ => False

/-- The device is clocked by the thread while its owner steps it, or takes it for stopped. -/
def State.Shared (s : State) : Prop :=
  s.runner.InClock ∧ (s.owner.InClock ∨ s.owner = .idle ∧ s.started = false)

/-- What the calls before leave the thread in. -/
inductive Phase where
  | stopped
  | started
  | restarted

/-- Calls that never meet the running thread: every `Start` is followed by a `Stop`, with `StepInto`
only outside of the two. A `Stop` that no `Start` precedes does not return, and after a second
`Start` there may only be more of them. -/
def Orderly : Phase → List Call → Prop
  | _, [] => True
  | .stopped, .stepInto :: calls => Orderly .stopped calls
  | .stopped, .start :: calls => Orderly .started calls
  | .stopped, .stop :: _ => True
  | .started, .stop :: calls => Orderly .stopped calls
  | .started, .start :: calls => Orderly .restarted calls
  | .restarted, .start :: calls => Orderly .restarted calls
  | _, _ => False

/-- No interleaving of these calls shares the device. -/
def NeverShared (calls : List Call) : Prop :=
  ∀ s, ReflTransGen Step (init calls) s → ¬ s.Shared

/-- No interleaving of these calls has both threads inside `SingleClock`. -/
def Exclusive (calls : List Call) : Prop :=
  ∀ s, ReflTransGen Step (init calls) s → ¬ (s.runner.InClock ∧ s.owner.InClock)

/-- Calls with a `StepInto` only where no start can be left, when up to `n` of them may be: one is
on its way, one at work and one answered, and each `Stop` that returns takes an answer. -/
def Settled : Nat → List Call → Prop
  | _, [] => True
  | n, .start :: calls => Settled (min (n + 1) 3) calls
  | 0, .stop :: _ => True
  | n + 1, .stop :: calls => Settled n calls
  | 0, .stepInto :: calls => Settled 0 calls
  | _ + 1, .stepInto :: _ => False

/-- The signals and the thread when the owner has not started it. -/
structure State.AtRest (s : State) : Prop where
  waits : s.runner = .waitStart
  noStart : s.startPending = false
  noStop : s.stopPending = false

/-- One start is on its way, at work, or answered. -/
inductive State.OneStart (s : State) : Prop
  | sent (h : s.startPending = true) (hw : s.runner = .waitStart) (hs : s.stopPending = false)
  | works (h : s.runner ≠ .waitStart) (hw : s.startPending = false) (hs : s.stopPending = false)
  | answered (h : s.stopPending = true) (hw : s.runner = .waitStart) (hs : s.startPending = false)

/-- What holds in every state that orderly calls reach. -/
inductive State.Kept (s : State) : Prop
  | stopped (h : s.AtRest) (ho : s.owner = .idle ∨ s.owner.InClock)
      (hc : Orderly .stopped s.calls)
  | starting (h : s.AtRest) (ho : s.owner = .sendStart) (hs : s.started = true)
      (hc : Orderly .started s.calls)
  | started (h : s.OneStart) (ho : s.owner = .idle) (hs : s.started = true)
      (hc : Orderly .started s.calls)
  | stopping (h : s.OneStart) (ho : s.owner = .waitStop) (hc : Orderly .stopped s.calls)
  | stuck (h : s.AtRest) (ho : s.owner = .waitStop)
  | restarted (ho : s.owner = .idle ∨ s.owner = .sendStart) (hs : s.started = true)
      (hc : Orderly .restarted s.calls)

theorem State.Kept.not_shared {s : State} (h : s.Kept) : ¬ s.Shared := by
  rintro ⟨hr, ho⟩
  cases h with
  | stopped h =>
    rw [h.waits] at hr
    exact hr
  | starting h =>
    rw [h.waits] at hr
    exact hr
  | started _ hidle hs =>
    rw [hidle, hs] at ho
    rcases ho with ho | ⟨-, ho⟩
    · exact ho
    · cases ho
  | stopping _ hwait =>
    rw [hwait] at ho
    rcases ho with ho | ⟨ho, -⟩
    · exact ho
    · cases ho
  | stuck h =>
    rw [h.waits] at hr
    exact hr
  | restarted hidle hs =>
    rw [hs] at ho
    rcases ho with ho | ⟨-, ho⟩
    · rcases hidle with h | h <;> rw [h] at ho <;> exact ho
    · cases ho

theorem runnerStep_keeps (h : runnerStep e s = some t) :
    t.owner = s.owner ∧ t.calls = s.calls ∧ t.started = s.started := by
  unfold runnerStep at h
  split at h
  all_goals first
    | (split at h <;> cases h <;> exact ⟨rfl, rfl, rfl⟩)
    | (cases h; exact ⟨rfl, rfl, rfl⟩)

theorem runnerStep_works (hw : s.runner ≠ .waitStart) (h : runnerStep e s = some t) :
    t.startPending = s.startPending ∧ (t.runner ≠ .waitStart ∧ t.stopPending = s.stopPending ∨
      t.runner = .waitStart ∧ t.stopPending = true) := by
  unfold runnerStep at h
  split at h
  · exact absurd ‹s.runner = .waitStart› hw
  · cases h
    refine ⟨rfl, .inl ⟨?_, rfl⟩⟩
    change (if s.isRunned then Runner.loopHead else .sendStop) ≠ _
    split <;> nofun
  · cases h
    refine ⟨rfl, .inl ⟨?_, rfl⟩⟩
    change (if s.isRunned then Runner.clock else .sendStop) ≠ _
    split <;> nofun
  · split at h <;> cases h <;> exact ⟨rfl, .inl ⟨nofun, rfl⟩⟩
  · cases h
    exact ⟨rfl, .inl ⟨nofun, rfl⟩⟩
  · split at h <;> cases h <;> exact ⟨rfl, .inl ⟨nofun, rfl⟩⟩
  · cases h
    exact ⟨rfl, .inl ⟨nofun, rfl⟩⟩
  · cases h
    exact ⟨rfl, .inl ⟨nofun, rfl⟩⟩
  · cases h
    exact ⟨rfl, .inr ⟨rfl, rfl⟩⟩

theorem runnerStep_of_wait (hw : s.runner = .waitStart) : runnerStep e s =
    if s.startPending then some { s with startPending := false, runner := .testRunned }
    else none := by
  unfold runnerStep
  rw [hw]

theorem State.AtRest.runnerStep {s : State} (h : s.AtRest) : runnerStep e s = none := by
  rw [runnerStep_of_wait h.waits, h.noStart]
  rfl

theorem State.OneStart.runnerStep {s t : State} (h : s.OneStart)
    (hstep : runnerStep e s = some t) : t.OneStart := by
  cases h with
  | sent h hw hs =>
    rw [runnerStep_of_wait hw, h] at hstep
    cases hstep
    exact .works nofun rfl hs
  | works h hw hs =>
    obtain ⟨hstart, ⟨hr, hstop⟩ | ⟨hr, hstop⟩⟩ := runnerStep_works h hstep
    · exact .works hr (hstart.trans hw) (hstop.trans hs)
    · exact .answered hstop hr (hstart.trans hw)
  | answered h hw hs =>
    rw [runnerStep_of_wait hw, hs] at hstep
    cases hstep

theorem State.Kept.runnerStep {s t : State} (h : s.Kept) (hstep : runnerStep e s = some t) :
    t.Kept := by
  obtain ⟨howner, hcalls, hstarted⟩ := runnerStep_keeps hstep
  have hrest : ¬ s.AtRest := by
    intro hrest
    rw [hrest.runnerStep] at hstep
    cases hstep
  cases h with
  | stopped h => exact absurd h hrest
  | starting h => exact absurd h hrest
  | started h ho hs hc =>
    rw [← hcalls] at hc
    exact .started (h.runnerStep hstep) (howner.trans ho) (hstarted.trans hs) hc
  | stopping h ho hc =>
    rw [← hcalls] at hc
    exact .stopping (h.runnerStep hstep) (howner.trans ho) hc
  | stuck h => exact absurd h hrest
  | restarted ho hs hc =>
    rw [← hcalls] at hc
    rw [← howner] at ho
    exact .restarted ho (hstarted.trans hs) hc

theorem ownerStep_idle (hi : s.owner = .idle) (h : ownerStep e s = some t) :
    ∃ call calls, s.calls = call :: calls ∧ t.calls = calls ∧ t.runner = s.runner ∧
      t.startPending = s.startPending ∧ t.stopPending = s.stopPending ∧
      match call with
      | .start => t.isRunned = true ∧ t.owner = .sendStart ∧ t.started = true
      | .stop => t.isRunned = false ∧ t.owner = .waitStop ∧ t.started = s.started
      | .stepInto => t.isRunned = true ∧ t.owner = .clock ∧ t.started = s.started := by
  unfold ownerStep at h
  rw [hi] at h
  simp only at h
  split at h
  · cases h
  all_goals
    rename_i hc
    cases h
    exact ⟨_, _, hc, rfl, rfl, rfl, rfl, rfl, rfl, rfl⟩

theorem ownerStep_inClock (hi : s.owner.InClock) (h : ownerStep e s = some t) :
    (t.owner = .idle ∨ t.owner.InClock) ∧ t.calls = s.calls ∧ t.runner = s.runner ∧
      t.startPending = s.startPending ∧ t.stopPending = s.stopPending := by
  unfold ownerStep at h
  split at h
  · rw [‹s.owner = .idle›] at hi
    exact hi.elim
  · rw [‹s.owner = .sendStart›] at hi
    exact hi.elim
  · rw [‹s.owner = .waitStop›] at hi
    exact hi.elim
  · split at h <;> cases h
    · exact ⟨.inr trivial, rfl, rfl, rfl, rfl⟩
    · exact ⟨.inl rfl, rfl, rfl, rfl, rfl⟩
  · cases h
    exact ⟨.inr trivial, rfl, rfl, rfl, rfl⟩
  · split at h <;> cases h
    · exact ⟨.inl rfl, rfl, rfl, rfl, rfl⟩
    · exact ⟨.inl rfl, rfl, rfl, rfl, rfl⟩

theorem ownerStep_sendStart (hi : s.owner = .sendStart) :
    ownerStep e s = some { s with startPending := true, owner := .idle } := by
  unfold ownerStep
  rw [hi]

theorem ownerStep_waitStop (hi : s.owner = .waitStop) : ownerStep e s =
    if s.stopPending then some { s with stopPending := false, owner := .idle, started := false }
    else none := by
  unfold ownerStep
  rw [hi]

theorem State.AtRest.congr {s t : State} (h : s.AtRest) (hr : t.runner = s.runner)
    (hs : t.startPending = s.startPending) (ht : t.stopPending = s.stopPending) : t.AtRest :=
  ⟨hr.trans h.waits, hs.trans h.noStart, ht.trans h.noStop⟩

theorem State.OneStart.congr {s t : State} (h : s.OneStart) (hr : t.runner = s.runner)
    (hs : t.startPending = s.startPending) (ht : t.stopPending = s.stopPending) : t.OneStart := by
  cases h with
  | sent h hw hn => exact .sent (hs.trans h) (hr.trans hw) (ht.trans hn)
  | works h hw hn => exact .works (fun h' => h (hr.symm.trans h')) (hs.trans hw) (ht.trans hn)
  | answered h hw hn => exact .answered (ht.trans h) (hr.trans hw) (hs.trans hn)

theorem State.Kept.ownerStep {s t : State} (h : s.Kept) (hstep : ownerStep e s = some t) :
    t.Kept := by
  cases h with
  | stopped h ho hc =>
    rcases ho with ho | ho
    · obtain ⟨call, calls, hcalls, htc, hr, hs, ht, hcall⟩ := ownerStep_idle ho hstep
      have hrest := h.congr hr hs ht
      rw [hcalls, ← htc] at hc
      cases call with
      | start => exact .starting hrest hcall.2.1 hcall.2.2 hc
      | stop => exact .stuck hrest hcall.2.1
      | stepInto =>
        refine .stopped hrest (.inr ?_) hc
        rw [hcall.2.1]
        trivial
    · obtain ⟨hto, htc, hr, hs, ht⟩ := ownerStep_inClock ho hstep
      rw [← htc] at hc
      exact .stopped (h.congr hr hs ht) hto hc
  | starting h ho hs hc =>
    rw [ownerStep_sendStart ho] at hstep
    cases hstep
    exact .started (.sent rfl h.waits h.noStop) rfl hs hc
  | started h ho hst hc =>
    obtain ⟨call, calls, hcalls, htc, hr, hs, ht, hcall⟩ := ownerStep_idle ho hstep
    rw [hcalls, ← htc] at hc
    cases call with
    | start => exact .restarted (.inr hcall.2.1) hcall.2.2 hc
    | stop => exact .stopping (h.congr hr hs ht) hcall.2.1 hc
    | stepInto => exact hc.elim
  | stopping h ho hc =>
    rw [ownerStep_waitStop ho] at hstep
    split at hstep
    · rename_i hstop
      cases hstep
      cases h with
      | sent _ _ hn => cases hn.symm.trans hstop
      | works _ _ hn => cases hn.symm.trans hstop
      | answered _ hw hn => exact .stopped ⟨hw, hn, rfl⟩ (.inl rfl) hc
    · cases hstep
  | stuck h ho =>
    rw [ownerStep_waitStop ho, h.noStop] at hstep
    cases hstep
  | restarted ho hst hc =>
    rcases ho with ho | ho
    · obtain ⟨call, calls, hcalls, htc, -, -, -, hcall⟩ := ownerStep_idle ho hstep
      rw [hcalls, ← htc] at hc
      cases call with
      | start => exact .restarted (.inr hcall.2.1) hcall.2.2 hc
      | stop => exact hc.elim
      | stepInto => exact hc.elim
    · rw [ownerStep_sendStart ho] at hstep
      cases hstep
      exact .restarted (.inl rfl) hst hc

theorem neverShared_of_orderly (h : Orderly .stopped calls) : NeverShared calls := by
  intro s hs
  apply State.Kept.not_shared
  induction hs with
  | refl => exact .stopped ⟨rfl, rfl, rfl⟩ (.inl rfl) h
  | tail _ hstep ih =>
    obtain ⟨e, hrunner | howner⟩ := hstep
    · exact ih.runnerStep hrunner
    · exact ih.ownerStep howner

def Runner.working : Runner → Nat
  | .waitStart => 0
  | _ => 1

/-- The starts that are on their way, at work or answered. -/
def State.starts (s : State) : Nat :=
  s.startPending.toNat + s.runner.working + s.stopPending.toNat

theorem Runner.working_of_ne {r : Runner} (h : r ≠ .waitStart) : r.working = 1 := by
  cases r with
  | waitStart => exact absurd rfl h
  | _ => rfl

theorem State.starts_le (s : State) : s.starts ≤ 3 := by
  have hstart := s.startPending.toNat_le
  have hstop := s.stopPending.toNat_le
  have hwork : s.runner.working ≤ 1 := by cases s.runner <;> exact Nat.le_of_ble_eq_true rfl
  unfold starts
  omega

theorem runnerStep_starts (h : runnerStep e s = some t) : t.starts ≤ s.starts := by
  by_cases hw : s.runner = .waitStart
  · rw [runnerStep_of_wait hw] at h
    split at h
    · rename_i hstart
      cases h
      change 0 + 1 + s.stopPending.toNat ≤ s.starts
      rw [State.starts, hstart, hw]
      exact Nat.le_refl _
    · cases h
  · have hwork := Runner.working_of_ne hw
    obtain ⟨hstart, ⟨hr, hstop⟩ | ⟨hr, hstop⟩⟩ := runnerStep_works hw h
    · refine Nat.le_of_eq ?_
      rw [State.starts, State.starts, hstart, hstop, hwork, Runner.working_of_ne hr]
    · rw [State.starts, State.starts, hstart, hstop, hwork, hr]
      exact Nat.le_add_right _ _

theorem State.waits_of_starts {s : State} (h : s.starts = 0) : ¬ s.runner.InClock := by
  intro hclock
  have hne : s.runner ≠ .waitStart := by
    intro hw
    rw [hw] at hclock
    exact hclock
  rw [starts, Runner.working_of_ne hne] at h
  omega

/-- What holds in every state that settled calls reach. -/
inductive State.Counted (s : State) : Prop
  | idle (n : Nat) (ho : s.owner = .idle) (h : s.starts ≤ n) (hc : Settled n s.calls)
  | starting (n : Nat) (ho : s.owner = .sendStart) (h : s.starts ≤ n)
      (hc : Settled (min (n + 1) 3) s.calls)
  | stopping (n : Nat) (ho : s.owner = .waitStop) (h : s.starts ≤ n + 1) (hc : Settled n s.calls)
  | stuck (ho : s.owner = .waitStop) (h : s.starts = 0)
  | stepping (ho : s.owner.InClock) (h : s.starts = 0) (hc : Settled 0 s.calls)

theorem State.Counted.exclusive {s : State} (h : s.Counted) :
    ¬ (s.runner.InClock ∧ s.owner.InClock) := by
  rintro ⟨hr, ho⟩
  cases h with
  | idle n hidle =>
    rw [hidle] at ho
    exact ho
  | starting n hstart =>
    rw [hstart] at ho
    exact ho
  | stopping n hwait =>
    rw [hwait] at ho
    exact ho
  | stuck hwait =>
    rw [hwait] at ho
    exact ho
  | stepping _ h => exact s.waits_of_starts h hr

theorem State.Counted.runnerStep {s t : State} (h : s.Counted) (hstep : runnerStep e s = some t) :
    t.Counted := by
  obtain ⟨howner, hcalls, -⟩ := runnerStep_keeps hstep
  have hle := runnerStep_starts hstep
  cases h with
  | idle n ho h hc =>
    rw [← hcalls] at hc
    exact .idle n (howner.trans ho) (Nat.le_trans hle h) hc
  | starting n ho h hc =>
    rw [← hcalls] at hc
    exact .starting n (howner.trans ho) (Nat.le_trans hle h) hc
  | stopping n ho h hc =>
    rw [← hcalls] at hc
    exact .stopping n (howner.trans ho) (Nat.le_trans hle h) hc
  | stuck ho h =>
    exact .stuck (howner.trans ho) (Nat.le_zero.mp (Nat.le_trans hle (Nat.le_of_eq h)))
  | stepping ho h hc =>
    rw [← hcalls] at hc
    rw [← howner] at ho
    exact .stepping ho (Nat.le_zero.mp (Nat.le_trans hle (Nat.le_of_eq h))) hc

theorem State.Counted.ownerStep {s t : State} (h : s.Counted) (hstep : ownerStep e s = some t) :
    t.Counted := by
  cases h with
  | idle n ho h hc =>
    obtain ⟨call, calls, hcalls, htc, hr, hs, ht, hcall⟩ := ownerStep_idle ho hstep
    have hstarts : t.starts = s.starts := by rw [starts, starts, hr, hs, ht]
    rw [← hstarts] at h
    rw [hcalls, ← htc] at hc
    cases call with
    | start => exact .starting n hcall.2.1 h hc
    | stop =>
      cases n with
      | zero => exact .stuck hcall.2.1 (Nat.le_zero.mp h)
      | succ n => exact .stopping n hcall.2.1 h hc
    | stepInto =>
      cases n with
      | zero =>
        refine .stepping ?_ (Nat.le_zero.mp h) hc
        rw [hcall.2.1]
        trivial
      | succ n => exact hc.elim
  | starting n ho h hc =>
    rw [ownerStep_sendStart ho] at hstep
    cases hstep
    refine .idle (min (n + 1) 3) rfl (Nat.le_min.mpr ⟨?_, State.starts_le _⟩) hc
    change 1 + s.runner.working + s.stopPending.toNat ≤ n + 1
    rw [State.starts] at h
    omega
  | stopping n ho h hc =>
    rw [ownerStep_waitStop ho] at hstep
    split at hstep
    · rename_i hstop
      cases hstep
      refine .idle n rfl ?_ hc
      change s.startPending.toNat + s.runner.working + 0 ≤ n
      rw [State.starts, hstop, Bool.toNat_true] at h
      exact Nat.le_of_succ_le_succ h
    · cases hstep
  | stuck ho h =>
    have hstop : s.stopPending = false := by
      rw [State.starts] at h
      exact Bool.toNat_eq_zero.mp (by omega)
    rw [ownerStep_waitStop ho, hstop] at hstep
    cases hstep
  | stepping ho h hc =>
    obtain ⟨hto, htc, hr, hs, ht⟩ := ownerStep_inClock ho hstep
    have hstarts : t.starts = s.starts := by rw [starts, starts, hr, hs, ht]
    rw [← hstarts] at h
    rw [← htc] at hc
    rcases hto with hto | hto
    · exact .idle 0 hto (Nat.le_of_eq h) hc
    · exact .stepping hto h hc

theorem exclusive_of_settled (h : Settled 0 calls) : Exclusive calls := by
  intro s hs
  apply State.Counted.exclusive
  induction hs with
  | refl => exact .idle 0 rfl (Nat.le_refl 0) h
  | tail _ hstep ih =>
    obtain ⟨e, hrunner | howner⟩ := hstep
    · exact ih.runnerStep hrunner
    · exact ih.ownerStep howner

inductive Turn where
  | runner (e : Clocked)
  | owner (e : Clocked)

def takeTurn : Turn → State → Option State
  | .runner e => runnerStep e
  | .owner e => ownerStep e

def takeTurns (turns : List Turn) (s : State) : Option State :=
  turns.foldlM (fun s turn => takeTurn turn s) s

theorem reaches_of_takeTurns (turns : List Turn) (h : takeTurns turns s = some t) :
    ReflTransGen Step s t := by
  induction turns generalizing s with
  | nil =>
    cases h
    exact .refl
  | cons turn turns ih =>
    obtain ⟨u, hu, h⟩ := Option.bind_eq_some_iff.mp h
    have hstep : Step s u := by
      cases turn with
      | runner e => exact ⟨e, .inl hu⟩
      | owner e => exact ⟨e, .inr hu⟩
    exact .head hstep (ih h)

abbrev runner : Turn := .runner (.passed true)

abbrev owner : Turn := .owner (.passed true)

def Phase.rest : Phase → Bool → List Call → State
  | .stopped, r, calls => { init calls with isRunned := r }
  | .started, _, calls =>
    { init calls with isRunned := true, startPending := true, started := true }
  -- the thread has stopped on its own, and its signal waits for a `Stop`
  | .restarted, _, calls =>
    { init calls with isRunned := true, startPending := true, stopPending := true, started := true }

theorem stopped_stepInto : ReflTransGen Step (Phase.stopped.rest r (.stepInto :: calls))
    (Phase.stopped.rest true calls) :=
  reaches_of_takeTurns [owner, .owner .threw] rfl

theorem stopped_start : ReflTransGen Step (Phase.stopped.rest r (.start :: calls))
    (Phase.started.rest true calls) :=
  reaches_of_takeTurns [owner, owner] rfl

theorem started_stop : ReflTransGen Step (Phase.started.rest r (.stop :: calls))
    (Phase.stopped.rest false calls) :=
  reaches_of_takeTurns [owner, runner, runner, runner, owner] rfl

/-- The thread meets an error and stops on its own, then comes the second `Start`. -/
theorem started_start : ReflTransGen Step (Phase.started.rest r (.start :: calls))
    (Phase.restarted.rest true calls) :=
  reaches_of_takeTurns
    [runner, runner, runner, .runner .threw, runner, runner, runner, owner, owner] rfl

theorem restarted_start : ReflTransGen Step (Phase.restarted.rest r (.start :: calls))
    (Phase.restarted.rest true calls) :=
  reaches_of_takeTurns [owner, owner] rfl

def State.MayShare (s : State) : Prop := ∃ t, ReflTransGen Step s t ∧ t.Shared

theorem State.MayShare.head {s t : State} (h : t.MayShare) (hst : ReflTransGen Step s t) :
    s.MayShare := by
  obtain ⟨u, hu, hshared⟩ := h
  exact ⟨u, hst.trans hu, hshared⟩

theorem started_stepInto : (Phase.started.rest r (.stepInto :: calls)).MayShare :=
  ⟨_, reaches_of_takeTurns [runner, runner, runner, owner] rfl, trivial, .inl trivial⟩

theorem restarted_stepInto : (Phase.restarted.rest r (.stepInto :: calls)).MayShare :=
  ⟨_, reaches_of_takeTurns [runner, runner, runner, owner] rfl, trivial, .inl trivial⟩

/-- The `Stop` takes the old signal for its own. -/
theorem restarted_stop : (Phase.restarted.rest r (.stop :: calls)).MayShare :=
  ⟨_, reaches_of_takeTurns [runner, runner, runner, owner, owner] rfl, trivial, .inr ⟨rfl, rfl⟩⟩

theorem mayShare_of_not_orderly (calls : List Call) (phase : Phase) (r : Bool)
    (h : ¬ Orderly phase calls) : (phase.rest r calls).MayShare := by
  induction calls generalizing phase r with
  | nil => exact absurd (by cases phase <;> trivial) h
  | cons call calls ih =>
    cases phase with
    | stopped =>
      cases call with
      | start => exact (ih .started true h).head stopped_start
      | stop => exact absurd trivial h
      | stepInto => exact (ih .stopped true h).head stopped_stepInto
    | started =>
      cases call with
      | start => exact (ih .restarted true h).head started_start
      | stop => exact (ih .stopped false h).head started_stop
      | stepInto => exact started_stepInto
    | restarted =>
      cases call with
      | start => exact (ih .restarted true h).head restarted_start
      | stop => exact restarted_stop
      | stepInto => exact restarted_stepInto

theorem neverShared_iff (calls : List Call) : NeverShared calls ↔ Orderly .stopped calls := by
  constructor
  · intro h
    refine Classical.byContradiction fun horderly => ?_
    obtain ⟨t, ht, hshared⟩ := mayShare_of_not_orderly calls .stopped false horderly
    exact h t ht hshared
  · exact neverShared_of_orderly

def left : Nat → (isRunned started : Bool) → List Call → State
  | 0, r, b, calls => { init calls with isRunned := r, started := b }
  | 1, r, b, calls => { init calls with isRunned := r, startPending := true, started := b }
  | 2, r, b, calls =>
    { init calls with isRunned := r, startPending := true, stopPending := true, started := b }
  | _ + 3, r, b, calls =>
    { init calls with
      isRunned := r, startPending := true, runner := .clock, stopPending := true, started := b }

def State.MayClash (s : State) : Prop :=
  ∃ t, ReflTransGen Step s t ∧ t.runner.InClock ∧ t.owner.InClock

theorem State.MayClash.head {s t : State} (h : t.MayClash) (hst : ReflTransGen Step s t) :
    s.MayClash := by
  obtain ⟨u, hu, hclash⟩ := h
  exact ⟨u, hst.trans hu, hclash⟩

theorem left_start (n : Nat) (r b : Bool) (calls : List Call) :
    ReflTransGen Step (left n r b (.start :: calls)) (left (min (n + 1) 3) true true calls) := by
  rcases n with _ | _ | _ | n
  · exact reaches_of_takeTurns [owner, owner] rfl
  · -- the thread stops on its own first, by the zero of an earlier `Stop` or by an error
    cases r with
    | false => exact reaches_of_takeTurns [runner, runner, runner, owner, owner] rfl
    | true =>
      exact reaches_of_takeTurns
        [runner, runner, runner, .runner .threw, runner, runner, runner, owner, owner] rfl
  · exact reaches_of_takeTurns [owner, runner, runner, runner, owner] rfl
  · rw [Nat.min_eq_right (by omega)]
    exact reaches_of_takeTurns [owner, owner] rfl

theorem left_stop (n : Nat) (r b : Bool) (calls : List Call) (hn : n < 3) :
    ReflTransGen Step (left (n + 1) r b (.stop :: calls)) (left n false false calls) := by
  rcases n with _ | _ | _ | n
  · exact reaches_of_takeTurns [owner, runner, runner, runner, owner] rfl
  · exact reaches_of_takeTurns [owner, owner] rfl
  · exact reaches_of_takeTurns [owner, owner, .runner .threw, runner, runner, runner] rfl
  · omega

theorem left_stepInto (n : Nat) (r b : Bool) (calls : List Call) :
    (left (n + 1) r b (.stepInto :: calls)).MayClash := by
  rcases n with _ | _ | n
  · exact ⟨_, reaches_of_takeTurns [owner, runner, runner, runner] rfl, trivial, trivial⟩
  · exact ⟨_, reaches_of_takeTurns [owner, runner, runner, runner] rfl, trivial, trivial⟩
  · exact ⟨_, reaches_of_takeTurns [owner] rfl, trivial, trivial⟩

theorem mayClash_of_not_settled (calls : List Call) (n : Nat) (r b : Bool) (hn : n ≤ 3)
    (h : ¬ Settled n calls) : (left n r b calls).MayClash := by
  induction calls generalizing n r b with
  | nil => exact absurd (by cases n <;> trivial) h
  | cons call calls ih =>
    cases call with
    | start =>
      exact (ih (min (n + 1) 3) true true (Nat.min_le_right _ _) (by cases n <;> exact h)).head
        (left_start n r b calls)
    | stop =>
      cases n with
      | zero => exact absurd trivial h
      | succ n => exact (ih n false false (Nat.le_of_lt hn) h).head (left_stop n r b calls hn)
    | stepInto =>
      cases n with
      | zero =>
        exact (ih 0 true b hn h).head (reaches_of_takeTurns [owner, .owner .threw] rfl)
      | succ n => exact left_stepInto n r b calls

/-- The owner and the simulation thread are never inside `SingleClock` at one time exactly if the
calls are settled; the thread never clocks a device that its owner steps or takes for stopped
exactly if they are orderly. -/
theorem exclusive_iff (calls : List Call) :
    (Exclusive calls ↔ Settled 0 calls) ∧ (NeverShared calls ↔ Orderly .stopped calls) := by
  refine ⟨⟨fun h => ?_, exclusive_of_settled⟩, neverShared_iff calls⟩
  refine Classical.byContradiction fun hsettled => ?_
  obtain ⟨t, ht, hclash⟩ := mayClash_of_not_settled calls 0 false false (Nat.zero_le 3) hsettled
  exact h t ht hclash

def runThread : List Clocked → State → State
  | [], s => s
  | e :: es, s => runThread es ((runnerStep e s).getD s)

/-- The stop signal comes after a bounded number of steps of the thread, however its clocks go. -/
def State.Answers (s : State) : Prop :=
  ∃ n, ∀ es, es.length = n → (runThread es s).stopPending = true

/-- The zero that `Stop` has written is still there, or will not be read. -/
def State.Ending (s : State) : Prop :=
  s.stopPending = true ∨
    match s.runner with
    | .waitStart => s.startPending = true ∧ s.isRunned = false
    | .testRunned | .loopHead | .clock | .clockEnd => s.isRunned = false
    -- what `&=` has read overwrites the zero
    | .breakAnd b r | .warnAnd b r => (r && b) = false
    | .exitCaught | .sendStop => True

def Runner.distance : Runner → Nat
  | .sendStop => 1
  | .testRunned => 2
  | .loopHead => 2
  | .exitCaught => 2
  | .waitStart => 3
  | .warnAnd _ _ => 3
  | .clockEnd => 4
  | .breakAnd _ _ => 5
  | .clock => 6

/-- A thread on its way to the signal comes nearer with each step. -/
theorem State.Ending.step {s : State} (h : s.Ending) (hs : s.stopPending = false) (e : Clocked) :
    ∃ t, runnerStep e s = some t ∧ t.Ending ∧
      (t.stopPending = true ∨ t.runner.distance < s.runner.distance) := by
  obtain ⟨isRunned, startPending, stopPending, runner, owner, calls, started⟩ := s
  obtain rfl : stopPending = false := hs
  rcases h with h | h
  · cases h
  cases runner with
  | waitStart =>
    obtain ⟨rfl, rfl⟩ : startPending = true ∧ isRunned = false := h
    exact ⟨_, rfl, .inr rfl, .inr (Nat.le_of_ble_eq_true rfl)⟩
  | testRunned =>
    obtain rfl : isRunned = false := h
    exact ⟨_, rfl, .inr trivial, .inr (Nat.le_of_ble_eq_true rfl)⟩
  | loopHead =>
    obtain rfl : isRunned = false := h
    exact ⟨_, rfl, .inr trivial, .inr (Nat.le_of_ble_eq_true rfl)⟩
  | clock =>
    obtain rfl : isRunned = false := h
    cases e with
    | passed b => exact ⟨_, rfl, .inr rfl, .inr (Nat.le_of_ble_eq_true rfl)⟩
    | threw => exact ⟨_, rfl, .inr rfl, .inr (Nat.le_of_ble_eq_true rfl)⟩
    | exited => exact ⟨_, rfl, .inr trivial, .inr (Nat.le_of_ble_eq_true rfl)⟩
  | breakAnd b r => exact ⟨_, rfl, .inr h, .inr (Nat.le_of_ble_eq_true rfl)⟩
  | clockEnd =>
    obtain rfl : isRunned = false := h
    cases e with
    | passed b => exact ⟨_, rfl, .inr rfl, .inr (Nat.le_of_ble_eq_true rfl)⟩
    | threw => exact ⟨_, rfl, .inr rfl, .inr (Nat.le_of_ble_eq_true rfl)⟩
    | exited => exact ⟨_, rfl, .inr trivial, .inr (Nat.le_of_ble_eq_true rfl)⟩
  | warnAnd b r => exact ⟨_, rfl, .inr h, .inr (Nat.le_of_ble_eq_true rfl)⟩
  | exitCaught => exact ⟨_, rfl, .inr trivial, .inr (Nat.le_of_ble_eq_true rfl)⟩
  | sendStop => exact ⟨_, rfl, .inl rfl, .inl rfl⟩

theorem stopPending_runThread (h : s.stopPending = true) :
    (runThread es s).stopPending = true := by
  induction es generalizing s with
  | nil => exact h
  | cons e es ih =>
    change (runThread es ((runnerStep e s).getD s)).stopPending = true
    refine ih ?_
    cases hstep : runnerStep e s with
    | none => exact h
    | some t =>
      change t.stopPending = true
      by_cases hw : s.runner = .waitStart
      · rw [runnerStep_of_wait hw] at hstep
        split at hstep <;> cases hstep
        exact h
      · obtain ⟨-, ⟨-, ht⟩ | ⟨-, ht⟩⟩ := runnerStep_works hw hstep
        · exact ht.trans h
        · exact ht

theorem State.Ending.run {s : State} (h : s.Ending) (hn : s.runner.distance ≤ es.length) :
    (runThread es s).stopPending = true := by
  induction es generalizing s with
  | nil =>
    have hpos : 0 < s.runner.distance := by cases s.runner <;> exact Nat.succ_pos _
    exact absurd hpos (Nat.not_lt.mpr hn)
  | cons e es ih =>
    cases hs : s.stopPending with
    | true => exact stopPending_runThread hs
    | false =>
      obtain ⟨t, hstep, ht, hnear⟩ := h.step hs e
      have hrun : runThread (e :: es) s = runThread es t := by
        rw [runThread, hstep]
        rfl
      rw [hrun]
      rcases hnear with hnear | hnear
      · exact stopPending_runThread hnear
      · exact ih ht (Nat.le_of_lt_succ (Nat.lt_of_lt_of_le hnear hn))

theorem State.Ending.of_step {s t : State} (h : runnerStep (.passed true) s = some t)
    (ht : t.Ending) : s.Ending := by
  obtain ⟨isRunned, startPending, stopPending, runner, owner, calls, started⟩ := s
  cases stopPending with
  | true => exact .inl rfl
  | false =>
    refine .inr ?_
    cases runner with
    | waitStart =>
      cases startPending with
      | true =>
        cases h
        exact ⟨rfl, ht.resolve_left nofun⟩
      | false => cases h
    | testRunned =>
      cases h
      cases isRunned with
      | true => exact ht.resolve_left nofun
      | false => rfl
    | loopHead =>
      cases h
      cases isRunned with
      | true => exact ht.resolve_left nofun
      | false => rfl
    | clock =>
      cases h
      have hread : (isRunned && true) = false := ht.resolve_left nofun
      rwa [Bool.and_true] at hread
    | breakAnd b r =>
      cases h
      exact ht.resolve_left nofun
    | clockEnd =>
      cases h
      have hread : (isRunned && true) = false := ht.resolve_left nofun
      rwa [Bool.and_true] at hread
    | warnAnd b r =>
      cases h
      exact ht.resolve_left nofun
    | exitCaught => trivial
    | sendStop => trivial

theorem State.Ending.of_run {s : State} (n : Nat)
    (h : (runThread (List.replicate n (.passed true)) s).Ending) : s.Ending := by
  induction n generalizing s with
  | zero => exact h
  | succ n ih =>
    have hnext : ((runnerStep (.passed true) s).getD s).Ending := ih h
    cases hstep : runnerStep (.passed true) s with
    | none =>
      rw [hstep] at hnext
      exact hnext
    | some t =>
      rw [hstep] at hnext
      exact hnext.of_step hstep

theorem answers_iff {s : State} : s.Answers ↔ s.Ending := by
  constructor
  · rintro ⟨n, h⟩
    exact .of_run n (.inl (h _ List.length_replicate))
  · intro h
    exact ⟨s.runner.distance, fun es hes => h.run (Nat.le_of_eq hes.symm)⟩

def State.MayHang (s : State) : Prop :=
  ∃ t, ReflTransGen Step s t ∧ t.owner = .waitStop ∧ ¬ t.Ending

theorem State.MayHang.head {s t : State} (h : t.MayHang) (hst : ReflTransGen Step s t) :
    s.MayHang := by
  obtain ⟨u, hu, hangs⟩ := h
  exact ⟨u, hst.trans hu, hangs⟩

def reading (r startPending : Bool) (calls : List Call) : State :=
  { init calls with
    isRunned := r, startPending := startPending, runner := .breakAnd true true, started := true }

theorem reading_mayHang (calls : List Call) (r startPending : Bool) (h : Call.stop ∈ calls) :
    (reading r startPending calls).MayHang := by
  induction calls generalizing r startPending with
  | nil => cases h
  | cons call calls ih =>
    cases call with
    | start =>
      have hcalls := (List.mem_cons.mp h).resolve_left nofun
      exact (ih true true hcalls).head (reaches_of_takeTurns [owner, owner] rfl)
    | stop =>
      refine ⟨_, reaches_of_takeTurns [owner] rfl, rfl, ?_⟩
      rintro (h | h) <;> cases h
    | stepInto =>
      have hcalls := (List.mem_cons.mp h).resolve_left nofun
      exact (ih true startPending hcalls).head (reaches_of_takeTurns [owner, .owner .threw] rfl)

theorem stopped_mayHang (calls : List Call) (r : Bool) (h : Call.stop ∈ calls) :
    (Phase.stopped.rest r calls).MayHang := by
  induction calls generalizing r with
  | nil => cases h
  | cons call calls ih =>
    cases call with
    | start =>
      have hcalls := (List.mem_cons.mp h).resolve_left nofun
      exact (reading_mayHang calls true false hcalls).head
        (reaches_of_takeTurns [owner, owner, runner, runner, runner, runner] rfl)
    | stop =>
      refine ⟨_, reaches_of_takeTurns [owner] rfl, rfl, ?_⟩
      rintro (h | ⟨h, -⟩) <;> cases h
    | stepInto =>
      have hcalls := (List.mem_cons.mp h).resolve_left nofun
      exact (ih true hcalls).head stopped_stepInto

theorem ownerStep_noStop (hc : Call.stop ∉ s.calls) (ho : s.owner ≠ .waitStop)
    (h : ownerStep e s = some t) : Call.stop ∉ t.calls ∧ t.owner ≠ .waitStop := by
  by_cases hi : s.owner = .idle
  · obtain ⟨call, calls, hcalls, htc, -, -, -, hcall⟩ := ownerStep_idle hi h
    rw [hcalls, List.mem_cons, not_or] at hc
    rw [htc]
    refine ⟨hc.2, ?_⟩
    cases call with
    | start =>
      rw [hcall.2.1]
      nofun
    | stop => exact absurd rfl hc.1
    | stepInto =>
      rw [hcall.2.1]
      nofun
  · unfold ownerStep at h
    split at h
    · exact absurd ‹s.owner = .idle› hi
    · cases h
      exact ⟨hc, nofun⟩
    · exact absurd ‹s.owner = .waitStop› ho
    · split at h <;> cases h <;> exact ⟨hc, nofun⟩
    · cases h
      exact ⟨hc, nofun⟩
    · split at h <;> cases h <;> exact ⟨hc, nofun⟩

/-- A waiting `Stop` is answered exactly if its zero reaches the thread. The only calls that never
lose one are those without a `Stop`: the thread may be between reading and writing `IsRunned`. -/
theorem stop_answered_iff (calls : List Call) :
    (∀ s, ReflTransGen Step (init calls) s → (s.Answers ↔ s.Ending)) ∧
      ((∀ s, ReflTransGen Step (init calls) s → s.owner = .waitStop → s.Answers) ↔
        Call.stop ∉ calls) := by
  refine ⟨fun s _ => answers_iff, ?_, ?_⟩
  · intro h hstop
    obtain ⟨t, ht, howner, hending⟩ := stopped_mayHang calls false hstop
    exact hending (answers_iff.mp (h t ht howner))
  · intro hstop s hs
    have hkept : Call.stop ∉ s.calls ∧ s.owner ≠ .waitStop := by
      induction hs with
      | refl => exact ⟨hstop, nofun⟩
      | tail _ hstep ih =>
        obtain ⟨e, hrunner | howner⟩ := hstep
        · obtain ⟨ho, hc, -⟩ := runnerStep_keeps hrunner
          rw [ho, hc]
          exact ih
        · exact ownerStep_noStop ih.1 ih.2 howner
    exact fun howner => absurd howner hkept.2

end SimThread

end GvmCore
