import Mathlib.Logic.Basic
import Mathlib.Order.Basic

namespace GvmCore
set_option autoImplicit true

/-- What a piece of imperative code does: it returns, it unwinds out of the whole run, or it
leaves the behaviour its language defines. -/
inductive Outcome (φ σ α : Type) where
  | ok (a : α) (s : σ)
  | exit (s : σ)
  | fault (f : φ)

def Outcome.into (next : α → σ → τ) (halted : σ → τ) : Outcome φ σ α → Outcome φ τ Unit
  | .ok a s => .ok () (next a s)
  | .exit s => .exit (halted s)
  | .fault f => .fault f

def Outcome.get (d : σ) : Outcome φ σ α → σ
  | .ok _ s => s
  | .exit s => s
  | .fault _ => d

def Outcome.value : Outcome φ σ α → Option α
  | .ok a _ => some a
  | _ => none

def Outcome.isOk : Outcome φ σ α → Bool
  | .ok _ _ => true
  | _ => false

def Outcome.isExit : Outcome φ σ α → Bool
  | .exit _ => true
  | _ => false

def Outcome.error : Outcome φ σ α → Option φ
  | .fault f => some f
  | _ => none

theorem Outcome.eq_ok_of_isOk {r : Outcome φ σ Unit} (h : r.isOk = true) :
    r = .ok () (r.get d) := by
  cases r with
  | ok _ s => rfl
  | exit s => cases h
  | fault f => cases h

theorem Outcome.eq_ok_of_value {r : Outcome φ σ α} (h : r.value = some a) : ∃ s, r = .ok a s := by
  cases r with
  | ok b s =>
    cases h
    exact ⟨s, rfl⟩
  | exit s => cases h
  | fault f => cases h

theorem Outcome.eq_exit_of_isExit {r : Outcome φ σ α} (h : r.isExit = true) :
    r = .exit (r.get d) := by
  cases r with
  | ok a s => cases h
  | exit s => rfl
  | fault f => cases h

theorem Outcome.eq_fault_of_error {r : Outcome φ σ α} (h : r.error = some f) : r = .fault f := by
  cases r with
  | ok a s => cases h
  | exit s => cases h
  | fault g =>
    cases h
    rfl

section Into

variable {next : α → σ → τ} {halted : σ → τ} {r : Outcome φ σ α}

theorem Outcome.into_eq_ok : r.into next halted = .ok u t ↔ ∃ a s, r = .ok a s ∧ next a s = t := by
  cases r <;> simp [into, and_assoc]

theorem Outcome.into_eq_exit : r.into next halted = .exit t ↔ ∃ s, r = .exit s ∧ halted s = t := by
  cases r <;> simp [into]

theorem Outcome.into_eq_fault : r.into next halted = .fault f ↔ r = .fault f := by
  cases r <;> simp [into]

end Into

def Exec (φ σ α : Type) := σ → Outcome φ σ α

namespace Exec

def bind (m : Exec φ σ α) (f : α → Exec φ σ β) : Exec φ σ β := fun s =>
  match m s with
  | .ok a t => f a t
  | .exit t => .exit t
  | .fault e => .fault e

instance : Monad (Exec φ σ) where
  pure a := fun s => .ok a s
  bind := bind

def read (f : σ → α) : Exec φ σ α := fun s => .ok (f s) s

def update (f : σ → σ) : Exec φ σ Unit := fun s => .ok () (f s)

def exit : Exec φ σ α := fun s => .exit s

def fault (e : φ) : Exec φ σ α := fun _ => .fault e

def iterate (m : Exec φ σ Unit) : Nat → Exec φ σ Unit
  | 0 => pure ()
  | n + 1 => do
    m
    iterate m n

def onComponent (proj : σ → τ) (put : σ → τ → σ) (m : Exec φ τ α) : Exec φ σ α := fun s =>
  match m (proj s) with
  | .ok a t => .ok a (put s t)
  | .exit t => .exit (put s t)
  | .fault e => .fault e

def mapFault (g : φ → ψ) (m : Exec φ σ α) : Exec ψ σ α := fun s =>
  match m s with
  | .ok a t => .ok a t
  | .exit t => .exit t
  | .fault e => .fault (g e)

theorem bind_def (m : Exec φ σ α) (f : α → Exec φ σ β) (s : σ) :
    (m >>= f) s = match m s with
      | .ok a t => f a t
      | .exit t => .exit t
      | .fault e => .fault e := rfl

instance : LawfulMonad (Exec φ σ) := by
  refine LawfulMonad.mk' _ ?_ ?_ ?_
  · intro α m
    funext s
    change (m >>= pure) s = m s
    rw [bind_def]
    cases m s <;> rfl
  · intro α β a f
    rfl
  · intro α β γ m f g
    funext s
    simp only [bind_def]
    cases m s <;> rfl

@[simp] theorem pure_apply (a : α) (s : σ) : (pure a : Exec φ σ α) s = .ok a s := rfl

@[simp] theorem read_apply (f : σ → α) (s : σ) : (read f : Exec φ σ α) s = .ok (f s) s := rfl

@[simp] theorem update_apply (f : σ → σ) (s : σ) :
    (update f : Exec φ σ Unit) s = .ok () (f s) := rfl

@[simp] theorem exit_apply (s : σ) : (exit : Exec φ σ α) s = .exit s := rfl

@[simp] theorem fault_apply (e : φ) (s : σ) : (fault e : Exec φ σ α) s = .fault e := rfl

theorem mapFault_of_ok {g : φ → ψ} {m : Exec φ σ α} (h : m s = .ok a t) :
    mapFault g m s = .ok a t := by
  rw [mapFault, h]

theorem bind_of_ok {m : Exec φ σ α} {f : α → Exec φ σ β} (h : m s = .ok a t) :
    (m >>= f) s = f a t := by
  rw [bind_def, h]

theorem bind_of_exit {m : Exec φ σ α} {f : α → Exec φ σ β} (h : m s = .exit t) :
    (m >>= f) s = .exit t := by
  rw [bind_def, h]

theorem bind_of_fault {m : Exec φ σ α} {f : α → Exec φ σ β} (h : m s = .fault e) :
    (m >>= f) s = .fault e := by
  rw [bind_def, h]

theorem bind_eq_ok {m : Exec φ σ α} {f : α → Exec φ σ β} :
    (m >>= f) s = .ok b u ↔ ∃ a t, m s = .ok a t ∧ f a t = .ok b u := by
  rw [bind_def]
  cases h : m s with
  | ok a t => simp [and_assoc]
  | exit t => simp
  | fault e => simp

theorem bind_eq_exit {m : Exec φ σ α} {f : α → Exec φ σ β} :
    (m >>= f) s = .exit u ↔ m s = .exit u ∨ ∃ a t, m s = .ok a t ∧ f a t = .exit u := by
  rw [bind_def]
  cases h : m s with
  | ok a t => simp [and_assoc]
  | exit t => simp
  | fault e => simp

theorem bind_eq_fault {m : Exec φ σ α} {f : α → Exec φ σ β} :
    (m >>= f) s = .fault e ↔ m s = .fault e ∨ ∃ a t, m s = .ok a t ∧ f a t = .fault e := by
  rw [bind_def]
  cases h : m s with
  | ok a t => simp [and_assoc]
  | exit t => simp
  | fault e => simp

theorem foldlM_congr {f g : β → ι → Exec φ σ β} {l : List ι} (h : ∀ i ∈ l, ∀ b, f b i = g b i)
    (b : β) : l.foldlM f b = l.foldlM g b := by
  induction l generalizing b with
  | nil => rfl
  | cons i l ih =>
    rw [List.foldlM_cons, List.foldlM_cons, h i List.mem_cons_self]
    exact congrArg _ (funext fun b' => ih (fun j hj => h j (List.mem_cons_of_mem i hj)) b')

theorem mapM_ok_of_mem {f : ι → Exec φ σ β} {l : List ι} (h : l.mapM f s = .ok bs t) (hi : i ∈ l) :
    ∃ u b v, f i u = .ok b v := by
  induction l generalizing s bs t with
  | nil => cases hi
  | cons j l ih =>
    rw [List.mapM_cons] at h
    obtain ⟨b, s', hj, hrest⟩ := bind_eq_ok.mp h
    obtain ⟨_, _, hrest, -⟩ := bind_eq_ok.mp hrest
    rcases List.mem_cons.mp hi with rfl | hi
    · exact ⟨s, b, s', hj⟩
    · exact ih hrest hi

theorem forM_ok_of_mem {f : ι → Exec φ σ Unit} {l : List ι} (h : l.forM f s = .ok r t)
    (hi : i ∈ l) : ∃ u b v, f i u = .ok b v := by
  induction l generalizing s with
  | nil => cases hi
  | cons j l ih =>
    obtain ⟨b, s', hj, hrest⟩ := bind_eq_ok.mp h
    rcases List.mem_cons.mp hi with rfl | hi
    · exact ⟨s, b, s', hj⟩
    · exact ih hrest hi

def NoExit (m : Exec φ σ α) : Prop := ∀ s t, m s ≠ .exit t

/-- Whatever goes wrong is one of the faults `P`. -/
def FaultsIn (P : φ → Prop) (m : Exec φ σ α) : Prop := ∀ s f, m s = .fault f → P f

namespace FaultsIn

variable {P : φ → Prop}

theorem pure (a : α) : FaultsIn P (pure a : Exec φ σ α) := fun _ _ h => by cases h

theorem read (f : σ → α) : FaultsIn P (read f : Exec φ σ α) := fun _ _ h => by cases h

theorem update (f : σ → σ) : FaultsIn P (update f : Exec φ σ Unit) := fun _ _ h => by cases h

theorem exit : FaultsIn P (exit : Exec φ σ α) := fun _ _ h => by cases h

theorem bind {m : Exec φ σ α} {f : α → Exec φ σ β} (hm : FaultsIn P m)
    (hf : ∀ a, FaultsIn P (f a)) :
    FaultsIn P (m >>= f) := by
  intro s e h
  rcases bind_eq_fault.mp h with h | ⟨a, u, -, h⟩
  · exact hm s e h
  · exact hf a u e h

theorem ite {c : Prop} [Decidable c] {m n : Exec φ σ α} (hm : FaultsIn P m) (hn : FaultsIn P n) :
    FaultsIn P (if c then m else n) := by
  split
  · exact hm
  · exact hn

end FaultsIn

/-- Where the code unwinds, the state satisfies `P`. -/
def ExitsIn (P : σ → Prop) (m : Exec φ σ α) : Prop := ∀ s t, m s = .exit t → P t

namespace ExitsIn

variable {P : σ → Prop}

theorem pure (a : α) : ExitsIn P (pure a : Exec φ σ α) := fun _ _ h => by cases h

theorem read (f : σ → α) : ExitsIn P (read f : Exec φ σ α) := fun _ _ h => by cases h

theorem update (f : σ → σ) : ExitsIn P (update f : Exec φ σ Unit) := fun _ _ h => by cases h

theorem fault (e : φ) : ExitsIn P (fault e : Exec φ σ α) := fun _ _ h => by cases h

theorem bind {m : Exec φ σ α} {f : α → Exec φ σ β} (hm : ExitsIn P m) (hf : ∀ a, ExitsIn P (f a)) :
    ExitsIn P (m >>= f) := by
  intro s t h
  rcases bind_eq_exit.mp h with h | ⟨a, u, -, h⟩
  · exact hm s t h
  · exact hf a u t h

theorem ite {c : Prop} [Decidable c] {m n : Exec φ σ α} (hm : ExitsIn P m) (hn : ExitsIn P n) :
    ExitsIn P (if c then m else n) := by
  split
  · exact hm
  · exact hn

end ExitsIn

/-- What `f` sees of the state is the same where the code returns. -/
def Keeps (f : σ → τ) (m : Exec φ σ α) : Prop := ∀ s a t, m s = .ok a t → f t = f s

namespace Keeps

variable {f : σ → τ}

theorem pure (a : α) : Keeps f (pure a : Exec φ σ α) := fun _ _ _ h => by
  cases h
  rfl

theorem read (g : σ → α) : Keeps f (read g : Exec φ σ α) := fun _ _ _ h => by
  cases h
  rfl

theorem update {g : σ → σ} (hg : ∀ s, f (g s) = f s) : Keeps f (update g : Exec φ σ Unit) :=
  fun s _ _ h => by
    cases h
    exact hg s

theorem fault (e : φ) : Keeps f (fault e : Exec φ σ α) := fun _ _ _ h => by cases h

theorem bind {m : Exec φ σ α} {g : α → Exec φ σ β} (hm : Keeps f m) (hg : ∀ a, Keeps f (g a)) :
    Keeps f (m >>= g) := by
  intro s b t h
  obtain ⟨a, u, hu, ht⟩ := bind_eq_ok.mp h
  exact (hg a u b t ht).trans (hm s a u hu)

theorem ite {c : Prop} [Decidable c] {m n : Exec φ σ α} (hm : Keeps f m) (hn : Keeps f n) :
    Keeps f (if c then m else n) := by
  split
  · exact hm
  · exact hn

end Keeps

/-- The code returns, unless one of the faults `P` happens. -/
structure ReturnsOr (P : φ → Prop) (m : Exec φ σ α) : Prop where
  noExit : NoExit m
  faultsIn : FaultsIn P m

namespace ReturnsOr

variable {P Q : φ → Prop}

theorem pure (a : α) : ReturnsOr P (pure a : Exec φ σ α) := ⟨fun _ _ h => (by cases h), .pure a⟩

theorem read (f : σ → α) : ReturnsOr P (read f : Exec φ σ α) := ⟨fun _ _ h => (by cases h), .read f⟩

theorem update (f : σ → σ) : ReturnsOr P (update f : Exec φ σ Unit) :=
  ⟨fun _ _ h => (by cases h), .update f⟩

theorem fault (he : P e) : ReturnsOr P (fault e : Exec φ σ α) where
  noExit := fun _ _ h => by cases h
  faultsIn := fun _ _ h => by
    cases h
    exact he

theorem bind {m : Exec φ σ α} {f : α → Exec φ σ β} (hm : ReturnsOr P m)
    (hf : ∀ a, ReturnsOr P (f a)) : ReturnsOr P (m >>= f) where
  noExit := by
    intro s t h
    rcases bind_eq_exit.mp h with h | ⟨a, u, -, h⟩
    · exact hm.noExit s t h
    · exact (hf a).noExit u t h
  faultsIn := hm.faultsIn.bind fun a => (hf a).faultsIn

theorem ite {c : Prop} [Decidable c] {m n : Exec φ σ α} (hm : ReturnsOr P m) (hn : ReturnsOr P n) :
    ReturnsOr P (if c then m else n) := by
  split
  · exact hm
  · exact hn

theorem foldlM {f : β → ι → Exec φ σ β} (hf : ∀ b i, ReturnsOr P (f b i)) (l : List ι) (b : β) :
    ReturnsOr P (l.foldlM f b) := by
  induction l generalizing b with
  | nil => exact .pure b
  | cons i l ih =>
    rw [List.foldlM_cons]
    exact (hf b i).bind ih

theorem mapM {f : ι → Exec φ σ β} (hf : ∀ i, ReturnsOr P (f i)) (l : List ι) :
    ReturnsOr P (l.mapM f) := by
  induction l with
  | nil => exact .pure []
  | cons i l ih =>
    rw [List.mapM_cons]
    exact (hf i).bind fun _ => ih.bind fun _ => .pure _

theorem mono {m : Exec φ σ α} (h : ReturnsOr P m) (hPQ : ∀ f, P f → Q f) : ReturnsOr Q m :=
  ⟨h.noExit, fun s f hf => hPQ f (h.faultsIn s f hf)⟩

end ReturnsOr

section Iterate

variable {m : Exec φ σ Unit}

@[simp] theorem iterate_zero (s : σ) : iterate m 0 s = .ok () s := rfl

theorem iterate_succ_eq_ok :
    iterate m (n + 1) s = .ok u t ↔ ∃ s', m s = .ok () s' ∧ iterate m n s' = .ok u t := by
  simp only [iterate, bind_eq_ok]
  constructor
  · rintro ⟨_, s', hs, h⟩
    exact ⟨s', hs, h⟩
  · rintro ⟨s', hs, h⟩
    exact ⟨(), s', hs, h⟩

/-- The last round of a run, instead of the first. -/
theorem iterate_succ_eq_ok_last :
    iterate m (n + 1) s = .ok u t ↔ ∃ s', iterate m n s = .ok () s' ∧ m s' = .ok u t := by
  induction n generalizing s with
  | zero => simp [iterate_succ_eq_ok]
  | succ n ih =>
    rw [iterate_succ_eq_ok]
    simp only [ih, iterate_succ_eq_ok (n := n)]
    constructor
    · rintro ⟨s', hs, s'', hn, h⟩
      exact ⟨s'', ⟨s', hs, hn⟩, h⟩
    · rintro ⟨s'', ⟨s', hs, hn⟩, h⟩
      exact ⟨s', hs, s'', hn, h⟩

/-- A run that unwinds does so in one round, after rounds that all return. -/
theorem iterate_eq_exit :
    iterate m n s = .exit t ↔ ∃ k < n, ∃ s', iterate m k s = .ok () s' ∧ m s' = .exit t := by
  induction n generalizing s with
  | zero => simp
  | succ n ih =>
    simp only [iterate, bind_eq_exit]
    constructor
    · rintro (h | ⟨_, s', hs, h⟩)
      · exact ⟨0, by omega, s, rfl, h⟩
      · obtain ⟨k, hk, s'', hs'', h⟩ := ih.mp h
        exact ⟨k + 1, by omega, s'', iterate_succ_eq_ok.mpr ⟨s', hs, hs''⟩, h⟩
    · rintro ⟨k, hk, s'', hs'', h⟩
      match k with
      | 0 =>
        cases hs''
        exact .inl h
      | k + 1 =>
        obtain ⟨s', hs, hs''⟩ := iterate_succ_eq_ok.mp hs''
        exact .inr ⟨(), s', hs, ih.mpr ⟨k, by omega, s'', hs'', h⟩⟩

theorem iterate_add_eq_ok (h : iterate m (n + k) s = .ok () t) : ∃ u, iterate m n s = .ok () u := by
  induction k generalizing t with
  | zero => exact ⟨t, h⟩
  | succ k ih =>
    obtain ⟨t', ht', -⟩ := iterate_succ_eq_ok_last.mp h
    exact ih ht'

end Iterate

/-- A run that has returned from each of its rounds: the states they started in, the last one
first, and the state reached. -/
inductive Run (m : Exec φ σ Unit) (s : σ) : List σ → σ → Prop
  | start : Run m s [] s
  | step : Run m s hist t → m t = .ok () u → Run m s (t :: hist) u

def after (m : Exec φ σ Unit) (s : σ) (n : Nat) : σ := (iterate m n s).get s

section After

variable {m : Exec φ σ Unit}

theorem isOk_of_succ (h : (iterate m (n + 1) s).isOk = true) : (iterate m n s).isOk = true := by
  have hok : iterate m (n + 1) s = .ok () (after m s (n + 1)) := Outcome.eq_ok_of_isOk h
  obtain ⟨t, ht, -⟩ := iterate_succ_eq_ok_last.mp hok
  rw [ht]
  rfl

theorem step_after (h : (iterate m (n + 1) s).isOk = true) :
    m (after m s n) = .ok () (after m s (n + 1)) := by
  have hok : iterate m (n + 1) s = .ok () (after m s (n + 1)) := Outcome.eq_ok_of_isOk h
  obtain ⟨t, ht, hstep⟩ := iterate_succ_eq_ok_last.mp hok
  have hafter : after m s n = t := by rw [after, ht]; rfl
  rw [hafter]
  exact hstep

end After

namespace Run

variable {m : Exec φ σ Unit}

theorem of_iterate (h : iterate m n s = .ok () t) : ∃ hist, hist.length = n ∧ Run m s hist t := by
  induction n generalizing t with
  | zero =>
    cases h
    exact ⟨[], rfl, .start⟩
  | succ n ih =>
    obtain ⟨s', hs', ht⟩ := iterate_succ_eq_ok_last.mp h
    obtain ⟨hist, hlen, hrun⟩ := ih hs'
    exact ⟨s' :: hist, congrArg (· + 1) hlen, hrun.step ht⟩

theorem iterate_eq (h : Run m s hist t) : iterate m hist.length s = .ok () t := by
  induction h with
  | start => rfl
  | step _ ht ih => exact iterate_succ_eq_ok_last.mpr ⟨_, ih, ht⟩

theorem ends_iff (h : Run m s hist t) :
    (∃ u, ∀ k, iterate m (hist.length + 1 + k) s = .exit u) ↔ ∃ u, m t = .exit u := by
  constructor
  · rintro ⟨u, hu⟩
    obtain ⟨k, hk, t', ht', hexit⟩ := iterate_eq_exit.mp (hu 0)
    by_cases hlast : k = hist.length
    · subst hlast
      rw [h.iterate_eq] at ht'
      cases ht'
      exact ⟨u, hexit⟩
    · have hbefore := iterate_eq_exit.mpr ⟨k, show k < hist.length by omega, t', ht', hexit⟩
      rw [h.iterate_eq] at hbefore
      cases hbefore
  · rintro ⟨u, hu⟩
    exact ⟨u, fun k => iterate_eq_exit.mpr ⟨hist.length, by omega, t, h.iterate_eq, hu⟩⟩

theorem invariant {I : σ → Prop} (h : Run m s hist t) (hs : I s)
    (hm : ∀ t u, I t → m t = .ok () u → I u) : I t := by
  induction h with
  | start => exact hs
  | step _ ht ih => exact hm _ _ ih ht

theorem trans (h : Run m s hist t) (h' : Run m t hist' u) : Run m s (hist' ++ hist) u := by
  induction h' with
  | start => exact h
  | step _ hu ih => exact .step ih hu

theorem of_isOk (h : (iterate m n s).isOk = true) :
    Run m s ((List.range n).reverse.map (after m s)) (after m s n) := by
  induction n with
  | zero => exact .start
  | succ n ih =>
    rw [List.range_succ, List.reverse_append, List.map_append]
    exact .step (ih (isOk_of_succ h)) (step_after h)

theorem of_mem (h : Run m s hist t) (hu : u ∈ hist) :
    ∃ hist', Run m s hist' u ∧ ∀ v ∈ hist', v ∈ hist := by
  induction h with
  | start => cases hu
  | step hrun _ ih =>
    rcases List.mem_cons.mp hu with rfl | hu
    · exact ⟨_, hrun, fun v hv => List.mem_cons_of_mem _ hv⟩
    · obtain ⟨hist', hrun', hsub⟩ := ih hu
      exact ⟨hist', hrun', fun v hv => List.mem_cons_of_mem _ (hsub v hv)⟩

theorem eq_of_length (h : Run m s hist t) (h' : Run m s hist' t')
    (hlen : hist'.length = hist.length) : t' = t ∧ hist' = hist := by
  induction h generalizing hist' t' with
  | start =>
    cases h' with
    | start => exact ⟨rfl, rfl⟩
    | step => cases hlen
  | step _ ht ih =>
    cases h' with
    | start => cases hlen
    | step hrun' ht' =>
      obtain ⟨rfl, rfl⟩ := ih hrun' (Nat.succ.inj hlen)
      rw [ht] at ht'
      cases ht'
      exact ⟨rfl, rfl⟩

theorem mem_of_length_lt (h : Run m s hist t) (h' : Run m s hist' t')
    (hlen : hist'.length < hist.length) : t' ∈ hist := by
  induction h with
  | start => cases hlen
  | @step hist u t hrun _ ih =>
    by_cases hlast : hist'.length = hist.length
    · obtain ⟨rfl, -⟩ := hrun.eq_of_length h' hlast
      exact List.mem_cons_self
    · rw [List.length_cons] at hlen
      exact List.mem_cons_of_mem _ (ih (by omega))

/-- What holds in every state reached in less than `n` rounds holds all through a run of `n`. -/
theorem forall_mem (h : Run m s hist t) {P : σ → Prop} (hn : hist.length ≤ n)
    (hP : ∀ hist' t', Run m s hist' t' → hist'.length < n → P t') : ∀ u ∈ hist, P u := by
  induction h with
  | start => simp
  | @step hist u t hrun _ ih =>
    rw [List.length_cons] at hn
    exact List.forall_mem_cons.mpr ⟨hP hist u hrun (by omega), ih (by omega)⟩

/-- A run goes on as long as each of its states has a next one. -/
theorem exists_of_forall (hP : ∀ hist t, Run m s hist t → hist.length < n → ∃ u, m t = .ok () u)
    (hk : k ≤ n) : ∃ hist t, Run m s hist t ∧ hist.length = k := by
  induction k with
  | zero => exact ⟨[], s, .start, rfl⟩
  | succ k ih =>
    obtain ⟨hist, t, hrun, hlen⟩ := ih (by omega)
    obtain ⟨u, hu⟩ := hP hist t hrun (by omega)
    exact ⟨t :: hist, u, hrun.step hu, by rw [List.length_cons, hlen]⟩

theorem step_of_mem (h : Run m s hist t) (hu : u ∈ hist) : ∃ v, m u = .ok () v := by
  induction h with
  | start => cases hu
  | step _ ht ih =>
    rcases List.mem_cons.mp hu with rfl | hu
    · exact ⟨_, ht⟩
    · exact ih hu

theorem last_unique (h : Run m s hist t) (h' : Run m s hist' t') (ht : ∀ u, m t ≠ .ok () u)
    (ht' : ∀ u, m t' ≠ .ok () u) : t = t' := by
  have hle : ∀ {hist hist' t t'}, Run m s hist t → Run m s hist' t' → (∀ u, m t ≠ .ok () u) →
      hist'.length ≤ hist.length := by
    intro hist hist' t t' h h' ht
    by_contra hlt
    obtain ⟨k, hk⟩ : ∃ k, hist'.length = hist.length + 1 + k :=
      ⟨_, (Nat.add_sub_of_le (by omega)).symm⟩
    have hok := h'.iterate_eq
    rw [hk] at hok
    obtain ⟨u, hu⟩ := iterate_add_eq_ok hok
    obtain ⟨t'', ht'', hstep⟩ := iterate_succ_eq_ok_last.mp hu
    rw [h.iterate_eq] at ht''
    cases ht''
    exact ht u hstep
  have heq := h'.iterate_eq
  rw [Nat.le_antisymm (hle h h' ht) (hle h' h ht'), h.iterate_eq] at heq
  cases heq
  rfl

theorem exit_unique (h : iterate m n s = .exit t) (h' : iterate m n' s = .exit t') : t = t' := by
  obtain ⟨k, -, u, hu, hexit⟩ := iterate_eq_exit.mp h
  obtain ⟨k', -, u', hu', hexit'⟩ := iterate_eq_exit.mp h'
  obtain ⟨hist, -, hrun⟩ := of_iterate hu
  obtain ⟨hist', -, hrun'⟩ := of_iterate hu'
  have heq := hrun.last_unique hrun' (by simp [hexit]) (by simp [hexit'])
  rw [heq, hexit'] at hexit
  cases hexit
  rfl

theorem eq_after (h : Run m s hist t) (hexit : (iterate m n s).isExit = true) :
    hist.length < n ∧ t = after m s hist.length := by
  have hok := h.iterate_eq
  constructor
  · by_contra hle
    obtain ⟨k, hk⟩ := Nat.exists_eq_add_of_le (Nat.le_of_not_lt hle)
    rw [hk] at hok
    obtain ⟨u, hu⟩ := iterate_add_eq_ok hok
    rw [hu] at hexit
    cases hexit
  · rw [after, hok]
    rfl

theorem forall_of_isExit {P : σ → Prop} (hexit : (iterate m n s).isExit = true)
    (h : ∀ k < n, P (after m s k)) : ∀ hist t, Run m s hist t → P t := by
  intro hist t hrun
  obtain ⟨hlt, rfl⟩ := hrun.eq_after hexit
  exact h _ hlt

/-- Rounds that are matched one by one match a run. -/
theorem simulate {m' : Exec φ' τ Unit} {R : σ → τ → Prop} (h : Run m s hist t) (hs : R s s')
    (hstep : ∀ hist u v u', Run m s hist u → R u v → m u = .ok () u' →
      ∃ v', m' v = .ok () v' ∧ R u' v') : ∃ hist' t', Run m' s' hist' t' ∧ R t t' := by
  induction h with
  | start => exact ⟨[], s', .start, hs⟩
  | @step hist u u' hrun hu ih =>
    obtain ⟨hist', v, hrun', hv⟩ := ih
    obtain ⟨v', hv', hR⟩ := hstep hist u v u' hrun hv hu
    exact ⟨v :: hist', v', hrun'.step hv', hR⟩

theorem exits_iff : (∃ n t, iterate m n s = .exit t) ↔
    ∃ hist d t, Run m s hist d ∧ m d = .exit t := by
  constructor
  · rintro ⟨n, t, h⟩
    obtain ⟨k, -, d, hd, hexit⟩ := iterate_eq_exit.mp h
    obtain ⟨hist, -, hrun⟩ := of_iterate hd
    exact ⟨hist, d, t, hrun, hexit⟩
  · rintro ⟨hist, d, t, hrun, hexit⟩
    exact ⟨hist.length + 1, t,
      iterate_eq_exit.mpr ⟨_, Nat.lt_succ_self _, d, hrun.iterate_eq, hexit⟩⟩

/-- A run whose rounds lower a measure, and never go wrong, unwinds in the end. -/
theorem exits_of_measure (μ : σ → Nat)
    (hdec : ∀ hist t u, Run m s hist t → m t = .ok () u → μ u < μ t)
    (hdef : ∀ hist t f, Run m s hist t → m t ≠ .fault f) :
    ∃ hist d t, Run m s hist d ∧ m d = .exit t := by
  have hmain : ∀ k hist t, Run m s hist t → μ t < k → ∃ hist d t, Run m s hist d ∧
      m d = .exit t := by
    intro k
    induction k with
    | zero => exact fun _ _ _ h => absurd h (Nat.not_lt_zero _)
    | succ k ih =>
      intro hist t hrun hk
      cases ht : m t with
      | ok _ u =>
        have := hdec hist t u hrun ht
        exact ih _ u (hrun.step ht) (by omega)
      | exit u => exact ⟨hist, t, u, hrun, ht⟩
      | fault f => exact absurd ht (hdef hist t f hrun)
  exact hmain (μ s + 1) [] s .start (Nat.lt_succ_self _)

end Run

end Exec
end GvmCore
