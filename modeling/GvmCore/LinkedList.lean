import Mathlib.Data.List.Nodup
import Mathlib.Logic.Function.Basic

namespace GvmCore.Linked
set_option autoImplicit true

structure Cell (V P : Type) where
  value : V
  next : Option P

abbrev Heap (V P : Type) := P → Option (Cell V P)

/-- The nodes `l` are linked in this order, from `first` on, and the last one points to `stop`. -/
def Seg (heap : Heap V P) : Option P → List (P × V) → Option P → Prop
  | first, [], stop => first = stop
  | first, e :: l, stop => first = some e.1 ∧ ∃ next, heap e.1 = some ⟨e.2, next⟩ ∧
    Seg heap next l stop

variable {heap heap' : Heap V P} {first stop stop' last : Option P} {l l' pre post : List (P × V)}

theorem seg_append :
    Seg heap first (pre ++ post) stop ↔ ∃ mid, Seg heap first pre mid ∧ Seg heap mid post stop := by
  induction pre generalizing first with
  | nil =>
    constructor
    · exact fun h => ⟨first, rfl, h⟩
    · rintro ⟨mid, rfl, h⟩
      exact h
  | cons e pre ih =>
    constructor
    · rintro ⟨rfl, next, he, h⟩
      obtain ⟨mid, hpre, hpost⟩ := ih.mp h
      exact ⟨mid, ⟨rfl, next, he, hpre⟩, hpost⟩
    · rintro ⟨mid, ⟨rfl, next, he, hpre⟩, hpost⟩
      exact ⟨rfl, next, he, ih.mpr ⟨mid, hpre, hpost⟩⟩

/-- A list depends on its own nodes only. -/
theorem Seg.frame (h : Seg heap first l stop) (hsame : ∀ e ∈ l, heap' e.1 = heap e.1) :
    Seg heap' first l stop := by
  induction l generalizing first with
  | nil => exact h
  | cons e l ih =>
    obtain ⟨rfl, next, he, h⟩ := h
    rw [List.forall_mem_cons] at hsame
    exact ⟨rfl, next, hsame.1.trans he, ih h hsame.2⟩

theorem Seg.unique (h : Seg heap first l none) (h' : Seg heap first l' none) : l = l' := by
  induction l generalizing first l' with
  | nil =>
    cases h
    cases l' with
    | nil => rfl
    | cons e' l' => cases h'.1
  | cons e l ih =>
    obtain ⟨rfl, next, he, h⟩ := h
    cases l' with
    | nil => cases h'
    | cons e' l' =>
      obtain ⟨hfirst, next', he', h'⟩ := h'
      cases e
      cases e'
      cases hfirst
      rw [he] at he'
      cases he'
      rw [ih h h']

theorem Seg.heap_eq (h : Seg heap first l stop) (he : e ∈ l) :
    ∃ next, heap e.1 = some ⟨e.2, next⟩ := by
  obtain ⟨pre, post, rfl⟩ := List.append_of_mem he
  obtain ⟨mid, -, -, next, heap_eq, -⟩ := seg_append.mp h
  exact ⟨next, heap_eq⟩

theorem Seg.first_eq_none_iff (h : Seg heap first l none) : first = none ↔ l = [] := by
  cases l with
  | nil => exact iff_of_true h rfl
  | cons e l =>
    rw [h.1]
    simp

/-- `first` and `last` are the ends of the list `l` of different nodes. -/
structure Holds (heap : Heap V P) (first last : Option P) (l : List (P × V)) : Prop where
  chain : Seg heap first l none
  last : last = (l.map Prod.fst).getLast?
  nodup : (l.map Prod.fst).Nodup

theorem Holds.null_iff (h : Holds heap first last l) : first = none ↔ last = none := by
  rw [h.last, List.getLast?_eq_none_iff, List.map_eq_nil_iff, h.chain.first_eq_none_iff]

theorem not_mem_of_nodup_concat (h : ((l ++ [(q, w)]).map Prod.fst).Nodup) :
    q ∉ l.map Prod.fst := by
  rw [List.map_append, List.nodup_append] at h
  intro hmem
  exact h.2.2 q hmem q (List.mem_singleton_self q) rfl

variable [DecidableEq P]

theorem Seg.update (h : Seg heap first l stop) (hp : p ∉ l.map Prod.fst) (c : Option (Cell V P)) :
    Seg (Function.update heap p c) first l stop :=
  h.frame fun _ he => Function.update_of_ne (ne_of_mem_of_not_mem (List.mem_map_of_mem he) hp) ..

theorem Seg.redirect (h : Seg heap first (l ++ [(p, v)]) stop) (hp : p ∉ l.map Prod.fst)
    (stop' : Option P) :
    Seg (Function.update heap p (some ⟨v, stop'⟩)) first (l ++ [(p, v)]) stop' := by
  obtain ⟨mid, hpre, rfl, -⟩ := seg_append.mp h
  exact seg_append.mpr ⟨some p, hpre.update hp _, rfl, stop', Function.update_self .., rfl⟩

theorem Holds.push_nil (heap : Heap V P) (p : P) (v : V) :
    Holds (Function.update heap p (some ⟨v, none⟩)) (some p) (some p) [(p, v)] :=
  ⟨⟨rfl, none, Function.update_self .., rfl⟩, rfl, List.nodup_singleton p⟩

/-- A new node behind the last one, `q`. -/
theorem Holds.push (h : Holds heap first last (l ++ [(q, w)]))
    (hp : p ∉ (l ++ [(q, w)]).map Prod.fst)
    (v : V) :
    Holds (Function.update (Function.update heap p (some ⟨v, none⟩)) q (some ⟨w, some p⟩)) first
      (some p) (l ++ [(q, w)] ++ [(p, v)]) := by
  have hq := not_mem_of_nodup_concat h.nodup
  have hne : p ≠ q := by
    rintro rfl
    simp at hp
  refine ⟨?_, ?_, ?_⟩
  · refine seg_append.mpr ⟨some p, (h.chain.update hp _).redirect hq (some p), rfl, none, ?_, rfl⟩
    rw [Function.update_of_ne hne, Function.update_self]
  · simp
  · rw [List.map_append, List.nodup_append]
    refine ⟨h.nodup, List.nodup_singleton p, ?_⟩
    intro x hx y hy
    rw [List.map_singleton, List.mem_singleton] at hy
    rw [hy]
    exact ne_of_mem_of_not_mem hx hp

theorem Holds.remove_head (h : Holds heap first last ((p, v) :: post))
    (hnext : heap p = some ⟨v, next⟩) :
    Holds (Function.update heap p none) next (if next = none then none else last) post := by
  obtain ⟨-, next', hheap, hpost⟩ := h.chain
  rw [hnext] at hheap
  cases hheap
  have hnodup := h.nodup
  rw [List.map_cons, List.nodup_cons] at hnodup
  refine ⟨hpost.update hnodup.1 none, ?_, hnodup.2⟩
  have hnil := hpost.first_eq_none_iff
  split
  · rename_i hnone
    rw [hnil.mp hnone]
    rfl
  · rename_i hsome
    rw [h.last, List.map_cons, List.getLast?_cons_of_ne_nil]
    rw [ne_eq, List.map_eq_nil_iff, ← hnil]
    exact hsome

/-- The node behind `q` is taken out. -/
theorem Holds.remove (h : Holds heap first last (pre ++ [(q, w)] ++ (p, v) :: post))
    (hnext : heap p = some ⟨v, next⟩) :
    Holds (Function.update (Function.update heap q (some ⟨w, next⟩)) p none) first
      (if next = none then some q else last) (pre ++ [(q, w)] ++ post) := by
  obtain ⟨mid, hpre, rfl, next', hheap, hpost⟩ := seg_append.mp h.chain
  rw [hnext] at hheap
  cases hheap
  have hnodup := h.nodup
  rw [List.map_append, List.map_cons, List.nodup_append, List.nodup_cons] at hnodup
  obtain ⟨hfront, ⟨hp, hback⟩, hapart⟩ := hnodup
  have hp' : p ∉ (pre ++ [(q, w)]).map Prod.fst :=
    fun hmem => hapart p hmem p List.mem_cons_self rfl
  have hq : q ∉ post.map Prod.fst :=
    fun hmem => hapart q (by simp) q (List.mem_cons_of_mem _ hmem) rfl
  refine ⟨?_, ?_, ?_⟩
  · refine seg_append.mpr ⟨next, ?_, (hpost.update hq _).update hp _⟩
    exact (hpre.redirect (not_mem_of_nodup_concat hfront) next).update hp' _
  · have hnil := hpost.first_eq_none_iff
    split
    · rename_i hnone
      rw [hnil.mp hnone]
      simp
    · rename_i hsome
      rw [hnil] at hsome
      have hkeys : post.map Prod.fst ≠ [] := by rwa [ne_eq, List.map_eq_nil_iff]
      rw [h.last, List.map_append, List.map_cons,
        List.getLast?_append_of_ne_nil _ (List.cons_ne_nil _ _), List.getLast?_cons_of_ne_nil hkeys,
        List.map_append, List.getLast?_append_of_ne_nil _ hkeys]
  · rw [List.map_append, List.nodup_append]
    exact ⟨hfront, hback, fun x hx y hy => hapart x hx y (List.mem_cons_of_mem _ hy)⟩

end GvmCore.Linked
