import GvmCore.OperandLaws
import GvmCore.StorageLaw

namespace GvmCore
open Exec
set_option autoImplicit true

def Chain.keys (l : Chain) : List (BitVec 32) := l.nodes.map Storage.key

/-- Calls of `SaveToStorage`, the last one first, with the keys and the words they saved.
Between two calls anything but the list may change. -/
inductive Saves {w c : Nat} : Core w c → List (BitVec 32 × Reg) → Prop
  | start {s : Core w c} (h : s.mainStorage = emptyStorage) : Saves s []
  | other {s t : Core w c} (h : Saves s calls) (hlist : t.mainStorage = s.mainStorage) :
    Saves t calls
  | save {s t : Core w c} (h : Saves s calls) (hsp : SpAt s z) (hkey : offs ≠ -1)
      (hsave : saveToStorage offs s = .ok () t) : Saves t ((offs, s.reg (z - 3)) :: calls)

theorem keys_saveNode (hl : ∀ node ∈ l, node.key ≠ -1) (offs : BitVec 32) (data : Reg) :
    (saveNode offs data l).map Storage.key =
      if offs ∈ l.map Storage.key then l.map Storage.key else l.map Storage.key ++ [offs] := by
  induction l with
  | nil => rfl
  | cons node l ih =>
    obtain ⟨hnode, hl⟩ := List.forall_mem_cons.mp hl
    by_cases hkey : node.key = offs
    · simp [saveNode, hkey]
    · have hmem : offs ∈ node.key :: l.map Storage.key ↔ offs ∈ l.map Storage.key := by
        rw [List.mem_cons]
        exact or_iff_right fun h => hkey h.symm
      rw [saveNode, if_neg (not_or.mpr ⟨hnode, hkey⟩), List.map_cons, List.map_cons, ih hl]
      simp only [hmem]
      split <;> rfl

theorem keys_save (h : -1 ∉ Chain.keys l) (offs : BitVec 32) (data : Reg) :
    (l.save offs data).keys = if offs ∈ l.keys then l.keys else l.keys ++ [offs] := by
  rw [Chain.keys, Chain.nodes_save, keys_saveNode]
  · rfl
  · intro node hnode hnone
    exact h (List.mem_map.mpr ⟨node, hnode, hnone⟩)

theorem mem_keys_save (h : -1 ∉ Chain.keys l) (offs : BitVec 32) (data : Reg) :
    k ∈ (l.save offs data).keys ↔ k = offs ∨ k ∈ l.keys := by
  rw [keys_save h]
  split
  · rename_i hold
    constructor
    · exact .inr
    · rintro (rfl | hk)
      · exact hold
      · exact hk
  · rw [List.mem_append, List.mem_singleton, or_comm]

theorem nodup_keys_save (h : -1 ∉ Chain.keys l) (hnodup : l.keys.Nodup) (offs : BitVec 32)
    (data : Reg) : (l.save offs data).keys.Nodup := by
  rw [keys_save h]
  split
  · exact hnodup
  · rename_i hnew
    rw [← List.concat_eq_append]
    exact hnodup.concat hnew

theorem keys_save_start (h : Chain.keys l = [-1]) (offs : BitVec 32) (data : Reg) :
    (l.save offs data).keys = [offs] := by
  obtain ⟨head, next⟩ := l
  simp only [Chain.keys, Chain.nodes, List.map_cons, List.cons.injEq, List.map_eq_nil_iff] at h
  obtain ⟨hhead, rfl⟩ := h
  rw [Chain.keys, Chain.nodes_save]
  simp [Chain.nodes, saveNode, hhead]

/-- The list is the empty entry, or has the saved keys once each. -/
structure KeysKept (l : Chain) (calls : List (BitVec 32 × Reg)) : Prop where
  start : calls = [] → l.keys = [-1]
  noEmpty : calls ≠ [] → -1 ∉ l.keys
  nodup : l.keys.Nodup
  keys : calls ≠ [] → ∀ k, k ∈ l.keys ↔ k ∈ calls.map Prod.fst

theorem KeysKept.save (h : KeysKept l calls) (hkey : offs ≠ -1) (data r : Reg) :
    KeysKept (l.save offs data) ((offs, r) :: calls) := by
  by_cases hcalls : calls = []
  · subst hcalls
    have hone := keys_save_start (h.start rfl) offs data
    constructor
    · intro hnil
      cases hnil
    · intro _ hmem
      rw [hone, List.mem_singleton] at hmem
      exact hkey hmem.symm
    · rw [hone]
      exact List.nodup_singleton _
    · intro _ k
      rw [hone]
      rfl
  · have hempty := h.noEmpty hcalls
    constructor
    · intro hnil
      cases hnil
    · intro _ hmem
      rcases (mem_keys_save hempty offs data).mp hmem with hmem | hmem
      · exact hkey hmem.symm
      · exact hempty hmem
    · exact nodup_keys_save hempty h.nodup offs data
    · intro _ k
      rw [mem_keys_save hempty, List.map_cons, List.mem_cons, ← h.keys hcalls k]

namespace Saves

theorem keysKept (E : Engine w c) {s : Core w c} (h : Saves s calls) :
    KeysKept s.mainStorage calls := by
  induction h with
  | start h =>
    rw [h]
    constructor
    · exact fun _ => rfl
    · exact fun hne => absurd rfl hne
    · exact List.nodup_singleton _
    · exact fun hne => absurd rfl hne
  | other _ hlist ih =>
    rw [hlist]
    exact ih
  | save _ hsp hkey hsave ih =>
    obtain ⟨-, -, rfl⟩ := (saveToStorage_eq_ok E hsp).mp hsave
    exact ih.save hkey _ _

theorem load (E : Engine w c) {s : Core w c} (h : Saves s calls) (hk : k ≠ -1) :
    s.mainStorage.load k = (calls.lookup k).map storedValue := by
  induction h with
  | start h =>
    rw [h, Chain.load, List.find?_eq_none.mpr]
    · rfl
    · intro node hnode hkey
      obtain rfl := List.mem_singleton.mp hnode
      exact hk (of_decide_eq_true hkey).symm
  | other _ hlist ih =>
    rw [hlist]
    exact ih
  | @save calls z offs s t _ hsp hkey hsave ih =>
    obtain ⟨-, -, rfl⟩ := (saveToStorage_eq_ok E hsp).mp hsave
    have hload := s.mainStorage.load_save hkey hk (storedValue (s.reg (z - 3)))
    refine hload.trans ?_
    by_cases hke : k = offs
    · rw [if_pos hke, hke, List.lookup_cons_self]
      rfl
    · rw [if_neg hke, ih, List.lookup_cons, beq_eq_false_iff_ne.mpr hke]

theorem key_ne {s : Core w c} (h : Saves s calls) (hk : k ∈ calls.map Prod.fst) : k ≠ -1 := by
  induction h with
  | start h => cases hk
  | other _ _ ih => exact ih hk
  | save _ _ hkey _ ih =>
    rcases List.mem_cons.mp hk with rfl | hk
    · exact hkey
    · exact ih hk

end Saves

theorem lookup_of_mem_keys {calls : List (BitVec 32 × Reg)} (hk : k ∈ calls.map Prod.fst) :
    ∃ r, calls.lookup k = some r := by
  obtain ⟨e, he, rfl⟩ := List.mem_map.mp hk
  have hsome : (calls.lookup e.1).isSome = true := by
    rw [List.lookup_isSome_iff]
    exact ⟨e, he, beq_self_eq_true _⟩
  exact Option.isSome_iff_exists.mp hsome

/-- After any calls of `SaveToStorage` the list has the saved keys once each, and
`LoadFromStorage` of one of them pushes the words last saved under it and changes nothing
else. -/
theorem storage_list_map (E : Engine w c) {s : Core w c} (h : Saves s calls) :
    s.mainStorage.keys.Nodup ∧
    (∀ k, k ∈ s.mainStorage.keys ↔ k ∈ calls.map Prod.fst ∨ calls = [] ∧ k = -1) ∧
    ∀ k ∈ calls.map Prod.fst, ∀ z, SpAt s z → InStack (z + 1) → InStack (z + 4) → ∃ r t,
      calls.lookup k = some r ∧ loadFromStorage E k s = .ok () t ∧ SpAt t (z + 4) ∧
      t.element (z + 4) 0 = r ∧ (∀ i ≤ z, t.word i = s.word i) ∧ t.mainStorage = s.mainStorage := by
  have hkept := h.keysKept E
  refine ⟨hkept.nodup, ?_, ?_⟩
  · intro k
    by_cases hcalls : calls = []
    · rw [hkept.start hcalls, List.mem_singleton, hcalls]
      simp
    · rw [hkept.keys hcalls k]
      simp [hcalls]
  · intro k hk z hsp h1 h4
    obtain ⟨r, hr⟩ := lookup_of_mem_keys hk
    have hvalue : storageValue E s k = storedValue r := by
      rw [storageValue, h.load E (h.key_ne hk), hr]
      rfl
    have hpush : loadFromStorage E k s = .ok () (s.pushed z r) := by
      refine (loadFromStorage_eq_ok E hsp).mpr ⟨h1, h4, ?_⟩
      rw [hvalue]
      exact congrArg (s.pushed z) (storedValue_storedValue r)
    refine ⟨r, _, hr, hpush, ⟨rfl, ?_, ?_⟩, s.element_pushed h1 h4 r, ?_, ?_⟩
    · have := h1.1
      omega
    · have := h4.2
      omega
    · intro i hi
      exact s.word_putReg_of_not_mem (.inl (by omega)) r
    · rw [Core.pushed_eq]

def threeElements : Core 32 8 := { stackOf [7, 5, 9] with mainStorage := emptyStorage }

theorem Saves.saved {s : Core 32 8} (h : Saves s calls) (offs : BitVec 32) (hsp : SpAt s z)
    (hkey : offs ≠ -1) (hlow : InStack (z - 3)) (htop : InStack z) (hz : z - 4 = y) :
    Saves (s.saved z offs) ((offs, s.reg (z - 3)) :: calls) ∧ SpAt (s.saved z offs) y := by
  have hsave : saveToStorage offs s = .ok () (s.saved z offs) :=
    (saveToStorage_eq_ok (cemu .zero) hsp).mpr ⟨hlow, htop, rfl⟩
  subst hz
  simp only [InStack] at hlow htop
  exact ⟨.save h hsp hkey hsave, rfl, by omega, by omega⟩

theorem storage_list_three : ∃ (s t u : Core 32 8) (r₁ r₂ r₃ : Reg),
    Saves s [(2, r₃), (3, r₂), (2, r₁)] ∧
    loadFromStorage (cemu .zero) 2 s = .ok () t ∧ t.element 3 0 = r₃ ∧ regValue r₃ = 9 ∧
    loadFromStorage (cemu .zero) 3 s = .ok () u ∧ u.element 3 0 = r₂ ∧ regValue r₂ = 5 := by
  have hstart : SpAt threeElements 11 := ⟨by decide, by decide, by decide⟩
  have hvalues : regValue ((threeElements.saved 11 2).reg (7 - 3)) = 5 ∧
      regValue (((threeElements.saved 11 2).saved 7 3).reg (3 - 3)) = 9 := by
    decide +kernel
  obtain ⟨h₁, hsp₁⟩ := (Saves.start (s := threeElements) rfl).saved 2 (y := 7) hstart
    (by decide) (by decide) (by decide) (by decide)
  obtain ⟨h₂, hsp₂⟩ := h₁.saved 3 (y := 3) hsp₁ (by decide) (by decide) (by decide) (by decide)
  obtain ⟨h₃, hsp₃⟩ := h₂.saved 2 (y := -1) hsp₂ (by decide) (by decide) (by decide) (by decide)
  obtain ⟨-, -, hload⟩ := storage_list_map (cemu .zero) h₃
  obtain ⟨r, t, hr, ht, -, htop, -⟩ := hload 2 (by simp) (-1) hsp₃ (by decide) (by decide)
  obtain ⟨r', u, hr', hu, -, hutop, -⟩ := hload 3 (by simp) (-1) hsp₃ (by decide) (by decide)
  rw [List.lookup_cons_self, Option.some.injEq] at hr
  have hne : ((3 : BitVec 32) == 2) = false := rfl
  rw [List.lookup_cons, hne, List.lookup_cons_self, Option.some.injEq] at hr'
  exact ⟨_, t, u, _, _, _, h₃, ht, htop.trans hr.symm, hvalues.2, hu, hutop.trans hr'.symm,
    hvalues.1⟩

end GvmCore
