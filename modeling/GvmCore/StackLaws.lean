import GvmCore.OperandLaws

namespace GvmCore
open Exec Signed
set_option autoImplicit true

def dupList (n : Nat) (l : List Nat) : List Nat := l.getD (n - 1) 0 :: l

def swapList (n : Nat) (l : List Nat) : List Nat := (l.set 0 (l.getD n 0)).set n (l.getD 0 0)

@[simp] theorem length_swapList (n : Nat) (l : List Nat) : (swapList n l).length = l.length := by
  simp [swapList]

theorem getD_swapList (hn : n < l.length) (k : Nat) :
    (swapList n l).getD k 0 =
      if k = n then l.getD 0 0 else if k = 0 then l.getD n 0 else l.getD k 0 := by
  simp only [swapList, List.getD_eq_getElem?_getD, List.getElem?_set, List.length_set]
  by_cases hk : k = n
  · subst hk
    simp [hn]
  · by_cases h0 : k = 0
    · subst h0
      simp [hk, Ne.symm hk, Nat.zero_lt_of_lt hn]
    · simp [hk, h0, Ne.symm hk, Ne.symm h0]

namespace Core

/-- The stack of the machine is a list of numbers, the top first. -/
structure Represents (s : Core w c) (l : List Nat) : Prop where
  sp : s.sp = BitVec.ofInt w (4 * (l.length : Int) - 1)
  room : l.length ≤ 512
  number : ∀ k < l.length, s.number (4 * (l.length : Int) - 1) k = l.getD k 0

theorem represents_numbers (s : Core w c) {n : Nat} (hn : n ≤ 512)
    (hsp : s.sp = BitVec.ofInt w (4 * (n : Int) - 1)) :
    s.Represents ((List.range n).map (s.number (4 * (n : Int) - 1))) := by
  have hlen : ((List.range n).map (s.number (4 * (n : Int) - 1))).length = n := by simp
  constructor
  · rw [hlen, hsp]
  · rw [hlen]
    exact hn
  · intro k hk
    rw [hlen] at hk ⊢
    simp [List.getD_eq_getElem?_getD, hk]

variable {s t : Core w c} {l : List Nat} {count : Nat}

theorem Represents.spAt (h : s.Represents l) : SpAt s (4 * (l.length : Int) - 1) := by
  have hroom := h.room
  exact ⟨h.sp, by omega, by omega⟩

theorem Represents.congr (h : s.Represents l) (hsp : t.sp = s.sp) (hw : ∀ i, t.word i = s.word i) :
    t.Represents l := by
  refine ⟨hsp.trans h.sp, h.room, ?_⟩
  intro k hk
  rw [← h.number k hk]
  exact congrArg regValue (Insn.element_congr (fun i _ => hw i) k)

theorem Represents.pushed (h : s.Represents l) (hroom : l.length < 512) (r : Reg) :
    (s.pushed (4 * (l.length : Int) - 1) r).Represents (regValue r :: l) := by
  have hz : 4 * ((regValue r :: l).length : Int) - 1 = 4 * (l.length : Int) - 1 + 4 := by
    rw [List.length_cons]
    omega
  constructor
  · rw [hz]
    rfl
  · exact hroom
  · intro k hk
    rw [hz]
    cases k with
    | zero => exact congrArg regValue (element_pushed s ⟨by omega, by omega⟩ ⟨by omega, by omega⟩ r)
    | succ k =>
      refine (congrArg regValue (element_pushed_below s r k)).trans ?_
      exact h.number k (Nat.lt_of_succ_lt_succ hk)

theorem Represents.dropped (h : s.Represents l) (hl : l ≠ []) :
    (s.withSp (4 * (l.length : Int) - 1 - 4)).Represents l.tail := by
  obtain ⟨a, l, rfl⟩ := List.exists_cons_of_ne_nil hl
  have hz : 4 * ((a :: l).length : Int) - 1 - 4 = 4 * (l.length : Int) - 1 := by
    rw [List.length_cons]
    omega
  rw [hz, List.tail_cons]
  refine ⟨rfl, (Nat.le_succ _).trans h.room, ?_⟩
  intro k hk
  refine Eq.trans ?_ (h.number (k + 1) (Nat.succ_lt_succ hk))
  apply congrArg regValue
  funext j
  have hi : 4 * (l.length : Int) - 1 - 4 * (k : Int) - 3 + (j : Nat) =
      4 * ((a :: l).length : Int) - 1 - 4 * ((k + 1 : Nat) : Int) - 3 + (j : Nat) := by omega
  rw [element, reg, hi]
  rfl

section Swap

variable {z : Int} {count : Nat}

theorem word_swapRound_top (old s : Core w c) (hin : InStack (z - (i : Nat))) :
    (swapRound old s z count i).word (z - (i : Nat)) =
      old.word (z - 4 * (count + 1) - (i : Nat)) := by
  unfold swapRound
  rw [word_setWord_ne _ (by omega), word_setWord_same _ hin]

theorem word_swapRound_other (old s : Core w c) (hin : InStack (z - 4 * (count + 1) - (i : Nat))) :
    (swapRound old s z count i).word (z - 4 * (count + 1) - (i : Nat)) =
      old.word (z - (i : Nat)) := by
  unfold swapRound
  rw [word_setWord_same _ hin]

theorem word_swapRound_ne (old s : Core w c) (h : j ≠ z - (i : Nat))
    (h' : j ≠ z - 4 * (count + 1) - (i : Nat)) :
    (swapRound old s z count i).word j = s.word j := by
  unfold swapRound
  rw [word_setWord_ne _ h', word_setWord_ne _ h]

theorem swapped_rounds (s : Core w c) (z : Int) (count : Nat) : s.swapped z count =
    s.swapRound (s.swapRound (s.swapRound (s.swapRound s z count 0) z count 1) z count 2)
      z count 3 :=
  rfl

/-- A word of the two elements is written in its own round only. -/
theorem word_swapped_round (s : Core w c) (hi : i < 4)
    (hj : j = z - (i : Nat) ∨ j = z - 4 * (count + 1) - (i : Nat)) :
    ∃ t, (s.swapped z count).word j = (s.swapRound t z count i).word j := by
  rw [swapped_rounds]
  have hcases : i = 0 ∨ i = 1 ∨ i = 2 ∨ i = 3 := by omega
  rcases hcases with rfl | rfl | rfl | rfl
  · rw [word_swapRound_ne _ _ (by omega) (by omega), word_swapRound_ne _ _ (by omega) (by omega),
      word_swapRound_ne _ _ (by omega) (by omega)]
    exact ⟨_, rfl⟩
  · rw [word_swapRound_ne _ _ (by omega) (by omega), word_swapRound_ne _ _ (by omega) (by omega)]
    exact ⟨_, rfl⟩
  · rw [word_swapRound_ne _ _ (by omega) (by omega)]
    exact ⟨_, rfl⟩
  · exact ⟨_, rfl⟩

theorem word_swapped_top (s : Core w c) (z : Int) (count : Nat) (hi : i < 4)
    (hin : InStack (z - (i : Nat))) :
    (s.swapped z count).word (z - (i : Nat)) = s.word (z - 4 * (count + 1) - (i : Nat)) := by
  obtain ⟨t, ht⟩ := word_swapped_round s hi (.inl rfl)
  rw [ht, word_swapRound_top _ _ hin]

theorem word_swapped_other (s : Core w c) (z : Int) (count : Nat) (hi : i < 4)
    (hin : InStack (z - 4 * (count + 1) - (i : Nat))) :
    (s.swapped z count).word (z - 4 * (count + 1) - (i : Nat)) = s.word (z - (i : Nat)) := by
  obtain ⟨t, ht⟩ := word_swapped_round s hi (.inr rfl)
  rw [ht, word_swapRound_other _ _ hin]

theorem word_swapped_ne (s : Core w c)
    (h : ∀ i < 4, j ≠ z - (i : Nat) ∧ j ≠ z - 4 * (count + 1) - (i : Nat)) :
    (s.swapped z count).word j = s.word j := by
  rw [swapped_rounds, word_swapRound_ne _ _ (h 3 (by decide)).1 (h 3 (by decide)).2,
    word_swapRound_ne _ _ (h 2 (by decide)).1 (h 2 (by decide)).2,
    word_swapRound_ne _ _ (h 1 (by decide)).1 (h 1 (by decide)).2,
    word_swapRound_ne _ _ (h 0 (by decide)).1 (h 0 (by decide)).2]

theorem swapped_eq (s : Core w c) (z : Int) (count : Nat) :
    s.swapped z count = { s with stackArr := (s.swapped z count).stackArr } := by
  have hround : ∀ (t : Core w c) (i : Nat), (∃ a, t = { s with stackArr := a }) →
      ∃ a, s.swapRound t z count i = { s with stackArr := a } := by
    rintro t i ⟨a, rfl⟩
    unfold swapRound
    rw [setWord_eq _ (z - 4 * (count + 1) - i), setWord_eq _ (z - i)]
    exact ⟨_, rfl⟩
  obtain ⟨a, ha⟩ := hround _ 3 (hround _ 2 (hround _ 1 (hround _ 0 ⟨_, rfl⟩)))
  rw [swapped_rounds, ha]

theorem swapped_swapped (s : Core w c) (hin : InStack z)
    (hin' : InStack (z - 4 * (count + 1) - 3)) :
    (s.swapped z count).swapped z count = s := by
  obtain ⟨-, hhigh⟩ := hin
  obtain ⟨hlow, -⟩ := hin'
  have htop : ∀ i < 4, InStack (z - (i : Nat)) := fun i hi => ⟨by omega, by omega⟩
  have hother : ∀ i < 4, InStack (z - 4 * (count + 1) - (i : Nat)) :=
    fun i hi => ⟨by omega, by omega⟩
  refine eq_of_word (s := s) ?_ rfl ?_
  · rw [swapped_eq, swapped_eq s]
  · intro j _
    by_cases h : ∀ i < 4, j ≠ z - (i : Nat) ∧ j ≠ z - 4 * (count + 1) - (i : Nat)
    · rw [word_swapped_ne _ h, word_swapped_ne _ h]
    · simp only [not_forall, not_and_or, not_not] at h
      obtain ⟨i, hi, rfl | rfl⟩ := h
      · rw [word_swapped_top _ _ _ hi (htop i hi), word_swapped_other _ _ _ hi (hother i hi)]
      · rw [word_swapped_other _ _ _ hi (hother i hi), word_swapped_top _ _ _ hi (htop i hi)]

theorem element_swapped (s : Core w c) (z : Int) (count : Nat) (hin : InStack z)
    (hin' : InStack (z - 4 * (count + 1) - 3)) (k : Nat) :
    (s.swapped z count).element z k = if k = count + 1 then s.element z 0
      else if k = 0 then s.element z (count + 1) else s.element z k := by
  obtain ⟨-, hhigh⟩ := hin
  obtain ⟨hlow, -⟩ := hin'
  funext j
  have hj := j.isLt
  have hindex : ∀ m : Nat,
      z - 4 * (m : Int) - 3 + (j : Nat) = z - 4 * (m : Int) - ((3 - j : Nat) : Int) := by
    intro m
    omega
  by_cases hk : k = count + 1
  · subst hk
    have h := s.word_swapped_other z count (show 3 - (j : Nat) < 4 by omega)
      ⟨by omega, by omega⟩
    rw [if_pos rfl, element, reg, element, reg, hindex, hindex, Nat.cast_zero, mul_zero, sub_zero]
    exact h
  · rw [if_neg hk]
    by_cases h0 : k = 0
    · subst h0
      have h := s.word_swapped_top z count (show 3 - (j : Nat) < 4 by omega)
        ⟨by omega, by omega⟩
      rw [if_pos rfl, element, reg, element, reg, hindex, hindex, Nat.cast_zero, mul_zero, sub_zero]
      exact h
    · rw [if_neg h0, element, reg, element, reg]
      apply word_swapped_ne
      intro i hi
      omega

theorem Represents.swapped (h : s.Represents l) (hn : count + 1 < l.length) :
    (s.swapped (4 * (l.length : Int) - 1) count).Represents (swapList (count + 1) l) := by
  have hroom := h.room
  constructor
  · rw [length_swapList, ← h.sp, swapped_eq]
  · rw [length_swapList]
    exact hroom
  · intro k hk
    rw [length_swapList] at hk ⊢
    have helement := s.element_swapped (4 * (l.length : Int) - 1) count
      ⟨by omega, by omega⟩ ⟨by omega, by omega⟩ k
    rw [Core.number, helement, getD_swapList hn]
    split
    · exact h.number 0 (by omega)
    · split
      · exact h.number (count + 1) hn
      · exact h.number k hk

end Swap

theorem Represents.dup (h : s.Represents l) (hn : count < l.length) (hroom : l.length < 512) :
    (s.pushed (4 * (l.length : Int) - 1) (s.element (4 * (l.length : Int) - 1) count)).Represents
      (dupList (count + 1) l) := by
  have hpushed := h.pushed hroom (s.element (4 * (l.length : Int) - 1) count)
  rw [show regValue (s.element _ count) = l.getD count 0 from h.number count hn] at hpushed
  exact hpushed

theorem dup_fits (hn : count < l.length) (hroom : l.length < 512) :
    Insn.Fits s (4 * (l.length : Int) - 1) (.dup count) :=
  ⟨⟨by omega, by omega⟩, ⟨by omega, by omega⟩, ⟨by omega, by omega⟩, ⟨by omega, by omega⟩⟩

theorem Represents.swap_fits (h : s.Represents l) (hn : count + 1 < l.length) :
    Insn.Fits s (4 * (l.length : Int) - 1) (.swap count) := by
  have hroom := h.room
  exact ⟨⟨by omega, by omega⟩, ⟨by omega, by omega⟩⟩

theorem Represents.swapOp_swapOp (E : Engine w c) (h : s.Represents l) (hc : count < 16)
    (hn : count + 1 < l.length) :
    swapOp count (s.swapped (4 * (l.length : Int) - 1) count) = .ok () s := by
  have hsp := (h.swapped hn).spAt
  rw [length_swapList] at hsp
  obtain ⟨hlow, hhigh⟩ := h.swap_fits hn
  exact (swapOp_eq_ok E hsp hc).mpr ⟨hlow, hhigh, s.swapped_swapped hhigh hlow⟩

theorem Represents.pop_eq_ok (h : s.Represents l) :
    pop s = .ok () (s.withSp (4 * (l.length : Int) - 1 - 4)) :=
  congrArg (Outcome.ok ()) h.spAt.sub_four

end Core

namespace Insn

def MovesStack : Insn → Prop
  | .dup count => count < 16
  | .swap count => count < 16
  | .mem false op => op = 0
  | _ => False

variable {E : Engine w c} {s : Core w c} {I : Insn}

theorem MovesStack.step (hI : I.MovesStack) (hlisted : Listed ocode) (hd : decode ocode = I)
    (h : s.Represents l) (hgas : 3 ≤ s.gas) (hheap : E.HeapServes s.heapPos 65)
    (hfits : I.Fits s (4 * (l.length : Int) - 1)) : ∃ u : Core w c, u.Represents l ∧
      mainDecode E ocode s = .ok .none (I.effect E u (4 * (l.length : Int) - 1)) := by
  have hshape : I.InRange ∧ (∀ z, I.EntryIn z) ∧ (∀ z, I.entry s z = s) ∧
      (∀ z, I.need s z = 65) ∧
      (∀ z, I.write s z = .none) ∧ (∀ v ∈ I.charge, v.toNat ≤ 3) ∧
      I ≠ .arithm 0 := by
    cases I with
    | dup count =>
      exact ⟨hI, fun _ => trivial, fun _ => rfl, fun _ => rfl, fun _ => rfl,
        by simp [charge], by simp⟩
    | swap count =>
      exact ⟨hI, fun _ => trivial, fun _ => rfl, fun _ => rfl, fun _ => rfl,
        by simp [charge], by simp⟩
    | mem takesAddr op =>
      cases takesAddr with
      | true => cases hI
      | false =>
        cases hI
        exact ⟨trivial, fun _ => trivial, fun _ => rfl, fun _ => rfl, fun _ => rfl,
          by simp [charge, memGas], by simp⟩
    | _ => cases hI
  obtain ⟨hrange, hin, hentry, hneed, hwrite, hcharge, hstop⟩ := hshape
  refine ⟨I.paid s (4 * (l.length : Int) - 1), h.congr ?_ (I.paid_word s _), ?_⟩
  · rw [(I.paid_eq s _).eq, hentry]
  · rw [mainDecode_of_listed E s hlisted hd]
    apply (exec_eq_ok_of_covered hrange h.spAt (fun v hv => (hcharge v hv).trans hgas)
      fun h => absurd h hstop).mpr
    rw [hneed]
    exact ⟨hin _, hheap, hfits, hwrite _, rfl⟩

end Insn

theorem decode_dup_swap : ∀ n : Fin 16,
    (Listed (BitVec.ofNat 8 (0x80 + n)) ∧ Insn.decode (BitVec.ofNat 8 (0x80 + n)) = .dup n) ∧
    Listed (BitVec.ofNat 8 (0x90 + n)) ∧ Insn.decode (BitVec.ofNat 8 (0x90 + n)) = .swap n := by
  decide

/-- DUPn, SWAPn and POP are the list operations, as functions and as instructions. -/
theorem stack_operations_refine (E : Engine w c) {s : Core w c} (h : s.Represents l)
    (hn : 1 ≤ n) (hn' : n ≤ 16) :
    ((n ≤ l.length → l.length < 512 → ∃ t, dupOp (n - 1) s = .ok () t ∧
        t.Represents (dupList n l)) ∧
      (n < l.length → ∃ t, swapOp (n - 1) s = .ok () t ∧ t.Represents (swapList n l) ∧
        swapOp (n - 1) t = .ok () s) ∧
      (l ≠ [] → ∃ t, pop s = .ok () t ∧ t.Represents l.tail)) ∧
    (3 ≤ s.gas → E.HeapServes s.heapPos 65 →
      (n ≤ l.length → l.length < 512 → ∃ t,
        mainDecode E (BitVec.ofNat 8 (0x7f + n)) s = .ok .none t ∧ t.Represents (dupList n l)) ∧
      (n < l.length → ∃ t,
        mainDecode E (BitVec.ofNat 8 (0x8f + n)) s = .ok .none t ∧ t.Represents (swapList n l)) ∧
      (l ≠ [] → ∃ t, mainDecode E 0x50 s = .ok .none t ∧ t.Represents l.tail)) := by
  obtain ⟨count, rfl⟩ : ∃ count, n = count + 1 := ⟨n - 1, by omega⟩
  have hcount : count < 16 := hn'
  obtain ⟨⟨hdup, hdup'⟩, hswap, hswap'⟩ := decode_dup_swap ⟨count, hcount⟩
  rw [Nat.add_sub_cancel, show 0x7f + (count + 1) = 0x80 + count by omega,
    show 0x8f + (count + 1) = 0x90 + count by omega]
  constructor
  · refine ⟨?_, ?_, ?_⟩
    · intro hlen hroom
      obtain ⟨hfrom, hfrom', hto, hto'⟩ := Core.dup_fits (s := s) hlen hroom
      exact ⟨_, (dupOp_eq_ok E h.spAt hcount).mpr ⟨hfrom, hfrom', hto, hto', rfl⟩, h.dup hlen hroom⟩
    · intro hlen
      obtain ⟨hlow, hhigh⟩ := h.swap_fits hlen
      exact ⟨_, (swapOp_eq_ok E h.spAt hcount).mpr ⟨hlow, hhigh, rfl⟩, h.swapped hlen,
        h.swapOp_swapOp E hcount hlen⟩
    · intro hl
      exact ⟨_, h.pop_eq_ok, h.dropped hl⟩
  · intro hgas hheap
    refine ⟨?_, ?_, ?_⟩
    · intro hlen hroom
      obtain ⟨u, hu, hstep⟩ := Insn.MovesStack.step (I := .dup count) hcount hdup hdup' h hgas
        hheap (Core.dup_fits hlen hroom)
      exact ⟨_, hstep, hu.dup hlen hroom⟩
    · intro hlen
      obtain ⟨u, hu, hstep⟩ := Insn.MovesStack.step (I := .swap count) hcount hswap hswap' h hgas
        hheap (h.swap_fits hlen)
      exact ⟨_, hstep, hu.swapped hlen⟩
    · intro hl
      obtain ⟨u, hu, hstep⟩ := Insn.MovesStack.step (I := .mem false 0) rfl
        (show Listed 0x50 by decide) (by decide) h hgas hheap trivial
      exact ⟨_, hstep, hu.dropped hl⟩

theorem represents_stackOf (hl : l.length ≤ 512) (h : ∀ k < l.length, l.getD k 0 < 2 ^ 256) :
    (stackOf l).Represents l := by
  refine ⟨(spAt_stackOf hl).sp, hl, ?_⟩
  intro k hk
  rw [number_stackOf hl hk, Nat.mod_eq_of_lt (h k hk)]

theorem stack_operations_three : ∃ t, swapOp 1 (stackOf [7, 5, 3]) = .ok () t ∧
    t.Represents [3, 5, 7] ∧ swapOp 1 t = .ok () (stackOf [7, 5, 3]) := by
  have h : (stackOf [7, 5, 3]).Represents [7, 5, 3] :=
    represents_stackOf (by decide) (by decide)
  exact (stack_operations_refine (n := 2) (cemu .zero) h (by decide) (by decide)).1.2.1 (by decide)

end GvmCore
