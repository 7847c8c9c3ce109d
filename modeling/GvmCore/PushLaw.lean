import GvmCore.ByteWords
import GvmCore.Decoding
import GvmCore.Driver
import GvmCore.StackNumbers

namespace GvmCore
open Exec Digits Signed
set_option autoImplicit true

def bytesBefore (E : Engine w c) (s : Core w c) (last n : Nat) : List (BitVec 8) :=
  (List.range n).map fun i => E.fetch s.prog (s.pc + BitVec.ofNat 32 (last - i))

/-- The `n` bytes after the opcode, in the order of their addresses. -/
def immediate (E : Engine w c) (s : Core w c) (n : Nat) : List (BitVec 8) :=
  (List.range n).map fun i => E.fetch s.prog (s.pc + BitVec.ofNat 32 (i + 1))

theorem length_bytesBefore (E : Engine w c) (s : Core w c) (last n : Nat) :
    (bytesBefore E s last n).length = n := by simp [bytesBefore]

theorem reverse_immediate (E : Engine w c) (s : Core w c) (n : Nat) :
    (immediate E s n).reverse = bytesBefore E s n n := by
  apply List.ext_getElem
  · simp [immediate, bytesBefore]
  · intro i h1 h2
    have hi : i < n := by simpa [immediate] using h1
    have hindex : n - 1 - i + 1 = n - i := by omega
    simp [immediate, bytesBefore, hindex]

theorem bytesBefore_add (E : Engine w c) (s : Core w c) (last n m : Nat) :
    bytesBefore E s last (n + m) = bytesBefore E s last n ++ bytesBefore E s (last - n) m := by
  unfold bytesBefore
  rw [List.range_add, List.map_append, List.map_map]
  congr 1
  apply List.map_congr_left
  intro i _
  simp only [Function.comp, Nat.sub_sub]

theorem value_bytesBefore_words (E : Engine w c) (s : Core w c) (q r : Nat) :
    value (bytesBefore E s (8 * (q + 1) + r) (8 * (q + 1) + r)) =
      value (bytesBefore E s (8 * (q + 1) + r) 8) +
        2 ^ 64 * value (bytesBefore E s (8 * q + r) (8 * q + r)) := by
  have hn : 8 * (q + 1) + r = 8 + (8 * q + r) := by omega
  have hsub : 8 + (8 * q + r) - 8 = 8 * q + r := by omega
  rw [hn, bytesBefore_add, value_append, length_bytesBefore, hsub]

theorem pushBytes_eq (E : Engine w c) (s : Core w c) (last : Nat) (hn : n ≤ 8) :
    pushBytes E s last n = swapBytes (wordOfBytes (bytesBefore E s last n)) := by
  rw [swapBytes_wordOfBytes (length_bytesBefore E s last n) hn, pushBytes]
  apply List.foldl_ext
  intro a i hi
  have hget :
      (bytesBefore E s last n).getD i 0 = E.fetch s.prog (s.pc + BitVec.ofNat 32 (last - i)) := by
    rw [List.getD_eq_getElem?_getD]
    simp [bytesBefore, List.mem_range.mp hi]
  rw [hget]

theorem toNat_pushBytes (E : Engine w c) (s : Core w c) (last : Nat) (hn : n ≤ 8) :
    (swapBytes (pushBytes E s last n)).toNat = value (bytesBefore E s last n) := by
  rw [pushBytes_eq E s last hn, swapBytes_swapBytes,
    toNat_wordOfBytes (by rwa [length_bytesBefore])]

theorem mem_pushIndices (hk : k < 4) : k ∈ pushIndices n ↔ ¬ (k = n / 8 ∧ n % 8 = 0) := by
  simp only [pushIndices, List.mem_append, List.mem_range, List.mem_range'_1]
  by_cases hr : n % 8 = 0
  · rw [if_neg (not_not.mpr hr)]
    simp only [List.not_mem_nil, or_false]
    omega
  · rw [if_pos hr]
    simp only [List.mem_singleton]
    omega

/-- The word PUSH leaves as it is, when it leaves one. -/
def staleWord (s : Core w c) (z : Int) (n : Nat) : Word :=
  if n % 8 = 0 ∧ n < 32 then s.word (z + 1 + (n / 8 : Nat)) else 0

/-- The number in word `k` of the element PUSH leaves. -/
def pushedWord (E : Engine w c) (s : Core w c) (z : Int) (n k : Nat) : Nat :=
  if k < n / 8 then value (bytesBefore E s (n - 8 * k) 8)
  else if k = n / 8 then
    value (bytesBefore E s (n % 8) (n % 8)) + (swapBytes (staleWord s z n)).toNat
  else 0

theorem toNat_pushReg (E : Engine w c) (s : Core w c) (z : Int) (n : Nat) (k : Fin 4) :
    (swapBytes (pushReg E s z n k)).toNat = pushedWord E s z n k := by
  have hk := k.isLt
  unfold pushReg pushedWord staleWord
  by_cases hstale : (k : Nat) = n / 8 ∧ n % 8 = 0
  · rw [if_neg ((mem_pushIndices hk).not.mpr (not_not.mpr hstale)), if_neg (by omega),
      if_pos hstale.1, if_pos (by omega), hstale.2, hstale.1]
    exact (Nat.zero_add _).symm
  · rw [if_pos ((mem_pushIndices hk).mpr hstale), pushValue]
    by_cases hlt : (k : Nat) < n / 8
    · rw [if_pos hlt, if_pos hlt, toNat_pushBytes E s _ le_rfl]
    · rw [if_neg hlt, if_neg hlt]
      by_cases heq : (k : Nat) = n / 8
      · rw [if_pos heq, if_pos heq, if_neg (by omega), toNat_pushBytes E s _ (by omega)]
        rfl
      · rw [if_neg heq, if_neg heq, swapBytes_zero]
        rfl

def fromWord (B : Nat) (f : Nat → Nat) : Nat → Nat → Nat
  | _, 0 => 0
  | j, m + 1 => f j + B * fromWord B f (j + 1) m

theorem fromWord_eq_zero (h : ∀ k, j ≤ k → f k = 0) (m : Nat) : fromWord B f j m = 0 := by
  induction m generalizing j with
  | zero => rfl
  | succ m ih => rw [fromWord, h j le_rfl, ih fun k hk => h k (by omega), Nat.mul_zero]

theorem fromWord_pushedWord (E : Engine w c) (s : Core w c) (z : Int) (hr : r < 8) (m : Nat) :
    fromWord (2 ^ 64) (pushedWord E s z (8 * (j + q) + r)) j (q + 1 + m) =
      value (bytesBefore E s (8 * q + r) (8 * q + r)) +
        (2 ^ 64) ^ q * (swapBytes (staleWord s z (8 * (j + q) + r))).toNat := by
  have hmod : (8 * (j + q) + r) % 8 = r := by omega
  have hdiv : (8 * (j + q) + r) / 8 = j + q := by omega
  induction q generalizing j with
  | zero =>
    have hrest : ∀ k, j + 1 ≤ k → pushedWord E s z (8 * (j + 0) + r) k = 0 := by
      intro k hk
      rw [pushedWord, if_neg (by omega), if_neg (by omega)]
    rw [Nat.zero_add, Nat.add_comm 1 m, fromWord, fromWord_eq_zero hrest, pushedWord,
      if_neg (by omega), if_pos (by omega), hmod]
    simp
  | succ q ih =>
    have hj : j + (q + 1) = j + 1 + q := by omega
    have hfirst : pushedWord E s z (8 * (j + (q + 1)) + r) j =
        value (bytesBefore E s (8 * (q + 1) + r) 8) := by
      rw [pushedWord, if_pos (by omega)]
      congr 2
      omega
    have hm : q + 1 + 1 + m = q + 1 + m + 1 := by omega
    rw [hm, fromWord, hfirst, hj, ih (by omega) (by omega), value_bytesBefore_words, Nat.pow_succ]
    ring

theorem regValue_pushReg (E : Engine w c) (s : Core w c) (z : Int) (hn : n ≤ 32) :
    regValue (pushReg E s z n) = value (immediate E s n).reverse +
      (2 ^ 64) ^ (n / 8) * (swapBytes (staleWord s z n)).toNat := by
  obtain ⟨q, r, rfl, hr⟩ : ∃ q r, n = 8 * q + r ∧ r < 8 := ⟨n / 8, n % 8, by omega, by omega⟩
  have hdiv : (8 * q + r) / 8 = q := by omega
  have h4 : pushedWord E s z (8 * q + r) 4 = 0 := by
    rw [pushedWord, if_neg (by omega)]
    split
    · have hn' : 8 * q + r = 32 := by omega
      rw [hn', staleWord, if_neg (by omega)]
      rfl
    · rfl
  have hreg : regValue (pushReg E s z (8 * q + r)) =
      fromWord (2 ^ 64) (pushedWord E s z (8 * q + r)) 0 5 := by
    rw [regValue, value_cons, value_cons, value_cons, value_cons, value_nil, toNat_pushReg,
      toNat_pushReg, toNat_pushReg, toNat_pushReg]
    simp only [fromWord, Nat.zero_add, Nat.reduceAdd, h4]
    rfl
  have hwords := fromWord_pushedWord E s z (j := 0) (q := q) hr (4 - q)
  have hm : q + 1 + (4 - q) = 5 := by omega
  rw [hm, Nat.zero_add] at hwords
  rw [hreg, hwords, reverse_immediate, hdiv]

def pushCode (n : Nat) : BitVec 8 := BitVec.ofNat 8 (0x5f + n)

theorem decode_pushCode : ∀ n < 32,
    Insn.decode (pushCode (n + 1)) = .push n ∧ Listed (pushCode (n + 1)) := by
  decide +kernel

structure PushReady (s : Core w c) (z : Int) : Prop where
  sp : SpAt s z
  low : -1 ≤ z
  high : z + 4 < 2048
  gas : 3 ≤ s.gas

theorem pushReg_paid (E : Engine w c) (s : Core w c) (z : Int) (I : Insn) (n : Nat) :
    pushReg E (I.paid s z) z n = pushReg E s z n := by
  have hprog : (I.paid s z).prog = s.prog := by rw [I.paid_keeps]
  have hpc : (I.paid s z).pc = s.pc := by rw [I.paid_keeps]
  funext k
  simp only [pushReg, pushValue, pushBytes, hprog, hpc, I.paid_word]

/-- The conversion of the gas counter is all that can fail. -/
theorem PushReady.mainDecode_eq_ok {E : Engine w c} {s : Core w c} (h : PushReady s z)
    (h1 : 1 ≤ n) (hn : n ≤ 32) : mainDecode E (pushCode n) s = .ok m t ↔
      E.HeapServes s.heapPos 65 ∧ m = .constChanged (s.pc + BitVec.ofNat 32 (n + 1)) ∧
        t = ((Insn.push (n - 1)).paid s z).pushed z (pushReg E s z n) := by
  have hlow := h.low
  have hhigh := h.high
  obtain ⟨count, rfl⟩ : ∃ count, n = count + 1 := ⟨n - 1, by omega⟩
  obtain ⟨hdecode, hlisted⟩ := decode_pushCode count (by omega)
  have hgas : (Insn.push count).Covered s := by
    intro v hv
    cases hv
    exact h.gas
  have hfits : (Insn.push count).Fits s z := by
    intro j hj
    have hj4 : j < 4 := by
      simp only [pushIndices, List.mem_append, List.mem_range, List.mem_range'_1] at hj
      split at hj
      · simp only [List.mem_singleton] at hj
        omega
      · simp only [List.not_mem_nil, or_false] at hj
        omega
    exact ⟨by omega, by omega⟩
  rw [mainDecode_of_listed E s hlisted hdecode, Nat.add_sub_cancel,
    ← pushReg_paid E s z (.push count), Insn.exec_eq_ok_of_covered (I := .push count)
      (show count < 32 by omega) h.sp hgas (fun h0 => by cases h0)]
  constructor
  · rintro ⟨-, hheap, -, hm, ht⟩
    exact ⟨hheap, hm.symm, ht.symm⟩
  · rintro ⟨hheap, hm, ht⟩
    exact ⟨trivial, hheap, hfits, hm.symm, ht.symm⟩

/-- The stack effect of PUSH is right unless the word it leaves as it is holds something. -/
theorem PushReady.pushes_iff {E : Engine w c} {s : Core w c} (h : PushReady s z) (hn : n ≤ 32) :
    s.Pushes (((Insn.push (n - 1)).paid s z).pushed z (pushReg E s z n)) z
        (value (immediate E s n).reverse) ↔
      n % 8 ≠ 0 ∨ n = 32 ∨ s.word (z + 1 + (n / 8 : Nat)) = 0 := by
  have hlow := h.low
  have hhigh := h.high
  rw [Core.pushes_pushed_iff (fun i _ => Insn.paid_word s z _ i) ⟨by omega, by omega⟩
    ⟨by omega, by omega⟩, regValue_pushReg E s z hn]
  have hzero : (swapBytes (staleWord s z n)).toNat = 0 ↔ staleWord s z n = 0 := by
    constructor
    · intro h0
      apply swapBytes_inj
      exact (BitVec.eq_of_toNat_eq h0).trans swapBytes_zero.symm
    · intro h0
      rw [h0]
      rfl
  have hpos : 0 < (2 ^ 64) ^ (n / 8) := Nat.pow_pos (by decide)
  rw [Nat.add_eq_left, Nat.mul_eq_zero, or_iff_right hpos.ne', hzero, staleWord]
  by_cases hr : n % 8 = 0 ∧ n < 32
  · rw [if_pos hr]
    constructor
    · exact fun h0 => .inr (.inr h0)
    · rintro (h0 | h0 | h0)
      · exact absurd hr.1 h0
      · omega
      · exact h0
  · rw [if_neg hr]
    refine iff_of_true rfl ?_
    by_cases h8 : n % 8 = 0
    · exact .inr (.inl (by omega))
    · exact .inl h8

theorem addsPc_of_isPush (h : i ∈ (genInsns prog endPc page limit pc changed).1)
    (hp : isPush i.insn = true) : i.addsPc = false := by
  have hadds : ∀ c b : Bool, b = true → (!(c || b)) = false := by decide
  induction limit generalizing pc changed with
  | zero =>
    rw [genInsns] at h
    split at h
    · obtain rfl := List.mem_singleton.mp h
      rfl
    · obtain rfl := List.mem_singleton.mp h
      exact hadds _ _ hp
  | succ limit ih =>
    rw [genInsns] at h
    dsimp only at h
    split at h
    · obtain rfl := List.mem_singleton.mp h
      rfl
    · split at h
      · rcases List.mem_cons.mp h with rfl | h
        · exact hadds _ _ hp
        · exact ih h
      · obtain rfl := List.mem_singleton.mp h
        exact hadds _ _ hp

theorem isPush_pushCode : ∀ n < 32, isPush (pushCode (n + 1)) = true := by decide

theorem Qemu.finish_push (insn : BitVec 8) (rest : List TbInsn) (pc : BitVec 32) (q : Qemu) :
    (finish ⟨insn, false⟩ rest (.constChanged pc) q).env = { q.env with pc := pc } := by
  unfold finish
  split <;> rfl

/-- PUSHn in the interpreter and in translated code: the big-endian number of the bytes after the
opcode is pushed, and `pc` goes behind them, unless the digit heap cannot hold the gas counter, or
`n` is 8, 16 or 24 and the word above the stored ones holds something. -/
theorem push_law_iff (h1 : 1 ≤ n) (hn : n ≤ 32) :
    (∀ (E : Engine 32 8) (d : Evm) (z : Int), PushReady d.core z → Evm.code E d = pushCode n →
      ((∃ d', Evm.clock E d = .ok () d' ∧
        d.core.Pushes d'.core z (value (immediate E d.core n).reverse) ∧
        d'.core.pc = d.core.pc + BitVec.ofNat 32 (n + 1)) ↔
      E.HeapServes d.core.heapPos 65 ∧
        (n % 8 ≠ 0 ∨ n = 32 ∨ d.core.word (z + 1 + (n / 8 : Nat)) = 0))) ∧
    (∀ (E : Engine 64 64) (q : Qemu) (i : TbInsn) (rest : List TbInsn) (z : Int),
      PushReady q.env z → q.block = i :: rest → i.insn = pushCode n →
      (∃ prog endPc page limit pc changed, i ∈ (genInsns prog endPc page limit pc changed).1) →
      ((∃ q', Qemu.runInsn E q = .ok () q' ∧
        q.env.Pushes q'.env z (value (immediate E q.env n).reverse) ∧
        q'.env.pc = q.env.pc + BitVec.ofNat 32 (n + 1)) ↔
      E.HeapServes q.env.heapPos 65 ∧
        (n % 8 ≠ 0 ∨ n = 32 ∨ q.env.word (z + 1 + (n / 8 : Nat)) = 0))) := by
  constructor
  · intro E d z h hcode
    rw [← h.pushes_iff (E := E) hn, Evm.clock_eq, hcode]
    constructor
    · rintro ⟨d', hd, hp, -⟩
      obtain ⟨m, t, hdec, rfl⟩ := Outcome.into_eq_ok.mp hd
      obtain ⟨hheap, rfl, rfl⟩ := (h.mainDecode_eq_ok h1 hn).mp hdec
      exact ⟨hheap, (Core.pushes_pc_iff _).mp hp⟩
    · rintro ⟨hheap, hp⟩
      have hdec := (h.mainDecode_eq_ok h1 hn).mpr ⟨hheap, rfl, rfl⟩
      exact ⟨_, Outcome.into_eq_ok.mpr ⟨_, _, hdec, rfl⟩, hp.of_pc _, rfl⟩
  · intro E q i rest z h hb hcode hgen
    have hpush := isPush_pushCode (n - 1) (by omega)
    rw [Nat.sub_add_cancel h1, ← hcode] at hpush
    obtain ⟨prog, endPc, page, limit, pc, changed, hi⟩ := hgen
    obtain ⟨insn, addsPc⟩ := i
    obtain rfl : addsPc = false := addsPc_of_isPush hi hpush
    obtain rfl : insn = pushCode n := hcode
    rw [← h.pushes_iff (E := E) hn, Qemu.runInsn_eq E hb]
    constructor
    · rintro ⟨q', hq, hp, -⟩
      obtain ⟨m, t, hdec, rfl⟩ := Outcome.into_eq_ok.mp hq
      obtain ⟨hheap, rfl, rfl⟩ := (h.mainDecode_eq_ok h1 hn).mp hdec
      rw [Qemu.finish_push] at hp
      exact ⟨hheap, (Core.pushes_pc_iff _).mp hp⟩
    · rintro ⟨hheap, hp⟩
      have hdec := (h.mainDecode_eq_ok (E := E) h1 hn).mpr ⟨hheap, rfl, rfl⟩
      refine ⟨_, Outcome.into_eq_ok.mpr ⟨_, _, hdec, rfl⟩, ?_, ?_⟩
      · rw [Qemu.finish_push]
        exact hp.of_pc _
      · rw [Qemu.finish_push]

/-- PUSH1 5. -/
def pushFive : Evm := (Evm.init 1000).loadElf "6005".toList

theorem push_law_five : ∃ d', Evm.clock (cemu .zero) pushFive = .ok () d' ∧
    pushFive.core.Pushes d'.core (-1) 5 ∧ d'.core.pc = 2 := by
  have hready : PushReady pushFive.core (-1) :=
    ⟨⟨rfl, by decide, by decide⟩, by decide, by decide, by decide +kernel⟩
  have hheap : (cemu .zero).HeapServes pushFive.core.heapPos 65 :=
    .inr fun cells hc => by cases hc; decide
  have hvalue : value (immediate (cemu .zero) pushFive.core 1).reverse = 5 := by decide +kernel
  have h := (push_law_iff (n := 1) (by decide) (by decide)).1 (cemu .zero) pushFive (-1) hready
    (by decide +kernel)
  rw [hvalue] at h
  exact h.mpr ⟨hheap, .inl (by decide)⟩

/-- PUSH32 with all bits set; POP; PUSH8 1. -/
def pushOverStale : Evm := (Evm.init 1000).loadElf
  "7fffffffffffffffffffffffffffffffffffffffffffffffffffffffffffffffff50670000000000000001".toList

/-- The second word of the popped element shows up in the pushed one. -/
theorem push_keeps_stale_word :
    ∃ d d', iterate (Evm.clock (cemu .zero)) 2 pushOverStale = .ok () d ∧
    Evm.clock (cemu .zero) d = .ok () d' ∧ d.core.sp = -1 ∧ Evm.code (cemu .zero) d = pushCode 8 ∧
    value (immediate (cemu .zero) d.core 8).reverse = 1 ∧
    d'.core.number 3 0 = 1 + 2 ^ 64 * (2 ^ 64 - 1) := by
  have hd : iterate (Evm.clock (cemu .zero)) 2 pushOverStale =
      .ok () (after (Evm.clock (cemu .zero)) pushOverStale 2) :=
    Outcome.eq_ok_of_isOk (by decide +kernel)
  have hd' : Evm.clock (cemu .zero) (after (Evm.clock (cemu .zero)) pushOverStale 2) =
      .ok () ((Evm.clock (cemu .zero) (after (Evm.clock (cemu .zero)) pushOverStale 2)).get
        pushOverStale) := Outcome.eq_ok_of_isOk (by decide +kernel)
  exact ⟨_, _, hd, hd', by decide +kernel⟩

end GvmCore
