import GvmCore.DigitHeap

namespace GvmCore
open Exec
set_option autoImplicit true

/-- How many elements the EVM's stack, arithmetic, comparison, hash, memory and storage instructions
pop and push. -/
def stackEffect (ocode : BitVec 8) : Option (Nat × Nat) :=
  let n := (ocode &&& 0xf).toNat
  if ocode ∈ [0x08, 0x09] then some (3, 1)
  else if 0x01 ≤ ocode ∧ ocode ≤ 0x0b then some (2, 1)
  else if ocode ∈ [0x15, 0x19] then some (1, 1)
  else if 0x10 ≤ ocode ∧ ocode ≤ 0x1a then some (2, 1)
  else if ocode = 0x20 then some (2, 1)
  else if ocode = 0x50 then some (1, 0)
  else if ocode ∈ [0x51, 0x54] then some (1, 1)
  else if ocode ∈ [0x52, 0x53, 0x55] then some (2, 0)
  else if ocode = 0x59 then some (0, 1)
  else if 0x60 ≤ ocode ∧ ocode ≤ 0x7f then some (0, 1)
  else if 0x80 ≤ ocode ∧ ocode ≤ 0x8f then some (n + 1, n + 2)
  else if 0x90 ≤ ocode ∧ ocode ≤ 0x9f then some (n + 2, n + 2)
  else none

/-- The bytes that are no instruction. -/
def IsUndefined (ocode : BitVec 8) : Prop :=
  0x0c ≤ ocode ∧ ocode ≤ 0x0f ∨ 0x1b ≤ ocode ∧ ocode ≤ 0x1f ∨ 0x21 ≤ ocode ∧ ocode ≤ 0x2f ∨
    0x3d ≤ ocode ∧ ocode ≤ 0x3f ∨ 0x46 ≤ ocode ∧ ocode ≤ 0x4f ∨ 0x5c ≤ ocode ∧ ocode ≤ 0x5f ∨
    0xa5 ≤ ocode ∧ ocode ≤ 0xef ∨ ocode ∈ [0xf5, 0xf6, 0xf7, 0xf8, 0xf9, 0xfb, 0xfc, 0xfe]

instance (ocode : BitVec 8) : Decidable (IsUndefined ocode) := inferInstanceAs (Decidable (_ ∨ _))

/-- STOP, and the bytes that reach `DoArithm` or `DoCompare` without a case of their own. -/
def IsStray (ocode : BitVec 8) : Prop :=
  ocode = 0x00 ∨ 0x0c ≤ ocode ∧ ocode ≤ 0x0f ∨ 0x1b ≤ ocode ∧ ocode ≤ 0x1f

instance (ocode : BitVec 8) : Decidable (IsStray ocode) := inferInstanceAs (Decidable (_ ∨ _))

namespace Insn

def Idle : Insn → Prop
  | .noOp => True
  | .chargeOnly _ => True
  | .mem takesAddr op => takesAddr = false ∧ 12 ≤ op
  | _ => False

instance (I : Insn) : Decidable I.Idle :=
  match I with
  | .noOp => .isTrue trivial
  | .chargeOnly _ => .isTrue trivial
  | .mem takesAddr op => inferInstanceAs (Decidable (takesAddr = false ∧ 12 ≤ op))
  | .pushRegister _ _ => .isFalse id
  | .returnInst => .isFalse id
  | .push _ => .isFalse id
  | .dup _ => .isFalse id
  | .swap _ => .isFalse id
  | .arithm _ => .isFalse id
  | .compare _ => .isFalse id
  | .sha3 => .isFalse id

def entryDelta : Insn → Int
  | .mem true _ => -4
  | .arithm op => resultDelta (arithmArity op)
  | .compare op => resultDelta (compareArity op)
  | _ => 0

theorem entry_sp {s : Core w c} (h : s.sp = BitVec.ofInt w z) (I : Insn) :
    (I.entry s z).sp = BitVec.ofInt w (z + I.entryDelta) := by
  have hkeep : s.sp = BitVec.ofInt w (z + 0) := by rw [h, add_zero]
  cases I with
  | mem takesAddr op =>
    cases takesAddr with
    | false => exact hkeep
    | true => rfl
  | arithm op => exact congrArg (BitVec.ofInt w) (resultIndex_add_three z (arithmArity op))
  | compare op => exact congrArg (BitVec.ofInt w) (resultIndex_add_three z (compareArity op))
  | _ => exact hkeep

theorem entryDelta_bounds (I : Insn) : -8 ≤ I.entryDelta ∧ I.entryDelta ≤ 3 := by
  have hres : ∀ k ≤ 3, -8 ≤ resultDelta k ∧ resultDelta k ≤ 3 := by decide
  cases I with
  | mem takesAddr op => cases takesAddr <;> simp [entryDelta]
  | arithm op => exact hres _ (arithmArity_le op)
  | compare op => exact hres _ (compareArity_le op)
  | _ => simp [entryDelta]

theorem Idle.entry {s : Core w c} {I : Insn} (h : I.Idle) : I.entry s z = s := by
  cases I with
  | mem takesAddr op =>
    obtain ⟨rfl, -⟩ := h
    rfl
  | noOp | chargeOnly => rfl
  | _ => exact h.elim

theorem Idle.effect {E : Engine w c} {s : Core w c} {I : Insn} (h : I.Idle) :
    I.effect E s z = s := by
  cases I with
  | mem takesAddr op =>
    obtain ⟨-, hop⟩ := h
    obtain ⟨n, rfl⟩ : ∃ n, op = n + 12 := ⟨op - 12, by omega⟩
    rfl
  | noOp | chargeOnly => rfl
  | _ => exact h.elim

theorem Idle.inRange {I : Insn} (h : I.Idle) : I.InRange := by
  cases I with
  | noOp | chargeOnly | mem => trivial
  | _ => exact h.elim

theorem Idle.keeps {E : Engine w c} {s t : Core w c} {I : Insn} (hI : I.Idle) (h : SpAt s z)
    (hok : I.exec E s = .ok pw t) : t.sp = s.sp ∧ t.stackArr = s.stackArr := by
  obtain ⟨-, -, s', hpay, -, -, -, rfl⟩ := (exec_eq_ok E hI.inRange h).mp hok
  rw [hI.entry] at hpay
  rw [hI.effect, (pay_facts hpay).only.eq]
  exact ⟨rfl, rfl⟩

theorem faultsIn_useGas_ofHeap (E : Engine w c) (v : Word) :
    FaultsIn Fault.OfHeap (useGas E v) := by
  have halloc := ((returnsOr_bignumAlloc_ofHeap E 64).mono fun _ h => h.1).faultsIn
  exact .bind (.bind halloc fun _ => .bind (.read _) fun _ => .bind (.update _) fun _ => .pure _)
    fun _ => .ite (.bind (.update _) fun _ => faultsIn_checkError E) (.update _)

theorem Idle.faultsIn_exec {I : Insn} (hI : I.Idle) (E : Engine w c) :
    FaultsIn Fault.OfHeap (I.exec E) := by
  cases I with
  | noOp => exact .pure _
  | chargeOnly gas => exact .bind (faultsIn_useGas_ofHeap E gas) fun _ => .pure _
  | mem takesAddr op =>
    obtain ⟨rfl, hop⟩ := hI
    obtain ⟨n, rfl⟩ : ∃ n, op = n + 12 := ⟨op - 12, by omega⟩
    exact .pure _
  | _ => exact hI.elim

theorem Idle.ends {E : Engine w c} {s t : Core w c} {I : Insn} (hI : I.Idle) (h : Ends E s z I t) :
    t.sp = s.sp ∧ t.stackArr = s.stackArr := by
  cases h with
  | returned => exact hI.elim
  | stopped => exact hI.elim
  | outOfGas =>
    rw [hI.entry]
    exact ⟨rfl, rfl⟩

end Insn

/-- The whole table of opcodes, checked against the model in one evaluation. -/
theorem opcode_table : ∀ ocode,
    (∀ e ∈ stackEffect ocode, (Insn.decode ocode).delta = 4 * ((e.2 : Int) - e.1)) ∧
    (IsStray ocode → (Insn.decode ocode).delta = 3 ∧ (Insn.decode ocode).conversions = 0 ∧
      (ocode = 0x00 ∨ IsUndefined ocode)) ∧
    (¬ IsStray ocode → 4 ∣ (Insn.decode ocode).delta ∧ 4 ∣ (Insn.decode ocode).entryDelta ∧
      (IsUndefined ocode → (Insn.decode ocode).Idle)) := by
  decide +kernel

theorem delta_of_stackEffect (ocode : BitVec 8) : ∀ e ∈ stackEffect ocode,
    (Insn.decode ocode).delta = 4 * ((e.2 : Int) - e.1) :=
  (opcode_table ocode).1

theorem stray_facts (h : IsStray ocode) : (Insn.decode ocode).delta = 3 ∧
    (Insn.decode ocode).conversions = 0 ∧ (ocode = 0x00 ∨ IsUndefined ocode) :=
  (opcode_table ocode).2.1 h

theorem not_stray_facts (h : ¬ IsStray ocode) : 4 ∣ (Insn.decode ocode).delta ∧
    4 ∣ (Insn.decode ocode).entryDelta ∧ (IsUndefined ocode → (Insn.decode ocode).Idle) :=
  (opcode_table ocode).2.2 h

theorem ends_sp {E : Engine w c} {s t : Core w c} (hs : s.sp = BitVec.ofInt w z)
    (hcode : ¬ IsStray ocode) (h : Insn.Ends E s z (Insn.decode ocode) t) :
    ∃ e, t.sp = BitVec.ofInt w (z + e) ∧ 4 ∣ e ∧ -8 ≤ e ∧ e ≤ 3 := by
  have hstop := decode_eq_stop ocode
  have hentry := (Insn.decode ocode).entry_sp hs
  have hbounds := (Insn.decode ocode).entryDelta_bounds
  obtain ⟨-, haligned, -⟩ := not_stray_facts hcode
  generalize Insn.decode ocode = I at h hstop hentry hbounds haligned
  cases h with
  | returned => exact ⟨0, by rw [add_zero]; exact hs, by omega, by omega, by omega⟩
  | stopped => exact absurd (.inl (hstop.mp rfl)) hcode
  | outOfGas => exact ⟨I.entryDelta, hentry, haligned, hbounds.1, hbounds.2⟩

namespace Evm

def spInt (d : Evm) : Int := d.core.spInt32

/-- An instruction that took the interpreter from `d` to `d'` kept the stack in elements of four
words. -/
structure ShapeKept (E : Engine 32 8) (d d' : Evm) : Prop where
  aligned : 4 ∣ d'.spInt + 1
  counted : clock E d = .ok () d' → ∀ e ∈ stackEffect (code E d),
    d'.spInt = d.spInt + 4 * ((e.2 : Int) - e.1)
  still : code E d = 0x00 ∨ IsUndefined (code E d) →
    d'.core.sp = d.core.sp ∧ d'.core.stackArr = d.core.stackArr

/-- The instruction at `d` keeps the stack in elements of four words; STOP and the bytes that are no
instruction touch nothing outside the arrays either. -/
structure KeepsShape (E : Engine 32 8) (d : Evm) : Prop where
  kept : ∀ d', clock E d = .ok () d' ∨ clock E d = .exit d' → ShapeKept E d d'
  inside : code E d = 0x00 ∨ IsUndefined (code E d) → ∀ f, clock E d = .fault f → ¬ f.Indexing

section Shape

variable {W : World 32 8} {d d' : Evm}

theorem insn_eq_decode : (driver (cemu W)).insn d = Insn.decode (code (cemu W) d) :=
  cemuWith_resolve _ W _ _

theorem spInt_eq (h : d.core.sp = BitVec.ofInt 32 z) (hl : -2 ^ 31 ≤ z) (hu : z < 2 ^ 31) :
    d.spInt = z :=
  SpAt.spInt32 (cemu .zero) ⟨h, hl, hu⟩

theorem stray_sp (hz : Bounded d.core z) (hcode : IsStray (code (cemu W) d))
    (h : clock (cemu W) d = .ok () d' ∨ clock (cemu W) d = .exit d') :
    d'.core.sp = BitVec.ofInt 32 (z + 3) := by
  rcases h with h | h
  · obtain ⟨t, pc, hf, hcore⟩ := Driver.step_facts (D := driver (cemu W)) hz.spAt h
    have hsp := hf.sp
    rw [insn_eq_decode, (stray_facts hcode).1] at hsp
    have hd' : d'.core = { t with pc := pc } := hcore
    rw [hd']
    exact hsp
  · obtain ⟨t, pc, hends, hcore⟩ := Driver.exit_facts (D := driver (cemu W)) hz.spAt h
    have hd' : d'.core = { t with pc := pc } := hcore
    obtain ⟨-, hfree, -⟩ := stray_facts hcode
    rw [conversions_eq_zero_iff] at hfree
    rw [insn_eq_decode] at hends
    rw [hd']
    generalize Insn.decode (code (cemu W) d) = I at hends hfree
    cases hends with
    | returned => cases hfree.2
    | stopped => rfl
    | outOfGas _ hex =>
      obtain ⟨v, hv, -⟩ := hex
      rw [hfree.2] at hv
      cases hv

theorem not_keepsShape_of_stray (hz : Bounded d.core z) (hcode : IsStray (code (cemu W) d)) :
    ¬ KeepsShape (cemu W) d := by
  intro hkeeps
  obtain ⟨-, hfree, hstray⟩ := stray_facts hcode
  have hmoved : ∀ d', ¬ (clock (cemu W) d = .ok () d' ∨ clock (cemu W) d = .exit d') := by
    intro d' h
    have hl := hz.spAt.lower
    have hu := hz.high
    have hstill := ((hkeeps.kept d' h).still hstray).1
    rw [stray_sp hz hcode h] at hstill
    have h3 := spInt_eq (d := d) hstill.symm (by omega) (by omega)
    have h0 := spInt_eq hz.sp hl (by omega)
    omega
  cases hstep : clock (cemu W) d with
  | ok u d' => exact hmoved d' (.inl hstep)
  | exit d' => exact hmoved d' (.inr hstep)
  | fault f =>
    apply hkeeps.inside hstray f hstep
    have hexec := (Driver.step_eq_fault (D := driver (cemu W))).mp hstep
    rw [insn_eq_decode] at hexec
    exact Insn.faultsIn_exec_of_free _ hfree _ f hexec

theorem shapeKept_of_ok (hz : Bounded d.core z) (ha : 4 ∣ z + 1)
    (hcode : ¬ IsStray (code (cemu W) d)) (h : clock (cemu W) d = .ok () d') :
    ShapeKept (cemu W) d d' := by
  obtain ⟨pw, t, hexec, hnext⟩ := (Driver.step_eq_ok (D := driver (cemu W))).mp h
  have hf := Insn.exec_facts _ (Driver.insn_inRange d) hz.spAt hexec
  have hb := hz.step rfl hf
  rw [insn_eq_decode] at hexec hb
  obtain ⟨pc, hpc⟩ := core_next d pw t
  have hcore : d'.core = { t with pc := pc } := by
    rw [← hpc, ← hnext]
    rfl
  have hd : d.spInt = z := spInt_eq hz.sp hz.spAt.lower hz.spAt.upper
  have hd' : d'.spInt = z + (Insn.decode (code (cemu W) d)).delta := by
    refine spInt_eq ?_ hb.spAt.lower hb.spAt.upper
    rw [hcore]
    exact hb.sp
  refine ⟨?_, fun _ e he => ?_, fun hstill => ?_⟩
  · obtain ⟨hdelta, -, -⟩ := not_stray_facts hcode
    rw [hd']
    omega
  · rw [hd, hd', delta_of_stackEffect _ e he]
  · have hund := hstill.resolve_left fun h0 => hcode (.inl h0)
    have hkeeps := ((not_stray_facts hcode).2.2 hund).keeps hz.spAt hexec
    rw [hcore]
    exact hkeeps

theorem shapeKept_of_exit (hz : Bounded d.core z) (ha : 4 ∣ z + 1)
    (hcode : ¬ IsStray (code (cemu W) d)) (h : clock (cemu W) d = .exit d') :
    ShapeKept (cemu W) d d' := by
  obtain ⟨t, pc, hends, hcore⟩ := Driver.exit_facts (D := driver (cemu W)) hz.spAt h
  have hd' : d'.core = { t with pc := pc } := hcore
  rw [insn_eq_decode] at hends
  have hl := hz.lower
  have hu := hz.high
  refine ⟨?_, fun hok => ?_, fun hstill => ?_⟩
  · obtain ⟨e, hsp, he, hmin, hmax⟩ := ends_sp hz.sp hcode hends
    have hsp' : d'.spInt = z + e := spInt_eq (by rw [hd']; exact hsp) (by omega) (by omega)
    rw [hsp']
    omega
  · rw [h] at hok
    cases hok
  · have hund := hstill.resolve_left fun h0 => hcode (.inl h0)
    have hkeeps := ((not_stray_facts hcode).2.2 hund).ends hends
    rw [hd']
    exact hkeeps

/-- The step lemma: in an aligned state every other byte keeps the shape. -/
theorem keepsShape_of_not_stray (hz : Bounded d.core z) (ha : 4 ∣ d.spInt + 1)
    (hcode : ¬ IsStray (code (cemu W) d)) : KeepsShape (cemu W) d := by
  rw [spInt_eq hz.sp hz.spAt.lower hz.spAt.upper] at ha
  constructor
  · rintro d' (h | h)
    · exact shapeKept_of_ok hz ha hcode h
    · exact shapeKept_of_exit hz ha hcode h
  · intro hund f hf hindex
    have hidle := (not_stray_facts hcode).2.2 (hund.resolve_left fun h0 => hcode (.inl h0))
    have hexec := (Driver.step_eq_fault (D := driver (cemu W))).mp hf
    rw [insn_eq_decode] at hexec
    exact hindex.not_ofHeap (hidle.faultsIn_exec _ _ f hexec)

/-- A run that meets no stray byte keeps the stack aligned. -/
theorem aligned_run (hrun : Run (clock (cemu W)) ((init limit).loadElf text) hist d)
    (hcode : ∀ x ∈ hist, ¬ IsStray (code (cemu W) x)) : 4 ∣ d.spInt + 1 := by
  induction hrun with
  | start => exact ⟨0, rfl⟩
  | step hrun hstep ih =>
    obtain ⟨z, hz⟩ := (Started.init W limit text).bounded hrun
    have ha := ih fun x hx => hcode x (List.mem_cons_of_mem _ hx)
    exact ((keepsShape_of_not_stray hz ha (hcode _ List.mem_cons_self)).kept _ (.inl hstep)).aligned

/-- A run from reset keeps its stack in elements of four words exactly when it comes neither to STOP
nor to a byte without a case in `DoArithm` or `DoCompare`. -/
theorem stack_shape_iff (hrun : Run (clock (cemu W)) ((init limit).loadElf text) hist d) :
    (∀ x ∈ d :: hist, KeepsShape (cemu W) x) ↔ ∀ x ∈ d :: hist, ¬ IsStray (code (cemu W) x) := by
  have hreach : ∀ x ∈ d :: hist, ∃ hist',
      Run (clock (cemu W)) ((init limit).loadElf text) hist' x ∧ ∀ v ∈ hist', v ∈ hist := by
    intro x hx
    rcases List.mem_cons.mp hx with rfl | hx
    · exact ⟨hist, hrun, fun v hv => hv⟩
    · exact hrun.of_mem hx
  constructor
  · intro hkept x hx hstray
    obtain ⟨hist', hrun', -⟩ := hreach x hx
    obtain ⟨z, hz⟩ := (Started.init W limit text).bounded hrun'
    exact not_keepsShape_of_stray hz hstray (hkept x hx)
  · intro hcode x hx
    obtain ⟨hist', hrun', hsub⟩ := hreach x hx
    obtain ⟨z, hz⟩ := (Started.init W limit text).bounded hrun'
    have ha : 4 ∣ x.spInt + 1 :=
      aligned_run hrun' fun v hv => hcode v (List.mem_cons_of_mem _ (hsub v hv))
    exact keepsShape_of_not_stray hz ha (hcode x hx)

end Shape

/-- PUSH1 1; PUSH1 2; ADD; JUMPDEST. -/
def addTwo : Evm := (init 1000).loadElf "60016002015b".toList

theorem stack_shape_add : ∃ hist d, Run (clock (cemu .zero)) addTwo hist d ∧
    code (cemu .zero) d = 0x5b ∧ d.spInt = 3 ∧ ∀ x ∈ d :: hist, KeepsShape (cemu .zero) x := by
  have hfacts : (iterate (clock (cemu .zero)) 3 addTwo).isOk = true ∧
      code (cemu .zero) (after (clock (cemu .zero)) addTwo 3) = 0x5b ∧
      (after (clock (cemu .zero)) addTwo 3).spInt = 3 ∧
      ∀ x ∈ (List.range 4).reverse.map (after (clock (cemu .zero)) addTwo),
        ¬ IsStray (code (cemu .zero) x) := by
    decide +kernel
  obtain ⟨hok, hcode, hsp, hstray⟩ := hfacts
  exact ⟨_, _, Run.of_isOk hok, hcode, hsp, (stack_shape_iff (Run.of_isOk hok)).mpr hstray⟩

def stopAtOnce : Evm := (init 1000).loadElf "00".toList

/-- STOP on an empty stack leaves `sp` at two. -/
theorem stop_moves_sp : ∃ d', clock (cemu .zero) stopAtOnce = .exit d' ∧
    ¬ ShapeKept (cemu .zero) stopAtOnce d' := by
  have hexit : clock (cemu .zero) stopAtOnce =
      .exit ((clock (cemu .zero) stopAtOnce).get stopAtOnce) :=
    Outcome.eq_exit_of_isExit (by decide +kernel)
  exact ⟨_, hexit, fun h => absurd h.aligned (by decide +kernel)⟩

end Evm

end GvmCore
