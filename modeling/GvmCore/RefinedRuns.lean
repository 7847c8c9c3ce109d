import GvmCore.KeccakLaw
import GvmCore.Lockstep
import GvmCore.Refinement
import GvmCore.ReturnedData

namespace GvmCore
open Exec Abstract Digits
set_option autoImplicit true

namespace Abstract.Contract
variable {C : Contract}

def Exact (C : Contract) (s : State) : Prop := ∀ op ∈ C.op s, op.Exact C s

instance (C : Contract) (s : State) : Decidable (C.Exact s) :=
  inferInstanceAs (Decidable (∀ op ∈ C.op s, op.Exact C s))

def conversions (C : Contract) (hist : List State) : Nat :=
  (hist.map fun s => (C.op s).elim 0 Op.conversions).sum

theorem conversions_cons {op : Op} (h : C.op s = some op) (hist : List State) :
    C.conversions (s :: hist) = op.conversions + C.conversions hist := by
  simp [conversions, h]

theorem pc_lt {o : Op} (h : C.op s = some o) : s.pc < C.code.length := by
  obtain ⟨b, hb, -⟩ := getElem?_of_op h
  exact (List.getElem?_eq_some_iff.mp hb).1

theorem decode_code {o : Op} (h : C.op s = some o) : Op.decode (C.code.getD s.pc 0) = some o := by
  obtain ⟨b, hb, hd⟩ := getElem?_of_op h
  rw [List.getD_eq_getElem?_getD, hb]
  exact hd

theorem gas_le (h : Run C.step s hist t) : t.gas ≤ s.gas := by
  refine h.invariant (I := fun t => t.gas ≤ s.gas) le_rfl ?_
  intro t u ht hstep
  obtain ⟨op, -, -, -, rfl⟩ := step_eq_ok.mp hstep
  exact (Nat.sub_le t.gas op.cost).trans ht

end Abstract.Contract

theorem Abstract.Op.conversions_pos (op : Op) : 1 ≤ op.conversions := by
  cases op <;> simp [conversions]

namespace Driver
variable {D : Driver w c σ} {C : Contract} {op : Op}

theorem insn_of_op (h : Op.decode (D.code d) = some op) : D.insn d = op.insn := by
  obtain ⟨hdecode, hlisted⟩ := Op.insn_of_decode (D.code d) op h
  exact (insn_of_listed hlisted).trans hdecode

theorem refines_return (h : Refines D.engine C (D.core d) A)
    (hcode : Op.decode (D.code d) = some .ret) (hgo : Op.ret.refuses C A = none)
    (hx : Op.ret.ExactOn C A) (hgas : A.gas < 2 ^ 64)
    (hheap : D.engine.HeapServes (D.core d).heapPos 65) :
    ∃ d' u, D.step d = .exit d' ∧
      resultMessage (D.core d') = .ok (.result (Contract.output A)) u := by
  obtain ⟨hneeds, -⟩ := Op.of_refuses_eq_none hgo
  obtain ⟨hrange, hpos⟩ := hx
  have hz : A.top = 4 * (A.stack.length : Int) - 1 := rfl
  have hneeds : 2 ≤ A.stack.length := hneeds
  have hlt := h.top_lt
  have hexec : (D.insn d).exec D.engine (D.core d) = .exit ((D.core d).charged 0) := by
    rw [insn_of_op hcode]
    exact (Insn.returnInst_eq_exit h.spAt).mpr ⟨hheap, rfl⟩
  have hexit := step_eq_exit.mpr ⟨_, hexec, rfl⟩
  have hbyte : D.code d = 0xf3 :=
    (decode_eq_returnInst _).mp (Op.insn_of_decode _ _ hcode).1
  obtain ⟨pc, hcore⟩ := D.core_halted d ((D.core d).charged 0)
  have hleft : ((D.core d).charged 0).gas = A.gas :=
    (Core.gas_charged (Nat.zero_le _)).trans h.gas
  have hword : (D.core (D.halted d ((D.core d).charged 0))).gasAvailable 0 ≠ 0 := by
    rw [hcore]
    intro h0
    have := (gasWord_eq_zero_iff (hleft.trans_lt hgas)).mp h0
    exact absurd (hleft.symm.trans this) (by omega)
  have hreturns : (D.core d).Returns A.top (A.operand 0) (A.operand 1) :=
    ⟨⟨by omega, by omega⟩, ⟨by omega, by omega⟩, h.number (by omega), h.number (by omega), hrange⟩
  obtain ⟨u, hprint⟩ := returned_print h.spAt hbyte hexit hword hreturns
  rw [Refines.bytes_eq h.memory hrange] at hprint
  exact ⟨_, u, hexit, hprint⟩

end Driver

theorem Refines.entryIn {E : Engine w c} {s : Core w c} (h : Refines E C s A) {op : Op}
    (hneeds : op.needs ≤ A.stack.length) : op.insn.EntryIn A.top := by
  have hz : A.top = 4 * (A.stack.length : Int) - 1 := rfl
  cases op with
  | binary b =>
    have hneeds : 2 ≤ A.stack.length := hneeds
    have harity : b.insn.arity = 2 := by cases b <;> rfl
    exact (Insn.entryIn_of_arity (s := s) (I := b.insn) (by omega) h.top_lt (by omega)).1
  | unary u =>
    have hneeds : 1 ≤ A.stack.length := hneeds
    have harity : u.insn.arity = 1 := by cases u <;> rfl
    exact (Insn.entryIn_of_arity (s := s) (I := u.insn) (by omega) h.top_lt (by omega)).1
  | mload | mstore | mstore8 | sload | sstore | jump =>
    exact h.top_inStack (n := 1) (Nat.le_trans (by decide) hneeds) (show 3 < 4 * 1 by decide)
  | _ => trivial

/-- An engine that unwinds leaves the run when the gas does not last, and reports it. -/
theorem Driver.refines_outOfGas {D : Driver w c σ} (h : Refines D.engine C (D.core d) A) {op : Op}
    (hcode : Op.decode (D.code d) = some op) (hno : op.refuses C A = some .outOfGas)
    (hthrows : D.engine.checkErrorThrows = true)
    (hheap : D.engine.HeapServes (D.core d).heapPos (65 * op.conversions)) :
    ∃ d' u, D.step d = .exit d' ∧ resultMessage (D.core d') = .ok .gasLimitError u := by
  obtain ⟨hneeds, hcost⟩ := Op.of_refuses_eq_outOfGas hno
  obtain ⟨v, hv, hcost'⟩ := op.charge_insn
  have hexceeds : op.insn.Exceeds (D.core d) := ⟨v, hv, by rw [h.gas, hcost']; exact hcost⟩
  have hexec := (Insn.Ends.outOfGas hthrows hexceeds).exec h.spAt (h.entryIn hneeds)
    (by rw [op.conversions_insn]; exact hheap)
  rw [← D.insn_of_op hcode] at hexec
  obtain ⟨pc, hcore⟩ := D.core_halted d ((D.insn d).entry (D.core d) A.top).drained
  have hzero : (D.core (D.halted d ((D.insn d).entry (D.core d) A.top).drained)).gasAvailable 0 =
      0 := by
    rw [hcore]
    rfl
  exact ⟨_, _, step_eq_exit.mpr ⟨_, hexec, rfl⟩, resultMessage_of_zero hzero⟩

/-- How a driver keeps to the position of the abstract machine, for the instructions it can follow:
`P` is what it knows of its own position. -/
structure Driver.Tracks (D : Driver w c σ) (C : Contract) (Allowed : Op → Prop)
    (P : σ → State → Prop) : Prop where
  code : ∀ {d A op}, Refines D.engine C (D.core d) A → P d A → C.op A = some op →
    Op.decode (D.code d) = some op
  next : ∀ {d A op t}, Refines D.engine C (D.core d) A → P d A → C.op A = some op →
    op.refuses C A = none → op.Exact C A → Allowed op → t.pc = (D.core d).pc →
    D.step d = .ok () (D.next d (op.insn.write (D.core d) A.top) t) →
    P (D.next d (op.insn.write (D.core d) A.top) t) (op.next C A) ∧
      (op.pcAfter A < C.code.length →
        (D.core (D.next d (op.insn.write (D.core d) A.top) t)).pc = BitVec.ofNat 32 (op.pcAfter A))

/-- What holds when a driver has followed a run of the abstract machine. -/
structure Driver.Follows (D : Driver w c σ) (C : Contract) (P : σ → State → Prop)
    (hist : List State) (d : σ) (A : State) : Prop where
  refines : Refines D.engine C (D.core d) A
  position : P d A
  heapPos : (D.core d).heapPos = 65 * C.conversions hist

def Driver.Prints (D : Driver w c σ) (d : σ) (l : Line) : Prop :=
  ∃ n t u, iterate D.step n d = .exit t ∧ resultMessage (D.core t) = .ok l u

theorem Driver.Prints.of_run {D : Driver w c σ} (hrun : Run D.step d₀ hist d)
    (hexit : D.step d = .exit d') (hprint : resultMessage (D.core d') = .ok l u) : D.Prints d₀ l :=
  ⟨hist.length + 1, d', u,
    iterate_eq_exit.mpr ⟨hist.length, Nat.lt_succ_self _, d, hrun.iterate_eq, hexit⟩, hprint⟩

theorem Driver.Prints.unique {D : Driver w c σ} (h : D.Prints d l) (h' : D.Prints d l') :
    l = l' := by
  obtain ⟨n, t, u, hexit, hprint⟩ := h
  obtain ⟨n', t', u', hexit', hprint'⟩ := h'
  obtain rfl := Run.exit_unique hexit hexit'
  rw [hprint] at hprint'
  cases hprint'
  rfl

namespace Driver.Tracks
variable {D : Driver w c σ} {C : Contract} {Allowed : Op → Prop} {P : σ → State → Prop}

/-- One instruction of the abstract machine is one step of the driver. -/
theorem step (hT : D.Tracks C Allowed P) (hsize : C.code.length < 2 ^ 32)
    (h : D.Follows C P hist d A) (hop : C.op A = some op) (hgo : op.refuses C A = none)
    (hret : op ≠ .ret) (hx : op.Exact C A) (hallowed : Allowed op)
    (hheap : ∀ n ∈ D.engine.heapCells, 65 * (C.conversions (A :: hist) + 1) ≤ n) :
    ∃ d', D.step d = .ok () d' ∧ D.Follows C P (A :: hist) d' (op.next C A) := by
  have hconv := Contract.conversions_cons hop hist
  have hserves : D.engine.HeapServes (D.core d).heapPos (65 * op.conversions + 51) := by
    right
    intro cells hcells
    have := hheap cells hcells
    have := h.heapPos
    omega
  obtain ⟨t, hexec, hpc, hpos, hrefines⟩ :=
    h.refines.exec hgo hret hx (Contract.pc_lt hop) hsize hserves
  have hstep : D.step d = .ok () (D.next d (op.insn.write (D.core d) A.top) t) := by
    refine step_eq_ok.mpr ⟨_, t, ?_, rfl⟩
    rw [insn_of_op (hT.code h.refines h.position hop)]
    exact hexec
  obtain ⟨hP, hposition⟩ := hT.next h.refines h.position hop hgo hx hallowed hpc hstep
  obtain ⟨p, hcore⟩ := D.core_next d (op.insn.write (D.core d) A.top) t
  refine ⟨_, hstep, ?_, hP, ?_⟩
  · rw [hcore] at hposition ⊢
    exact hrefines p hposition
  · rw [hcore, hconv]
    exact hpos.trans (by rw [h.heapPos]; omega)

/-- The driver follows the abstract machine over a whole run. -/
theorem run (hT : D.Tracks C Allowed P) (hsize : C.code.length < 2 ^ 32)
    (h₀ : D.Follows C P [] d₀ A₀) (hrun : Run C.step A₀ hist A) (hexact : ∀ x ∈ hist, C.Exact x)
    (hallowed : ∀ x ∈ hist, ∀ op ∈ C.op x, Allowed op)
    (hheap : ∀ n ∈ D.engine.heapCells, 65 * (C.conversions hist + 1) ≤ n) :
    ∃ hist' d, Run D.step d₀ hist' d ∧ D.Follows C P hist d A := by
  induction hrun with
  | start => exact ⟨[], d₀, .start, h₀⟩
  | @step hist A B hrun hstep ih =>
    obtain ⟨op, hop, hgo, hret, rfl⟩ := Contract.step_eq_ok.mp hstep
    have hbefore : ∀ n ∈ D.engine.heapCells, 65 * (C.conversions hist + 1) ≤ n := by
      intro n hn
      have := hheap n hn
      rw [Contract.conversions_cons hop] at this
      omega
    obtain ⟨hist', d, hrun', hd⟩ := ih (fun x hx => hexact x (.tail _ hx))
      (fun x hx => hallowed x (.tail _ hx)) hbefore
    obtain ⟨d', hok, hd'⟩ := hT.step hsize hd hop hgo hret (hexact A (.head _) op hop)
      (hallowed A (.head _) op hop) hheap
    exact ⟨d :: hist', d', hrun'.step hok, hd'⟩

/-- When the abstract machine returns, the driver prints what it hands out and nothing else. -/
theorem prints_output (hT : D.Tracks C Allowed P) (hsize : C.code.length < 2 ^ 32)
    (h₀ : D.Follows C P [] d₀ A₀) (hgas : A₀.gas < 2 ^ 64) (hrun : Run C.step A₀ hist A)
    (hexact : ∀ x ∈ A :: hist, C.Exact x) (hallowed : ∀ x ∈ hist, ∀ op ∈ C.op x, Allowed op)
    (hheap : ∀ n ∈ D.engine.heapCells, 65 * C.conversions (A :: hist) ≤ n)
    (hexit : C.step A = .exit B) (l : Line) :
    D.Prints d₀ l ↔ l = .result (Contract.output A) := by
  obtain ⟨hop, hgo, -⟩ := Contract.step_eq_exit.mp hexit
  have hconv : C.conversions (A :: hist) = 1 + C.conversions hist :=
    Contract.conversions_cons hop hist
  obtain ⟨hist', d, hrun', hd⟩ := hT.run hsize h₀ hrun (fun x hx => hexact x (.tail _ hx)) hallowed
    fun n hn => by
      have := hheap n hn
      omega
  have hserves : D.engine.HeapServes (D.core d).heapPos 65 := by
    right
    intro cells hcells
    have := hheap cells hcells
    have := hd.heapPos
    omega
  obtain ⟨d', u, hstep, hprint⟩ := refines_return hd.refines
    (hT.code hd.refines hd.position hop) hgo (hexact A (.head _) _ hop).operands
    ((Contract.gas_le hrun).trans_lt hgas) hserves
  have hprints := Prints.of_run hrun' hstep hprint
  exact ⟨fun h => h.unique hprints, fun h => h ▸ hprints⟩

theorem prints_gasLimitError (hT : D.Tracks C Allowed P) (hsize : C.code.length < 2 ^ 32)
    (h₀ : D.Follows C P [] d₀ A₀) (hthrows : D.engine.checkErrorThrows = true)
    (hrun : Run C.step A₀ hist A) (hexact : ∀ x ∈ hist, C.Exact x)
    (hallowed : ∀ x ∈ hist, ∀ op ∈ C.op x, Allowed op)
    (hheap : ∀ n ∈ D.engine.heapCells, 65 * C.conversions (A :: hist) ≤ n)
    (hfault : C.step A = .fault .outOfGas) (l : Line) : D.Prints d₀ l ↔ l = .gasLimitError := by
  obtain ⟨op, hop, hno⟩ := Contract.step_eq_outOfGas hfault
  have hconv := Contract.conversions_cons hop hist
  have hpos := op.conversions_pos
  obtain ⟨hist', d, hrun', hd⟩ := hT.run hsize h₀ hrun hexact hallowed
    fun n hn => by
      have := hheap n hn
      omega
  have hserves : D.engine.HeapServes (D.core d).heapPos (65 * op.conversions) := by
    right
    intro cells hcells
    have := hheap cells hcells
    have := hd.heapPos
    omega
  obtain ⟨d', u, hstep, hprint⟩ := refines_outOfGas hd.refines
    (hT.code hd.refines hd.position hop) hno hthrows hserves
  have hprints := Prints.of_run hrun' hstep hprint
  exact ⟨fun h => h.unique hprints, fun h => h ▸ hprints⟩

end Driver.Tracks

namespace Evm
variable {E : Engine 32 8} {C : Contract} {d : Evm}

theorem pc_next_op (h : Refines E C d.core A) {op : Op} (hpc : A.pc < C.code.length)
    (hneeds : op.needs ≤ A.stack.length) (hx : op.ExactOn C A) {t : Core 32 8}
    (ht : t.pc = d.core.pc) :
    (Evm.next d (op.insn.write d.core A.top) t).core.pc = BitVec.ofNat 32 (op.pcAfter A) := by
  have hstep : (Evm.next d .none t).core.pc = BitVec.ofNat 32 (A.pc + 1) := by
    rw [BitVec.ofNat_add, ← h.pc hpc, ← ht]
    rfl
  cases op with
  | binary b => cases b <;> exact hstep
  | unary u => cases u <;> exact hstep
  | push n =>
    refine Eq.trans (b := d.core.pc + BitVec.ofNat 32 (n + 2)) rfl ?_
    rw [h.pc hpc, ← BitVec.ofNat_add]
    rfl
  | jump => exact h.key_eq hneeds hx
  | _ => exact hstep

/-- The emulator fetches each instruction anew, so it can follow all of them. -/
theorem tracks (E : Engine 32 8) (C : Contract) :
    (Evm.driver E).Tracks C (fun _ => True) fun _ _ => True where
  code := fun {d A op} h _ hop => by
    have hlt := Contract.pc_lt hop
    have hcode : (Evm.driver E).code d = C.code.getD A.pc 0 :=
      (congrArg (E.fetch d.core.prog) (h.pc hlt)).trans (h.code _ hlt)
    rw [hcode]
    exact Contract.decode_code hop
  next := fun h _ hop hgo hx _ ht _ => ⟨trivial, fun _ =>
    pc_next_op h (Contract.pc_lt hop) (Op.of_refuses_eq_none hgo).1 hx.operands ht⟩

end Evm

theorem Abstract.Op.size_of_decode : ∀ b, ∀ op ∈ decode b,
    getPpdlShiftPc b = op.size ∧ (op ≠ .jump → b ≠ 0x56) := by
  decide +kernel

namespace Qemu
variable {E : Engine 64 64} {C : Contract}

theorem Tracked.code_eq {q : Qemu} (hprog : E.progSize = none)
    (h : Refines E C q.env A) (ht : Tracked q.env.prog C.code.length q A.pc)
    (hlt : A.pc < C.code.length) (hsize : C.code.length < 2 ^ 32) (limits : Nat → Nat) :
    (current limits q).insn = C.code.getD A.pc 0 ∧
      q.env.prog (BitVec.ofNat 32 A.pc) = C.code.getD A.pc 0 := by
  have hfetch : q.env.prog (BitVec.ofNat 32 A.pc) = C.code.getD A.pc 0 := by
    rw [← h.code _ hlt, Engine.fetch, hprog]
  exact ⟨(ht.insn hlt hsize).trans hfetch, hfetch⟩

theorem Tracked.next_op {q q' : Qemu} (hprog : E.progSize = none) (h : Refines E C q.env A)
    (ht : Tracked q.env.prog C.code.length q A.pc) (hsize : C.code.length < 2 ^ 32) {op : Op}
    (hop : C.op A = some op) (hjump : op ≠ .jump) (hin : op.pcAfter A < C.code.length)
    (hstep : Qemu.step E limits q = .ok () q') :
    Tracked q'.env.prog C.code.length q' (op.pcAfter A) := by
  have hlt := Contract.pc_lt hop
  have hdecode := Contract.decode_code hop
  obtain ⟨hinsn, hbyte⟩ := Tracked.code_eq hprog h ht hlt hsize limits
  obtain ⟨hshift, hcode⟩ := Op.size_of_decode _ op hdecode
  have hafter : op.pcAfter A = A.pc + getPpdlShiftPc (q.env.prog (BitVec.ofNat 32 A.pc)) := by
    rw [hbyte, hshift]
    cases op with
    | jump => exact absurd rfl hjump
    | _ => rfl
  have hresolve : ∀ takesAddr, E.resolve q.env (current limits q).insn ≠ .mem takesAddr 6 := by
    intro takesAddr
    rw [hinsn, resolve_of_listed E q.env (Op.insn_of_decode _ op hdecode).2]
    exact decode_ne_jump _ (hcode hjump) takesAddr
  have hagain : ¬ q.RunsAgain limits := by
    rw [ht.runsAgain_iff hlt hsize, ← hafter]
    rintro ⟨hend, -⟩
    omega
  have hnext := ht.step hlt hsize h.spAt hresolve hagain hstep
  rw [hafter, hnext.prog_eq]
  exact hnext

/-- While it is inside the code, the translator follows everything but a jump. -/
theorem tracks (E : Engine 64 64) (hprog : E.progSize = none) (limits : Nat → Nat) (C : Contract)
    (hsize : C.code.length < 2 ^ 32) : (Qemu.driver E limits).Tracks C (fun op => op ≠ .jump)
      fun q A => A.pc < C.code.length → Tracked q.env.prog C.code.length q A.pc where
  code := fun {q A op} h hP hop => by
    have hlt := Contract.pc_lt hop
    have hcode : (Qemu.driver E limits).code q = C.code.getD A.pc 0 :=
      (Tracked.code_eq hprog h (hP hlt) hlt hsize limits).1
    rw [hcode]
    exact Contract.decode_code hop
  next := fun {q A op t} h hP hop _ _ hallowed _ hstep => by
    have htracked := hP (Contract.pc_lt hop)
    exact ⟨fun hin => htracked.next_op hprog h hsize hop hallowed hin hstep,
      fun hin => (htracked.next_op hprog h hsize hop hallowed hin hstep).pc⟩

end Qemu

def contractOf (text : List Char) (limit : Word) : Contract where
  code := Qemu.romAddFile text
  info := fun
    | .gasLimit => limit.toNat
    | .codeSize => (Qemu.romAddFile text).length
    | _ => 0
  hash := fun m => digestValue fun j => KeccakP.hashByte (KeccakP.hash 136 m) j

theorem Core.Start.refines {E : Engine w c} {s : Core w c} (h : s.Start limit)
    (hbus : s.dataBus = fun _ => 0) (hpc : s.pc = 0)
    (hcode : ∀ a < C.code.length, E.fetch s.prog (BitVec.ofNat 32 a) = C.code.getD a 0)
    (hinfo : ∀ i : Info, (i.register.value s).toNat = C.info i)
    (hhash : ∀ m, digestValue (E.keccak m) = C.hash m) :
    Refines E C s (State.start limit.toNat) := by
  constructor
  · exact ⟨h.sp, Nat.zero_le _, fun k hk => absurd hk (Nat.not_lt_zero k)⟩
  · intro a ha
    rw [Core.cell, dif_pos ha, hbus]
    rfl
  · intro k hk
    rw [h.storage, Chain.load, emptyStorage, Chain.nodes, List.find?_cons_of_neg]
    · rfl
    · simpa using (Refines.key_ne_empty hk).symm
  · rw [Core.gas, h.gas]
    exact regValue_gasWords limit
  · exact fun _ => hpc
  · exact hcode
  · exact hinfo
  · exact hhash
  · exact fun i _ => h.heap i

theorem digestValue_keccak {keccak : List (BitVec 8) → Fin 32 → BitVec 8} (H : Keccak.Heap)
    (hk : keccak = Keccak.keccakAlgDigest H) (text : List Char) (limit : Word)
    (m : List (BitVec 8)) : digestValue (keccak m) = (contractOf text limit).hash m := by
  have hbytes : keccak m = fun j : Fin 32 => KeccakP.hashByte (KeccakP.hash 136 m) j := by
    funext j
    rw [hk, Keccak.keccakAlgDigest_eq]
  rw [hbytes, contractOf]

section Load
variable {text : List Char}

theorem HexFile.length_lt (htext : HexFile text) (limit : Word) :
    (contractOf text limit).code.length < 2 ^ 32 := by
  have := htext.fits
  simp only [progMemSize] at this
  exact Nat.lt_of_le_of_lt this (by decide)

theorem HexFile.refines_cemu (htext : HexFile text) (H : Keccak.Heap)
    (hk : W.keccak = Keccak.keccakAlgDigest H) (cells : Option Nat) (limit : Word) :
    Refines (cemuWith cells W) (contractOf text limit) ((Evm.init limit).loadElf text).core
      (State.start limit.toNat) := by
  obtain ⟨hsize, -⟩ := htext.elfSize limit
  have hlt := htext.length_lt limit
  have hstart : ((Evm.init limit).loadElf text).core.Start limit :=
    ⟨rfl, rfl, fun _ => rfl, rfl, rfl⟩
  refine hstart.refines rfl rfl ?_ ?_ (digestValue_keccak H hk text limit)
  · intro a ha
    have ha' : (BitVec.ofNat 32 a).toNat = a := by
      rw [BitVec.toNat_ofNat, Nat.mod_eq_of_lt (by omega)]
    have hsame := (htext.agree W (fun _ _ _ => 0) .zero limit).code (BitVec.ofNat 32 a)
      (by rw [hsize, ha']; exact ha)
    refine hsame.trans ?_
    change (Qemu.romAddFile text).getD (BitVec.ofNat 32 a).toNat 0 = _
    rw [ha']
    rfl
  · intro i
    cases i with
    | codeSize =>
      refine Eq.trans ?_ hsize
      simp only [Info.register, Register.value, BitVec.toNat_setWidth]
      omega
    | _ => rfl

theorem HexFile.refines_qemu (htext : HexFile text) (H : Keccak.Heap)
    (hk : W'.keccak = Keccak.keccakAlgDigest H) (cells : Option Nat)
    (argList : Nat → Core 64 64 → Word → Word) (limit : Word) :
    Refines (qemuWith cells argList W') (contractOf text limit) (Qemu.reset text limit).env
      (State.start limit.toNat) := by
  obtain ⟨-, hsize⟩ := htext.elfSize limit
  have hlt := htext.length_lt limit
  have hstart : (Qemu.reset text limit).env.Start limit := ⟨rfl, rfl, fun _ => rfl, rfl, rfl⟩
  refine hstart.refines rfl rfl ?_ ?_ (digestValue_keccak H hk text limit)
  · intro a ha
    change (Qemu.romAddFile text).getD (BitVec.ofNat 32 a).toNat 0 = _
    rw [BitVec.toNat_ofNat, Nat.mod_eq_of_lt (by omega)]
    rfl
  · intro i
    cases i with
    | codeSize =>
      refine Eq.trans ?_ hsize
      simp only [Info.register, Register.value, BitVec.toNat_setWidth]
      omega
    | _ => rfl

/-- The emulator prints what the contract returns, or that its gas did not last. -/
theorem cemu_prints_contract (htext : HexFile text) (H : Keccak.Heap)
    (hk : W.keccak = Keccak.keccakAlgDigest H)
    (hrun : Run (contractOf text limit).step (State.start limit.toNat) hist A)
    (hexact : ∀ x ∈ hist, (contractOf text limit).Exact x)
    (hheap : ∀ n ∈ cells, 65 * (contractOf text limit).conversions (A :: hist) ≤ n) (l : Line) :
    (∀ B, (contractOf text limit).step A = .exit B → (contractOf text limit).Exact A →
      (Evm.Prints (cemuWith cells W) ((Evm.init limit).loadElf text) l ↔
        l = .result (Contract.output A))) ∧
    ((contractOf text limit).step A = .fault .outOfGas →
      (Evm.Prints (cemuWith cells W) ((Evm.init limit).loadElf text) l ↔ l = .gasLimitError)) := by
  have hstart : (Evm.driver (cemuWith cells W)).Follows (contractOf text limit) (fun _ _ => True) []
      ((Evm.init limit).loadElf text) (State.start limit.toNat) :=
    ⟨htext.refines_cemu H hk cells limit, trivial, rfl⟩
  have hT := Evm.tracks (cemuWith cells W) (contractOf text limit)
  constructor
  · intro B hexit hA
    exact hT.prints_output (htext.length_lt limit) hstart limit.isLt hrun
      (List.forall_mem_cons.mpr ⟨hA, hexact⟩) (fun _ _ _ _ => trivial) hheap hexit l
  · intro hfault
    exact hT.prints_gasLimitError (htext.length_lt limit) hstart rfl hrun hexact
      (fun _ _ _ _ => trivial) hheap hfault l

/-- `5 + 3`, stored and the last byte returned. -/
def sumReturned : List Char := "60056003016000526001601ff3".toList

theorem sumReturned_hexFile : HexFile sumReturned :=
  ⟨List.all_eq_true.mp (by decide), by decide, by decide⟩

def sumState (k : Nat) : State :=
  after (contractOf sumReturned 1000).step (State.start (1000 : Word).toNat) k

theorem sumReturned_facts :
    (iterate (contractOf sumReturned 1000).step 7 (State.start (1000 : Word).toNat)).isOk = true ∧
    ((contractOf sumReturned 1000).step (sumState 7)).isExit = true ∧
    (∀ k < 8, (contractOf sumReturned 1000).Exact (sumState k) ∧
      (contractOf sumReturned 1000).op (sumState k) ≠ some .jump) ∧
    65 * (contractOf sumReturned 1000).conversions
      (sumState 7 :: (List.range 7).reverse.map sumState) ≤ heapSize ∧
    Contract.output (sumState 7) = [8] := by
  decide +kernel

theorem sumReturned_run : Run (contractOf sumReturned 1000).step (State.start (1000 : Word).toNat)
    ((List.range 7).reverse.map sumState) (sumState 7) := Run.of_isOk sumReturned_facts.1

theorem sumReturned_exact : ∀ x ∈ (List.range 7).reverse.map sumState,
    (contractOf sumReturned 1000).Exact x ∧ (contractOf sumReturned 1000).op x ≠ some .jump := by
  intro x hx
  obtain ⟨-, -, hexact, -⟩ := sumReturned_facts
  obtain ⟨k, hk, rfl⟩ := List.mem_map.mp hx
  rw [List.mem_reverse, List.mem_range] at hk
  exact hexact k (by omega)

theorem cemu_prints_sum : Evm.Prints (cemu ⟨Keccak.keccakAlgDigest .zero, fun _ _ => 0⟩)
    ((Evm.init 1000).loadElf sumReturned) (.result [8]) := by
  obtain ⟨-, hexit, hexact, hheap, hout⟩ := sumReturned_facts
  have hprints : Evm.Prints (cemuWith (some heapSize)
      ⟨Keccak.keccakAlgDigest .zero, fun _ _ => 0⟩) _ _ ↔ _ :=
    (cemu_prints_contract sumReturned_hexFile .zero rfl sumReturned_run
      (fun x hx => (sumReturned_exact x hx).1) (fun n hn => Option.some.inj hn ▸ hheap)
      (.result [8])).1 _ (Outcome.eq_exit_of_isExit (d := sumState 7) hexit)
      (hexact 7 (by decide)).1
  rw [hout] at hprints
  exact hprints.mpr rfl

/-- The translator prints what a contract without jumps returns. -/
theorem qemu_prints_contract (htext : HexFile text) (H : Keccak.Heap)
    (hk : W'.keccak = Keccak.keccakAlgDigest H)
    (hrun : Run (contractOf text limit).step (State.start limit.toNat) hist A)
    (hexact : ∀ x ∈ A :: hist, (contractOf text limit).Exact x)
    (hjump : ∀ x ∈ hist, (contractOf text limit).op x ≠ some .jump)
    (hheap : ∀ n ∈ cells, 65 * (contractOf text limit).conversions (A :: hist) ≤ n)
    (hexit : (contractOf text limit).step A = .exit B) (l : Line) :
    Qemu.Prints (qemuWith cells argList W') limits (Qemu.reset text limit) l ↔
      l = .result (Contract.output A) := by
  have hlt := htext.length_lt limit
  have hstart : (Qemu.driver (qemuWith cells argList W') limits).Follows (contractOf text limit)
      (fun q A => A.pc < (contractOf text limit).code.length →
        Qemu.Tracked q.env.prog (contractOf text limit).code.length q A.pc) []
      (Qemu.reset text limit) (State.start limit.toNat) :=
    ⟨htext.refines_qemu H hk cells argList limit, fun _ => Qemu.Tracked.reset text limit hlt, rfl⟩
  have hT := Qemu.tracks (qemuWith cells argList W') rfl limits (contractOf text limit) hlt
  exact hT.prints_output hlt hstart limit.isLt hrun hexact
    (fun x hx op hop hj => hjump x hx (by rw [← hj]; exact hop)) hheap hexit l

theorem qemu_prints_sum : Qemu.Prints
    (qemu (fun _ _ _ => 0) ⟨Keccak.keccakAlgDigest .zero, fun _ _ => 0⟩) nineEach
    (Qemu.reset sumReturned 1000) (.result [8]) := by
  obtain ⟨-, hexit, hexact, hheap, hout⟩ := sumReturned_facts
  have hprints : Qemu.Prints (qemuWith (some heapSize) (fun _ _ _ => 0)
      ⟨Keccak.keccakAlgDigest .zero, fun _ _ => 0⟩) nineEach _ _ ↔ _ :=
    qemu_prints_contract sumReturned_hexFile .zero rfl sumReturned_run
      (List.forall_mem_cons.mpr ⟨(hexact 7 (by decide)).1, fun x hx => (sumReturned_exact x hx).1⟩)
      (fun x hx => (sumReturned_exact x hx).2) (fun n hn => Option.some.inj hn ▸ hheap)
      (Outcome.eq_exit_of_isExit (d := sumState 7) hexit) (.result [8])
  rw [hout] at hprints
  exact hprints.mpr rfl

end Load

end GvmCore
