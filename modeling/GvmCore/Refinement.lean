import GvmCore.AbstractEvm
import GvmCore.Agreement
import GvmCore.ArithmeticLaws
import GvmCore.CompareLaws
import GvmCore.HashLaw
import GvmCore.JumpLaw
import GvmCore.MemoryLaw
import GvmCore.StackLaws
import GvmCore.StorageLaw

namespace GvmCore
open Exec Abstract Digits
set_option autoImplicit true

def Abstract.Info.register : Info → Register
  | .address => .curAddr
  | .origin => .originAddr
  | .caller => .callerAddr
  | .callDataSize => .inpDataSize
  | .codeSize => .codeSize
  | .gasPrice => .gasPrice
  | .coinBase => .coinBase
  | .timeStamp => .timeStamp
  | .number => .number
  | .difficulty => .difficulty
  | .gasLimit => .gasLimit

def Abstract.Binary.insn : Binary → Insn
  | .add => .arithm 1
  | .mul => .arithm 2
  | .sub => .arithm 3
  | .div => .arithm 4
  | .mod => .arithm 6
  | .exp => .arithm 10
  | .signExtend => .arithm 11
  | .lt => .compare 0
  | .gt => .compare 1
  | .eq => .compare 4
  | .and => .compare 6
  | .or => .compare 7
  | .xor => .compare 8
  | .byte => .compare 10

def Abstract.Unary.insn : Unary → Insn
  | .isZero => .compare 5
  | .not => .compare 9

namespace Abstract.Op

def insn : Op → Insn
  | .binary b => b.insn
  | .unary u => u.insn
  | .sha3 => .sha3
  | .info i => .pushRegister 2 i.register
  | .pop => .mem false 0
  | .mload => .mem true 1
  | .mstore => .mem true 2
  | .mstore8 => .mem true 3
  | .sload => .mem true 4
  | .sstore => .mem true 5
  | .jump => .mem true 6
  | .pc => .mem false 8
  | .gas => .mem false 10
  | .jumpDest => .mem false 11
  | .push n => .push n
  | .dup n => .dup n
  | .swap n => .swap n
  | .ret => .returnInst

/-- The numbers the engines turn into digits for an instruction; the cells are not given back. -/
def conversions : Op → Nat
  | .binary _ => 3
  | .unary _ => 2
  | _ => 1

/-- The operands on which the engines compute what the instruction means. -/
def ExactOn (C : Contract) (s : State) : Op → Prop
  | .binary .mod => ¬ (2 ^ 255 ≤ s.operand 0 ∧ s.operand 0 < s.operand 1)
  | .binary .signExtend | .binary .byte => s.operand 0 < 256
  | .sha3 => s.operand 0 < 256 ∧ s.operand 1 < 256
  | .mload | .mstore | .mstore8 | .sstore | .jump => s.operand 0 < 256
  | .sload => s.operand 0 < 256 ∧ (s.storage (s.operand 0)).isSome
  | .push n => ((n + 1 : Nat) % 8 ≠ 0 ∨ (n : Nat) = 31) ∧ s.pc + 1 + n < C.code.length
  | .ret => s.operand 0 + s.operand 1 ≤ 1024 ∧ 0 < s.gas
  | _ => True

instance (C : Contract) (s : State) (op : Op) : Decidable (op.ExactOn C s) := by
  cases op with
  | binary b => cases b <;> unfold ExactOn <;> infer_instance
  | _ => unfold ExactOn; infer_instance

/-- The engines follow the instruction: its operands suit them and their stack has room. -/
structure Exact (C : Contract) (s : State) (op : Op) : Prop where
  room : (op.stackAfter C s).length ≤ 512
  operands : op.ExactOn C s

instance (C : Contract) (s : State) (op : Op) : Decidable (op.Exact C s) :=
  decidable_of_iff ((op.stackAfter C s).length ≤ 512 ∧ op.ExactOn C s)
    ⟨fun h => ⟨h.1, h.2⟩, fun h => ⟨h.room, h.operands⟩⟩

theorem insn_of_decode : ∀ b, ∀ op ∈ decode b, Insn.decode b = op.insn ∧ Listed b := by
  decide +kernel

theorem charge_insn (op : Op) : ∃ v, op.insn.charge = some v ∧ v.toNat = op.cost := by
  cases op with
  | binary b => cases b <;> exact ⟨_, rfl, rfl⟩
  | unary u => cases u <;> exact ⟨_, rfl, rfl⟩
  | _ => exact ⟨_, rfl, rfl⟩

theorem conversions_insn (op : Op) : op.insn.conversions = op.conversions := by
  cases op with
  | binary b => cases b <;> rfl
  | unary u => cases u <;> rfl
  | _ => rfl

end Abstract.Op

theorem Core.Pushes.yields {s t : Core w c} (h : s.Pushes t (z - 4) v) : s.Yields t z 1 v where
  sp := h.sp
  top := h.top
  deeper := fun k => by
    refine (h.deeper k).trans ?_
    rw [Core.element, Core.element]
    congr 1
    omega

namespace Core.Represents
variable {s t : Core w c} {l : List Nat} {n : Nat}

theorem of_yields (h : s.Represents l) (hn : n ≤ l.length) (hroom : l.length < 512 + n)
    (ht : s.Yields t (4 * (l.length : Int) - 1) n v) : t.Represents (v :: l.drop n) := by
  have hz : 4 * (((v :: l.drop n).length : Nat) : Int) - 1 =
      4 * (l.length : Int) - 1 - 4 * n + 4 := by
    rw [List.length_cons, List.length_drop]
    omega
  refine ⟨by rw [hz]; exact ht.sp.sp, by simp; omega, ?_⟩
  intro k hk
  rw [hz]
  cases k with
  | zero => exact ht.top
  | succ k =>
    rw [Core.number, ht.deeper k]
    have hk' : k + n < l.length := by
      simp only [List.length_cons, List.length_drop] at hk
      omega
    refine (h.number (k + n) hk').trans ?_
    simp [List.getD_eq_getElem?_getD, List.getElem?_drop, Nat.add_comm]

theorem of_drops (h : s.Represents l) (hn : n ≤ l.length)
    (ht : s.Drops t (4 * (l.length : Int) - 1) n) : t.Represents (l.drop n) := by
  have hz : 4 * (((l.drop n).length : Nat) : Int) - 1 = 4 * (l.length : Int) - 1 - 4 * n := by
    rw [List.length_drop]
    omega
  refine ⟨by rw [hz]; exact ht.sp.sp, by simp; have := h.room; omega, ?_⟩
  intro k hk
  rw [hz, Core.number, ht.deeper k]
  have hk' : k + n < l.length := by
    rw [List.length_drop] at hk
    omega
  refine (h.number (k + n) hk').trans ?_
  simp [List.getD_eq_getElem?_getD, List.getElem?_drop, Nat.add_comm]

end Core.Represents

/-- An engine's state stands for a state of the abstract machine that runs the contract. -/
structure Refines (E : Engine w c) (C : Contract) (s : Core w c) (A : State) : Prop where
  stack : s.Represents A.stack
  memory : s.Holds A.memory
  storage : ∀ k < 256, (s.mainStorage.load (BitVec.ofNat 32 k)).map
    (fun r => regValue (storedValue r)) = A.storage k
  gas : s.gas = A.gas
  /-- Behind the end of the code nothing is said. -/
  pc : A.pc < C.code.length → s.pc = BitVec.ofNat 32 A.pc
  code : ∀ a < C.code.length, E.fetch s.prog (BitVec.ofNat 32 a) = C.code.getD a 0
  info : ∀ i : Info, (i.register.value s).toNat = C.info i
  hash : ∀ m, digestValue (E.keccak m) = C.hash m
  fresh : s.Fresh 51

/-- The instruction runs, and what it leaves on the stack is `l`. -/
structure Insn.Leaves (E : Engine w c) (I : Insn) (s : Core w c) (z : Int) (l : List Nat) :
    Prop where
  entryIn : I.EntryIn z
  fits : I.Fits s z
  stack : (I.effect E (I.paid s z) z).Represents l

def Abstract.State.top (A : State) : Int := 4 * (A.stack.length : Int) - 1

namespace Refines
variable {E : Engine w c} {C : Contract} {s : Core w c} {A : State}

theorem spAt (h : Refines E C s A) : SpAt s A.top := h.stack.spAt

theorem top_lt (h : Refines E C s A) : A.top < 2048 := by
  have := h.stack.room
  unfold State.top
  omega

theorem number (h : Refines E C s A) (hk : k < A.stack.length) : s.number A.top k = A.operand k :=
  h.stack.number k hk

theorem covered (h : Refines E C s A) (op : Op) (hcost : op.cost ≤ A.gas) : op.insn.Covered s := by
  obtain ⟨v, hv, hcost'⟩ := op.charge_insn
  intro u hu
  obtain rfl : v = u := Option.some.inj (hv.symm.trans hu)
  rw [h.gas, hcost']
  exact hcost

theorem address (h : Refines E C s A) (h1 : 1 ≤ A.stack.length) (ha : A.operand 0 < 256) :
    ((s.address A.top).setWidth 32).toNat = A.operand 0 := by
  rw [← h.number h1] at ha ⊢
  exact (address_eq_number_iff s A.top).mpr ha

theorem number_below (h : Refines E C s A) (h2 : 2 ≤ A.stack.length) :
    s.number (A.top - 4) 0 = A.operand 1 := by
  rw [← h.number (show 1 < A.stack.length by omega), Core.number, Core.number, Core.element,
    Core.element]
  congr 2
  omega

theorem address_second (h : Refines E C s A) (h2 : 2 ≤ A.stack.length) (ha : A.operand 1 < 256) :
    ((s.address (A.top - 4)).setWidth 32).toNat = A.operand 1 := by
  rw [← h.number_below h2] at ha ⊢
  exact (address_eq_number_iff s (A.top - 4)).mpr ha

theorem leaves_result (h : Refines E C s A) {I : Insn} (hI : 0 < I.arity) (hc : I.Covered s)
    (hn : I.arity ≤ A.stack.length) (hv : regValue (I.resultReg (I.paid s A.top) A.top) = v) :
    I.Leaves E s A.top (v :: A.stack.drop I.arity) := by
  have hlow : 4 * (I.arity : Int) ≤ A.top + 1 := by
    unfold State.top
    omega
  obtain ⟨hin, hfit, -⟩ := Insn.entryIn_of_arity (s := s) hlow h.top_lt hI
  refine ⟨hin, hfit, h.stack.of_yields hn ?_ ?_⟩
  · have := h.stack.room
    omega
  · exact (Insn.Supplied.yields_iff ⟨h.spAt, hlow, h.top_lt, hc⟩ hI).mpr hv

theorem paid_stack (h : Refines E C s A) {I : Insn} (hentry : I.entry s A.top = s) :
    (I.paid s A.top).Represents A.stack := by
  refine h.stack.congr ?_ (I.paid_word s A.top)
  rw [(I.paid_eq s A.top).eq, hentry]

theorem leaves_pushed (h : Refines E C s A) {I : Insn} {r : Reg} (hroom : A.stack.length < 512)
    (hin : I.EntryIn A.top) (hfit : I.Fits s A.top) (hentry : I.entry s A.top = s)
    (heff : I.effect E (I.paid s A.top) A.top = (I.paid s A.top).pushed A.top r)
    (hv : regValue r = v) : I.Leaves E s A.top (v :: A.stack) := by
  refine ⟨hin, hfit, ?_⟩
  rw [heff, ← hv]
  exact (h.paid_stack hentry).pushed hroom r

theorem above_inStack (hroom : A.stack.length < 512) :
    InStack (A.top + 1) ∧ InStack (A.top + 4) := by
  unfold State.top
  exact ⟨⟨by omega, by omega⟩, by omega, by omega⟩

theorem top_inStack (h : Refines E C s A) (hn : n ≤ A.stack.length) (hk : k < 4 * n) :
    InStack (A.top - (k : Nat)) := by
  have := h.top_lt
  have hz : A.top = 4 * (A.stack.length : Int) - 1 := rfl
  exact ⟨by omega, by omega⟩

theorem binary_result (h : Refines E C s A) (b : Binary) (h2 : 2 ≤ A.stack.length)
    (hx : (Op.binary b).ExactOn C A) :
    regValue (b.insn.resultReg (b.insn.paid s A.top) A.top) =
      b.eval (A.operand 0) (A.operand 1) := by
  have h0 := h.number (show 0 < A.stack.length by omega)
  have h1 := h.number (show 1 < A.stack.length by omega)
  rw [← h0, ← h1]
  cases b with
  | add => exact sum_result
  | mul => exact product_result
  | sub => exact difference_result
  | div => exact quotient_paid (.inl rfl)
  | mod =>
    refine (mod_result s A.top).trans ((value_remainder s A.top _).trans ?_)
    have hx : ¬ (2 ^ 255 ≤ A.operand 0 ∧ A.operand 0 < A.operand 1) := hx
    rw [← h0, ← h1] at hx
    have hzero : value (leftover s (.arithm 6)) = 0 := by
      rw [Insn.leftover_of_fresh h.fresh (by decide)]
      exact value_replicate_zero 16
    rw [if_neg hx, hzero]
    rfl
  | exp =>
    obtain ⟨hlen, hpower⟩ := power_digits (s.element A.top 0) (s.element A.top 1)
    exact (regValue_arithm s A.top 10 hlen rfl).trans hpower
  | signExtend =>
    refine extension_result.trans ?_
    have hx : A.operand 0 < 256 := hx
    rw [h0, Nat.mod_eq_of_lt hx]
    rfl
  | byte =>
    refine byte_result.trans ?_
    have hx : A.operand 0 < 256 := hx
    rw [h0, Nat.mod_eq_of_lt hx]
    rfl
  | lt | gt | eq | and | or | xor => exact compare_result (by decide)

theorem unary_result (h : Refines E C s A) (u : Unary) (h1 : 1 ≤ A.stack.length) :
    regValue (u.insn.resultReg (u.insn.paid s A.top) A.top) = u.eval (A.operand 0) := by
  have h0 := h.number (show 0 < A.stack.length by omega)
  rw [← h0]
  cases u with
  | isZero => exact compare_result (by decide)
  | not =>
    refine (compare_result (by decide)).trans ?_
    have hlt := number_lt s A.top 0
    simp only [compareLaw, BitVec.toNat_not, BitVec.toNat_ofNat, Unary.eval]
    rw [Nat.mod_eq_of_lt (by omega)]

theorem info_leaves (h : Refines E C s A) (i : Info) (hroom : A.stack.length < 512) :
    (Op.info i).insn.Leaves E s A.top (C.info i :: A.stack) := by
  refine h.leaves_pushed hroom trivial (above_inStack hroom) rfl rfl ?_
  rw [regValue_lowWord, ← h.info i, (Insn.paid_eq s A.top _).register]
  rfl

theorem immediate_eq (h : Refines E C s A) (hn : A.pc + n < C.code.length) :
    immediate E s n = Memory.read (C.code.getD · 0) (A.pc + 1) n := by
  apply List.map_congr_left
  intro i hi
  rw [List.mem_range] at hi
  rw [h.pc (by omega), ← BitVec.ofNat_add, h.code _ (by omega)]
  congr 1
  omega

theorem push_leaves (h : Refines E C s A) (n : Fin 32) (hroom : A.stack.length < 512)
    (hx : (Op.push n).ExactOn C A) :
    (Op.push n).insn.Leaves E s A.top ((Op.push n).stackAfter C A) := by
  obtain ⟨hwords, hcode⟩ := hx
  have hz : A.top = 4 * (A.stack.length : Int) - 1 := rfl
  refine h.leaves_pushed hroom trivial ?_ rfl rfl ?_
  · intro j hj
    have := mem_pushIndices_lt (show (n : Nat) + 1 ≤ 32 by omega) hj
    exact ⟨by omega, by omega⟩
  · have hstale : staleWord s A.top (n + 1) = 0 := if_neg (by omega)
    rw [pushReg_paid, regValue_pushReg E s A.top (by omega), hstale, swapBytes_zero,
      h.immediate_eq (by omega)]
    simp

theorem pc_leaves (h : Refines E C s A) (hroom : A.stack.length < 512)
    (hpc : A.pc < C.code.length) (hsize : C.code.length < 2 ^ 32) :
    Op.pc.insn.Leaves E s A.top (A.pc :: A.stack) := by
  refine h.leaves_pushed hroom trivial (above_inStack hroom) rfl rfl ?_
  have hkept : (Op.pc.insn.paid s A.top).pc = BitVec.ofNat 32 A.pc := by
    rw [Insn.paid_keeps]
    exact h.pc hpc
  rw [regValue_lowWord]
  refine (congrArg (fun p : BitVec 32 => (p.setWidth 64).toNat) hkept).trans ?_
  simp only [BitVec.toNat_setWidth, BitVec.toNat_ofNat]
  omega

theorem gas_leaves (h : Refines E C s A) (hroom : A.stack.length < 512) (hcost : 2 ≤ A.gas) :
    Op.gas.insn.Leaves E s A.top ((A.gas - 2) :: A.stack) := by
  refine h.leaves_pushed hroom trivial (above_inStack hroom) rfl rfl ?_
  rw [Insn.gasAvailable_paid]
  refine (regValue_gasSub (v := 2) ?_).trans ?_
  · exact hcost.trans h.gas.ge
  · rw [show regValue s.gasAvailable = A.gas from h.gas]
    rfl

theorem dup_leaves (h : Refines E C s A) (n : Fin 16) (hn : (n : Nat) < A.stack.length)
    (hroom : A.stack.length < 512) :
    (Op.dup n).insn.Leaves E s A.top (A.operand n :: A.stack) where
  entryIn := trivial
  fits := Core.dup_fits hn hroom
  stack := (h.paid_stack rfl).dup hn hroom

theorem swap_leaves (h : Refines E C s A) (n : Fin 16) (hn : (n : Nat) + 1 < A.stack.length) :
    (Op.swap n).insn.Leaves E s A.top ((Op.swap n).stackAfter C A) where
  entryIn := trivial
  fits := h.stack.swap_fits hn
  stack := (h.paid_stack rfl).swapped hn

theorem jumpDest_leaves (h : Refines E C s A) : Op.jumpDest.insn.Leaves E s A.top A.stack :=
  ⟨trivial, trivial, h.paid_stack (I := .mem false 11) rfl⟩

theorem dropped (h : Refines E C s A) {t : Core w c} (hn : n ≤ A.stack.length)
    (hw : ∀ i, t.word i = s.word i) (hsp : t.sp = BitVec.ofInt w (A.top - 4 * n)) :
    t.Represents (A.stack.drop n) := by
  have hz : A.top = 4 * (A.stack.length : Int) - 1 := rfl
  have := h.top_lt
  exact h.stack.of_drops hn
    (Core.drops_of_word (fun i _ => hw i) ⟨hsp, by omega, by omega⟩)

theorem pop_leaves (h : Refines E C s A) (hn : 1 ≤ A.stack.length) :
    Op.pop.insn.Leaves E s A.top (A.stack.drop 1) :=
  ⟨trivial, trivial, h.dropped hn (Insn.paid_word s A.top (.mem false 0)) rfl⟩

theorem key_eq (h : Refines E C s A) (h1 : 1 ≤ A.stack.length) (ha : A.operand 0 < 256) :
    (s.address A.top).setWidth 32 = BitVec.ofNat 32 (A.operand 0) := by
  apply BitVec.eq_of_toNat_eq
  rw [h.address h1 ha, BitVec.toNat_ofNat, Nat.mod_eq_of_lt (by omega)]

theorem address_paid (s : Core w c) (z : Int) (I : Insn) : (I.paid s z).address z = s.address z :=
  Insn.address_congr (fun i _ => I.paid_word s z i) le_rfl

theorem jump_leaves (h : Refines E C s A) (hn : 1 ≤ A.stack.length) :
    Op.jump.insn.Leaves E s A.top (A.stack.drop 1) where
  entryIn := h.top_inStack hn (show 3 < 4 * 1 by decide)
  fits := trivial
  stack := h.dropped hn (Insn.paid_word s A.top (.mem true 6))
    (congrArg Core.sp ((Insn.mem true 6).paid_eq s A.top).eq)

theorem sload_leaves (h : Refines E C s A) (hn : 1 ≤ A.stack.length) (hx : Op.sload.ExactOn C A) :
    Op.sload.insn.Leaves E s A.top ((A.storage (A.operand 0)).getD 0 :: A.stack.drop 1) := by
  obtain ⟨ha, hstored⟩ := hx
  have hz : A.top = 4 * (A.stack.length : Int) - 1 := rfl
  have hroom := h.stack.room
  have h1 : InStack (A.top - 4 + 1) := ⟨by omega, by omega⟩
  have h4 : InStack (A.top - 4 + 4) := ⟨by omega, by omega⟩
  refine ⟨h.top_inStack hn (show 3 < 4 * 1 by decide), ⟨h1, h4⟩,
    h.stack.of_yields hn (by omega) ?_⟩
  refine (Core.yields_pushed_iff (n := 1) (fun i _ => Insn.paid_word s A.top _ i) h1 h4).mpr ?_
  obtain ⟨v, hv⟩ := Option.isSome_iff_exists.mp hstored
  obtain ⟨r, hload, hr⟩ := Option.map_eq_some_iff.mp ((h.storage _ ha).trans hv)
  rw [hv, Option.getD_some, ← hr]
  have hvalue : storageValue E (Op.sload.insn.paid s A.top)
      (((Op.sload.insn.paid s A.top).address A.top).setWidth 32) = r := by
    rw [address_paid, h.key_eq hn ha, storageValue, Insn.paid_keeps, hload, Option.getD_some]
  exact congrArg (fun x => regValue (storedValue x)) hvalue

theorem sstore_leaves (h : Refines E C s A) (hn : 2 ≤ A.stack.length) :
    Op.sstore.insn.Leaves E s A.top (A.stack.drop 2) where
  entryIn := h.top_inStack hn (show 3 < 4 * 2 by decide)
  fits := by
    change InStack (A.top - 4 - 3) ∧ InStack (A.top - 4)
    have := h.top_lt
    have hz : A.top = 4 * (A.stack.length : Int) - 1 := rfl
    exact ⟨⟨by omega, by omega⟩, by omega, by omega⟩
  stack := h.dropped hn (Insn.paid_word s A.top (.mem true 5)) (by
    change BitVec.ofInt w (A.top - 4 - 4) = _
    congr 1
    omega)

theorem access_eq (h : Refines E C s A) (h1 : 1 ≤ A.stack.length) (ha : A.operand 0 < 256)
    (op : Nat) : (Insn.mem true op).access s A.top =
      MemAccess.ofOp (A.operand 0) (s.number (A.top - 4) 0) op := by
  rw [← h.address h1 ha, toNat_address_setWidth]
  rfl

theorem paid_memory (h : Refines E C s A) (I : Insn) : (I.paid s A.top).Holds A.memory :=
  (Insn.memoryKept_paid s A.top I).holds h.memory

theorem mload_leaves (h : Refines E C s A) (hn : 1 ≤ A.stack.length) (ha : A.operand 0 < 256) :
    Op.mload.insn.Leaves E s A.top (Op.mload.stackAfter C A) := by
  have hz : A.top = 4 * (A.stack.length : Int) - 1 := rfl
  have hroom := h.stack.room
  have hin : (MemAccess.mload (A.operand 0)).Inside A.top := ⟨by omega, by omega⟩
  obtain ⟨hentry, hfit⟩ := hin.fits h.top_lt (h.access_eq hn ha 1)
  refine ⟨hentry, hfit, h.stack.of_yields hn (by omega) ?_⟩
  have hmove := hin.moves E h.top_lt (h.access_eq hn ha 1) (fun i _ => Insn.paid_word s A.top _ i)
    (h.paid_memory (.mem true 1))
  exact hmove.yields

theorem mstore_leaves (h : Refines E C s A) (hn : 2 ≤ A.stack.length) (ha : A.operand 0 < 256)
    {op : Op} (hop : op = .mstore ∨ op = .mstore8) :
    op.insn.Leaves E s A.top (A.stack.drop 2) := by
  have hz : A.top = 4 * (A.stack.length : Int) - 1 := rfl
  rcases hop with rfl | rfl
  · have hin : (MemAccess.mstore (A.operand 0) (s.number (A.top - 4) 0)).Inside A.top :=
      ⟨by omega, by omega⟩
    have hacc := h.access_eq (by omega) ha 2
    obtain ⟨hentry, hfit⟩ := hin.fits h.top_lt hacc
    exact ⟨hentry, hfit, h.stack.of_drops hn (hin.moves E h.top_lt hacc
      (fun i _ => Insn.paid_word s A.top _ i) (h.paid_memory (.mem true 2)))⟩
  · have hin : (MemAccess.mstore8 (A.operand 0) (s.number (A.top - 4) 0)).Inside A.top :=
      ⟨by omega, by omega⟩
    have hacc := h.access_eq (by omega) ha 3
    obtain ⟨hentry, hfit⟩ := hin.fits h.top_lt hacc
    exact ⟨hentry, hfit, h.stack.of_drops hn (hin.moves E h.top_lt hacc
      (fun i _ => Insn.paid_word s A.top _ i) (h.paid_memory (.mem true 3)))⟩

theorem bytes_eq (h : s.Holds m) (hsize : offs + size ≤ 1024) :
    s.bytes offs size = m.read offs size := by
  apply List.map_congr_left
  intro i hi
  rw [List.mem_range] at hi
  apply BitVec.eq_of_toNat_eq
  have hlt := (m (offs + i)).isLt
  rw [BitVec.toNat_setWidth, h (offs + i) (by omega), Nat.mod_eq_of_lt hlt]

theorem sha3_leaves (h : Refines E C s A) (hn : 2 ≤ A.stack.length) (hx : Op.sha3.ExactOn C A) :
    Op.sha3.insn.Leaves E s A.top (Op.sha3.stackAfter C A) := by
  obtain ⟨h0, h1⟩ := hx
  have hz : A.top = 4 * (A.stack.length : Int) - 1 := rfl
  have hlt := h.top_lt
  have hoffs : Insn.hashOffs s A.top = A.operand 0 := h.address (by omega) h0
  have hsize : Insn.hashSize s A.top = A.operand 1 := h.address_second hn h1
  have hfit : Insn.sha3.Fits s A.top := by
    refine ⟨⟨by omega, by omega⟩, ⟨by omega, by omega⟩, ?_, by omega⟩
    intro i hi
    omega
  refine ⟨trivial, hfit, h.stack.of_yields hn (by omega) ?_⟩
  have hhash := (hashed_effect (E := E) (Insn.paid_word s A.top .sha3)
    (Insn.memoryKept_paid s A.top .sha3).dataBus (by omega) hlt).yields
  rw [Core.digest, hoffs, hsize, bytes_eq h.memory (by omega), h.hash] at hhash
  exact hhash

/-- What each instruction leaves on the stack is what the abstract machine says. -/
theorem leaves (h : Refines E C s A) {op : Op} (hgo : op.refuses C A = none) (hret : op ≠ .ret)
    (hx : op.Exact C A) (hpc : A.pc < C.code.length) (hsize : C.code.length < 2 ^ 32) :
    op.insn.Leaves E s A.top (op.stackAfter C A) := by
  obtain ⟨hneeds, hcost⟩ := Op.of_refuses_eq_none hgo
  have hroom := hx.room
  cases op with
  | binary b =>
    have harity : b.insn.arity = 2 := by cases b <;> rfl
    have hres := h.leaves_result (I := b.insn) (by omega) (h.covered (.binary b) hcost)
      (by rw [harity]; exact hneeds) (h.binary_result b hneeds hx.operands)
    rwa [harity] at hres
  | unary u =>
    have harity : u.insn.arity = 1 := by cases u <;> rfl
    have hres := h.leaves_result (I := u.insn) (by omega) (h.covered (.unary u) hcost)
      (by rw [harity]; exact hneeds) (h.unary_result u hneeds)
    rwa [harity] at hres
  | sha3 => exact h.sha3_leaves hneeds hx.operands
  | info i => exact h.info_leaves i hroom
  | pop => exact h.pop_leaves hneeds
  | mload => exact h.mload_leaves hneeds hx.operands
  | mstore => exact h.mstore_leaves hneeds hx.operands (.inl rfl)
  | mstore8 => exact h.mstore_leaves hneeds hx.operands (.inr rfl)
  | sload => exact h.sload_leaves hneeds hx.operands
  | sstore => exact h.sstore_leaves hneeds
  | jump => exact h.jump_leaves hneeds
  | pc => exact h.pc_leaves hroom hpc hsize
  | gas => exact h.gas_leaves hroom hcost
  | jumpDest => exact h.jumpDest_leaves
  | push n => exact h.push_leaves n hroom hx.operands
  | dup n => exact h.dup_leaves n hneeds hroom
  | swap n => exact h.swap_leaves n hneeds
  | ret => exact absurd rfl hret

theorem memoryAfter_eq (h : Refines E C s A) {op : Op} (hneeds : op.needs ≤ A.stack.length)
    (hx : op.ExactOn C A) : op.insn.memoryAfter s A.top A.memory = op.memoryAfter A := by
  cases op with
  | binary b => cases b <;> rfl
  | unary u => cases u <;> rfl
  | mstore =>
    have h1 : 1 ≤ A.stack.length := Nat.le_of_succ_le hneeds
    rw [Insn.memoryAfter, Op.insn, h.access_eq h1 hx 2, h.number_below hneeds]
    rfl
  | mstore8 =>
    have h1 : 1 ≤ A.stack.length := Nat.le_of_succ_le hneeds
    rw [Insn.memoryAfter, Op.insn, h.access_eq h1 hx 3, h.number_below hneeds]
    rfl
  | _ => rfl

theorem key_ne_empty (hk : k < 256) : BitVec.ofNat 32 k ≠ -1 := by
  intro h
  have := congrArg BitVec.toNat h
  simp only [BitVec.toNat_ofNat, BitVec.reduceNeg] at this
  omega

theorem key_inj (hk : k < 256) (hj : j < 256) (h : BitVec.ofNat 32 k = BitVec.ofNat 32 j) :
    k = j := by
  have := congrArg BitVec.toNat h
  simp only [BitVec.toNat_ofNat] at this
  omega

theorem storageAfter_eq (h : Refines E C s A) {op : Op} (hneeds : op.needs ≤ A.stack.length)
    (hx : op.ExactOn C A) (hk : k < 256) :
    ((op.insn.savedStorage s A.top).load (BitVec.ofNat 32 k)).map
      (fun r => regValue (storedValue r)) = op.storageAfter A k := by
  by_cases hop : op = .sstore
  · subst hop
    have hx : A.operand 0 < 256 := hx
    have hsaved : Op.sstore.insn.savedStorage s A.top = s.mainStorage.save
        (BitVec.ofNat 32 (A.operand 0)) (storedValue (s.reg (A.top - 4 - 3))) := by
      rw [← h.key_eq (Nat.le_of_succ_le hneeds) hx]
      rfl
    rw [hsaved, Chain.load_save _ (key_ne_empty hx) (key_ne_empty hk)]
    have hvalue : regValue (s.reg (A.top - 4 - 3)) = A.operand 1 := by
      rw [← h.number_below hneeds, Core.number, Core.element]
      congr 2
      omega
    by_cases hkey : k = A.operand 0
    · subst hkey
      rw [if_pos rfl, Option.map_some, storedValue_storedValue, hvalue, Op.storageAfter,
        Function.update_self]
    · rw [if_neg (mt (key_inj hk hx) hkey), Op.storageAfter, Function.update_of_ne hkey]
      exact h.storage k hk
  · have hkept : op.insn.savedStorage s A.top = s.mainStorage := by
      cases op with
      | binary b => cases b <;> rfl
      | unary u => cases u <;> rfl
      | sstore => exact absurd rfl hop
      | _ => rfl
    have hsame : op.storageAfter A = A.storage := by
      cases op with
      | sstore => exact absurd rfl hop
      | _ => rfl
    rw [hkept, hsame]
    exact h.storage k hk

end Refines

theorem Abstract.Op.inRange_insn (op : Op) : op.insn.InRange := by
  cases op with
  | binary b => cases b <;> trivial
  | unary u => cases u <;> trivial
  | push n => exact n.isLt
  | dup n => exact n.isLt
  | swap n => exact n.isLt
  | _ => trivial

theorem Abstract.Op.insn_ne_stop (op : Op) : op.insn ≠ .arithm 0 := by
  cases op with
  | binary b => cases b <;> simp [insn, Binary.insn]
  | unary u => cases u <;> simp [insn, Unary.insn]
  | _ => simp [insn]

theorem Abstract.Op.need_insn_le (op : Op) (s : Core w c) (z : Int) :
    op.insn.need s z ≤ 65 * op.conversions + 51 := by
  cases op with
  | binary b => cases b <;> first | exact need_arithm_le s z _ | exact Nat.le_add_right ..
  | unary u => cases u <;> exact Nat.le_add_right ..
  | _ => exact Nat.le_add_right ..

theorem Register.value_congr {s t : Core w c} (hregs : t.regs = s.regs)
    (hsize : t.elfSize = s.elfSize) (r : Register) : r.value t = r.value s := by
  cases r <;> simp only [Register.value, hregs, hsize]

/-- One instruction of an engine does what the abstract machine does. -/
theorem Refines.exec {E : Engine w c} {s : Core w c} (h : Refines E C s A) {op : Op}
    (hgo : op.refuses C A = none) (hret : op ≠ .ret) (hx : op.Exact C A)
    (hpc : A.pc < C.code.length) (hsize : C.code.length < 2 ^ 32)
    (hheap : E.HeapServes s.heapPos (65 * op.conversions + 51)) :
    ∃ t, op.insn.exec E s = .ok (op.insn.write s A.top) t ∧ t.pc = s.pc ∧
      t.heapPos = s.heapPos + 65 * op.conversions ∧
      ∀ p, (op.pcAfter A < C.code.length → p = BitVec.ofNat 32 (op.pcAfter A)) →
        Refines E C { t with pc := p } (op.next C A) := by
  obtain ⟨hneeds, hcost⟩ := Op.of_refuses_eq_none hgo
  have hleaves := h.leaves hgo hret hx hpc hsize
  have hcovered := h.covered op hcost
  have hserves : E.HeapServes s.heapPos (op.insn.need s A.top) := by
    right
    intro cells hcells
    have := op.need_insn_le s A.top
    rcases hheap with h0 | hroom
    · omega
    · have := hroom cells hcells
      omega
  have hexec := (Insn.exec_eq_ok_of_covered op.inRange_insn h.spAt hcovered
    (fun h0 => absurd h0 op.insn_ne_stop)).mpr
    ⟨hleaves.entryIn, hserves, hleaves.fits, rfl, rfl⟩
  have hfacts := Insn.exec_facts E op.inRange_insn h.spAt hexec
  refine ⟨_, hexec, hfacts.pc, by rw [hfacts.heapPos, op.conversions_insn], ?_⟩
  have hmemory := Insn.holds_exec op.inRange_insn h.spAt h.memory hexec
  rw [h.memoryAfter_eq hneeds hx.operands] at hmemory
  intro p hp
  constructor
  · exact hleaves.stack.congr rfl fun _ => rfl
  · exact hmemory
  · intro k hk
    refine Eq.trans ?_ (h.storageAfter_eq hneeds hx.operands hk)
    exact congrArg (fun l : Chain => (l.load (BitVec.ofNat 32 k)).map
      fun r => regValue (storedValue r)) hfacts.storage
  · have hcharge := (Insn.Charges.of_gasAfter hfacts.gas).covered
      ((Insn.covered_iff _ _).mp hcovered)
    obtain ⟨v, hv, hcost'⟩ := op.charge_insn
    have hop : op.insn.cost = op.cost := by
      rw [Insn.cost, hv]
      exact hcost'
    rw [hop, h.gas] at hcharge
    exact Nat.eq_sub_of_add_eq hcharge
  · exact hp
  · intro a ha
    refine Eq.trans ?_ (h.code a ha)
    exact congrArg (fun p => E.fetch p (BitVec.ofNat 32 a)) hfacts.prog
  · intro i
    refine Eq.trans ?_ (h.info i)
    exact congrArg BitVec.toNat (Register.value_congr hfacts.regs hfacts.elfSize i.register)
  · exact h.hash
  · exact hfacts.fresh h.fresh

end GvmCore
