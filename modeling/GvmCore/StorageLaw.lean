import GvmCore.Decoding
import GvmCore.ReturnedData
import GvmCore.StackCodec

namespace GvmCore
open Exec
set_option autoImplicit true

theorem memAddr_ne_empty (s : Core w c) (takesAddr : Bool) (z : Int) :
    (Insn.memAddr s takesAddr z).setWidth 32 ≠ -1 := by
  intro h
  have hlt := toNat_memAddr_lt s takesAddr z
  have hnat := congrArg BitVec.toNat h
  rw [BitVec.toNat_setWidth] at hnat
  have hm1 : (-1 : BitVec 32).toNat = 2 ^ 32 - 1 := by decide
  omega

theorem Chain.nodes_save (l : Chain) (offs : BitVec 32) (data : Reg) :
    (l.save offs data).nodes = saveNode offs data l.nodes := by
  obtain ⟨head, next⟩ := l
  simp only [save, nodes, saveNode]
  split <;> rfl

theorem find_saveNode {offs k : BitVec 32} (hoffs : offs ≠ -1) (hk : k ≠ -1) (data : Reg)
    (l : List Storage) :
    (saveNode offs data l).find? (fun node => node.key = k) =
      if k = offs then some ⟨offs, data⟩ else l.find? fun node => node.key = k := by
  induction l with
  | nil =>
    by_cases h : k = offs
    · simp [saveNode, h]
    · simp [saveNode, h, Ne.symm h]
  | cons node l ih =>
    unfold saveNode
    by_cases h : k = offs
    · subst h
      rw [if_pos rfl] at ih ⊢
      split
      · simp
      · rename_i hn
        rw [not_or] at hn
        rw [List.find?_cons_of_neg (by simpa using hn.2), ih]
    · rw [if_neg h] at ih ⊢
      split
      · rename_i hn
        have hne : node.key ≠ k := by
          rintro rfl
          exact hn.elim hk h
        rw [List.find?_cons_of_neg (by simpa using Ne.symm h),
          List.find?_cons_of_neg (by simpa using hne)]
      · rw [List.find?_cons, List.find?_cons, ih]

/-- The storage list is a map from keys to values. -/
theorem Chain.load_save (l : Chain) {offs k : BitVec 32} (hoffs : offs ≠ -1) (hk : k ≠ -1)
    (data : Reg) : (l.save offs data).load k = if k = offs then some data else l.load k := by
  unfold load
  rw [nodes_save, find_saveNode hoffs hk]
  split <;> rfl

def storedValue (r : Reg) : Reg := fun j => swapBytes (r j.rev)

@[simp] theorem storedValue_storedValue (r : Reg) : storedValue (storedValue r) = r := by
  funext j
  simp [storedValue]

section Latest

variable {κ ν : Type} [DecidableEq κ]

def writer (f : σ → Option (κ × ν)) (hist : List σ) (k : κ) : Option σ :=
  hist.find? fun x => (f x).map Prod.fst = some k

def latest (f : σ → Option (κ × ν)) (hist : List σ) (k : κ) : Option ν :=
  (writer f hist k).bind fun x => (f x).map Prod.snd

theorem latest_cons (f : σ → Option (κ × ν)) (x : σ) (hist : List σ) (k : κ) :
    latest f (x :: hist) k =
      if (f x).map Prod.fst = some k then (f x).map Prod.snd else latest f hist k := by
  unfold latest writer
  by_cases h : (f x).map Prod.fst = some k
  · rw [List.find?_cons_of_pos (by simpa using h), if_pos h]
    rfl
  · rw [List.find?_cons_of_neg (by simpa using h), if_neg h]

theorem find_of_imp {p q : σ → Bool} {l : List σ} (h : l.find? p = some x) (hx : q x = true)
    (hqp : ∀ y ∈ l, q y = true → p y = true) : l.find? q = some x := by
  induction l with
  | nil => cases h
  | cons y l ih =>
    by_cases hp : p y = true
    · rw [List.find?_cons_of_pos hp] at h
      cases h
      exact List.find?_cons_of_pos hx
    · rw [List.find?_cons_of_neg hp] at h
      rw [List.find?_cons_of_neg fun hq => hp (hqp y List.mem_cons_self hq)]
      exact ih h fun y hy => hqp y (List.mem_cons_of_mem _ hy)

end Latest

namespace Driver

variable (D : Driver w c σ)

/-- The key an instruction of the 0x50 group decodes. -/
def decodedKey (takesAddr : Bool) (d : σ) : BitVec 32 :=
  (Insn.memAddr (D.core d) takesAddr (D.core d).spInt32).setWidth 32

def storeOf (d : σ) : Option (BitVec 32 × Reg) :=
  match D.insn d with
  | .mem takesAddr op =>
    if op = 5 then some (D.decodedKey takesAddr d,
      (D.core d).reg (Insn.memBase takesAddr (D.core d).spInt32 - 3))
    else none
  | _ => none

def topKey (d : σ) : Nat := regValue ((D.core d).element (D.core d).spInt32 0)

/-- What SSTORE should store, under the 256-bit key. -/
def sstoreOf (d : σ) : Option (Nat × Reg) :=
  if D.code d = 0x55 then some (D.topKey d, (D.core d).element (D.core d).spInt32 1) else none

/-- SLOAD at `d` completes and pushes the value of the most recent SSTORE to the same key, or
zero. -/
def LoadsLatest (hist : List σ) (d : σ) : Prop := ∃ d', D.step d = .ok () d' ∧
  (D.core d').element (D.core d').spInt32 0 =
    (latest D.sstoreOf hist (D.topKey d)).getD fun _ => 0

/-- The last store under the key that SLOAD decodes was an SSTORE to the same 256-bit key. -/
def KeyKept (hist : List σ) (d : σ) : Prop :=
  ∃ x, writer D.storeOf hist (D.decodedKey true d) = some x ∧ D.code x = 0x55 ∧
    D.topKey x = D.topKey d

variable {D}

theorem storeOf_of_sstore (h : D.code d = 0x55) :
    D.storeOf d = some (D.decodedKey true d, (D.core d).element (D.core d).spInt32 1) := by
  have hinsn : D.insn d = .mem true 5 := by
    rw [insn_of_listed (by rw [h]; decide), h]
    decide
  have hreg : Insn.memBase true (D.core d).spInt32 - 3 =
      (D.core d).spInt32 - 4 * (1 : Nat) - 3 := rfl
  simp only [storeOf, hinsn, if_true, hreg]
  rfl

theorem decodedKey_of_topKey (h : D.topKey x = D.topKey d) :
    D.decodedKey true x = D.decodedKey true d := by
  have hr := regValue_injective h
  have hw : (D.core x).word ((D.core x).spInt32 - 3) =
      (D.core d).word ((D.core d).spInt32 - 3) := by
    rw [← Core.element_zero, ← Core.element_zero, hr]
  simp only [decodedKey, Insn.memAddr, Core.address, hw]

/-- One step changes the storage by what it stores. -/
theorem storage_step (hz : SpAt (D.core d) z) (h : D.step d = .ok () d') :
    (D.core d').mainStorage = (D.storeOf d).elim (D.core d).mainStorage fun e =>
      (D.core d).mainStorage.save e.1 (storedValue e.2) := by
  obtain ⟨t, pc, hf, hcore⟩ := step_facts hz h
  have hint := hz.spInt32 D.engine
  rw [hcore]
  refine hf.storage.trans ?_
  unfold storeOf decodedKey
  rw [hint]
  cases D.insn d with
  | mem takesAddr op =>
    simp only [Insn.savedStorage]
    split <;> rfl
  | _ => rfl

theorem storeOf_key_ne (h : D.storeOf d = some e) : e.1 ≠ -1 := by
  unfold storeOf at h
  split at h
  · split at h
    · cases h
      exact memAddr_ne_empty _ _ _
    · cases h
  · cases h

/-- Along every run the storage holds, under each key, what was last stored under it. -/
theorem storage_run (h : Started D limit d₀) (hrun : Run D.step d₀ hist d) (hk : k ≠ -1) :
    (D.core d).mainStorage.load k = (latest D.storeOf hist k).map storedValue := by
  induction hrun with
  | start =>
    have hfind : emptyStorage.nodes.find? (fun node => node.key = k) = none := by
      rw [List.find?_eq_none]
      intro node hnode hkey
      obtain rfl := List.mem_singleton.mp hnode
      exact hk (of_decide_eq_true hkey).symm
    rw [h.start.storage, Chain.load, hfind]
    rfl
  | @step hist x d' hrun hstep ih =>
    obtain ⟨z, hz⟩ := h.bounded hrun
    rw [storage_step hz.spAt hstep, latest_cons]
    cases hs : D.storeOf x with
    | none =>
      rw [if_neg (by simp)]
      exact ih
    | some e =>
      have hload := (D.core x).mainStorage.load_save (storeOf_key_ne hs) hk (storedValue e.2)
      refine hload.trans ?_
      by_cases hke : k = e.1
      · rw [if_pos hke, if_pos (by simp [hke])]
        rfl
      · rw [if_neg hke, if_neg (by simpa using Ne.symm hke)]
        exact ih

theorem insn_of_sload (hcode : D.code d = 0x54) : D.insn d = .mem true 4 := by
  rw [insn_of_listed (by rw [hcode]; decide), hcode]
  decide

theorem sload_step (hz : Bounded (D.core d) z) (hE : D.engine.heapCells = some heapSize)
    (hcode : D.code d = 0x54) (h : D.step d = .ok () d')
    (hload : (D.core d).mainStorage.load (D.decodedKey true d) = some (storedValue r)) :
    (D.core d').element (D.core d').spInt32 0 = r := by
  have hinsn := insn_of_sload hcode
  obtain ⟨pw, t, hexec, rfl⟩ := step_eq_ok.mp h
  obtain ⟨pc, hpc⟩ := D.core_next d pw t
  have hf := Insn.exec_facts D.engine (insn_inRange d) hz.spAt hexec
  have hb := hz.step hE hf
  rw [hinsn] at hexec hb
  have hint : ({ t with pc := pc } : Core w c).spInt32 = z := by
    have hdelta : (Insn.mem true 4).delta = 0 := by decide
    rw [hdelta, add_zero] at hb
    exact SpAt.spInt32 D.engine ⟨hb.sp, hb.spAt.lower, hb.spAt.upper⟩
  rw [hpc, hint]
  obtain ⟨-, -, s', hpay, -, hfit, -, rfl⟩ :=
    (Insn.exec_eq_ok D.engine (I := .mem true 4) trivial hz.spAt).mp hexec
  have honly := (Insn.pay_facts hpay).only
  have haddr : s'.address z = (D.core d).address z := honly.address z
  have hstorage : s'.mainStorage = (D.core d).mainStorage := by
    rw [honly.eq]
    rfl
  have hvalue : storageValue D.engine s' ((s'.address z).setWidth 32) = storedValue r := by
    have hkey : D.decodedKey true d = ((D.core d).address z).setWidth 32 := by
      rw [decodedKey, hz.spAt.spInt32 D.engine]
      rfl
    rw [hkey] at hload
    rw [storageValue, hstorage, haddr, hload]
    rfl
  have helement := (Core.element_pushed s' hfit.1 hfit.2
    (storedValue (storageValue D.engine s' ((s'.address z).setWidth 32)))).trans
      (by rw [hvalue, storedValue_storedValue])
  have hbase : Insn.memBase true z + 4 = z := by
    simp only [Insn.memBase, if_true]
    omega
  rw [hbase] at helement
  exact helement

theorem writer_sstoreOf (h : D.KeyKept hist d) : ∃ r,
    latest D.storeOf hist (D.decodedKey true d) = some r ∧
    latest D.sstoreOf hist (D.topKey d) = some r := by
  obtain ⟨x, hx, hcode, hkey⟩ := h
  have hsstore : D.sstoreOf x = some (D.topKey d, (D.core x).element (D.core x).spInt32 1) := by
    rw [sstoreOf, if_pos hcode, hkey]
  have hstore := storeOf_of_sstore hcode
  rw [decodedKey_of_topKey hkey] at hstore
  have hwriter : writer D.sstoreOf hist (D.topKey d) = some x := by
    refine find_of_imp hx (by simp [hsstore]) fun y _ hy => ?_
    have hy' : (D.sstoreOf y).map Prod.fst = some (D.topKey d) := of_decide_eq_true hy
    unfold sstoreOf at hy'
    split at hy'
    · rename_i hcode'
      rw [storeOf_of_sstore hcode', decodedKey_of_topKey (by simpa using hy')]
      simp
    · cases hy'
  exact ⟨_, by rw [latest, hx, Option.bind_some, hstore]; rfl,
    by rw [latest, hwriter, Option.bind_some, hsstore]; rfl⟩

/-- The conversion of the gas counter is all that can fail. -/
theorem sload_completes (hz : SpAt (D.core d) z) (hlow : 3 ≤ z) (hhigh : z < 2048)
    (hE : D.engine.heapCells = some heapSize) (hcode : D.code d = 0x54)
    (hgas : 50 ≤ (D.core d).gas) :
    (∃ d', D.step d = .ok () d') ↔ (D.core d).heapPos + 65 ≤ heapSize := by
  have hinsn := insn_of_sload hcode
  have hcovered : (D.insn d).Covered (D.core d) := by
    intro v hv
    rw [hinsn] at hv
    cases hv
    exact hgas
  have hentry : (D.insn d).EntryIn z := by
    rw [hinsn]
    exact ⟨by omega, by omega⟩
  have hfit : (D.insn d).Fits (D.core d) z := by
    rw [hinsn]
    have hbase : Insn.memBase true z = z - 4 := rfl
    exact ⟨⟨by omega, by omega⟩, ⟨by omega, by omega⟩⟩
  have hneed : (D.insn d).need (D.core d) z = 65 := by
    rw [hinsn]
    rfl
  simp only [step_eq_ok_of_covered hz hcovered (by rw [hinsn]; simp) hentry hfit, hneed,
    Engine.heapServes_iff hE (by decide : 65 ≠ 0)]
  constructor
  · rintro ⟨d', hheap, -⟩
    exact hheap
  · intro hheap
    exact ⟨_, hheap, rfl⟩

/-- In every run, an SLOAD whose key was stored, and not overwritten by another key that is decoded
to the same, completes and pushes the value last stored, as long as the digit heap serves its
charge. -/
theorem storage_law (h : Started D limit d₀) (hrun : Run D.step d₀ hist d)
    (hz : SpAt (D.core d) z) (hlow : 3 ≤ z) (hhigh : z < 2048) (hcode : D.code d = 0x54)
    (hgas : 50 ≤ (D.core d).gas) (hkey : D.KeyKept hist d) :
    D.LoadsLatest hist d ↔ (D.core d).heapPos + 65 ≤ heapSize := by
  rw [← sload_completes hz hlow hhigh h.heapCells hcode hgas]
  constructor
  · rintro ⟨d', hstep, -⟩
    exact ⟨d', hstep⟩
  · rintro ⟨d', hstep⟩
    obtain ⟨y, hy⟩ := h.bounded hrun
    obtain ⟨r, hstored, hlatest⟩ := writer_sstoreOf hkey
    have hload := storage_run h hrun (k := D.decodedKey true d) (memAddr_ne_empty _ _ _)
    rw [hstored] at hload
    refine ⟨d', hstep, ?_⟩
    rw [hlatest]
    exact sload_step hy h.heapCells hcode hstep hload

/-- PUSH1 7; PUSH1 2; SSTORE; PUSH1 2; SLOAD. -/
def sloadStored : Evm := (Evm.init 1000).loadElf "6007600255600254".toList

theorem sloadStored_facts :
    (iterate (Evm.clock (cemu .zero)) 4 sloadStored).isOk = true ∧
    (Evm.driver (cemu .zero)).code (after (Evm.clock (cemu .zero)) sloadStored 4) = 0x54 ∧
    (Evm.driver (cemu .zero)).storeOf (after (Evm.clock (cemu .zero)) sloadStored 3) = none ∧
    (Evm.driver (cemu .zero)).code (after (Evm.clock (cemu .zero)) sloadStored 2) = 0x55 ∧
    (Evm.driver (cemu .zero)).topKey (after (Evm.clock (cemu .zero)) sloadStored 2) =
      (Evm.driver (cemu .zero)).topKey (after (Evm.clock (cemu .zero)) sloadStored 4) ∧
    (after (Evm.clock (cemu .zero)) sloadStored 4).core.sp = BitVec.ofInt 32 3 ∧
    50 ≤ (after (Evm.clock (cemu .zero)) sloadStored 4).core.gas ∧
    (after (Evm.clock (cemu .zero)) sloadStored 4).core.heapPos + 65 ≤ heapSize := by
  -- one evaluation of the run for all of them
  rw [← Option.isNone_iff_eq_none]
  decide +kernel

theorem storage_law_stored : ∃ hist d, Run (Evm.driver (cemu .zero)).step sloadStored hist d ∧
    (Evm.driver (cemu .zero)).code d = 0x54 ∧ (Evm.driver (cemu .zero)).KeyKept hist d ∧
    (Evm.driver (cemu .zero)).LoadsLatest hist d := by
  obtain ⟨hok, hcode, hnone, hsstore, htop, hsp, hgas, hheap⟩ := sloadStored_facts
  have hrun := Evm.driver_run hok
  have hkey : (Evm.driver (cemu .zero)).KeyKept
      ((List.range 4).reverse.map (after (Evm.clock (cemu .zero)) sloadStored))
      (after (Evm.clock (cemu .zero)) sloadStored 4) := by
    refine ⟨after (Evm.clock (cemu .zero)) sloadStored 2, ?_, hsstore, htop⟩
    apply (List.find?_cons_of_neg ?_).trans (List.find?_cons_of_pos ?_)
    · rw [hnone]
      decide
    · rw [storeOf_of_sstore hsstore, decodedKey_of_topKey htop]
      exact decide_eq_true rfl
  generalize (List.range 4).reverse.map (after (Evm.clock (cemu .zero)) sloadStored) = hist
    at hrun hkey
  generalize after (Evm.clock (cemu .zero)) sloadStored 4 = d at hrun hcode hkey hsp hgas hheap
  have hz : SpAt d.core 3 := ⟨hsp, by decide, by decide⟩
  exact ⟨hist, d, hrun, hcode, hkey,
    (storage_law (.init _ _ _) hrun hz (by decide) (by decide) hcode hgas hkey).mpr hheap⟩

/-- PUSH1 7; PUSH2 0x0100; SSTORE; PUSH1 2; SLOAD. -/
def sloadAliased : Evm := (Evm.init 1000).loadElf "600761010055600254".toList

theorem sloadAliased_facts :
    (iterate (Evm.clock (cemu .zero)) 4 sloadAliased).isOk = true ∧
    (Evm.driver (cemu .zero)).code (after (Evm.clock (cemu .zero)) sloadAliased 4) = 0x54 ∧
    (Evm.clock (cemu .zero) (after (Evm.clock (cemu .zero)) sloadAliased 4)).isOk = true ∧
    latest (Evm.driver (cemu .zero)).sstoreOf
      ((List.range 4).reverse.map (after (Evm.clock (cemu .zero)) sloadAliased))
      ((Evm.driver (cemu .zero)).topKey (after (Evm.clock (cemu .zero)) sloadAliased 4)) = none ∧
    (Evm.driver (cemu .zero)).topKey ((Evm.clock (cemu .zero)
      (after (Evm.clock (cemu .zero)) sloadAliased 4)).get sloadAliased) = 7 := by
  rw [← Option.isNone_iff_eq_none]
  decide +kernel

/-- The key 0x0100 is decoded to 2, and SLOAD of the key 2, which was never stored, pushes 7. -/
theorem aliased_key_loaded : ∃ hist d d', Run (Evm.driver (cemu .zero)).step sloadAliased hist d ∧
    (Evm.driver (cemu .zero)).code d = 0x54 ∧ (Evm.driver (cemu .zero)).step d = .ok () d' ∧
    latest (Evm.driver (cemu .zero)).sstoreOf hist ((Evm.driver (cemu .zero)).topKey d) = none ∧
    regValue (d'.core.element d'.core.spInt32 0) = 7 := by
  obtain ⟨hok, hcode, hlast, hlatest, htop⟩ := sloadAliased_facts
  have hstep := (Evm.driver_step (cemu .zero) _).trans
    (Outcome.eq_ok_of_isOk (d := sloadAliased) hlast)
  have hvalue : ∀ d : Evm, (Evm.driver (cemu .zero)).topKey d =
      regValue (d.core.element d.core.spInt32 0) := fun _ => rfl
  rw [hvalue] at htop
  exact ⟨_, _, _, Evm.driver_run hok, hcode, hstep, hlatest, htop⟩

end Driver

end GvmCore
