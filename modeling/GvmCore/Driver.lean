import GvmCore.Qemu
import GvmCore.Unwinding

namespace GvmCore
open Exec Signed
set_option autoImplicit true

/-- A program that runs one instruction after another on a machine: between two of them it may only
set `pc` and its own variables. -/
structure Driver (w c : Nat) (σ : Type) where
  engine : Engine w c
  core : σ → Core w c
  code : σ → BitVec 8
  step : Exec Fault σ Unit
  next : σ → PcWrite → Core w c → σ
  halted : σ → Core w c → σ
  step_eq : ∀ d, step d = (mainDecode engine (code d) (core d)).into (next d) (halted d)
  core_next : ∀ d pw t, ∃ pc, core (next d pw t) = { t with pc := pc }
  core_halted : ∀ d t, ∃ pc, core (halted d t) = { t with pc := pc }

namespace Evm

def next (d : Evm) (pw : PcWrite) (t : Core 32 8) : Evm :=
  let d := writePc pw { d with core := t, isPcWithinInst := false, isPcConstChanged := false }
  updateRegs
    (if d.isPcWithinInst = false ∧ d.isPcConstChanged = false then
      { d with pcWrite := d.core.pc + 1 }
    else d)

def halted (d : Evm) (t : Core 32 8) : Evm :=
  updateRegs { d with core := t, isPcWithinInst := false, isPcConstChanged := false }

theorem clock_eq (E : Engine 32 8) (d : Evm) :
    clock E d = (mainDecode E (code E d) d.core).into (next d) (halted d) := by
  unfold clock operate
  rw [bind_of_ok (read_apply _ _), bind_of_ok (update_apply _ _)]
  cases h : mainDecode E (code E d) d.core with
  | ok pw t =>
    have hcore : onCore (mainDecode E (code E d))
        { d with isPcWithinInst := false, isPcConstChanged := false } =
          .ok pw { d with core := t, isPcWithinInst := false, isPcConstChanged := false } := by
      simp only [onCore, onComponent, h]
    rw [bind_of_ok hcore, bind_of_ok (update_apply _ _), update_apply]
    rfl
  | exit t =>
    have hcore : onCore (mainDecode E (code E d))
        { d with isPcWithinInst := false, isPcConstChanged := false } =
          .exit { d with core := t, isPcWithinInst := false, isPcConstChanged := false } := by
      simp only [onCore, onComponent, h]
    rw [bind_of_exit hcore]
    rfl
  | fault f =>
    have hcore : onCore (mainDecode E (code E d))
        { d with isPcWithinInst := false, isPcConstChanged := false } = .fault f := by
      simp only [onCore, onComponent, h]
    rw [bind_of_fault hcore]
    rfl

theorem core_next (d : Evm) (pw : PcWrite) (t : Core 32 8) :
    ∃ pc, (next d pw t).core = { t with pc := pc } := by
  cases pw with
  | none => exact ⟨_, rfl⟩
  | constChanged pc => exact ⟨_, rfl⟩
  | withinInst pc => exact ⟨_, rfl⟩

def driver (E : Engine 32 8) : Driver 32 8 Evm where
  engine := E
  core := Evm.core
  code := code E
  step := clock E
  next := next
  halted := halted
  step_eq := clock_eq E
  core_next := core_next
  core_halted := fun _ _ => ⟨_, rfl⟩

theorem driver_step (E : Engine 32 8) (d : Evm) : (driver E).step d = clock E d := rfl

theorem driver_run {E : Engine 32 8} {d : Evm} (h : (iterate (clock E) n d).isOk = true) :
    Run (driver E).step d ((List.range n).reverse.map (after (clock E) d)) (after (clock E) d n) :=
  Run.of_isOk h

end Evm

namespace Qemu

theorem enterBlock_ne_nil (limits : Nat → Nat) (q : Qemu) : (enterBlock limits q).block ≠ [] := by
  unfold enterBlock
  split
  · rename_i i rest h
    rw [h]
    exact List.cons_ne_nil _ _
  · split
    · exact Tb.ne_nil _
    · exact Tb.ne_nil _

theorem enterBlock_of_ne_nil (limits : Nat → Nat) {q : Qemu} (h : q.block ≠ []) :
    enterBlock limits q = q := by
  unfold enterBlock
  split
  · rfl
  · rename_i hnil
    exact absurd hnil h

def current (limits : Nat → Nat) (q : Qemu) : TbInsn :=
  (enterBlock limits q).block.head (enterBlock_ne_nil limits q)

theorem enterBlock_env (limits : Nat → Nat) (q : Qemu) : (enterBlock limits q).env = q.env := by
  unfold enterBlock
  split
  · rfl
  · split <;> rfl

def wrote (i : TbInsn) (pw : PcWrite) (q : Qemu) : Qemu :=
  if i.addsPc then addPc (writePc pw q) else writePc pw q

def finish (i : TbInsn) (rest : List TbInsn) (pw : PcWrite) (q : Qemu) : Qemu :=
  let q := { wrote i pw q with block := rest }
  if rest = [] then leaveBlock q else q

theorem env_wrote (i : TbInsn) (pw : PcWrite) (q : Qemu) :
    ∃ pc, (wrote i pw q).env = { q.env with pc := pc } := by
  unfold wrote
  cases pw with
  | none => split <;> exact ⟨_, rfl⟩
  | constChanged pc => split <;> exact ⟨_, rfl⟩
  | withinInst pc => split <;> exact ⟨_, rfl⟩

theorem env_finish (i : TbInsn) (rest : List TbInsn) (pw : PcWrite) (q : Qemu) :
    ∃ pc, (finish i rest pw q).env = { q.env with pc := pc } := by
  obtain ⟨pc, hpc⟩ := env_wrote i pw q
  unfold finish
  dsimp only
  split
  · refine ⟨(leaveBlock { wrote i pw q with block := rest }).env.pc, ?_⟩
    simp only [leaveBlock, hpc]
  · exact ⟨pc, hpc⟩

theorem execInsn_eq (E : Engine 64 64) (i : TbInsn) (q : Qemu) :
    execInsn E i q = (mainDecode E i.insn q.env).into
      (fun pw t => wrote i pw { q with env := t }) (fun t => { q with env := t }) := by
  unfold execInsn genBlockMain
  cases h : mainDecode E i.insn q.env with
  | ok pw t =>
    have henv : onEnv (mainDecode E i.insn) q = .ok pw { q with env := t } := by
      simp only [onEnv, onComponent, h]
    rw [bind_of_ok henv, bind_of_ok (update_apply _ _)]
    simp only [Outcome.into, wrote]
    split <;> rfl
  | exit t =>
    have henv : onEnv (mainDecode E i.insn) q = .exit { q with env := t } := by
      simp only [onEnv, onComponent, h]
    rw [bind_of_exit henv]
    rfl
  | fault f =>
    have henv : onEnv (mainDecode E i.insn) q = .fault f := by
      simp only [onEnv, onComponent, h]
    rw [bind_of_fault henv]
    rfl

theorem runInsn_eq (E : Engine 64 64) {q : Qemu} (hb : q.block = i :: rest) :
    runInsn E q = (mainDecode E i.insn q.env).into
      (fun pw t => finish i rest pw { q with env := t }) (fun t => { q with env := t }) := by
  have hexec := execInsn_eq E i q
  have hrun : runInsn E q = (do
      execInsn E i
      update fun q => { q with block := rest }
      if rest = [] then update leaveBlock) q := by
    unfold runInsn
    rw [bind_of_ok (read_apply _ _)]
    simp only [hb]
  rw [hrun]
  cases h : mainDecode E i.insn q.env with
  | ok pw t =>
    rw [h] at hexec
    rw [bind_of_ok hexec, bind_of_ok (update_apply _ _)]
    simp only [Outcome.into, finish]
    split <;> rfl
  | exit t =>
    rw [h] at hexec
    rw [bind_of_exit hexec]
    rfl
  | fault f =>
    rw [h] at hexec
    rw [bind_of_fault hexec]
    rfl

def next (limits : Nat → Nat) (q : Qemu) (pw : PcWrite) (t : Core 64 64) : Qemu :=
  finish (current limits q) (enterBlock limits q).block.tail pw
    { enterBlock limits q with env := t }

def halted (limits : Nat → Nat) (q : Qemu) (t : Core 64 64) : Qemu :=
  { enterBlock limits q with env := t }

theorem step_eq (E : Engine 64 64) (limits : Nat → Nat) (q : Qemu) :
    step E limits q =
      (mainDecode E (current limits q).insn q.env).into (next limits q) (halted limits q) := by
  have hb : (enterBlock limits q).block =
      current limits q :: (enterBlock limits q).block.tail := (List.cons_head_tail _).symm
  unfold step
  rw [bind_of_ok (update_apply _ _), runInsn_eq E hb, enterBlock_env]
  rfl

def driver (E : Engine 64 64) (limits : Nat → Nat) : Driver 64 64 Qemu where
  engine := E
  core := Qemu.env
  code := fun q => (current limits q).insn
  step := step E limits
  next := next limits
  halted := halted limits
  step_eq := step_eq E limits
  core_next := fun _ _ _ => env_finish _ _ _ _
  core_halted := fun _ t => ⟨t.pc, rfl⟩

end Qemu

end GvmCore
