import Mathlib.Algebra.Ring.Nat
import GvmCore.Assembler

namespace GvmCore
open Exec Layout
set_option autoImplicit true

def AsmPlace.behind (a : AsmPlace) (u : BinInst) : AsmPlace where
  progAddr := a.progAddr + u.mBitSize / 8
  outAddr := a.outAddr + u.mBitSize / 8

def BinInst.Sized (u : BinInst) : Prop := u.mBitSize ∈ [8, 16, 32, 64]

/-- Units from the place `a` on, where the padding has done what it can: no unit of 32 bits stands
two bytes behind a multiple of the alignment. -/
structure Regular (a : AsmPlace) (us : List BinInst) : Prop where
  sized : ∀ u ∈ us, u.Sized
  word : ∀ p ∈ lay AsmPlace.behind a us, p.2.mBitSize = 32 → p.1.progAddr.toNat % 4 ≠ 2

theorem Regular.nil : Regular a [] where
  sized := fun _ hu => absurd hu List.not_mem_nil
  word := fun _ hp => absurd hp List.not_mem_nil

theorem Regular.append (h : Regular a us) (h' : Regular (us.foldl AsmPlace.behind a) vs) :
    Regular a (us ++ vs) where
  sized := by
    intro u hu
    rcases List.mem_append.mp hu with hu | hu
    · exact h.sized u hu
    · exact h'.sized u hu
  word := by
    intro p hp
    rw [lay_append] at hp
    rcases List.mem_append.mp hp with hp | hp
    · exact h.word p hp
    · exact h'.word p hp

theorem Regular.singleton (hsize : u.Sized) (hword : u.mBitSize = 32 → a.progAddr.toNat % 4 ≠ 2) :
    Regular a [u] where
  sized := by
    intro v hv
    rw [List.mem_singleton.mp hv]
    exact hsize
  word := by
    intro p hp
    rw [List.mem_singleton.mp hp]
    exact hword

theorem parity_behind (h : u.Sized) (a : AsmPlace) : (a.behind u).progAddr.toNat % 2 =
    (a.progAddr.toNat + if u.mBitSize = 8 then 1 else 0) % 2 := by
  have hadd : (a.behind u).progAddr.toNat =
      (a.progAddr.toNat + (u.mBitSize / 8).toNat) % 2 ^ 32 := BitVec.toNat_add _ _
  have hbytes : (u.mBitSize / 8).toNat % 2 = if u.mBitSize = 8 then 1 else 0 := by
    simp only [BinInst.Sized, List.mem_cons, List.not_mem_nil, or_false] at h
    rcases h with h | h | h | h <;> rw [h] <;> decide
  rw [hadd, ← hbytes]
  omega

theorem parity_foldl {us : List BinInst} (h : ∀ u ∈ us, u.Sized) (a : AsmPlace) :
    (us.foldl AsmPlace.behind a).progAddr.toNat % 2 =
      (a.progAddr.toNat + us.countP (·.mBitSize = 8)) % 2 := by
  induction us generalizing a with
  | nil => rfl
  | cons u us ih =>
    have hu := parity_behind (h u List.mem_cons_self) a
    have hus := ih (fun v hv => h v (List.mem_cons_of_mem _ hv)) (a.behind u)
    rw [List.foldl_cons, hus, List.countP_cons]
    simp only [decide_eq_true_eq]
    omega

theorem foldl_behind_sub (us : List BinInst) (a : AsmPlace) :
    (us.foldl AsmPlace.behind a).outAddr - a.outAddr =
      (us.foldl AsmPlace.behind a).progAddr - a.progAddr := by
  induction us generalizing a with
  | nil => rw [List.foldl_nil, BitVec.sub_self, BitVec.sub_self]
  | cons u us ih =>
    have hus := ih (a.behind u)
    rw [List.foldl_cons]
    simp only [AsmPlace.behind] at hus ⊢
    bv_omega

theorem Regular.aligned_iff (h : Regular a us) :
    (∀ p ∈ lay AsmPlace.behind a us, p.2.mBitSize = 32 → p.1.progAddr.toNat % 4 = 0) ↔
      ∀ before u after, us = before ++ u :: after → u.mBitSize = 32 →
        (a.progAddr.toNat + before.countP (·.mBitSize = 8)) % 2 = 0 := by
  have hword := (forall_lay_iff (P := fun (b : AsmPlace) (u : BinInst) =>
    u.mBitSize = 32 → b.progAddr.toNat % 4 ≠ 2)).mp h.word
  rw [forall_lay_iff (P := fun (b : AsmPlace) (u : BinInst) =>
    u.mBitSize = 32 → b.progAddr.toNat % 4 = 0)]
  constructor
  · intro hall before u after hus h32
    rw [← parity_foldl fun v hv => h.sized v (hus ▸ List.mem_append_left _ hv)]
    have := hall before u after hus h32
    omega
  · intro hall before u after hus h32
    have hpar := hall before u after hus h32
    rw [← parity_foldl fun v hv => h.sized v (hus ▸ List.mem_append_left _ hv)] at hpar
    have := hword before u after hus h32
    omega

def Decoder.PadsHalf (D : Decoder δ) : Prop :=
  ∀ a inst, (D.getExp a BaseAsm.mAlignmentInst).result = some inst → inst.mBitSize = 16

namespace AsmRun

def here (t : AsmRun δ) : AsmPlace := ⟨t.asm.mProgCurAddr, t.out⟩

def output (t : AsmRun δ) : AsmPlace × List (AsmPlace × BinInst) × BitVec 32 :=
  (t.here, t.placed, t.aOutStream)

/-- From `t` to `u` the units `us` have been stored, one behind the other. -/
structure Emits (t : AsmRun δ) (us : List BinInst) (u : AsmRun δ) : Prop where
  here : u.here = us.foldl AsmPlace.behind t.here
  placed : u.placed = t.placed ++ lay AsmPlace.behind t.here us
  aOutStream : u.aOutStream = t.aOutStream

theorem Emits.of_output {t u : AsmRun δ} (h : u.output = t.output) : Emits t [] u where
  here := congrArg Prod.fst h
  placed := (congrArg (·.2.1) h).trans (List.append_nil _).symm
  aOutStream := congrArg (·.2.2) h

theorem Emits.trans {t u v : AsmRun δ} (h : Emits t us u) (h' : Emits u vs v) :
    Emits t (us ++ vs) v where
  here := by rw [h'.here, h.here, List.foldl_append]
  placed := by rw [h'.placed, h.placed, h.here, lay_append, List.append_assoc]
  aOutStream := h'.aOutStream.trans h.aOutStream

section Frame

variable {D : Decoder δ}

theorem output_nextLine (t : AsmRun δ) : t.nextLine.output = t.output := by
  fun_induction nextLine t with
  | case1 t _ ih => exact ih
  | case2 t _ => rfl

theorem keeps_call (f : BaseAsm δ → List Char → AsmAnswer δ α) (str : List Char) :
    Keeps output (call f str) := by
  intro t a u h
  cases h
  rfl

theorem keeps_advance (n : BitVec 32) : Keeps (output (δ := δ)) (advance n) := by
  intro t a u h
  rw [advance] at h
  split at h
  · cases h
    rfl
  · cases h

theorem keeps_print (line : String) : Keeps (output (δ := δ)) (print line) := by
  intro t a u h
  cases h
  rfl

theorem keeps_fail : Keeps (output (δ := δ)) (fail : AsmM δ α) := by
  intro t a u h
  cases h

theorem keeps_getExp (str : List Char) : Keeps output (getExp D str) := by
  refine (keeps_call _ _).bind fun inst => ?_
  cases inst with
  | none => exact .fault _
  | some inst => exact .pure inst

theorem keeps_decodeWord : Keeps output (decodeWord D) := by
  refine (Keeps.update (g := skip 3) fun _ => rfl).bind fun _ =>
    (Keeps.update (g := missSpaces) fun _ => rfl).bind fun _ =>
    (Keeps.read _).bind fun _ => (keeps_call _ _).bind fun t => ?_
  apply Keeps.ite
  · exact (keeps_advance _).bind fun _ => .pure _
  · exact (keeps_print _).bind fun _ => keeps_fail

theorem keeps_decode : Keeps output (decode D) := by
  refine (Keeps.read _).bind fun str => ?_
  apply Keeps.ite
  · exact keeps_decodeWord
  · exact keeps_getExp str

end Frame

section Stores

variable {D : Decoder δ} {t u : AsmRun δ}

theorem addInst_incPC (h : (addInst inst >>= fun _ => incPC true inst) t = .ok () u) :
    inst.Sized ∧ Emits t [inst] u := by
  obtain ⟨_, v, hadd, hinc⟩ := bind_eq_ok.mp h
  rw [addInst] at hadd
  split at hadd
  · cases hadd
    cases hinc
    exact ⟨‹_›, rfl, rfl, rfl⟩
  · cases hadd

theorem result_getExp (h : getExp D str t = .ok inst u) :
    (D.getExp t.asm str).result = some inst := by
  obtain ⟨r, v, hcall, hmatch⟩ := bind_eq_ok.mp h
  cases hcall
  cases hr : (D.getExp t.asm str).result with
  | none =>
    rw [hr] at hmatch
    cases hmatch
  | some inst' =>
    rw [hr] at hmatch
    cases hmatch
    rfl

theorem toNat_and_alignment (pc : BitVec 32) :
    (pc &&& (BaseAsm.mVarAlignment - 1)).toNat = pc.toNat % 4 := by
  rw [BitVec.toNat_and]
  exact Nat.and_two_pow_sub_one_eq_mod pc.toNat 2

theorem alignRest_pos_iff (pc : BitVec 32) :
    pc &&& (BaseAsm.mVarAlignment - 1) > 0 ↔ pc.toNat % 4 ≠ 0 := by
  rw [gt_iff_lt, BitVec.lt_def, toNat_and_alignment]
  exact Nat.pos_iff_ne_zero

theorem align_ok (hpad : D.PadsHalf) (h : align D true inst t = .ok () u) :
    ∃ pads, Emits t pads u ∧ Regular t.here pads ∧
      (inst.mBitSize = 32 → u.here.progAddr.toNat % 4 ≠ 2) := by
  simp only [align, bind_def, read_apply] at h
  split at h
  · rename_i hcond
    obtain ⟨in2, v, hexp, hrest⟩ := bind_eq_ok.mp h
    have h16 := hpad _ _ (result_getExp hexp)
    have hsame := Emits.of_output (keeps_getExp _ _ _ _ hexp)
    obtain ⟨hsize, hemit⟩ := addInst_incPC hrest
    have hall := hsame.trans hemit
    refine ⟨[in2], hall, .singleton hsize fun h32 => ?_, fun _ => ?_⟩
    · rw [h16] at h32
      cases h32
    · have hgap := (alignRest_pos_iff _).mp hcond.2.1
      have hpc : u.here.progAddr = t.asm.mProgCurAddr + 2 := by
        rw [hall.here]
        change t.asm.mProgCurAddr + in2.mBitSize / 8 = _
        rw [h16]
        rfl
      have hadd : u.here.progAddr.toNat = (t.asm.mProgCurAddr.toNat + 2) % 2 ^ 32 := by
        rw [hpc]
        exact BitVec.toNat_add _ _
      omega
  · rename_i hcond
    cases h
    refine ⟨[], .of_output rfl, .nil, fun h32 => ?_⟩
    change t.asm.mProgCurAddr.toNat % 4 ≠ 2
    have hzero : t.asm.mProgCurAddr.toNat % 4 = 0 := by
      by_contra hne
      exact hcond ⟨by decide, (alignRest_pos_iff _).mpr hne, h32⟩
    omega

theorem reject_ne_ok : reject inst t ≠ .ok a u := by
  intro h
  simp only [reject, bind_def, read_apply, print, update_apply] at h
  split at h
  · cases h
  · cases h

theorem place_ok (hpad : D.PadsHalf) (h : place D true inst t = .ok () u) :
    ∃ us, Emits t us u ∧ Regular t.here us := by
  rw [place] at h
  split at h
  · exact absurd h reject_ne_ok
  · obtain ⟨_, v, hadvance, h⟩ := bind_eq_ok.mp h
    obtain ⟨_, w, halign, hstore⟩ := bind_eq_ok.mp h
    have hsame := Emits.of_output (keeps_advance _ _ _ _ hadvance)
    obtain ⟨pads, hpads, hregular, hword⟩ := align_ok hpad halign
    obtain ⟨hsize, hemit⟩ := addInst_incPC hstore
    have hpadded := hsame.trans hpads
    refine ⟨pads ++ [inst], hpadded.trans hemit, ?_⟩
    have hhere : v.here = t.here := hsame.here
    rw [hhere] at hregular
    apply hregular.append
    rw [← hhere, ← hpads.here]
    exact .singleton hsize hword

theorem round_eq (t : AsmRun δ) : round D aIncPC t =
    if t.char = '\x00' then finish t
    else if t.nextLine.char = '\x00' then finish t.nextLine
    else (decode D >>= place D aIncPC) t.nextLine := by
  rw [round, bind_of_ok (read_apply _ _)]
  split
  · rfl
  · rw [bind_of_ok (update_apply _ _), bind_of_ok (read_apply _ _)]
    split
    · rfl
    · rfl

/-- The step lemma: a round stores regular units. -/
theorem round_ok (hpad : D.PadsHalf) (h : round D true t = .ok () u) :
    ∃ us, Emits t us u ∧ Regular t.here us := by
  rw [round_eq] at h
  split at h
  · cases h
  · split at h
    · cases h
    · obtain ⟨inst, v, hdecode, hplace⟩ := bind_eq_ok.mp h
      have hsame := Emits.of_output ((keeps_decode _ _ _ hdecode).trans (output_nextLine t))
      obtain ⟨us, hemit, hregular⟩ := place_ok hpad hplace
      have hhere : v.here = t.here := hsame.here
      exact ⟨us, hsame.trans hemit, hhere ▸ hregular⟩

/-- The run lemma. -/
theorem run_emits {hist : List (AsmRun δ)} (hpad : D.PadsHalf) (h : Run (round D true) t hist u) :
    ∃ us, Emits t us u ∧ Regular t.here us := by
  induction h with
  | start => exact ⟨[], .of_output rfl, .nil⟩
  | step _ hround ih =>
    obtain ⟨us, hemit, hregular⟩ := ih
    obtain ⟨vs, hemit', hregular'⟩ := round_ok hpad hround
    refine ⟨us ++ vs, hemit.trans hemit', hregular.append ?_⟩
    rw [← hemit.here]
    exact hregular'

end Stores

section Ends

variable {D : Decoder δ} {t u : AsmRun δ}

def Failed (t : AsmRun δ) : Prop := t.ret = .failed

theorem fail_exits : ExitsIn Failed (fail : AsmM δ α) := by
  intro t u h
  cases h
  rfl

theorem advance_exits (n : BitVec 32) : ExitsIn Failed (advance n : AsmM δ Unit) := by
  intro t u h
  rw [advance] at h
  split at h <;> cases h

theorem call_exits (f : BaseAsm δ → List Char → AsmAnswer δ α) (str : List Char) :
    ExitsIn Failed (call f str) := by
  intro t u h
  cases h

theorem getExp_exits (str : List Char) : ExitsIn Failed (getExp D str) := by
  refine (call_exits _ _).bind fun inst => ?_
  cases inst with
  | none => exact .fault _
  | some inst => exact .pure inst

theorem decode_exits : ExitsIn Failed (decode D) := by
  refine (ExitsIn.read _).bind fun str => ?_
  apply ExitsIn.ite
  · refine (ExitsIn.update (skip 3)).bind fun _ => (ExitsIn.update missSpaces).bind fun _ =>
      (ExitsIn.read _).bind fun _ => (call_exits _ _).bind fun t => ?_
    apply ExitsIn.ite
    · exact (advance_exits _).bind fun _ => .pure _
    · exact (ExitsIn.update _).bind fun _ => fail_exits
  · exact getExp_exits str

theorem addInst_exits (inst : BinInst) : ExitsIn Failed (addInst inst : AsmM δ Unit) :=
  .ite (.update _) fail_exits

theorem incPC_exits (aIncPC : Bool) (inst : BinInst) :
    ExitsIn Failed (incPC aIncPC inst : AsmM δ Unit) :=
  .ite (.update _) (.pure _)

theorem align_exits (aIncPC : Bool) (inst : BinInst) : ExitsIn Failed (align D aIncPC inst) := by
  refine (ExitsIn.read _).bind fun pc => ?_
  apply ExitsIn.ite
  · exact (getExp_exits _).bind fun in2 => (addInst_exits in2).bind fun _ => incPC_exits _ _
  · exact .pure _

theorem reject_exits (inst : BinInst) : ExitsIn Failed (reject inst : AsmM δ Unit) := by
  refine (ExitsIn.read _).bind fun _ => (ExitsIn.read _).bind fun _ =>
    (ExitsIn.update _).bind fun _ => (ExitsIn.read _).bind fun cut =>
    (ExitsIn.read _).bind fun _ => ?_
  apply ExitsIn.ite
  · exact (ExitsIn.update _).bind fun _ => (ExitsIn.read _).bind fun _ =>
      (ExitsIn.update _).bind fun _ => (ExitsIn.update _).bind fun _ => fail_exits
  · exact .fault _

theorem place_exits (aIncPC : Bool) (inst : BinInst) : ExitsIn Failed (place D aIncPC inst) := by
  apply ExitsIn.ite
  · exact reject_exits inst
  · exact (advance_exits _).bind fun _ => (align_exits _ _).bind fun _ =>
      (addInst_exits _).bind fun _ => incPC_exits _ _

theorem round_exit (h : round D aIncPC t = .exit u) (hret : u.ret = .bytes n) :
    Emits t [] u ∧ n = u.out - u.aOutStream := by
  rw [round_eq] at h
  split at h
  · cases h
    cases hret
    exact ⟨.of_output rfl, rfl⟩
  · split at h
    · cases h
      cases hret
      exact ⟨.of_output (output_nextLine t), rfl⟩
    · have hfail : Failed u := (decode_exits.bind fun inst => place_exits aIncPC inst) _ _ h
      rw [hfail] at hret
      cases hret

end Ends

/-- A successful call, as a whole: regular units stand one behind the other from the initial
program address on. -/
theorem returns_emits {D : Decoder δ} (hpad : D.PadsHalf) (h : Returns D true s t)
    (hret : t.ret = .bytes n) :
    ∃ us, Emits s us t ∧ Regular s.here us ∧ n = t.out - t.aOutStream := by
  obtain ⟨k, hk⟩ := h
  obtain ⟨_, -, d, hd, hexit⟩ := iterate_eq_exit.mp hk
  obtain ⟨hist, -, hrun⟩ := Run.of_iterate hd
  obtain ⟨us, hemit, hregular⟩ := run_emits hpad hrun
  obtain ⟨hlast, hbytes⟩ := round_exit hexit hret
  have hall := hemit.trans hlast
  rw [List.append_nil] at hall
  exact ⟨us, hall, hregular, hbytes⟩

def units (t : AsmRun δ) : List BinInst := t.placed.map Prod.snd

/-- The bytes that a successful call returns are the increase of the program address. The words
are aligned exactly where the initial address and the single bytes before each of them make an
even number: one padding instruction of 16 bits cannot fill a gap of one or three bytes. -/
theorem assemblyStream_aligned_iff (D : Decoder δ) (hpad : D.PadsHalf) (own : δ)
    (aProgAddr : BitVec 32) (aIStream : List Char) (aOutStream : BitVec 32) (t : AsmRun δ)
    (n : BitVec 32) (hcall : Returns D true (start own aProgAddr aIStream aOutStream) t)
    (hret : t.ret = .bytes n) :
    (∀ p ∈ t.placed, p.2.mBitSize = 32 → p.1.progAddr.toNat % 4 = 0) ∧
        n = t.asm.mProgCurAddr - aProgAddr ↔
      ∀ before u after, t.units = before ++ u :: after → u.mBitSize = 32 →
        (aProgAddr.toNat + before.countP (·.mBitSize = 8)) % 2 = 0 := by
  obtain ⟨us, hemit, hregular, hbytes⟩ := returns_emits hpad hcall hret
  have hplaced : t.placed = lay AsmPlace.behind (start own aProgAddr aIStream aOutStream).here us :=
    hemit.placed
  have hunits : t.units = us := by
    rw [units, hplaced, map_snd_lay]
  have hcount : n = t.asm.mProgCurAddr - aProgAddr := by
    have hsub := foldl_behind_sub us (start own aProgAddr aIStream aOutStream).here
    rw [← hemit.here] at hsub
    rw [hbytes, hemit.aOutStream]
    exact hsub
  rw [hplaced, hunits, hregular.aligned_iff]
  exact and_iff_left hcount

section Letters

def letterSize : Char → BitVec 32
  | 'b' => 8
  | 'h' => 16
  | 'n' => 16
  | 'w' => 32
  | 'q' => 64
  | _ => 0

def letters : Decoder Unit where
  getToken := fun a _ => ⟨⟨0, 0, 0, ""⟩, a.mErrString, ()⟩
  getExp := fun a str => ⟨some ⟨letterSize (str.headD '\x00'), 1, 0⟩, a.mErrString, ()⟩

theorem letters_padsHalf : letters.PadsHalf := by
  intro a inst h
  cases h
  rfl

def letterCall (text : List Char) (k : Nat) : AsmRun Unit :=
  (iterate (round letters true) k (start () 0 text 0)).get (start () 0 text 0)

theorem returns_letterCall
    (h : (iterate (round letters true) k (start () 0 text 0)).isExit = true) :
    Returns letters true (start () 0 text 0) (letterCall text k) :=
  ⟨k, Outcome.eq_exit_of_isExit h⟩

/-- A half word and a word: the padding fills the gap. -/
theorem assemblyStream_half_word : (letterCall ['h', 'w'] 3).ret = .bytes 8 ∧
    ∀ p ∈ (letterCall ['h', 'w'] 3).placed, p.2.mBitSize = 32 → p.1.progAddr.toNat % 4 = 0 := by
  have hret : (letterCall ['h', 'w'] 3).ret = .bytes 8 := by decide +kernel
  have hsizes : ∀ u ∈ (letterCall ['h', 'w'] 3).units, u.mBitSize ≠ 8 := by decide +kernel
  have hcall : Returns letters true (start () 0 ['h', 'w'] 0) (letterCall ['h', 'w'] 3) :=
    returns_letterCall (by decide +kernel)
  refine ⟨hret, ((assemblyStream_aligned_iff letters letters_padsHalf () 0 ['h', 'w'] 0 _ 8 hcall
    hret).mpr ?_).1⟩
  intro before u after hunits _
  have hzero : before.countP (·.mBitSize = 8) = 0 := by
    rw [List.countP_eq_zero]
    intro v hv
    simpa using hsizes v (hunits ▸ List.mem_append_left _ hv)
  rw [hzero]
  rfl

/-- A byte and a word: the word stands at address three. -/
theorem assemblyStream_byte_word : letters.PadsHalf ∧
    Returns letters true (start () 0 ['b', 'w'] 0) (letterCall ['b', 'w'] 3) ∧
    (letterCall ['b', 'w'] 3).ret = .bytes 7 ∧
    ∃ p ∈ (letterCall ['b', 'w'] 3).placed, p.2.mBitSize = 32 ∧ p.1.progAddr.toNat % 4 = 3 := by
  refine ⟨letters_padsHalf, returns_letterCall (by decide +kernel), by decide +kernel, ?_⟩
  decide +kernel

end Letters

end AsmRun
end GvmCore
