import GvmCore.Gvm1

namespace GvmCore
open Digits
set_option autoImplicit true

namespace Gvm1

def encode (h : List TTId) : List (BitVec 8) := h.flatMap toBytes

theorem encode_append (h g : List TTId) : encode (h ++ g) = encode h ++ encode g :=
  List.flatMap_append

theorem encode_singleton (id : TTId) : encode [id] = toBytes id := List.append_nil _

theorem value_toBytes (id : TTId) : value (toBytes id) = id.toNat := by
  have h := id.isLt
  simp only [toBytes, value_cons, value_nil, BitVec.extractLsb'_toNat, Nat.shiftRight_eq_div_pow]
  omega

theorem ofBytes_toBytes (id : TTId) : ofBytes (toBytes id) = id := by
  rw [ofBytes, value_toBytes, BitVec.ofNat_toNat, BitVec.setWidth_eq]

section Read

variable {client : TEvmClient} {tid : TTId} {s : System}

theorem push_of_room (h : client.history.length < 256) : client.push tid s =
    .ok ⟨client.history ++ [tid], by rw [List.length_append]; exact h⟩ s := by
  unfold TEvmClient.push
  rw [dif_pos h]
  rfl

theorem push_of_full (h : 256 ≤ client.history.length) : client.push tid s = .fault .history := by
  unfold TEvmClient.push
  rw [dif_neg (Nat.not_lt.mpr h)]
  rfl

theorem readHistory_cons (id : TTId) (bytes : List (BitVec 8)) :
    readHistory client (toBytes id ++ bytes) =
      client.push id >>= fun client => readHistory client bytes := by
  conv_rhs => rw [← ofBytes_toBytes id]
  rfl

theorem readHistory_encode (client : TEvmClient) (h : List TTId) (bytes : List (BitVec 8))
    (hfits : (client.history ++ h).length ≤ 256) : readHistory client (encode h ++ bytes) s =
      readHistory ⟨client.history ++ h, hfits⟩ bytes s := by
  induction h generalizing client with
  | nil =>
    simp only [List.append_nil]
    rfl
  | cons id h ih =>
    have hsplit : client.history ++ id :: h = client.history ++ [id] ++ h :=
      List.append_cons ..
    have hroom : client.history.length < 256 := by
      rw [List.length_append, List.length_cons] at hfits
      omega
    rw [encode, List.flatMap_cons, List.append_assoc, readHistory_cons, Exec.bind_of_ok
      (push_of_room hroom), ← encode, ih _ (hsplit ▸ hfits)]
    simp only [List.append_assoc, List.singleton_append]

theorem readHistory_overflow (client : TEvmClient) (h : List TTId) (bytes : List (BitVec 8))
    (hlong : 256 < (client.history ++ h).length) :
    readHistory client (encode h ++ bytes) s = .fault .history := by
  induction h generalizing client with
  | nil =>
    rw [List.append_nil] at hlong
    exact absurd client.fits (Nat.not_le.mpr hlong)
  | cons id h ih =>
    rw [encode, List.flatMap_cons, List.append_assoc, readHistory_cons]
    by_cases hroom : client.history.length < 256
    · rw [Exec.bind_of_ok (push_of_room hroom), ← encode]
      refine ih _ ?_
      rw [← List.append_cons]
      exact hlong
    · rw [Exec.bind_of_fault (push_of_full (Nat.le_of_not_lt hroom))]

end Read

def lastState (h : List TTId) : TTId := h.getLast?.getD 0

theorem getCurState_eq (client : TEvmClient) : client.getCurState = lastState client.history := by
  unfold TEvmClient.getCurState lastState
  split
  · rw [List.getLast?_eq_getElem?, List.getElem?_eq_getElem (by omega)]
    rfl
  · rename_i h
    rw [List.length_eq_zero_iff.mp (Nat.eq_zero_of_not_pos h)]
    rfl

@[simp] theorem lastState_concat (h : List TTId) (tid : TTId) : lastState (h ++ [tid]) = tid := by
  rw [lastState, List.getLast?_concat]
  rfl

/-- What `main` does with the client it has read. -/
def transact (host : Host) (client : TEvmClient) : GvmM Unit :=
  if client.getCurState = NO_TRANSACTION then leave 0
  else if client.getCurState = STATE1 then state1Process host client
  else if client.getCurState = STATE2 then state2Process host client
  else if client.getCurState = STATE3 then state3Process host client
  else leave (-1)

def testStates (host : Host) : TBaseGVM where
  numTrans := 3
  transArr := [⟨STATE1, state1Process host⟩, ⟨STATE2, state2Process host⟩,
    ⟨STATE3, state3Process host⟩]

theorem testVm1_apply : testVm1 host s = .ok (testStates host) s := rfl

theorem runTransaction_testStates (client : TEvmClient)
    (h : client.getCurState ≠ NO_TRANSACTION) : ((testStates host).runTransaction client >>=
      fun found => if !found then leave (-1) else pure ()) = transact host client := by
  unfold TBaseGVM.runTransaction transact testStates
  rw [if_neg h, if_neg h]
  simp only [List.find?_cons, List.find?_nil]
  by_cases h1 : client.getCurState = STATE1
  · simp [h1]
  by_cases h2 : client.getCurState = STATE2
  · simp [h2, STATE1, STATE2]
  by_cases h3 : client.getCurState = STATE3
  · simp [h3, STATE1, STATE2, STATE3]
  · simp [h1, h2, h3, Ne.symm h1, Ne.symm h2, Ne.symm h3]

theorem iteration_eq (hclient : newClient s = .ok client s) :
    iteration host s = transact host client s := by
  unfold iteration
  rw [Exec.bind_of_ok hclient, Exec.bind_of_ok testVm1_apply]
  by_cases hno : client.getCurState = NO_TRANSACTION
  · unfold transact
    rw [if_pos hno, if_pos hno]
  · rw [if_neg hno]
    exact congrFun (runTransaction_testStates client hno) s

def atHead (bytes : List (BitVec 8)) (storage : Vector Word 1024) (waiting : List Process)
    (status : Option Int) : System :=
  ⟨some bytes, ⟨storage, .head⟩, waiting, status⟩

theorem newClient_encode (hfile : s.file = some (encode h)) (hfits : h.length ≤ 256) :
    newClient s = .ok ⟨h, hfits⟩ s := by
  have hread := readHistory_encode ⟨[], Nat.zero_le _⟩ (s := s) h [] hfits
  rw [List.append_nil] at hread
  unfold newClient
  rw [Exec.bind_of_ok (Exec.read_apply ..), hfile]
  exact hread

theorem round_atHead (h : List TTId) (hfits : h.length ≤ 256) :
    round host (atHead (encode h) storage waiting status) =
      transact host ⟨h, hfits⟩ (atHead (encode h) storage waiting status) :=
  iteration_eq (newClient_encode rfl hfits)

theorem round_overflow (h : List TTId) (hlong : 256 < h.length) :
    round host (atHead (encode h) storage waiting status) = .fault .history := by
  have hread := readHistory_overflow ⟨[], Nat.zero_le _⟩
    (s := atHead (encode h) storage waiting status) h [] hlong
  rw [List.append_nil] at hread
  change iteration host _ = _
  unfold iteration
  exact Exec.bind_of_fault hread

theorem addNextTransaction_of_room {client : TEvmClient} (happ : host.appends = true)
    (hroom : client.history.length < 256) : ∃ client', addNextTransaction host client tid s =
      .ok client' { s with file := some (s.file.getD [] ++ toBytes tid) } := by
  unfold addNextTransaction
  rw [happ]
  exact ⟨_, push_of_room hroom⟩

theorem addNextTransaction_of_full {client : TEvmClient} (hfull : 256 ≤ client.history.length) :
    addNextTransaction host client tid s = .fault .history := by
  unfold addNextTransaction
  split
  · exact push_of_full hfull
  · exact push_of_full hfull

def counterOf (storage : Vector Word 1024) : BitVec 32 := storage[1].truncate 32

def setCounter (storage : Vector Word 1024) (counter : BitVec 32) : Vector Word 1024 :=
  storage.set 1 (counter.signExtend 64)

theorem counterOf_setCounter (storage : Vector Word 1024) (counter : BitVec 32) :
    counterOf (setCounter storage counter) = counter := by
  unfold counterOf setCounter
  rw [Vector.getElem_set_self]
  apply BitVec.eq_of_getLsbD_eq
  intro i hi
  rw [BitVec.getLsbD_setWidth, BitVec.getLsbD_signExtend]
  simp [hi, show i < 64 by omega]

theorem toInt_sub_one (counter : BitVec 32) (h : counter.toInt.toNat = n + 1) :
    (counter - 1).toInt.toNat = n := by
  have hlt := counter.isLt
  have hone : (1 : BitVec 32).toNat = 1 := rfl
  rw [BitVec.toInt_eq_toNat_cond] at h
  rw [BitVec.toInt_eq_toNat_cond, BitVec.toNat_sub, hone]
  split at h <;> split <;> omega

theorem state2Process_apply (host : Host) (client : TEvmClient) (s : System) :
    state2Process host client s = if 0 < (counterOf s.running.storage).toInt then
      runContractCode host client (counterOf s.running.storage - 1) s
    else (addNextTransaction host client STATE3 >>= fun _ =>
      sstore 1 ((counterOf s.running.storage).signExtend 64)) s := by
  have hload : sload 1 s = .ok s.running.storage[1] s := rfl
  unfold state2Process
  rw [Exec.bind_of_ok hload]
  change (if 0 < (counterOf s.running.storage).toInt then _ else _ : GvmM Unit) s = _
  split <;> rfl

section Rounds

variable {host : Host} {h g : List TTId} {storage : Vector Word 1024}

theorem round_done (hfits : h.length ≤ 256) (hlast : lastState h = NO_TRANSACTION) :
    round host (atHead (encode h) storage (parent :: waiting) status) =
      .ok () ⟨some (encode h), parent, waiting, status⟩ := by
  rw [round_atHead h hfits]
  unfold transact
  rw [getCurState_eq, if_pos hlast]
  rfl

theorem round_exit (hfits : h.length ≤ 256) (hlast : lastState h = NO_TRANSACTION) :
    round host (atHead (encode h) storage [] status) =
      .exit (atHead (encode h) storage [] (some 0)) := by
  rw [round_atHead h hfits]
  unfold transact
  rw [getCurState_eq, if_pos hlast]
  rfl

theorem append_then {next : System → System} (happ : host.appends = true) (client : TEvmClient)
    (f : TEvmClient → GvmM Unit) (hf : ∀ client s, f client s = .ok () (next s)) :
    (addNextTransaction host client tid >>= f) ⟨some (encode g), process, waiting, status⟩ =
      if client.history.length < 256 then
        .ok () (next ⟨some (encode (g ++ [tid])), process, waiting, status⟩)
      else .fault .history := by
  split
  · rename_i hroom
    obtain ⟨client', hadd⟩ := addNextTransaction_of_room happ hroom
    rw [Exec.bind_of_ok hadd, hf, encode_append, encode_singleton]
    rfl
  · rename_i hfull
    rw [Exec.bind_of_fault (addNextTransaction_of_full (Nat.le_of_not_lt hfull))]

theorem round_state1 (happ : host.appends = true) (hfits : h.length ≤ 256)
    (hlast : lastState h = STATE1) : round host (atHead (encode h) storage waiting status) =
      if h.length < 256 then
        .ok () (atHead (encode (h ++ [STATE2])) (setCounter storage 10) waiting status)
      else .fault .history := by
  rw [round_atHead h hfits]
  unfold transact
  rw [getCurState_eq, if_neg (by rw [hlast]; decide), if_pos hlast]
  exact append_then happ _ _ (fun _ _ => rfl)

theorem round_state3 (happ : host.appends = true) (hfits : h.length ≤ 256)
    (hlast : lastState h = STATE3) : round host (atHead (encode h) storage waiting status) =
      if h.length < 256 then
        .ok () (atHead (encode (h ++ [NO_TRANSACTION])) storage waiting status)
      else .fault .history := by
  rw [round_atHead h hfits]
  unfold transact
  rw [getCurState_eq, if_neg (by rw [hlast]; decide), if_neg (by rw [hlast]; decide),
    if_neg (by rw [hlast]; decide), if_pos hlast]
  exact append_then happ _ _ (fun _ _ => rfl)

theorem round_state2 (hfits : h.length ≤ 256) (hlast : lastState h = STATE2) :
    round host (atHead (encode h) storage waiting status) =
      state2Process host ⟨h, hfits⟩ (atHead (encode h) storage waiting status) := by
  rw [round_atHead h hfits]
  unfold transact
  rw [getCurState_eq, if_neg (by rw [hlast]; decide), if_neg (by rw [hlast]; decide), if_pos hlast]

theorem round_state2_end (happ : host.appends = true) (hfits : h.length ≤ 256)
    (hlast : lastState h = STATE2) (hcounter : (counterOf storage).toInt.toNat = 0) :
    round host (atHead (encode h) storage waiting status) =
      if h.length < 256 then
        .ok () (atHead (encode (h ++ [STATE3])) (setCounter storage (counterOf storage)) waiting
          status)
      else .fault .history := by
  have hpos : ¬ 0 < (counterOf storage).toInt := by omega
  rw [round_state2 hfits hlast, state2Process_apply]
  refine (if_neg hpos).trans ?_
  exact append_then happ _ _ (fun _ _ => rfl)

theorem round_state2_fork (hfits : h.length ≤ 256) (hlast : lastState h = STATE2)
    (hcounter : (counterOf storage).toInt.toNat = n + 1) :
    round host (atHead (encode h) storage waiting status) =
      .ok () ⟨some (encode h), ⟨storage, .contractDone ⟨h, hfits⟩ (counterOf storage - 1)⟩,
        if host.execs then waiting else
          ⟨storage, .contractDone ⟨h, hfits⟩ (counterOf storage - 1)⟩ :: waiting, status⟩ := by
  have hpos : 0 < (counterOf storage).toInt := by omega
  rw [round_state2 hfits hlast, state2Process_apply]
  exact if_pos hpos

theorem round_contractDone (happ : host.appends = true) (client : TEvmClient) :
    round host ⟨some (encode g), ⟨storage, .contractDone client counter⟩, waiting, status⟩ =
      if client.history.length < 256 then
        .ok () (atHead (encode (g ++ [STATE2])) (setCounter storage counter) waiting status)
      else .fault .history := by
  change state2Done host client counter _ = _
  unfold state2Done
  exact append_then happ _ _ (fun _ _ => rfl)

end Rounds

/-- The records that follow state 2 with `counter` at `n`. Without the emulator each round is made
twice, by the child and by its parent. -/
def trail (execs : Bool) : Nat → List TTId
  | 0 => [STATE3, NO_TRANSACTION]
  | n + 1 => if execs then STATE2 :: trail execs n
    else STATE2 :: trail execs n ++ STATE2 :: trail execs n

/-- The program runs into the end of `History`. -/
def Overflows (host : Host) (s : System) : Prop :=
  ∃ hist t, Exec.Run (round host) s hist t ∧ round host t = .fault .history

theorem Overflows.head (h : Overflows host t) (hrun : Exec.Run (round host) s hist t) :
    Overflows host s := by
  obtain ⟨hist', u, hrun', hfault⟩ := h
  exact ⟨_, u, hrun.trans hrun', hfault⟩

theorem Overflows.of_round (h : round host s = .fault .history) : Overflows host s :=
  ⟨[], s, .start, h⟩

/-- What a process at the head of its loop works on, besides the file. -/
structure Stage where
  storage : Vector Word 1024
  waiting : List Process

def Stage.system (stage : Stage) (h : List TTId) : System :=
  atHead (encode h) stage.storage stage.waiting none

/-- The history grows by `more` on the way from one stage to the next, or there is no room. -/
def Extends (host : Host) (h : List TTId) (a : Stage) (more : List TTId) (b : Stage) : Prop :=
  if (h ++ more).length ≤ 256 then
    ∃ hist, Exec.Run (round host) (a.system h) hist (b.system (h ++ more))
  else Overflows host (a.system h)

theorem Extends.trans (hab : Extends host h a more b)
    (hbc : (h ++ more).length ≤ 256 → Extends host (h ++ more) b more' c) :
    Extends host h a (more ++ more') c := by
  unfold Extends at hab ⊢
  by_cases hb : (h ++ more).length ≤ 256
  · have hbc := hbc hb
    unfold Extends at hbc
    rw [if_pos hb] at hab
    obtain ⟨hist, hrun⟩ := hab
    rw [List.append_assoc] at hbc
    split
    · rename_i hc
      rw [if_pos hc] at hbc
      obtain ⟨hist', hrun'⟩ := hbc
      exact ⟨_, hrun.trans hrun'⟩
    · rename_i hc
      rw [if_neg hc] at hbc
      exact hbc.head hrun
  · rw [if_neg hb] at hab
    rw [← List.append_assoc, List.length_append, if_neg (by omega)]
    exact hab

theorem Extends.of_long (hlong : 256 < h.length) : Extends host h a more b := by
  unfold Extends
  rw [List.length_append, if_neg (by omega)]
  exact .of_round (round_overflow h hlong)

theorem Extends.one (hrun : h.length ≤ 256 → if h.length < 256 then
        ∃ hist, Exec.Run (round host) (a.system h) hist (b.system (h ++ [tid]))
      else Overflows host (a.system h)) : Extends host h a [tid] b := by
  by_cases hfits : h.length ≤ 256
  · unfold Extends
    rw [List.length_append]
    exact hrun hfits
  · exact .of_long (Nat.lt_of_not_le hfits)

theorem Extends.of_round (hround : h.length ≤ 256 → round host (a.system h) =
      if h.length < 256 then .ok () (b.system (h ++ [tid])) else .fault .history) :
    Extends host h a [tid] b := by
  refine .one fun hfits => ?_
  have hround := hround hfits
  split
  · rename_i hroom
    rw [if_pos hroom] at hround
    exact ⟨_, .step .start hround⟩
  · rename_i hfull
    rw [if_neg hfull] at hround
    exact .of_round hround

section Trail

variable {host : Host} {h : List TTId} {storage : Vector Word 1024} {waiting : List Process}

theorem extends_state1 (happ : host.appends = true) (hlast : lastState h = STATE1) :
    Extends host h ⟨storage, waiting⟩ [STATE2] ⟨setCounter storage 10, waiting⟩ :=
  .of_round fun hfits => round_state1 happ hfits hlast

theorem extends_state3 (happ : host.appends = true) (hlast : lastState h = STATE3) :
    Extends host h ⟨storage, waiting⟩ [NO_TRANSACTION] ⟨storage, waiting⟩ :=
  .of_round fun hfits => round_state3 happ hfits hlast

theorem extends_state2_end (happ : host.appends = true) (hlast : lastState h = STATE2)
    (hcounter : (counterOf storage).toInt.toNat = 0) :
    Extends host h ⟨storage, waiting⟩ [STATE3]
      ⟨setCounter storage (counterOf storage), waiting⟩ :=
  .of_round fun hfits => round_state2_end happ hfits hlast hcounter

def parent (h : List TTId) (hfits : h.length ≤ 256) (storage : Vector Word 1024) : Process :=
  ⟨storage, .contractDone ⟨h, hfits⟩ (counterOf storage - 1)⟩

theorem extends_state2_fork (happ : host.appends = true) (hfits : h.length ≤ 256)
    (hlast : lastState h = STATE2) (hcounter : (counterOf storage).toInt.toNat = n + 1) :
    Extends host h ⟨storage, waiting⟩ [STATE2]
      ⟨setCounter storage (counterOf storage - 1),
        if host.execs then waiting else parent h hfits storage :: waiting⟩ := by
  refine .one fun _ => ?_
  have hfork : round host (Stage.system ⟨storage, waiting⟩ h) = _ :=
    round_state2_fork hfits hlast hcounter
  split
  · rename_i hroom
    refine ⟨_, .step (.step .start hfork) ?_⟩
    rw [round_contractDone happ, if_pos hroom]
    rfl
  · rename_i hfull
    refine ⟨_, _, .step .start hfork, ?_⟩
    rw [round_contractDone happ, if_neg hfull]

theorem extends_return (happ : host.appends = true) (hroom : h.length < 256)
    (hlast : lastState g = NO_TRANSACTION) :
    Extends host g ⟨storage', parent h hroom.le storage :: waiting⟩ [STATE2]
      ⟨setCounter storage (counterOf storage - 1), waiting⟩ := by
  refine .one fun hfits => ?_
  have hdone : round host (Stage.system ⟨storage', parent h hroom.le storage :: waiting⟩ g) = _ :=
    round_done hfits hlast
  have hagain : round host ⟨some (encode g), parent h hroom.le storage, waiting, none⟩ = _ :=
    (round_contractDone happ _).trans (if_pos hroom)
  have hrun := Exec.Run.step (.step .start hdone) hagain
  split
  · exact ⟨_, hrun⟩
  · rename_i hfull
    refine ⟨_, _, hrun, round_overflow _ ?_⟩
    rw [List.length_append]
    exact Nat.lt_of_le_of_lt (Nat.le_of_not_lt hfull) (Nat.lt_succ_self _)

theorem getLast?_trail (execs : Bool) (n : Nat) :
    (trail execs n).getLast? = some NO_TRANSACTION := by
  induction n with
  | zero => rfl
  | succ n ih =>
    cases execs with
    | true => rw [trail, if_pos rfl, List.getLast?_cons, ih]; rfl
    | false =>
      rw [trail, if_neg (by decide), List.getLast?_append, List.getLast?_cons, ih]
      rfl

theorem lastState_append_trail (h : List TTId) (execs : Bool) (n : Nat) :
    lastState (h ++ trail execs n) = NO_TRANSACTION := by
  rw [lastState, List.getLast?_append, getLast?_trail]
  rfl

/-- Everything that a process in state 2 adds, with the processes it starts. -/
theorem extends_trail (happ : host.appends = true) (hlast : lastState h = STATE2)
    (hcounter : (counterOf storage).toInt.toNat = n) : ∃ storage',
      Extends host h ⟨storage, waiting⟩ (trail host.execs n) ⟨storage', waiting⟩ := by
  induction n generalizing h storage waiting with
  | zero =>
    exact ⟨_, (extends_state2_end happ hlast hcounter).trans fun _ =>
      extends_state3 happ (lastState_concat h STATE3)⟩
  | succ n ih =>
    have hnext := toInt_sub_one (counterOf storage) hcounter
    rw [← counterOf_setCounter storage (counterOf storage - 1)] at hnext
    by_cases hfits : h.length ≤ 256
    · have hfork : Extends host h ⟨storage, waiting⟩ _ _ :=
        extends_state2_fork happ hfits hlast hcounter
      cases hexecs : host.execs with
      | true =>
        rw [hexecs] at hfork ih
        obtain ⟨storage', hrest⟩ := ih (lastState_concat h STATE2) hnext
        exact ⟨storage', hfork.trans fun _ => hrest⟩
      | false =>
        rw [hexecs] at hfork ih
        -- the child down to the end, then the parent
        obtain ⟨storage₁, hchild⟩ := ih (lastState_concat h STATE2) hnext
        obtain ⟨storage₂, hparent⟩ := ih (lastState_concat _ STATE2) hnext
        have hdone : Extends host h ⟨storage, waiting⟩ ([STATE2] ++ trail false n)
            ⟨storage₁, parent h hfits storage :: waiting⟩ := hfork.trans fun _ => hchild
        have hreturn := hdone.trans fun hlength => by
          rw [List.length_append, List.length_append] at hlength
          refine extends_return happ (show h.length < 256 by simp at hlength; omega) ?_
          rw [← List.append_assoc]
          exact lastState_append_trail ..
        refine ⟨storage₂, ?_⟩
        have hall := hreturn.trans fun _ => (by rw [← List.append_assoc]; exact hparent)
        rw [List.append_assoc] at hall
        exact hall
    · exact ⟨storage, .of_long (Nat.lt_of_not_le hfits)⟩

end Trail

theorem length_trail (execs : Bool) (n : Nat) :
    (trail execs n).length = if execs then n + 2 else 2 ^ (n + 2) - 2 := by
  induction n with
  | zero => cases execs <;> rfl
  | succ n ih =>
    cases execs with
    | true => exact congrArg (· + 1) ih
    | false =>
      have hlength : (trail false n).length = 2 ^ (n + 2) - 2 := ih
      have htwo : 2 ^ (n + 1 + 2) = 2 * 2 ^ (n + 2) := by rw [Nat.pow_succ, Nat.mul_comm]
      have hpos : 2 ≤ 2 ^ (n + 2) := Nat.le_self_pow (by omega) 2
      change (STATE2 :: trail false n ++ STATE2 :: trail false n).length = 2 ^ (n + 1 + 2) - 2
      rw [List.length_append, List.length_cons, hlength, htwo]
      omega

/-- The program returns `status` and leaves `file` behind. -/
def Ends (host : Host) (s : System) (status : Int) (file : Option (List (BitVec 8))) : Prop :=
  ∃ hist t u, Exec.Run (round host) s hist t ∧ round host t = .exit u ∧
    u.status = some status ∧ u.file = file

theorem Ends.head (h : Ends host t status file) (hrun : Exec.Run (round host) s hist t) :
    Ends host s status file := by
  obtain ⟨hist', u, v, hrun', hend⟩ := h
  exact ⟨_, u, v, hrun.trans hrun', hend⟩

/-- The records that the program adds to a history. -/
def plan (execs : Bool) (h : List TTId) (storage : Vector Word 1024) : List TTId :=
  if lastState h = STATE1 then STATE2 :: trail execs 10
  else if lastState h = STATE2 then trail execs (counterOf storage).toInt.toNat
  else if lastState h = STATE3 then [NO_TRANSACTION]
  else []

def exitStatus (h : List TTId) : Int :=
  if lastState h ∈ [STATE1, STATE2, STATE3, NO_TRANSACTION] then 0 else -1

theorem Extends.outcome (hext : Extends host h ⟨storage, []⟩ more ⟨storage', []⟩)
    (hlast : lastState (h ++ more) = NO_TRANSACTION) :
    if (h ++ more).length ≤ 256 then
      Ends host (boot (some (encode h)) storage) 0 (some (encode (h ++ more)))
    else Overflows host (boot (some (encode h)) storage) := by
  unfold Extends at hext
  split
  · rename_i hfits
    rw [if_pos hfits] at hext
    obtain ⟨hist, hrun⟩ := hext
    exact ⟨hist, _, _, hrun, round_exit hfits hlast, rfl, rfl⟩
  · rename_i hlong
    rw [if_neg hlong] at hext
    exact hext

theorem round_undefined (hfits : h.length ≤ 256)
    (hlast : lastState h ∉ [STATE1, STATE2, STATE3, NO_TRANSACTION]) :
    round host (atHead (encode h) storage [] status) =
      .exit (atHead (encode h) storage [] (some (-1))) := by
  simp only [List.mem_cons, not_or] at hlast
  obtain ⟨h1, h2, h3, h4, -⟩ := hlast
  rw [round_atHead h hfits]
  unfold transact
  rw [getCurState_eq, if_neg h4, if_neg h1, if_neg h2, if_neg h3]
  rfl

/-- The whole program, from any history: the records it adds and the status it returns, or the end
of `History` if they do not fit. Without the emulator their number doubles with every round. -/
theorem main_outcome (execs : Bool) (h : List TTId) (storage : Vector Word 1024) :
    (if (h ++ plan execs h storage).length ≤ 256 then
      Ends ⟨true, execs⟩ (boot (some (encode h)) storage) (exitStatus h)
        (some (encode (h ++ plan execs h storage)))
    else Overflows ⟨true, execs⟩ (boot (some (encode h)) storage)) ∧
    ∀ n, (trail execs n).length = if execs then n + 2 else 2 ^ (n + 2) - 2 := by
  refine ⟨?_, length_trail execs⟩
  have hhost : (⟨true, execs⟩ : Host).appends = true := rfl
  by_cases h1 : lastState h = STATE1
  · have hplan : plan execs h storage = [STATE2] ++ trail execs 10 := if_pos h1
    have hstatus : exitStatus h = 0 := if_pos (by rw [h1]; decide)
    have hten : (counterOf (setCounter storage 10)).toInt.toNat = 10 := by
      rw [counterOf_setCounter]
      rfl
    obtain ⟨storage', htrail⟩ := extends_trail hhost (lastState_concat h STATE2) hten
    rw [hplan, hstatus]
    refine ((extends_state1 hhost h1).trans fun _ => htrail).outcome ?_
    rw [← List.append_assoc]
    exact lastState_append_trail ..
  by_cases h2 : lastState h = STATE2
  · have hplan : plan execs h storage = trail execs (counterOf storage).toInt.toNat :=
      (if_neg h1).trans (if_pos h2)
    have hstatus : exitStatus h = 0 := if_pos (by rw [h2]; decide)
    obtain ⟨storage', htrail⟩ := extends_trail hhost h2 rfl
    rw [hplan, hstatus]
    exact htrail.outcome (lastState_append_trail ..)
  by_cases h3 : lastState h = STATE3
  · have hplan : plan execs h storage = [NO_TRANSACTION] :=
      (if_neg h1).trans ((if_neg h2).trans (if_pos h3))
    have hstatus : exitStatus h = 0 := if_pos (by rw [h3]; decide)
    rw [hplan, hstatus]
    exact (extends_state3 hhost h3).outcome (lastState_concat ..)
  have hplan : plan execs h storage = [] := (if_neg h1).trans ((if_neg h2).trans (if_neg h3))
  rw [hplan, List.append_nil]
  split
  · rename_i hfits
    by_cases h4 : lastState h = NO_TRANSACTION
    · have hstatus : exitStatus h = 0 := if_pos (by rw [h4]; decide)
      rw [hstatus]
      exact ⟨_, _, _, .start, round_exit hfits h4, rfl, rfl⟩
    · have hnone : lastState h ∉ [STATE1, STATE2, STATE3, NO_TRANSACTION] := by
        simp [h1, h2, h3, h4]
      rw [exitStatus, if_neg hnone]
      exact ⟨_, _, _, .start, round_undefined hfits hnone, rfl, rfl⟩
  · rename_i hlong
    exact .of_round (round_overflow h (Nat.lt_of_not_le hlong))

/-- What holds while nothing can be saved: the file stays, and every process has read it. -/
structure Unsaved (h : List TTId) (s : System) : Prop where
  file : s.file = some (encode h)
  clients : ∀ process ∈ s.running :: s.waiting, ∀ client counter,
    process.point = .contractDone client counter → client.history = h

section Unsaved

variable {host : Host} {h : List TTId} {s : System}

theorem Unsaved.congr (hs : Unsaved h s) (hfile : t.file = s.file)
    (hwaiting : t.waiting = s.waiting) (hpoint : t.running.point = .head) : Unsaved h t := by
  refine ⟨hfile.trans hs.file, fun process hmem client counter hp => ?_⟩
  rcases List.mem_cons.mp hmem with rfl | hmem
  · rw [hpoint] at hp
    cases hp
  · rw [hwaiting] at hmem
    exact hs.clients process (List.mem_cons_of_mem _ hmem) client counter hp

def Goes (h : List TTId) (r : Outcome Fault System Unit) : Prop :=
  (∃ t, r = .ok () t ∧ Unsaved h t) ∨ r = .fault .history

theorem goes_of_append {next : System → System} (happ : host.appends = false)
    (f : TEvmClient → GvmM Unit) (hf : ∀ client s, f client s = .ok () (next s))
    (hnext : Unsaved h (next s)) : Goes h ((addNextTransaction host client tid >>= f) s) := by
  have hadd : addNextTransaction host client tid = client.push tid := by
    unfold addNextTransaction
    rw [happ]
    rfl
  rw [hadd]
  by_cases hroom : client.history.length < 256
  · rw [Exec.bind_of_ok (push_of_room hroom), hf]
    exact .inl ⟨_, rfl, hnext⟩
  · exact .inr (Exec.bind_of_fault (push_of_full (Nat.le_of_not_lt hroom)))

theorem goes_state2Process (happ : host.appends = false) (hfits : h.length ≤ 256)
    (hs : Unsaved h s) (hpoint : s.running.point = .head) :
    Goes h (state2Process host ⟨h, hfits⟩ s) := by
  rw [state2Process_apply]
  split
  · refine .inl ⟨_, rfl, hs.file, fun process hmem client counter hp => ?_⟩
    have hforked : process.point = .contractDone ⟨h, hfits⟩ (counterOf s.running.storage - 1) ∨
        process ∈ s.waiting := by
      cases hexecs : host.execs with
      | true =>
        simp only [hexecs, if_true, List.mem_cons] at hmem
        rcases hmem with rfl | hmem
        · exact .inl rfl
        · exact .inr hmem
      | false =>
        simp only [hexecs, Bool.false_eq_true, if_false, List.mem_cons] at hmem
        rcases hmem with rfl | rfl | hmem
        · exact .inl rfl
        · exact .inl rfl
        · exact .inr hmem
    rcases hforked with hforked | hforked
    · rw [hforked] at hp
      cases hp
      rfl
    · exact hs.clients process (List.mem_cons_of_mem _ hforked) client counter hp
  · exact goes_of_append happ _ (fun _ _ => rfl) (hs.congr rfl rfl hpoint)

theorem Unsaved.goes (happ : host.appends = false) (hfits : h.length ≤ 256)
    (hlast : lastState h ∈ [STATE1, STATE2, STATE3]) (hs : Unsaved h s) :
    Goes h (round host s) := by
  cases hpoint : s.running.point with
  | head =>
    have hround : round host s = transact host ⟨h, hfits⟩ s := by
      unfold round
      rw [Exec.bind_of_ok (Exec.read_apply ..), hpoint]
      exact iteration_eq (newClient_encode hs.file hfits)
    rw [hround]
    unfold transact
    rw [getCurState_eq]
    simp only [List.mem_cons, List.not_mem_nil, or_false] at hlast
    rcases hlast with hlast | hlast | hlast
    · rw [if_neg (by rw [hlast]; decide), if_pos hlast]
      exact goes_of_append happ _ (fun _ _ => rfl) (hs.congr rfl rfl hpoint)
    · rw [if_neg (by rw [hlast]; decide), if_neg (by rw [hlast]; decide), if_pos hlast]
      exact goes_state2Process happ hfits hs hpoint
    · rw [if_neg (by rw [hlast]; decide), if_neg (by rw [hlast]; decide),
        if_neg (by rw [hlast]; decide), if_pos hlast]
      exact goes_of_append happ _ (fun _ _ => rfl) (hs.congr rfl rfl hpoint)
  | contractDone client counter =>
    have hround : round host s = state2Done host client counter s := by
      unfold round
      rw [Exec.bind_of_ok (Exec.read_apply ..), hpoint]
    rw [hround]
    exact goes_of_append happ _ (fun _ _ => rfl) (hs.congr rfl rfl rfl)

theorem Unsaved.run (happ : host.appends = false) (hfits : h.length ≤ 256)
    (hlast : lastState h ∈ [STATE1, STATE2, STATE3]) (hs : Unsaved h s)
    (hrun : Exec.Run (round host) s hist t) : Unsaved h t := by
  refine hrun.invariant hs fun v w hv hstep => ?_
  rcases hv.goes happ hfits hlast with ⟨w', hw', hgoes⟩ | hfault
  · rw [hw'] at hstep
    cases hstep
    exact hgoes
  · rw [hfault] at hstep
    cases hstep

def RunsOn (host : Host) (s : System) : Prop :=
  ∀ n, ∃ hist t, Exec.Run (round host) s hist t ∧ hist.length = n

theorem Unsaved.runsOn_or_overflows (happ : host.appends = false) (hfits : h.length ≤ 256)
    (hlast : lastState h ∈ [STATE1, STATE2, STATE3]) (hs : Unsaved h s) :
    RunsOn host s ∨ Overflows host s := by
  by_cases hover : Overflows host s
  · exact .inr hover
  · refine .inl fun n => Exec.Run.exists_of_forall (fun hist t hrun _ => ?_) (Nat.le_refl n)
    rcases (hs.run happ hfits hlast hrun).goes happ hfits hlast with ⟨u, hu, -⟩ | hfault
    · exact ⟨u, hu⟩
    · exact absurd ⟨hist, t, hrun, hfault⟩ hover

theorem Ends.not_runsOn_or_overflows (h : Ends host s status left) :
    ¬ (RunsOn host s ∨ Overflows host s) := by
  obtain ⟨hist, t, u, hrun, hexit, -⟩ := h
  rintro (hon | ⟨hist', t', hrun', hfault⟩)
  · obtain ⟨hist', t', hrun', hlen⟩ := hon (hist.length + 1)
    obtain ⟨v, hv⟩ := hrun'.step_of_mem (hrun'.mem_of_length_lt hrun (by omega))
    rw [hexit] at hv
    cases hv
  · have ht := hrun.last_unique hrun' (by simp [hexit]) (by simp [hfault])
    rw [← ht, hexit] at hfault
    cases hfault

end Unsaved

/-- A program whose history file cannot be written to ends exactly if it has nothing to add. Else it
goes on for ever, or into the end of `History`. -/
theorem main_unsaved_iff (execs : Bool) (h : List TTId) (storage : Vector Word 1024) :
    let host : Host := ⟨false, execs⟩
    let s := boot (some (encode h)) storage
    ((∃ status file, Ends host s status file) ↔
      h.length ≤ 256 ∧ lastState h ∉ [STATE1, STATE2, STATE3]) ∧
    (RunsOn host s ∨ Overflows host s ↔
      ¬ (h.length ≤ 256 ∧ lastState h ∉ [STATE1, STATE2, STATE3])) := by
  intro host s
  have hgoes : ¬ (h.length ≤ 256 ∧ lastState h ∉ [STATE1, STATE2, STATE3]) →
      RunsOn host s ∨ Overflows host s := by
    intro hneither
    by_cases hfits : h.length ≤ 256
    · have hlast : lastState h ∈ [STATE1, STATE2, STATE3] :=
        Classical.byContradiction fun hlast => hneither ⟨hfits, hlast⟩
      refine Unsaved.runsOn_or_overflows rfl hfits hlast ⟨rfl, ?_⟩
      rintro process hmem client counter hp
      rw [List.mem_singleton.mp hmem] at hp
      cases hp
    · exact .inr (.of_round (round_overflow h (Nat.lt_of_not_le hfits)))
  have hends : h.length ≤ 256 ∧ lastState h ∉ [STATE1, STATE2, STATE3] →
      ∃ status file, Ends host s status file := by
    rintro ⟨hfits, hlast⟩
    by_cases hno : lastState h = NO_TRANSACTION
    · exact ⟨_, _, _, _, _, .start, round_exit hfits hno, rfl, rfl⟩
    · refine ⟨_, _, _, _, _, .start, round_undefined hfits ?_, rfl, rfl⟩
      simp only [List.mem_cons, List.not_mem_nil, or_false, not_or] at hlast ⊢
      exact ⟨hlast.1, hlast.2.1, hlast.2.2, hno⟩
  refine ⟨⟨?_, hends⟩, ?_, hgoes⟩
  · rintro ⟨status, file, h⟩
    exact Classical.byContradiction fun hneither => h.not_runsOn_or_overflows (hgoes hneither)
  · intro hon hboth
    obtain ⟨status, file, h⟩ := hends hboth
    exact h.not_runsOn_or_overflows hon

end Gvm1

end GvmCore
