import GvmCore.Gvm1Runs

namespace GvmCore
open Digits
set_option autoImplicit true

namespace Gvm1

theorem toNat_ofBytes {bs : List (BitVec 8)} (h : bs.length = 4) :
    (ofBytes bs).toNat = value bs := by
  have hlt := value_lt bs
  rw [h] at hlt
  exact (BitVec.toNat_ofNat ..).trans (Nat.mod_eq_of_lt hlt)

theorem toBytes_ofBytes {bs : List (BitVec 8)} (h : bs.length = 4) : toBytes (ofBytes bs) = bs :=
  value_injective h.symm ((value_toBytes _).trans (toNat_ofBytes h))

/-- A file whose last record is incomplete. -/
def tornFile (h : List TTId) (torn : List (BitVec 8)) : List (BitVec 8) := encode h ++ torn

def misread (torn : List (BitVec 8)) (tid : TTId) : TTId :=
  ofBytes (torn ++ (toBytes tid).take (4 - torn.length))

def leftover (torn : List (BitVec 8)) (tid : TTId) : List (BitVec 8) :=
  (toBytes tid).drop (4 - torn.length)

inductive Torn : List (BitVec 8) → Prop
  | one (b₀ : BitVec 8) : Torn [b₀]
  | two (b₀ b₁ : BitVec 8) : Torn [b₀, b₁]
  | three (b₀ b₁ b₂ : BitVec 8) : Torn [b₀, b₁, b₂]

theorem Torn.append (ht : Torn torn) (h : List TTId) (tid : TTId) :
    tornFile h torn ++ toBytes tid = tornFile (h ++ [misread torn tid]) (leftover torn tid) := by
  have hlength : (torn ++ (toBytes tid).take (4 - torn.length)).length = 4 := by cases ht <;> rfl
  unfold tornFile misread leftover
  rw [encode_append, encode_singleton, toBytes_ofBytes hlength, List.append_assoc,
    List.append_assoc, List.append_assoc, List.take_append_drop]

theorem Torn.leftover (ht : Torn torn) (tid : TTId) : Torn (leftover torn tid) := by
  cases ht with
  | one => exact .one _
  | two => exact .two _ _
  | three => exact .three _ _ _

theorem Torn.newClient (ht : Torn torn) (hfile : s.file = some (tornFile h torn))
    (hroom : h.length < 256) : newClient s = .ok ⟨h, hroom.le⟩ s := by
  have hread := readHistory_encode ⟨[], Nat.zero_le _⟩ (s := s) h torn hroom.le
  unfold Gvm1.newClient
  rw [Exec.bind_of_ok (Exec.read_apply ..), hfile]
  refine hread.trans ?_
  cases ht <;> exact Exec.bind_of_ok (push_of_room hroom)

theorem Torn.toNat_misread (ht : Torn torn) (tid : TTId) : (misread torn tid).toNat =
    value torn + 2 ^ (8 * torn.length) * (tid.toNat % 2 ^ (8 * (4 - torn.length))) := by
  have hlength : (torn ++ (toBytes tid).take (4 - torn.length)).length = 4 := by cases ht <;> rfl
  have htake : 4 - torn.length ≤ (toBytes tid).length := Nat.sub_le ..
  unfold misread
  rw [toNat_ofBytes hlength, value_append, value_take _ _ htake, value_toBytes]

/-- A state that follows a torn record is read back as none of the states. -/
theorem Torn.misread_undefined (ht : Torn torn) (htid : tid = STATE2 ∨ tid = STATE3) :
    misread torn tid ∉ [STATE1, STATE2, STATE3, NO_TRANSACTION] := by
  have hbounds : 256 ≤ (misread torn tid).toNat ∧ (misread torn tid).toNat < 2 ^ 32 - 1 := by
    have hlt := value_lt torn
    have hvalue : 2 ≤ tid.toNat ∧ tid.toNat ≤ 3 := by rcases htid with rfl | rfl <;> decide
    rw [ht.toNat_misread]
    cases ht <;> simp only [List.length_cons, List.length_nil] at hlt ⊢ <;> omega
  intro hmem
  simp only [List.mem_cons, List.not_mem_nil, or_false] at hmem
  rcases hmem with hmem | hmem | hmem | hmem <;> rw [hmem] at hbounds
  · exact absurd hbounds.1 (by decide)
  · exact absurd hbounds.1 (by decide)
  · exact absurd hbounds.1 (by decide)
  · exact absurd hbounds.2 (by decide)

theorem byte_full_iff (b : BitVec 8) : b = 0xFF ↔ b.toNat = 255 := by
  rw [← BitVec.toNat_inj]
  rfl

/-- The end that follows a torn record is read back only if every torn byte is one of its own. -/
theorem Torn.misread_end (ht : Torn torn) :
    misread torn NO_TRANSACTION ∉ [STATE1, STATE2, STATE3] ∧
      (misread torn NO_TRANSACTION = NO_TRANSACTION ↔ ∀ b ∈ torn, b = 0xFF) := by
  have hvalue := ht.toNat_misread NO_TRANSACTION
  have hend : NO_TRANSACTION.toNat = 2 ^ 32 - 1 := rfl
  rw [hend] at hvalue
  constructor
  · have hbound : 256 ≤ (misread torn NO_TRANSACTION).toNat := by
      rw [hvalue]
      cases ht <;> simp only [List.length_cons, List.length_nil] <;> omega
    intro hmem
    simp only [List.mem_cons, List.not_mem_nil, or_false] at hmem
    rcases hmem with hmem | hmem | hmem <;> rw [hmem] at hbound <;> exact absurd hbound (by decide)
  · rw [← BitVec.toNat_inj, hvalue, hend]
    simp only [byte_full_iff]
    cases ht <;> simp only [value_cons, value_nil, List.length_cons, List.length_nil,
      List.mem_cons, List.not_mem_nil, or_false, forall_eq_or_imp, forall_eq] <;> omega

def atTorn (h : List TTId) (torn : List (BitVec 8)) (storage : Vector Word 1024)
    (waiting : List Process) : System :=
  atHead (tornFile h torn) storage waiting none

section TornRuns

variable {host : Host} {h : List TTId} {torn : List (BitVec 8)} {storage : Vector Word 1024}

theorem Torn.round (ht : Torn torn) (hroom : h.length < 256) :
    round host (atTorn h torn storage waiting) =
      transact host ⟨h, hroom.le⟩ (atTorn h torn storage waiting) :=
  iteration_eq (ht.newClient rfl hroom)

theorem Torn.append_then {next : System → System} (ht : Torn torn) (happ : host.appends = true)
    (client : TEvmClient) (hroom : client.history.length < 256) (f : TEvmClient → GvmM Unit)
    (hf : ∀ client s, f client s = .ok () (next s)) : (addNextTransaction host client tid >>= f)
        ⟨some (tornFile h torn), process, waiting, status⟩ =
      .ok () (next ⟨some (tornFile (h ++ [misread torn tid]) (Gvm1.leftover torn tid)), process,
        waiting, status⟩) := by
  obtain ⟨client', hadd⟩ := addNextTransaction_of_room happ hroom
  rw [Exec.bind_of_ok hadd, hf, ← ht.append]
  rfl

theorem Torn.round_leave (ht : Torn torn) (hroom : (h ++ [tid]).length < 256)
    (htid : tid ∉ [STATE1, STATE2, STATE3]) :
    Gvm1.round host (atTorn (h ++ [tid]) torn storage waiting) =
      leave (if tid = NO_TRANSACTION then 0 else -1)
        (atTorn (h ++ [tid]) torn storage waiting) := by
  simp only [List.mem_cons, List.not_mem_nil, or_false, not_or] at htid
  rw [ht.round hroom]
  unfold transact
  rw [getCurState_eq, lastState_concat]
  split
  · rfl
  · rw [if_neg htid.1, if_neg htid.2.1, if_neg htid.2.2]

theorem Torn.ends (ht : Torn torn) (hroom : (h ++ [tid]).length < 256)
    (htid : tid ∉ [STATE1, STATE2, STATE3]) : ∃ file,
      Ends host (atTorn (h ++ [tid]) torn storage []) (if tid = NO_TRANSACTION then 0 else -1)
        file :=
  ⟨_, _, _, _, .start, ht.round_leave hroom htid, rfl, rfl⟩

theorem not_mem_states_of_undefined
    (h : tid ∉ [STATE1, STATE2, STATE3, NO_TRANSACTION]) : tid ∉ [STATE1, STATE2, STATE3] ∧
      tid ≠ NO_TRANSACTION := by
  simp only [List.mem_cons, List.not_mem_nil, or_false, not_or] at h ⊢
  exact ⟨⟨h.1, h.2.1, h.2.2.1⟩, h.2.2.2⟩

theorem Torn.ends_undefined (ht : Torn torn) (hroom : h.length + 2 ≤ 256)
    (htid : tid = STATE2 ∨ tid = STATE3) : ∃ file,
      Ends host (atTorn (h ++ [misread torn tid]) (Gvm1.leftover torn tid) storage []) (-1)
        file := by
  obtain ⟨hstates, hne⟩ := not_mem_states_of_undefined (ht.misread_undefined htid)
  have hstatus : (-1 : Int) = if misread torn tid = NO_TRANSACTION then 0 else -1 :=
    (if_neg hne).symm
  rw [hstatus]
  exact (ht.leftover tid).ends (by simp; omega) hstates

theorem Torn.round_contractDone (ht : Torn torn) (happ : host.appends = true) (client : TEvmClient)
    (hroom : client.history.length < 256) :
    Gvm1.round host ⟨some (tornFile h torn), ⟨storage, .contractDone client counter⟩, waiting,
        none⟩ =
      .ok () (atTorn (h ++ [misread torn STATE2]) (Gvm1.leftover torn STATE2)
        (setCounter storage counter) waiting) := by
  change state2Done host client counter _ = _
  unfold state2Done
  exact ht.append_then happ client hroom _ (fun _ _ => rfl)

theorem Torn.ends_state2 (ht : Torn torn) (happ : host.appends = true) (hroom : h.length + 3 ≤ 256)
    (hround : Gvm1.round host (atTorn h torn storage []) =
      state2Process host ⟨h, by omega⟩ (atTorn h torn storage [])) :
    ∃ file, Ends host (atTorn h torn storage []) (-1) file := by
  have hroom' : h.length < 256 := by omega
  rw [state2Process_apply] at hround
  split at hround
  · obtain ⟨appends, execs⟩ := host
    cases execs with
    | true =>
      have hrun := Exec.Run.step (.step .start hround) (ht.round_contractDone happ _ hroom')
      obtain ⟨file, hends⟩ := ht.ends_undefined (show h.length + 2 ≤ 256 by omega) (.inl rfl)
      exact ⟨file, hends.head hrun⟩
    | false =>
      obtain ⟨hstates, -⟩ := not_mem_states_of_undefined (ht.misread_undefined (.inl rfl))
      have hchild := Exec.Run.step (.step .start hround) (ht.round_contractDone happ _ hroom')
      have hback := hchild.step ((ht.leftover STATE2).round_leave
        (show (h ++ [misread torn STATE2]).length < 256 by simp; omega) hstates)
      have hrun := hback.step ((ht.leftover STATE2).round_contractDone happ _ hroom')
      obtain ⟨file, hends⟩ := (ht.leftover STATE2).ends_undefined
        (show (h ++ [misread torn STATE2]).length + 2 ≤ 256 by simp; omega) (.inl rfl)
      exact ⟨file, hends.head hrun⟩
  · have hstep := hround.trans (ht.append_then happ _ hroom' _ (fun _ _ => rfl))
    obtain ⟨file, hends⟩ := ht.ends_undefined (show h.length + 2 ≤ 256 by omega) (.inr rfl)
    exact ⟨file, hends.head (.step .start hstep)⟩

end TornRuns

/-- A record that was written in part is never repaired: the next state is not understood, and the
program gives up. Only an end of the contract whose torn bytes are its own gets through. -/
theorem torn_record (execs : Bool) (h : List TTId) (torn : List (BitVec 8))
    (storage : Vector Word 1024) (hlast : lastState h ∈ [STATE1, STATE2, STATE3])
    (hroom : h.length + 3 ≤ 256) (ht : Torn torn) : ∃ file,
      Ends ⟨true, execs⟩ (boot (some (encode h ++ torn)) storage)
        (if lastState h = STATE3 ∧ ∀ b ∈ torn, b = 0xFF then 0 else -1) file := by
  have happ : (⟨true, execs⟩ : Host).appends = true := rfl
  have hround : round ⟨true, execs⟩ (boot (some (encode h ++ torn)) storage) = _ :=
    ht.round (show h.length < 256 by omega)
  unfold transact at hround
  rw [getCurState_eq] at hround
  simp only [List.mem_cons, List.not_mem_nil, or_false] at hlast
  rcases hlast with hlast | hlast | hlast
  · rw [if_neg (by rw [hlast]; decide), if_pos hlast] at hround
    have hstep := hround.trans (ht.append_then happ _ (show h.length < 256 by omega) _
      (fun _ _ => rfl))
    rw [if_neg (by rw [hlast]; exact fun h => absurd h.1 (by decide))]
    obtain ⟨file, hends⟩ := ht.ends_undefined (show h.length + 2 ≤ 256 by omega) (.inl rfl)
    exact ⟨file, hends.head (.step .start hstep)⟩
  · rw [if_neg (by rw [hlast]; decide), if_neg (by rw [hlast]; decide), if_pos hlast] at hround
    rw [if_neg (by rw [hlast]; exact fun h => absurd h.1 (by decide))]
    exact ht.ends_state2 happ (by omega) hround
  · rw [if_neg (by rw [hlast]; decide), if_neg (by rw [hlast]; decide),
      if_neg (by rw [hlast]; decide), if_pos hlast] at hround
    have hstep := hround.trans (ht.append_then happ _ (show h.length < 256 by omega) _
      (fun _ _ => rfl))
    obtain ⟨hstates, hend⟩ := ht.misread_end
    obtain ⟨file, hends⟩ := (ht.leftover NO_TRANSACTION).ends
      (show (h ++ [misread torn NO_TRANSACTION]).length < 256 by simp; omega) hstates
    simp only [hend] at hends
    simp only [hlast, true_and]
    exact ⟨file, hends.head (.step .start hstep)⟩

theorem torn_record_state1 : Torn [7] ∧ ∃ file,
    Ends ⟨true, false⟩ (boot (some (encode [STATE1] ++ [7])) (Vector.replicate 1024 0))
      (if lastState [STATE1] = STATE3 ∧ ∀ b ∈ [(7 : BitVec 8)], b = 0xFF then 0 else -1) file :=
  ⟨.one 7, torn_record false [STATE1] [7] (Vector.replicate 1024 0) (by decide) (by decide)
    (.one 7)⟩

end Gvm1

end GvmCore
