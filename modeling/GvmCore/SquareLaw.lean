import GvmCore.BignumPower
import GvmCore.BignumProduct
import Mathlib.Data.Nat.Bitwise
import Mathlib.Tactic.Ring

namespace GvmCore
open Exec Digits
set_option autoImplicit true

namespace VBignum

theorem doubled_digit {p e : Nat} (hp : p < 2 ^ 32) (he : e < 2 ^ 32) (ht : 2 * p + e < 2 ^ 33) :
    let ouv := p * 2 % 2 ^ 32
    let uv := (ouv + e % 2 ^ 32) % 2 ^ 32
    let high := (if p &&& 0x80000000 ≠ 0 then 1 else 0) ||| (if uv < ouv then 1 else 0)
    uv &&& 0xFFFF = (2 * p + e) % base ∧ uv >>> 16 ||| high <<< 16 = (2 * p + e) / base := by
  have hbit : p &&& 0x80000000 ≠ 0 ↔ 2 ^ 31 ≤ p := by
    have hand : p &&& 0x80000000 = (p.testBit 31).toNat * 2 ^ 31 := Nat.and_two_pow p 31
    rw [hand, Nat.testBit_eq_decide_div_mod_eq]
    by_cases h : p / 2 ^ 31 % 2 = 1
    · simp only [h, decide_true, Bool.toNat_true]
      omega
    · simp only [h, decide_false, Bool.toNat_false]
      omega
  intro ouv uv high
  have hhigh : high = (2 * p + e) / 2 ^ 32 := by
    -- the product and the sum never both pass 32 bits
    by_cases h1 : 2 ^ 31 ≤ p
    · have h2 : ¬ uv < ouv := by omega
      simp only [high, if_pos (hbit.mpr h1), if_neg h2, Nat.or_zero]
      omega
    · by_cases h2 : uv < ouv
      · simp only [high, if_neg (mt hbit.mp h1), if_pos h2, Nat.zero_or]
        omega
      · simp only [high, if_neg (mt hbit.mp h1), if_neg h2, Nat.or_zero]
        omega
  have huv : uv = (2 * p + e) % 2 ^ 32 := by omega
  refine ⟨?_, ?_⟩
  · have hlow : uv &&& 0xFFFF = uv % 2 ^ 16 := Nat.and_two_pow_sub_one_eq_mod _ 16
    rw [hlow, huv, base]
    omega
  · have hshift : uv >>> 16 < 2 ^ 16 := by
      rw [Nat.shiftRight_eq_div_pow]
      omega
    rw [Nat.or_comm, ← Nat.shiftLeft_add_eq_or_of_lt hshift, Nat.shiftLeft_eq,
      Nat.shiftRight_eq_div_pow, hhigh, huv, base]
    omega

theorem squareRow_cons (x : VBigDig) (hd : d < base) (hw : e < 2 * base) (hc : c < 2 * base)
    (ht : e + 2 * (x.toNat * d) + c < 2 * base ^ 2) :
    squareRow d (x :: xs) (e :: ws) c =
      ((e + 2 * (x.toNat * d) + c) % base ::
          (squareRow d xs ws ((e + 2 * (x.toNat * d) + c) / base)).1,
        (squareRow d xs ws ((e + 2 * (x.toNat * d) + c) / base)).2) := by
  have hp : x.toNat * d < 2 ^ 32 := by
    have : x.toNat * d < base * base := Nat.mul_lt_mul'' x.isLt hd
    exact this
  have hsum : 2 * (x.toNat * d) + (e + c) = e + 2 * (x.toNat * d) + c := by omega
  obtain ⟨hlow, hhigh⟩ := doubled_digit hp (e := e + c) (by unfold base at *; omega) (by
    rw [hsum]
    exact ht)
  rw [hsum] at hlow hhigh
  simp only [squareRow]
  rw [hlow, hhigh]

theorem mem_dropLast_cons {l : List α} (h : b ∈ l.dropLast) : b ∈ (a :: l).dropLast := by
  cases l with
  | nil => cases h
  | cons c l => exact List.mem_cons_of_mem a h

/-- A row adds twice the product with one digit. Only the topmost digit under it may be a double
one; that the carry at its end is at most double follows from the size of the whole sum. -/
theorem squareRow_spec (rest : List Nat) {xs : VBig} {ws : List Nat} (hl : ws.length = xs.length)
    (hd : d < base) (hc : c < 2 * base) (hw : ∀ e ∈ ws, e < 2 * base)
    (hlow : ∀ e ∈ ws.dropLast, e < base)
    (hsum : Nat.ofDigits base ws + 2 * (d * value xs) + c < 2 * base ^ (xs.length + 1)) :
    ∃ row last, squareRow d xs (ws ++ rest) c = (row ++ rest, last) ∧ row.length = xs.length ∧
      (∀ e ∈ row, e < base) ∧ last < 2 * base ∧
      Nat.ofDigits base row + base ^ xs.length * last =
        Nat.ofDigits base ws + 2 * (d * value xs) + c := by
  induction xs generalizing ws c with
  | nil =>
    obtain rfl : ws = [] := List.eq_nil_of_length_eq_zero hl
    refine ⟨[], c, ?_, rfl, by simp, hc, by simp⟩
    simp [squareRow]
  | cons x xs ih =>
    obtain ⟨e, ws, rfl⟩ := List.exists_cons_of_length_eq_add_one hl
    have hl : ws.length = xs.length := by simpa using hl
    have he : e < 2 * base := hw e List.mem_cons_self
    rw [Nat.ofDigits_cons, value_cons, List.length_cons] at hsum
    have hbase : 2 ^ 16 = base := rfl
    rw [hbase] at hsum
    have hxd : x.toNat * d ≤ (base - 1) * (base - 1) :=
      Nat.mul_le_mul (Nat.le_sub_one_of_lt x.isLt) (Nat.le_sub_one_of_lt hd)
    have ht : e + 2 * (x.toNat * d) + c < 2 * base ^ 2 := by
      cases ws with
      | nil =>
        obtain rfl : xs = [] := List.eq_nil_of_length_eq_zero hl.symm
        simp only [Nat.ofDigits_nil, value_nil, Nat.mul_zero, Nat.add_zero, List.length_nil] at hsum
        rw [Nat.mul_comm x.toNat d]
        exact hsum
      | cons e' ws =>
        have he : e < base := hlow e (by simp)
        unfold base at *
        omega
    have hcarry : (e + 2 * (x.toNat * d) + c) / base < 2 * base := by
      rw [Nat.div_lt_iff_lt_mul (by decide)]
      rw [Nat.mul_assoc, ← pow_two]
      exact ht
    have hsplit := Nat.mod_add_div (e + 2 * (x.toNat * d) + c) base
    have hrest : Nat.ofDigits base ws + 2 * (d * value xs) + (e + 2 * (x.toNat * d) + c) / base <
        2 * base ^ (xs.length + 1) := by
      refine Nat.lt_of_mul_lt_mul_left (a := base) ?_
      have hpow : base * (2 * base ^ (xs.length + 1)) = 2 * base ^ (xs.length + 1 + 1) := by ring
      rw [hpow]
      refine lt_of_le_of_lt ?_ hsum
      have hcut : base * ((e + 2 * (x.toNat * d) + c) / base) ≤ e + 2 * (x.toNat * d) + c :=
        Nat.mul_div_le _ _
      generalize (e + 2 * (x.toNat * d) + c) / base = q at hcut
      calc base * (Nat.ofDigits base ws + 2 * (d * value xs) + q)
        _ = base * Nat.ofDigits base ws + 2 * (d * (base * value xs)) + base * q := by ring
        _ ≤ base * Nat.ofDigits base ws + 2 * (d * (base * value xs)) +
            (e + 2 * (x.toNat * d) + c) := Nat.add_le_add_left hcut _
        _ = e + base * Nat.ofDigits base ws + 2 * (d * (x.toNat + base * value xs)) + c := by ring
    obtain ⟨row, last, hrow, hlen, hdigits, hlast, htotal⟩ := ih hl hcarry
      (fun f hf => hw f (List.mem_cons_of_mem e hf)) (fun f hf => hlow f (mem_dropLast_cons hf))
      hrest
    refine ⟨(e + 2 * (x.toNat * d) + c) % base :: row, last, ?_, by simp [hlen], ?_, hlast, ?_⟩
    · rw [List.cons_append, squareRow_cons x hd he hc ht, hrow]
      rfl
    · intro f hf
      rcases List.mem_cons.mp hf with rfl | hf
      · exact Nat.mod_lt _ (by decide)
      · exact hdigits f hf
    · rw [Nat.ofDigits_cons, Nat.ofDigits_cons, value_cons, List.length_cons, pow_succ, hbase]
      zify at htotal hsplit ⊢
      linear_combination (base : Int) * htotal + hsplit

theorem row_total_lt {x Y v : Nat} (hx : x < base) (hv : v ≤ 2 * (x + base * Y)) :
    v + x * x + 2 * (x * (base * Y)) < base * base * (2 * Y + 1) := by
  have hx1 : x + 1 ≤ base := hx
  have hsquare : (x + 1) * (x + 1) ≤ base * base := Nat.mul_le_mul hx1 hx1
  have hcross : (x + 1) * (base * Y) ≤ base * (base * Y) := Nat.mul_le_mul_right _ hx1
  calc v + x * x + 2 * (x * (base * Y))
    _ ≤ 2 * (x + base * Y) + x * x + 2 * (x * (base * Y)) := by gcongr
    _ < (x + 1) * (x + 1) + 2 * ((x + 1) * (base * Y)) := by linarith
    _ ≤ base * base + 2 * (base * (base * Y)) := by gcongr
    _ = base * base * (2 * Y + 1) := by ring

theorem squareRows_cons {xs : VBig} {pre ws row : List Nat} (hpre : pre.length = 2 * i)
    (ht : i + (xs.length + 1) = t) (hlen : row.length = xs.length)
    (hsq : e + x.toNat * x.toNat < base * base)
    (hrow : squareRow x.toNat xs (ws ++ List.replicate (xs.length + 1) 0)
      ((e + x.toNat * x.toNat) / base) = (row ++ List.replicate (xs.length + 1) 0, last)) :
    squareRows t (x :: xs) i (pre ++ (e :: ws ++ List.replicate (xs.length + 1) 0)) =
      squareRows t xs (i + 1) (pre ++ (e + x.toNat * x.toNat) % base ::
        (row ++ last :: List.replicate xs.length 0)) := by
  have hfirst : (pre ++ (e :: ws ++ List.replicate (xs.length + 1) 0)).getD (2 * i) 0 = e := by
    simp [← hpre]
  have hdrop : (pre ++ (e :: ws ++ List.replicate (xs.length + 1) 0)).drop (2 * i + 1) =
      ws ++ List.replicate (xs.length + 1) 0 := by
    rw [← hpre, List.drop_length_add_append]
    rfl
  have htake : (pre ++ (e :: ws ++ List.replicate (xs.length + 1) 0)).take (2 * i) = pre :=
    List.take_left' hpre
  have huv : (e + x.toNat * x.toNat) % 2 ^ 32 = e + x.toNat * x.toNat := Nat.mod_eq_of_lt hsq
  have hlow : (e + x.toNat * x.toNat) &&& 0xFFFF = (e + x.toNat * x.toNat) % base :=
    Nat.and_two_pow_sub_one_eq_mod _ 16
  have hhigh : (e + x.toNat * x.toNat) >>> 16 = (e + x.toNat * x.toNat) / base :=
    Nat.shiftRight_eq_div_pow _ 16
  have hset : (pre ++ (e + x.toNat * x.toNat) % base ::
      (row ++ List.replicate (xs.length + 1) 0)).set (i + t) last =
        pre ++ (e + x.toNat * x.toNat) % base :: (row ++ last :: List.replicate xs.length 0) := by
    have hat : i + t = pre.length + (row.length + 1) := by omega
    rw [hat, List.set_append_right _ _ (by omega), Nat.add_sub_cancel_left, List.set_cons_succ,
      List.set_append_right _ _ (by omega), Nat.sub_self, List.replicate_succ, List.set_cons_zero]
  rw [squareRows, hfirst, hdrop, htake, huv, hlow, hhigh, hrow, ← hset]

/-- What the finished rows leave in `w` for the digits `xs` that still have a row: at most twice the
number, and only the topmost digit may be a double one. -/
structure Pending (xs : VBig) (ws : List Nat) : Prop where
  length : ws.length = xs.length
  double : ∀ e ∈ ws, e < 2 * base
  single : ∀ e ∈ ws.dropLast, e < base
  bound : Nat.ofDigits base ws ≤ 2 * value xs

namespace Pending

variable {x : VBigDig} {xs : VBig} {e : Nat} {ws : List Nat}

theorem tail_length (h : Pending (x :: xs) (e :: ws)) : ws.length = xs.length := by
  simpa using h.length

theorem total_lt (h : Pending (x :: xs) (e :: ws)) :
    e + base * Nat.ofDigits base ws + x.toNat * x.toNat + 2 * (x.toNat * (base * value xs)) <
      base * base * (2 * value xs + 1) := by
  have hbound := h.bound
  rw [Nat.ofDigits_cons] at hbound
  exact row_total_lt x.isLt hbound

theorem square_lt (h : Pending (x :: xs) (e :: ws)) : e + x.toNat * x.toNat < base * base := by
  cases ws with
  | nil =>
    obtain rfl : xs = [] := List.eq_nil_of_length_eq_zero h.tail_length.symm
    simpa using h.total_lt
  | cons e' ws =>
    have he : e < base := h.single e (by simp)
    have hx : x.toNat * x.toNat ≤ (base - 1) * (base - 1) :=
      Nat.mul_le_mul (Nat.le_sub_one_of_lt x.isLt) (Nat.le_sub_one_of_lt x.isLt)
    unfold base at *
    omega

theorem rest_lt (h : Pending (x :: xs) (e :: ws)) :
    Nat.ofDigits base ws + 2 * (x.toNat * value xs) + (e + x.toNat * x.toNat) / base <
      2 * base ^ (xs.length + 1) := by
  have hY : value xs < base ^ xs.length := by
    rw [base_pow]
    exact value_lt xs
  have hcut : base * ((e + x.toNat * x.toNat) / base) ≤ e + x.toNat * x.toNat := Nat.mul_div_le _ _
  generalize (e + x.toNat * x.toNat) / base = q at hcut
  refine Nat.lt_of_mul_lt_mul_left (a := base) ?_
  calc base * (Nat.ofDigits base ws + 2 * (x.toNat * value xs) + q)
    _ ≤ e + base * Nat.ofDigits base ws + x.toNat * x.toNat +
        2 * (x.toNat * (base * value xs)) := by linarith
    _ < base * base * (2 * value xs + 1) := h.total_lt
    _ ≤ base * base * (2 * base ^ xs.length) := Nat.mul_le_mul_left _ (by omega)
    _ = base * (2 * base ^ (xs.length + 1)) := by ring

/-- One row finishes two digits and leaves the others pending. -/
theorem squareRows_step (h : Pending (x :: xs) (e :: ws)) {pre : List Nat}
    (hpre : pre.length = 2 * i) (ht : i + (xs.length + 1) = t) :
    ∃ low f ws', low < base ∧ f < base ∧ Pending xs ws' ∧
      low + base * (f + base * Nat.ofDigits base ws') = e + base * Nat.ofDigits base ws +
        x.toNat * x.toNat + 2 * (x.toNat * (base * value xs)) ∧
      squareRows t (x :: xs) i (pre ++ (e :: ws ++ List.replicate (xs.length + 1) 0)) =
        squareRows t xs (i + 1) ((pre ++ [low, f]) ++ (ws' ++ List.replicate xs.length 0)) := by
  have hsplit := Nat.mod_add_div (e + x.toNat * x.toNat) base
  have hcarry : (e + x.toNat * x.toNat) / base < base := Nat.div_lt_of_lt_mul h.square_lt
  obtain ⟨row, last, hrow, hlen, hdigits, hlast, hrowsum⟩ :=
    squareRow_spec (List.replicate (xs.length + 1) 0) h.tail_length x.isLt
      (hcarry.trans (by decide)) (fun f hf => h.double f (List.mem_cons_of_mem e hf))
      (fun f hf => h.single f (mem_dropLast_cons hf)) h.rest_lt
  -- the lowest digit of the row with its carry is finished, the others are pending
  obtain ⟨f, ws', hfull⟩ : ∃ f ws', row ++ [last] = f :: ws' := List.exists_cons_of_ne_nil (by simp)
  have hnumber : (e + x.toNat * x.toNat) % base + base * (f + base * Nat.ofDigits base ws') =
      e + base * Nat.ofDigits base ws + x.toNat * x.toNat + 2 * (x.toNat * (base * value xs)) := by
    have hone : Nat.ofDigits base (row ++ [last]) = Nat.ofDigits base (f :: ws') := by rw [hfull]
    rw [Nat.ofDigits_append, Nat.ofDigits_singleton, Nat.ofDigits_cons, hlen] at hone
    rw [← hone]
    zify at hrowsum hsplit ⊢
    linear_combination (base : Int) * hrowsum + hsplit
  refine ⟨(e + x.toNat * x.toNat) % base, f, ws', Nat.mod_lt _ (by decide), ?_, ⟨?_, ?_, ?_, ?_⟩,
    hnumber, ?_⟩
  · cases row with
    | nil =>
      obtain rfl : xs = [] := List.eq_nil_of_length_eq_zero hlen.symm
      obtain ⟨rfl, -⟩ : last = f ∧ [] = ws' := by simpa using hfull
      obtain rfl : ws = [] := List.eq_nil_of_length_eq_zero h.tail_length
      simp only [Nat.ofDigits_nil, List.length_nil, pow_zero, Nat.one_mul, value_nil, Nat.mul_zero,
        Nat.zero_add] at hrowsum
      exact hrowsum.trans_lt hcarry
    | cons r row =>
      obtain ⟨rfl, -⟩ : r = f ∧ row ++ [last] = ws' := by simpa using hfull
      exact hdigits r List.mem_cons_self
  · have hlengths := congrArg List.length hfull
    simp only [List.length_append, List.length_cons, List.length_nil] at hlengths
    omega
  · intro g hg
    have hg : g ∈ row ++ [last] := hfull ▸ List.mem_cons_of_mem f hg
    rcases List.mem_append.mp hg with hg | hg
    · exact (hdigits g hg).trans (by decide)
    · rw [List.mem_singleton.mp hg]
      exact hlast
  · intro g hg
    have hg : g ∈ (row ++ [last]).dropLast := hfull ▸ mem_dropLast_cons hg
    rw [List.dropLast_concat] at hg
    exact hdigits g hg
  · refine Nat.le_of_lt_succ (Nat.lt_of_mul_lt_mul_left (a := base * base) ?_)
    refine lt_of_le_of_lt ?_ h.total_lt
    rw [← hnumber, Nat.mul_assoc]
    exact (Nat.mul_le_mul_left _ (Nat.le_add_left _ f)).trans (Nat.le_add_left _ _)
  · have hlist : row ++ last :: List.replicate xs.length 0 =
        f :: (ws' ++ List.replicate xs.length 0) := by
      rw [List.append_cons, hfull]
      rfl
    rw [squareRows_cons hpre ht hlen h.square_lt hrow, hlist, List.append_assoc]
    rfl

end Pending

theorem squareRows_spec (xs : VBig) {pre ws : List Nat} (hpre : pre.length = 2 * i)
    (ht : i + xs.length = t) (h : Pending xs ws) :
    ∃ out, squareRows t xs i (pre ++ (ws ++ List.replicate xs.length 0)) = pre ++ out ∧
      out.length = 2 * xs.length ∧ (∀ e ∈ out, e < base) ∧
      Nat.ofDigits base out = Nat.ofDigits base ws + value xs * value xs := by
  induction xs generalizing i pre ws with
  | nil =>
    obtain rfl : ws = [] := List.eq_nil_of_length_eq_zero h.length
    exact ⟨[], by simp [squareRows], rfl, by simp, by simp⟩
  | cons x xs ih =>
    obtain ⟨e, ws, rfl⟩ := List.exists_cons_of_length_eq_add_one h.length
    obtain ⟨low, f, ws', hlow, hf, hpending, hnumber, hstep⟩ := h.squareRows_step hpre ht
    have hpre' : (pre ++ [low, f]).length = 2 * (i + 1) := by
      rw [List.length_append, hpre]
      rfl
    obtain ⟨out, hout, hlen, hdigits, hsquare⟩ := ih hpre'
      (by rw [← ht, List.length_cons]; omega) hpending
    refine ⟨low :: f :: out, ?_, ?_, ?_, ?_⟩
    · rw [List.length_cons, hstep, hout, List.append_assoc]
      rfl
    · rw [List.length_cons, List.length_cons, hlen, List.length_cons]
      omega
    · intro g hg
      rcases List.mem_cons.mp hg with rfl | hg
      · exact hlow
      · rcases List.mem_cons.mp hg with rfl | hg
        · exact hf
        · exact hdigits g hg
    · have hvalue : value (x :: xs) = x.toNat + base * value xs := rfl
      rw [Nat.ofDigits_cons, Nat.ofDigits_cons, Nat.ofDigits_cons, hsquare, hvalue]
      zify at hnumber ⊢
      linear_combination hnumber

theorem value_squareDigits (x : VBig) (ht : 2 * t ≤ x.length) :
    value (squareDigits x t) = value (x.take t) * value (x.take t) ∧
      (squareDigits x t).length = x.length := by
  have hlen : (x.take t).length = t := List.length_take_of_le (by omega)
  have hzero : ∀ e ∈ List.replicate t 0, e = 0 := fun e he => List.eq_of_mem_replicate he
  have hstart : Pending (x.take t) (List.replicate t 0) :=
    ⟨by rw [List.length_replicate, hlen], fun e he => by rw [hzero e he]; decide,
      fun e he => by rw [hzero e (List.mem_of_mem_dropLast he)]; decide,
      by rw [Nat.ofDigits_replicate_zero]; exact Nat.zero_le _⟩
  have hpre : ([] : List Nat).length = 2 * 0 := rfl
  obtain ⟨out, hout, houtlen, hdigits, hsquare⟩ := squareRows_spec (x.take t) hpre
    (by rw [Nat.zero_add, hlen]) hstart
  rw [hlen, List.replicate_append_replicate, ← Nat.two_mul, List.nil_append,
    List.nil_append] at hout
  rw [squareDigits, hout]
  constructor
  · have hhigh : value (List.replicate (x.length - 2 * t) (0 : VBigDig)) = 0 :=
      value_replicate_zero _
    rw [value_append, hhigh, value_map_ofNat hdigits, hsquare, Nat.ofDigits_replicate_zero,
      Nat.mul_zero, Nat.add_zero, Nat.zero_add]
  · rw [List.length_append, List.length_map, houtlen, hlen, List.length_replicate]
    omega

theorem usedBelow_le (x : VBig) (n : Nat) : usedBelow x n ≤ n := by
  induction n with
  | zero => exact Nat.le_refl 0
  | succ n ih =>
    unfold usedBelow
    split
    · exact Nat.le_refl _
    · exact ih.trans (Nat.le_succ n)

theorem usedBelow_le_iff (x : VBig) (n : Nat) :
    usedBelow x n ≤ k ↔ value (x.take n) < 2 ^ (16 * k) := by
  rw [← value_take_usedBelow]
  constructor
  · intro h
    exact (value_take_lt _ _).trans_le (Nat.pow_le_pow_right (by decide) (by omega))
  · intro h
    rcases usedBelow_digit x n with h0 | ⟨j, hj, hdigit⟩
    · omega
    · rw [hj] at h ⊢
      have hlt := (Nat.pow_lt_pow_iff_right (by decide)).mp (hdigit.trans_lt h)
      omega

end VBignum

open VBignum

theorem bignumSquareHalf_eq {x : VBig} (hx : 2 ≤ x.length)
    (hk : usedBelow x (x.length / 2) ≤ 128) (s : Core w c) :
    bignumSquareHalf x s = .ok (squareDigits x (usedBelow x (x.length / 2))) s := by
  unfold bignumSquareHalf
  rw [if_neg (by omega), if_neg (by omega)]
  rfl

/-- `v_bignum_square_half` squares the low half of a number exactly if the square fits its local
array of 256 digits. A number of one digit, which has no low half, is left as it is. -/
theorem square_half_iff (x : VBig) (s : Core w c) :
    (∃ r, bignumSquareHalf x s = .ok r s ∧ r.length = x.length ∧
      value r = value (x.take (x.length / 2)) * value (x.take (x.length / 2))) ↔
    (x.length < 2 → value x = 0) ∧ value (x.take (x.length / 2)) < 2 ^ (16 * 128) := by
  by_cases hx : x.length < 2
  · have hzero : x.length / 2 = 0 := by omega
    have hsame : bignumSquareHalf x s = .ok x s := by
      rw [bignumSquareHalf, if_pos hzero]
      rfl
    rw [hsame, hzero, List.take_zero, value_nil]
    constructor
    · rintro ⟨r, hr, -, hvalue⟩
      cases hr
      exact ⟨fun _ => hvalue, by positivity⟩
    · rintro ⟨h0, -⟩
      exact ⟨x, rfl, rfl, h0 hx⟩
  · rw [← usedBelow_le_iff]
    constructor
    · rintro ⟨r, hr, -⟩
      refine ⟨fun h => absurd h hx, ?_⟩
      by_contra hlt
      rw [bignumSquareHalf, if_neg (by omega)] at hr
      rw [if_pos (by omega)] at hr
      cases hr
    · rintro ⟨-, hk⟩
      have hle := usedBelow_le x (x.length / 2)
      obtain ⟨hvalue, hlen⟩ := value_squareDigits x (t := usedBelow x (x.length / 2)) (by omega)
      exact ⟨_, bignumSquareHalf_eq (by omega) hk s, hlen, by rw [hvalue, value_take_usedBelow]⟩

end GvmCore
