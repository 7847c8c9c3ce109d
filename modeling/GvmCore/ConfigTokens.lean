import Mathlib.Data.List.TakeWhile
import GvmCore.Exec

namespace GvmCore
open Exec
set_option autoImplicit true

def maxNameSize : Nat := 512

inductive TokType where
  | name | intval | rfb | lfb | coma | eoexp | dpnt | asg | eof
  deriving DecidableEq

structure Symb where
  bytes : List Char
  size : bytes.length = maxNameSize

def Symb.put (s : Symb) (first : List Char) (h : first.length ≤ maxNameSize) : Symb where
  bytes := first ++ s.bytes.drop first.length
  size := by
    rw [List.length_append, List.length_drop, s.size]
    omega

def Symb.text (s : Symb) : List Char := s.bytes.takeWhile (· ≠ '\x00')

/-- `tToken`; `val` holds the bytes of `Val` and `DVal`. -/
structure Token where
  tok : TokType
  symb : Symb
  val : BitVec 64
  isFloatVal : Bool
  line : Nat

/-- What the parser's own code does outside the language. -/
inductive CfgFault where
  /-- `while(IsDigit(*str));` has begun at a digit. -/
  | endless
  /-- More bytes are written than `Symb` has. -/
  | symb
  /-- `vsprintf` gets wrong arguments, or writes more bytes than `msg_buf` has. -/
  | message
  /-- A memory set behind the last one. -/
  | memSets
  /-- A memory bank behind the last one. -/
  | banks
  deriving DecidableEq

/-- The part of `tParseCfg` that `GetToken` works on, with the token it fills; behind the last
character of `mStream` is the terminating zero. -/
structure Lexer where
  mStream : List Char
  mCurPos : Nat
  mCurLine : Nat
  tok : Token

abbrev LexM := Exec CfgFault Lexer

namespace Lexer

section Characters

def inTextRange (val sp ep : Char) : Bool := sp ≤ val && val ≤ ep

def isDigit (val : Char) : Bool := inTextRange val '0' '9'

def isFirstSymb (val : Char) : Bool :=
  inTextRange val 'a' 'z' || inTextRange val 'A' 'Z' || val = '_'

def isSymb (val : Char) : Bool := isDigit val || isFirstSymb val || val = '_'

def separators : List Char := ['\r', '\n', ' ', '\t']

def quote : Char := '\x22'

def isHexPrefix (val : List Char) : Bool := val.take 2 = ['0', 'x']

def isHexDigit (val : Char) : Bool :=
  isDigit val || inTextRange val 'A' 'F' || inTextRange val 'a' 'f'

def hexDigit (c : Char) : BitVec 64 :=
  if isDigit c then BitVec.ofNat 64 c.toNat - 0x30
  else if inTextRange c 'A' 'F' then BitVec.ofNat 64 c.toNat - BitVec.ofNat 64 'A'.toNat + 0xA
  else BitVec.ofNat 64 c.toNat - BitVec.ofNat 64 'a'.toNat + 0xA

def getHex (str : List Char) : BitVec 64 × List Char :=
  let digits := str.takeWhile isHexDigit
  (digits.foldl (fun val c => (val <<< 4) + hexDigit c) 0, digits)

/-- The bytes of the `double` with the digit `d` behind its point. -/
def decimalBits (val : BitVec 64) (d : Char) : BitVec 64 :=
  let fval := (UInt64.ofBitVec val).toFloat
  (fval + Float.ofNat (d.toNat - '0'.toNat) * 0.1).toBits.toBitVec

/-- `GetDig`: the value, the characters that it is read from and `is_float`. -/
def getDig (str : List Char) : Option (BitVec 64 × List Char × Bool) :=
  let digits := str.takeWhile isDigit
  let val := digits.foldl (fun val c => val * 10 + BitVec.ofNat 64 (c.toNat - '0'.toNat)) 0
  let point := str.dropWhile isDigit
  if point.headD '\x00' = '.' then
    if isDigit (point.tail.headD '\x00') then
      -- the body of the loop stands before its `while` and is run once
      if isDigit (point.tail.tail.headD '\x00') then none
      else some (decimalBits val (point.tail.headD '\x00'), digits ++ point.take 2, true)
    else some (val, digits, true)
  else some (val, digits, false)

end Characters

def rest (l : Lexer) : List Char := l.mStream.drop l.mCurPos

def char (l : Lexer) : Char := l.rest.headD '\x00'

def skip (n : Nat) (l : Lexer) : Lexer := { l with mCurPos := l.mCurPos + n }

def missSeparators (l : Lexer) : Lexer :=
  let blanks := l.rest.takeWhile (· ∈ separators)
  { l.skip blanks.length with mCurLine := l.mCurLine + blanks.count '\n' }

/-- The `'/'` case: one slash is enough for a comment, up to the end of its line. -/
def missComment (l : Lexer) : Lexer :=
  l.skip (l.rest.takeWhile fun c => c ≠ '\n' ∧ c ≠ '\x00').length

theorem rest_skip (n : Nat) (l : Lexer) : (l.skip n).rest = l.rest.drop n := by
  rw [rest, rest, List.drop_drop]
  rfl

theorem rest_missSeparators (l : Lexer) :
    l.missSeparators.rest = l.rest.drop (l.rest.takeWhile (· ∈ separators)).length :=
  rest_skip _ l

theorem eq_cons_of_headD (h : str.headD '\x00' ≠ '\x00') : str = str.headD '\x00' :: str.tail := by
  cases str with
  | nil => exact absurd rfl h
  | cons c cs => rfl

theorem length_rest_missComment {l : Lexer} (h : l.char = '/') :
    l.missComment.rest.length < l.rest.length := by
  have hrest : l.rest = l.char :: l.rest.tail :=
    eq_cons_of_headD (show l.char ≠ '\x00' by rw [h]; decide)
  rw [missComment, rest_skip, List.length_drop, hrest, h, List.takeWhile_cons_of_pos (by decide)]
  simp only [List.length_cons]
  omega

/-- The jumps back to `BEGIN_GET_TOK`: separators and comments before a token. -/
def beginToken (l : Lexer) : Lexer :=
  if l.missSeparators.char = '/' then beginToken l.missSeparators.missComment
  else l.missSeparators
termination_by l.rest.length
decreasing_by
  have hcomment := length_rest_missComment ‹l.missSeparators.char = '/'›
  rw [rest_missSeparators, List.length_drop] at hcomment
  omega

def putSymb (first : List Char) : LexM Unit := fun l =>
  if h : first.length ≤ maxNameSize then
    .ok () { l with tok := { l.tok with symb := l.tok.symb.put first h } }
  else .fault .symb

def setTok (tok : TokType) : LexM Unit :=
  update fun l => { l with tok := { l.tok with tok := tok, line := l.mCurLine } }

def setVal (val : BitVec 64) (isFloatVal : Bool) : LexM Unit :=
  update fun l => { l with tok := { l.tok with val := val, isFloatVal := isFloatVal } }

def emit (tok : TokType) (symb : List Char) (n : Nat) : LexM Bool := do
  putSymb (symb ++ ['\x00'])
  setTok tok
  update (skip n)
  return true

/-- A name, in quotation marks or not; a mark is passed only with the one that closes it. -/
def getName : LexM Bool := do
  let quoted ← read fun l => decide (l.char = quote)
  let start ← read fun l => l.rest.drop quoted.toNat
  let name := start.takeWhile isSymb
  let closed := quoted && (start.dropWhile isSymb).headD '\x00' = quote
  emit .name name (name.length + if closed then 2 else 0)

def storeNumber (digits : List Char) : LexM Bool :=
  if digits = [] then return false else emit .intval digits digits.length

def getNumber : LexM Bool := do
  let str ← read rest
  if isHexPrefix str then do
    update (skip 2)
    let (val, digits) := getHex (str.drop 2)
    setVal val false
    storeNumber digits
  else
    match getDig str with
    | none => fault .endless
    | some (val, digits, isFloat) => do
      setVal val isFloat
      storeNumber digits

def symbTok : Char → Option TokType
  | ',' => some .coma
  | '\x7b' => some .lfb
  | '\x7d' => some .rfb
  | ':' => some .dpnt
  | ';' => some .eoexp
  | '=' => some .asg
  | _ => none

def getSymbol : LexM Bool := do
  let c ← read char
  match symbTok c with
  | some tok => emit tok [c] 1
  | none =>
    if c = '\x00' then do
      update fun l => { l with tok := { l.tok with tok := .eof } }
      return true
    else do
      -- the string is not terminated: what follows is left of the tokens before
      putSymb [c, '\x01']
      update (skip 1)
      return false

def getToken : LexM Bool := do
  update beginToken
  let c ← read char
  if isFirstSymb c ∨ c = quote then getName
  else if isDigit c then getNumber
  else getSymbol

/-- `GetToken` returns, and reports an error or the end of the file or advances. -/
def Progresses (l : Lexer) : Prop :=
  ∃ r l', getToken l = .ok r l' ∧ (r = true → l'.tok.tok = .eof ∨ l.mCurPos < l'.mCurPos)

instance : Decidable (Progresses l) :=
  match h : getToken l with
  | .ok r l' => decidable_of_iff (r = true → l'.tok.tok = .eof ∨ l.mCurPos < l'.mCurPos)
      ⟨fun hprog => ⟨r, l', h, hprog⟩, fun ⟨_, _, hget, hprog⟩ => by
        rw [h] at hget
        cases hget
        exact hprog⟩
  | .exit l' => .isFalse (by simp [Progresses, h])
  | .fault f => .isFalse (by simp [Progresses, h])

/-- The name at the beginning of a text, without quotation marks. -/
def nameAt (str : List Char) : List Char :=
  (if str.headD '\x00' = quote then str.tail else str).takeWhile isSymb

/-- A name that fits into `Symb`, if a name is next. -/
def ShortName (str : List Char) : Prop :=
  isFirstSymb (str.headD '\x00') ∨ str.headD '\x00' = quote → (nameAt str).length < maxNameSize

instance : Decidable (ShortName str) := inferInstanceAs (Decidable (_ → _))

/-- A quotation mark with neither a name nor another mark behind it. -/
def StrayQuote (str : List Char) : Prop :=
  str.headD '\x00' = quote ∧ nameAt str = [] ∧ str.tail.headD '\x00' ≠ quote

instance : Decidable (StrayQuote str) := inferInstanceAs (Decidable (_ ∧ _))

def LongFraction (str : List Char) : Prop :=
  ∃ digits d e tail, digits ≠ [] ∧ (∀ c ∈ digits, isDigit c) ∧ isDigit d ∧ isDigit e ∧
    str = digits ++ '.' :: d :: e :: tail

def fractionAt (str : List Char) : List Char :=
  if str.headD '\x00' = '.' ∧ isDigit (str.tail.headD '\x00') then str.take 2 else []

def numberAt (str : List Char) : List Char :=
  if isHexPrefix str then (str.drop 2).takeWhile isHexDigit
  else str.takeWhile isDigit ++ fractionAt (str.dropWhile isDigit)

def LongNumber (str : List Char) : Prop :=
  isDigit (str.headD '\x00') ∧ maxNameSize ≤ (numberAt str).length

/-- A text before which `GetToken` may be called: what is wrong with it is only reported. -/
structure Readable (l : Lexer) : Prop where
  quote : ¬ StrayQuote l.rest
  fraction : ¬ LongFraction l.beginToken.rest
  number : ¬ LongNumber l.beginToken.rest

section Begin

theorem beginToken_mStream (l : Lexer) : l.beginToken.mStream = l.mStream := by
  fun_induction beginToken l with
  | case1 l _ ih => exact ih
  | case2 l _ => rfl

theorem le_beginToken (l : Lexer) : l.mCurPos ≤ l.beginToken.mCurPos := by
  fun_induction beginToken l with
  | case1 l _ ih =>
    exact ((Nat.le_add_right _ _).trans (Nat.le_add_right _ _)).trans ih
  | case2 l _ => exact Nat.le_add_right _ _

theorem rest_beginToken {l : Lexer} (h : l.beginToken.mCurPos = l.mCurPos) :
    l.beginToken.rest = l.rest := by
  rw [rest, rest, h, beginToken_mStream]

theorem beginToken_of_char {l : Lexer} (hsep : l.char ∉ separators) (hslash : l.char ≠ '/') :
    l.beginToken = l := by
  have hblanks : l.rest.takeWhile (· ∈ separators) = [] := by
    cases hrest : l.rest with
    | nil => rfl
    | cons c cs =>
      rw [char, hrest] at hsep
      exact List.takeWhile_cons_of_neg (by simpa using hsep)
  have hmiss : l.missSeparators = l := by
    rw [missSeparators, hblanks]
    rfl
  rw [beginToken, hmiss, if_neg hslash]

end Begin

section Cases

variable {l : Lexer}

theorem emit_of_lt (h : symb.length < maxNameSize) :
    ∃ l', emit t symb n l = .ok true l' ∧ l'.tok.tok = t ∧ l'.mStream = l.mStream ∧
      l'.mCurPos = l.mCurPos + n := by
  have hput : putSymb (symb ++ ['\x00']) l = .ok () _ :=
    dif_pos (by rw [List.length_append, List.length_singleton]; exact h)
  rw [emit, bind_of_ok hput]
  exact ⟨_, rfl, rfl, rfl, rfl⟩

theorem emit_of_le (h : maxNameSize ≤ symb.length) : emit t symb n l = .fault .symb := by
  have hput : putSymb (symb ++ ['\x00']) l = .fault .symb :=
    dif_neg (by rw [List.length_append, List.length_singleton]; omega)
  rw [emit, bind_of_fault hput]

theorem isSymb_of_isFirstSymb (h : isFirstSymb c = true) : isSymb c = true := by
  rw [isSymb, h, Bool.or_true, Bool.true_or]

theorem ne_zero_of_isFirstSymb (h : isFirstSymb c = true) : c ≠ '\x00' := by
  rintro rfl
  exact absurd h (by decide)

theorem ne_zero_of_isDigit (h : isDigit c = true) : c ≠ '\x00' := by
  rintro rfl
  exact absurd h (by decide)

theorem inTextRange_iff : inTextRange c sp ep = true ↔ sp.toNat ≤ c.toNat ∧ c.toNat ≤ ep.toNat := by
  rw [inTextRange, Bool.and_eq_true, decide_eq_true_eq, decide_eq_true_eq]
  exact Iff.rfl

theorem not_name_of_isDigit (h : isDigit c = true) : ¬ (isFirstSymb c = true ∨ c = quote) := by
  have hrange := inTextRange_iff.mp h
  rintro (hfirst | rfl)
  · simp only [isFirstSymb, Bool.or_eq_true, inTextRange_iff, decide_eq_true_eq] at hfirst
    rcases hfirst with (hlower | hupper) | rfl
    · exact absurd (hlower.1.trans hrange.2) (by decide)
    · exact absurd (hupper.1.trans hrange.2) (by decide)
    · exact absurd h (by decide)
  · exact absurd h (by decide)

theorem nameAt_of_quote (h : l.char = quote) : nameAt l.rest = l.rest.tail.takeWhile isSymb := by
  rw [nameAt, if_pos (show l.rest.headD '\x00' = quote from h)]

theorem nameAt_of_ne (h : l.char ≠ quote) : nameAt l.rest = l.rest.takeWhile isSymb := by
  rw [nameAt, if_neg (show l.rest.headD '\x00' ≠ quote from h)]

theorem dropWhile_of_nameAt_nil (h : l.char = quote) (hnil : nameAt l.rest = []) :
    l.rest.tail.dropWhile isSymb = l.rest.tail := by
  rw [nameAt_of_quote h] at hnil
  have happ := List.takeWhile_append_dropWhile (p := isSymb) (l := l.rest.tail)
  rwa [hnil, List.nil_append] at happ

theorem getName_of_quote (h : l.char = quote) :
    getName l = emit .name (nameAt l.rest) ((nameAt l.rest).length +
      if (l.rest.tail.dropWhile isSymb).headD '\x00' = quote then 2 else 0) l := by
  have hquoted : decide (l.char = quote) = true := decide_eq_true h
  simp only [getName, bind_def, read_apply, hquoted, Bool.toNat_true, List.drop_one,
    nameAt_of_quote h, Bool.true_and, decide_eq_true_eq]

theorem getName_of_ne (h : l.char ≠ quote) :
    getName l = emit .name (nameAt l.rest) (nameAt l.rest).length l := by
  have hquoted : decide (l.char = quote) = false := decide_eq_false h
  simp only [getName, bind_def, read_apply, hquoted, Bool.toNat_false, List.drop_zero,
    nameAt_of_ne h, Bool.false_and, Bool.false_eq_true, if_false, Nat.add_zero]

theorem length_nameAt_pos (h : isFirstSymb l.char = true) (hq : l.char ≠ quote) :
    0 < (nameAt l.rest).length := by
  have hrest : l.rest = l.char :: l.rest.tail := eq_cons_of_headD (ne_zero_of_isFirstSymb h)
  rw [nameAt_of_ne hq, hrest, List.takeWhile_cons_of_pos (isSymb_of_isFirstSymb h)]
  exact Nat.succ_pos _

theorem getName_ok (hname : ShortName l.rest) (hc : isFirstSymb l.char = true ∨ l.char = quote) :
    ∃ l' n, getName l = .ok true l' ∧ l'.tok.tok = .name ∧ l'.mStream = l.mStream ∧
      l'.mCurPos = l.mCurPos + n ∧ (n = 0 → StrayQuote l.rest) := by
  have hlt := hname hc
  by_cases hq : l.char = quote
  · rw [getName_of_quote hq]
    obtain ⟨l', hemit, htok, hstream, hpos⟩ := emit_of_lt (t := .name) (l := l) hlt
    refine ⟨l', _, hemit, htok, hstream, hpos, fun h0 => ?_⟩
    have hnil : nameAt l.rest = [] := List.eq_nil_of_length_eq_zero (by omega)
    refine ⟨hq, hnil, fun hclosed => ?_⟩
    rw [dropWhile_of_nameAt_nil hq hnil, if_pos hclosed] at h0
    omega
  · rw [getName_of_ne hq]
    obtain ⟨l', hemit, htok, hstream, hpos⟩ := emit_of_lt (t := .name) (l := l) hlt
    refine ⟨l', _, hemit, htok, hstream, hpos, fun h0 => ?_⟩
    exact absurd h0 (length_nameAt_pos (hc.resolve_right hq) hq).ne'

theorem takeWhile_isDigit_ne_nil {str : List Char} (hd : isDigit (str.headD '\x00') = true) :
    str.takeWhile isDigit ≠ [] := by
  rw [eq_cons_of_headD (ne_zero_of_isDigit hd), List.takeWhile_cons_of_pos hd]
  exact List.cons_ne_nil _ _

/-- `GetDig` hangs at a number with two digits behind its point, and only there. -/
theorem getDig_eq_none (hstr : isDigit (str.headD '\x00') = true) :
    getDig str = none ↔ LongFraction str := by
  constructor
  · intro h
    simp only [getDig] at h
    split at h
    · split at h
      · split at h
        · rename_i hpoint hd he
          refine ⟨str.takeWhile isDigit, _, _, (str.dropWhile isDigit).tail.tail.tail,
            takeWhile_isDigit_ne_nil hstr,
            fun c hc => List.mem_takeWhile_imp hc, hd, he, ?_⟩
          have hdot := eq_cons_of_headD (by rw [hpoint]; decide)
          have hfirst := eq_cons_of_headD (ne_zero_of_isDigit hd)
          have hsecond := eq_cons_of_headD (ne_zero_of_isDigit he)
          rw [← hsecond, ← hfirst, ← hpoint, ← hdot, List.takeWhile_append_dropWhile]
        · cases h
      · cases h
    · cases h
  · rintro ⟨digits, d, e, tail, -, hdigits, hd, he, rfl⟩
    have htake : (digits ++ '.' :: d :: e :: tail).takeWhile isDigit = digits := by
      rw [List.takeWhile_append_of_pos hdigits, List.takeWhile_cons_of_neg (by decide),
        List.append_nil]
    have hdrop : (digits ++ '.' :: d :: e :: tail).dropWhile isDigit = '.' :: d :: e :: tail := by
      rw [List.dropWhile_append_of_pos hdigits, List.dropWhile_cons_of_neg (by decide)]
    simp only [getDig, hdrop, List.headD_cons, List.tail_cons, hd, he, if_true]

theorem getDig_eq_some (hhex : isHexPrefix str = false) (h : getDig str = some (val, digits, f)) :
    digits = numberAt str := by
  rw [numberAt, if_neg (by rw [hhex]; decide), fractionAt]
  simp only [getDig] at h
  split at h
  · rename_i hpoint
    split at h
    · rename_i hd
      split at h
      · cases h
      · cases h
        rw [if_pos ⟨hpoint, hd⟩]
    · rename_i hd
      cases h
      rw [if_neg fun hboth => hd hboth.2, List.append_nil]
  · rename_i hpoint
    cases h
    rw [if_neg fun hboth => hpoint hboth.1, List.append_nil]

theorem LongFraction.isDigit_headD (h : LongFraction str) : isDigit (str.headD '\x00') = true := by
  obtain ⟨digits, d, e, tail, hne, hdigits, -, -, rfl⟩ := h
  cases digits with
  | nil => exact absurd rfl hne
  | cons c cs => exact hdigits c List.mem_cons_self

theorem LongFraction.isHexPrefix_eq_false (h : LongFraction str) : isHexPrefix str = false := by
  obtain ⟨digits, d, e, tail, hne, hdigits, -, -, rfl⟩ := h
  rw [isHexPrefix, decide_eq_false_iff_not]
  intro hprefix
  cases digits with
  | nil => exact absurd rfl hne
  | cons a digits =>
    cases digits with
    | nil =>
      cases hprefix
    | cons b digits =>
      have hx : b = 'x' := by
        injection hprefix with _ htail
        injection htail
      have hb := hdigits b (by simp)
      rw [hx] at hb
      exact absurd hb (by decide)

theorem storeNumber_of_nil : storeNumber [] l = .ok false l := rfl

theorem storeNumber_of_ne (h : digits ≠ []) :
    storeNumber digits l = emit .intval digits digits.length l := by
  rw [storeNumber, if_neg h]

theorem getNumber_of_hex (h : isHexPrefix l.rest = true) :
    ∃ l', getNumber l = storeNumber (numberAt l.rest) l' ∧ l'.mStream = l.mStream ∧
      l'.mCurPos = l.mCurPos + 2 := by
  rw [numberAt, if_pos h]
  simp only [getNumber, bind_def, read_apply, h, if_true]
  exact ⟨_, rfl, rfl, rfl⟩

theorem getNumber_of_dig (hhex : isHexPrefix l.rest = false)
    (h : getDig l.rest = some (val, digits, f)) :
    ∃ l', getNumber l = storeNumber (numberAt l.rest) l' ∧ l'.mStream = l.mStream ∧
      l'.mCurPos = l.mCurPos := by
  rw [← getDig_eq_some hhex h]
  simp only [getNumber, bind_def, read_apply, hhex, Bool.false_eq_true, if_false, h]
  exact ⟨_, rfl, rfl, rfl⟩

theorem getNumber_of_none (hhex : isHexPrefix l.rest = false) (h : getDig l.rest = none) :
    getNumber l = .fault .endless := by
  simp only [getNumber, bind_def, read_apply, hhex, Bool.false_eq_true, if_false, h, fault_apply]

theorem numberAt_ne_nil (hd : isDigit (str.headD '\x00') = true) (hhex : isHexPrefix str = false) :
    numberAt str ≠ [] := by
  rw [numberAt, if_neg (by rw [hhex]; decide)]
  exact List.append_ne_nil_of_left_ne_nil (takeWhile_isDigit_ne_nil hd) _

theorem getNumber_cases (hd : isDigit l.char = true) (hfrac : ¬ LongFraction l.rest) :
    ∃ l', getNumber l = storeNumber (numberAt l.rest) l' ∧ l'.mStream = l.mStream ∧
      (l.mCurPos < l'.mCurPos ∨ l.mCurPos = l'.mCurPos ∧ numberAt l.rest ≠ []) := by
  cases hhex : isHexPrefix l.rest with
  | true =>
    obtain ⟨l', hnum, hstream, hpos⟩ := getNumber_of_hex hhex
    exact ⟨l', hnum, hstream, .inl (by omega)⟩
  | false =>
    cases hdig : getDig l.rest with
    | none => exact absurd ((getDig_eq_none hd).mp hdig) hfrac
    | some r =>
      obtain ⟨val, digits, f⟩ := r
      obtain ⟨l', hnum, hstream, hpos⟩ := getNumber_of_dig hhex hdig
      exact ⟨l', hnum, hstream, .inr ⟨hpos.symm, numberAt_ne_nil hd hhex⟩⟩

theorem getNumber_ok (hd : isDigit l.char = true) (hfrac : ¬ LongFraction l.rest)
    (hnum : ¬ LongNumber l.rest) :
    ∃ r l', getNumber l = .ok r l' ∧ l'.mStream = l.mStream ∧ l.mCurPos < l'.mCurPos := by
  obtain ⟨l', hcases, hstream, hpos⟩ := getNumber_cases hd hfrac
  rw [hcases]
  by_cases hnil : numberAt l.rest = []
  · rw [hnil]
    exact ⟨false, l', storeNumber_of_nil, hstream, hpos.resolve_right fun h => h.2 hnil⟩
  · have hlt : (numberAt l.rest).length < maxNameSize := Nat.lt_of_not_le fun hle => hnum ⟨hd, hle⟩
    obtain ⟨l'', hemit, -, hstream', hpos'⟩ := emit_of_lt (t := .intval) (l := l') hlt
    have hlen := List.length_pos_iff.mpr hnil
    refine ⟨true, l'', (storeNumber_of_ne hnil).trans hemit, hstream'.trans hstream, ?_⟩
    omega

theorem getNumber_fault (hd : isDigit l.char = true) (h : LongFraction l.rest ∨ LongNumber l.rest) :
    ∃ f, getNumber l = .fault f := by
  by_cases hfrac : LongFraction l.rest
  · exact ⟨_, getNumber_of_none hfrac.isHexPrefix_eq_false ((getDig_eq_none hd).mpr hfrac)⟩
  · obtain ⟨l', hcases, -, -⟩ := getNumber_cases hd hfrac
    have hlong := (h.resolve_left hfrac).2
    have hne : numberAt l.rest ≠ [] := by
      intro hnil
      rw [hnil] at hlong
      exact absurd hlong (by decide)
    exact ⟨_, by rw [hcases, storeNumber_of_ne hne, emit_of_le hlong]⟩

theorem getSymbol_ok (l : Lexer) : ∃ r l', getSymbol l = .ok r l' ∧ l'.mStream = l.mStream ∧
    (l'.tok.tok = .eof ∨ l.mCurPos < l'.mCurPos) := by
  cases hsymb : symbTok l.char with
  | some t =>
    have hlt : [l.char].length < maxNameSize := show 1 < 512 by decide
    obtain ⟨l', hemit, -, hstream, hpos⟩ := emit_of_lt (t := t) (n := 1) (l := l) hlt
    refine ⟨true, l', ?_, hstream, .inr (by omega)⟩
    simp only [getSymbol, bind_def, read_apply, hsymb, hemit]
  | none =>
    simp only [getSymbol, bind_def, read_apply, hsymb]
    by_cases hzero : l.char = '\x00'
    · rw [if_pos hzero]
      exact ⟨true, _, rfl, rfl, .inl rfl⟩
    · have hput : putSymb [l.char, '\x01'] l = .ok () _ := dif_pos (show 2 ≤ 512 by decide)
      rw [if_neg hzero, bind_of_ok hput]
      exact ⟨false, _, rfl, rfl, .inr (Nat.lt_succ_self _)⟩

end Cases

section Tokens

variable {l : Lexer}

theorem getToken_of_name (h : isFirstSymb l.beginToken.char = true ∨ l.beginToken.char = quote) :
    getToken l = getName l.beginToken := by
  simp only [getToken, bind_def, update_apply, read_apply, h, if_true]

theorem getToken_of_digit
    (hname : ¬ (isFirstSymb l.beginToken.char = true ∨ l.beginToken.char = quote))
    (h : isDigit l.beginToken.char = true) : getToken l = getNumber l.beginToken := by
  simp only [getToken, bind_def, update_apply, read_apply, hname, h, if_true, if_false]

theorem getToken_of_symbol
    (hname : ¬ (isFirstSymb l.beginToken.char = true ∨ l.beginToken.char = quote))
    (h : ¬ isDigit l.beginToken.char = true) : getToken l = getSymbol l.beginToken := by
  simp only [getToken, bind_def, update_apply, read_apply, hname, h, if_false, Bool.false_eq_true]

/-- What `GetToken` does before a readable text. -/
theorem getToken_ok (hname : ShortName l.beginToken.rest) (h : l.Readable) :
    ∃ r l', getToken l = .ok r l' ∧ l'.mStream = l.mStream ∧
      (r = true → l'.tok.tok = .eof ∨ l.mCurPos < l'.mCurPos) := by
  have hle := le_beginToken l
  have hstream := beginToken_mStream l
  by_cases hc : isFirstSymb l.beginToken.char = true ∨ l.beginToken.char = quote
  · rw [getToken_of_name hc]
    obtain ⟨l', n, hget, -, hstream', hpos, hzero⟩ := getName_ok hname hc
    refine ⟨true, l', hget, hstream'.trans hstream, fun _ => .inr ?_⟩
    by_contra hlt
    -- nothing is passed: the call began at the quotation mark itself
    have hstray := hzero (by omega)
    rw [rest_beginToken (by omega)] at hstray
    exact h.quote hstray
  · by_cases hd : isDigit l.beginToken.char = true
    · rw [getToken_of_digit hc hd]
      obtain ⟨r, l', hget, hstream', hpos⟩ := getNumber_ok hd h.fraction h.number
      exact ⟨r, l', hget, hstream'.trans hstream, fun _ => .inr (by omega)⟩
    · rw [getToken_of_symbol hc hd]
      obtain ⟨r, l', hget, hstream', hend⟩ := getSymbol_ok l.beginToken
      refine ⟨r, l', hget, hstream'.trans hstream, fun _ => hend.imp_right fun hpos => ?_⟩
      omega

theorem beginToken_of_strayQuote (h : StrayQuote l.rest) : l.beginToken = l := by
  have hq : l.char = quote := h.1
  exact beginToken_of_char (by rw [hq]; decide) (by rw [hq]; decide)

theorem StrayQuote.getToken_eq (h : StrayQuote l.rest) :
    ∃ l', getToken l = .ok true l' ∧ l'.tok.tok = .name ∧ l'.tok.symb.text = [] ∧
      l'.mStream = l.mStream ∧ l'.mCurPos = l.mCurPos := by
  have hbegin := beginToken_of_strayQuote h
  obtain ⟨hq, hnil, hopen⟩ := h
  have hname := getToken_of_name (l := l) (.inr (by rw [hbegin]; exact hq))
  rw [hname, hbegin, getName_of_quote hq, hnil, dropWhile_of_nameAt_nil hq hnil, if_neg hopen]
  exact ⟨_, rfl, rfl, rfl, rfl, rfl⟩

theorem StrayQuote.not_progresses (h : StrayQuote l.rest) : ¬ l.Progresses := by
  obtain ⟨l', hget, htok, -, -, hpos⟩ := h.getToken_eq
  rintro ⟨r, l'', hok, hprog⟩
  rw [hget] at hok
  cases hok
  rcases hprog rfl with heof | hlt
  · rw [htok] at heof
    cases heof
  · exact absurd hpos hlt.ne'

theorem not_progresses_of_number
    (h : LongFraction l.beginToken.rest ∨ LongNumber l.beginToken.rest) : ¬ l.Progresses := by
  have hd : isDigit l.beginToken.char = true := by
    rcases h with h | h
    · exact h.isDigit_headD
    · exact h.1
  have hc := not_name_of_isDigit hd
  obtain ⟨f, hf⟩ := getNumber_fault hd h
  rintro ⟨r, l', hok, -⟩
  rw [getToken_of_digit hc hd, hf] at hok
  cases hok

theorem progresses_iff (hname : ShortName l.beginToken.rest) : l.Progresses ↔ l.Readable := by
  constructor
  · intro h
    exact ⟨fun hq => hq.not_progresses h, fun hf => not_progresses_of_number (.inl hf) h,
      fun hn => not_progresses_of_number (.inr hn) h⟩
  · intro h
    obtain ⟨r, l', hget, -, hprog⟩ := getToken_ok hname h
    exact ⟨r, l', hget, hprog⟩

theorem getToken_of_nil (h : l.rest = []) : ∃ l', getToken l = .ok true l' ∧ l'.tok.tok = .eof := by
  have hzero : l.char = '\x00' := by
    rw [char, h]
    rfl
  have hbegin : l.beginToken = l :=
    beginToken_of_char (by rw [hzero]; decide) (by rw [hzero]; decide)
  rw [getToken_of_symbol (by rw [hbegin, hzero]; decide) (by rw [hbegin, hzero]; decide), hbegin]
  simp only [getSymbol, bind_def, read_apply, hzero]
  exact ⟨_, rfl, rfl⟩

end Tokens

end Lexer
end GvmCore
