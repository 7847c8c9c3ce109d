import Mathlib.Data.List.DropRight
import GvmCore.Calls
import GvmCore.ConfigParse

namespace GvmCore
open Exec
set_option autoImplicit true

/-- A comment as it is meant: to the end of its line, or to the next star with a slash. -/
inductive Comment where
  | line (body : List Char) (inLine : ∀ c ∈ body, c ≠ '\n' ∧ c ≠ '\x00')
  | block (body : List Char) (inText : ∀ c ∈ body, c ≠ '\x00')
      (next : ∀ before after, body ++ ['*', '/'] = before ++ '*' :: '/' :: after → after = [])

namespace Comment

def text : Comment → List Char
  | line body _ => '/' :: '/' :: body
  | block body _ _ => '/' :: '*' :: body ++ ['*', '/']

def Ends (post : List Char) : Comment → Prop
  | line _ _ => post.headD '\x00' = '\n' ∨ post.headD '\x00' = '\x00'
  | block _ _ _ => True

end Comment

/-- A place in a text: outside of comments, behind a slash there, in a comment of either kind, and
behind a star in a block comment. -/
inductive TextPlace where
  | text | slash | line | block | star
  deriving DecidableEq

def TextPlace.next : TextPlace → Char → TextPlace
  | .text, c => if c = '/' then .slash else .text
  | .slash, c => if c = '/' then .line else if c = '*' then .block else .text
  | .line, c => if c = '\n' then .text else .line
  | .block, c => if c = '*' then .star else .block
  | .star, c => if c = '/' then .text else if c = '*' then .star else .block

def Token.unplaced (t : Token) : Token := { t with line := 0 }

namespace Lexer

/-- What the call number `n` of `GetToken` delivers, up to positions and line numbers. -/
def tokens (l : Lexer) (n : Nat) : Outcome CfgFault Token Bool :=
  nthCall (·.tok.unplaced) getToken n l

section Start

def lineEnd (str : List Char) : List Char := str.dropWhile fun c => c ≠ '\n' ∧ c ≠ '\x00'

/-- The text from the next token on, where a comment is open or not. -/
def tokenStart : Bool → List Char → List Char
  | _, [] => []
  | false, c :: cs =>
    if c ∈ separators then tokenStart false cs
    else if c = '/' then tokenStart true cs
    else c :: cs
  | true, c :: cs =>
    if c = '\n' then tokenStart false cs
    else if c = '\x00' then c :: cs
    else tokenStart true cs

theorem tokenStart_of_sep (h : c ∈ separators) :
    tokenStart false (c :: cs) = tokenStart false cs := by
  rw [tokenStart, if_pos h]

theorem tokenStart_of_not (hsep : c ∉ separators) (hslash : c ≠ '/') :
    tokenStart false (c :: cs) = c :: cs := by
  rw [tokenStart, if_neg hsep, if_neg hslash]

/-- A slash on the last line of the text. -/
def OpenSlash (pre : List Char) : Prop := ∃ p s, pre = p ++ '/' :: s ∧ '\n' ∉ s

theorem OpenSlash.of_suffix (h : OpenSlash q) (hsuffix : q <:+ pre) : OpenSlash pre := by
  obtain ⟨p, s, rfl, hs⟩ := h
  obtain ⟨p', rfl⟩ := hsuffix
  exact ⟨p' ++ p, s, by rw [List.append_assoc], hs⟩

theorem tokenStart_cons (b : Bool) (c : Char) : (∀ cs, tokenStart b (c :: cs) = c :: cs) ∨
    ∃ b', (b' = true → b = true ∧ c ≠ '\n' ∨ c = '/') ∧
      ∀ cs, tokenStart b (c :: cs) = tokenStart b' cs := by
  cases b with
  | false =>
    by_cases hsep : c ∈ separators
    · exact .inr ⟨false, nofun, fun cs => tokenStart_of_sep hsep⟩
    · by_cases hslash : c = '/'
      · refine .inr ⟨true, fun _ => .inr hslash, fun cs => ?_⟩
        rw [tokenStart, if_neg hsep, if_pos hslash]
      · exact .inl fun cs => tokenStart_of_not hsep hslash
  | true =>
    by_cases hline : c = '\n'
    · refine .inr ⟨false, nofun, fun cs => ?_⟩
      rw [tokenStart, if_pos hline]
    · by_cases hzero : c = '\x00'
      · exact .inl fun cs => by rw [tokenStart, if_neg hline, if_pos hzero]
      · refine .inr ⟨true, fun _ => .inl ⟨rfl, hline⟩, fun cs => ?_⟩
        rw [tokenStart, if_neg hline, if_neg hzero]

/-- The first token of a text is found, or the text is passed, whatever follows it; a comment is
then open only behind a slash. -/
theorem tokenStart_append (b : Bool) (p : List Char) :
    (tokenStart b p ≠ [] ∧ ∀ s, tokenStart b (p ++ s) = tokenStart b p ++ s) ∨
      tokenStart b p = [] ∧ ∃ b', (b' = true → b = true ∧ '\n' ∉ p ∨ OpenSlash p) ∧
        ∀ s, tokenStart b (p ++ s) = tokenStart b' s := by
  induction p generalizing b with
  | nil =>
    refine .inr ⟨?_, b, fun hb => .inl ⟨hb, List.not_mem_nil⟩, fun _ => rfl⟩
    cases b <;> rfl
  | cons c p ih =>
    rcases tokenStart_cons b c with hstart | ⟨b', hopen, hpass⟩
    · refine .inl ⟨?_, fun s => ?_⟩
      · rw [hstart]
        exact List.cons_ne_nil _ _
      · rw [List.cons_append, hstart, hstart]
        rfl
    · simp only [List.cons_append, hpass]
      refine (ih b').imp_right ?_
      rintro ⟨hnil, b'', hopen', hpass'⟩
      refine ⟨hnil, b'', fun hb => ?_, hpass'⟩
      rcases hopen' hb with ⟨hb', hp⟩ | hslash
      · rcases hopen hb' with ⟨hb, hc⟩ | rfl
        · exact .inl ⟨hb, List.not_mem_cons_of_ne_of_not_mem (Ne.symm hc) hp⟩
        · exact .inr ⟨[], p, rfl, hp⟩
      · exact .inr (hslash.of_suffix (List.suffix_cons c p))

theorem tokenStart_dropWhile (str : List Char) :
    tokenStart false (str.dropWhile (· ∈ separators)) = tokenStart false str := by
  induction str with
  | nil => rfl
  | cons c cs ih =>
    by_cases h : c ∈ separators
    · rw [List.dropWhile_cons_of_pos (by simpa using h), ih, tokenStart_of_sep h]
    · rw [List.dropWhile_cons_of_neg (by simpa using h)]

theorem tokenStart_lineEnd (str : List Char) :
    tokenStart false (lineEnd str) = tokenStart true str := by
  induction str with
  | nil => rfl
  | cons c cs ih =>
    by_cases hline : c = '\n'
    · subst hline
      rfl
    · by_cases hzero : c = '\x00'
      · subst hzero
        rfl
      · rw [lineEnd, List.dropWhile_cons_of_pos (by simp [hline, hzero]), tokenStart, if_neg hline,
          if_neg hzero]
        exact ih

theorem drop_length_takeWhile (p : Char → Bool) (str : List Char) :
    str.drop (str.takeWhile p).length = str.dropWhile p := by
  have happ : (str.takeWhile p ++ str.dropWhile p).drop (str.takeWhile p).length =
      str.dropWhile p := List.drop_left
  rwa [List.takeWhile_append_dropWhile] at happ

theorem rest_beginToken_eq (l : Lexer) : l.beginToken.rest = tokenStart false l.rest := by
  have hmiss : ∀ l : Lexer, l.missSeparators.rest = l.rest.dropWhile (· ∈ separators) := by
    intro l
    rw [rest_missSeparators, drop_length_takeWhile]
  fun_induction beginToken l with
  | case1 l hslash ih =>
    have hrest : l.missSeparators.rest = '/' :: l.missSeparators.rest.tail := by
      rw [← hslash]
      exact eq_cons_of_headD (show l.missSeparators.char ≠ '\x00' by rw [hslash]; decide)
    rw [ih, missComment, rest_skip, drop_length_takeWhile, ← tokenStart_dropWhile l.rest, ← hmiss]
    change tokenStart false (lineEnd _) = _
    rw [tokenStart_lineEnd, hrest]
    rfl
  | case2 l hslash =>
    rw [← tokenStart_dropWhile l.rest, ← hmiss]
    cases hrest : l.missSeparators.rest with
    | nil => rfl
    | cons c cs =>
      have hsep : c ∉ separators := by
        have hhead := List.head?_dropWhile_not (fun c => decide (c ∈ separators)) l.rest
        rw [← hmiss, hrest] at hhead
        exact of_decide_eq_false hhead
      rw [char, hrest] at hslash
      rw [tokenStart_of_not hsep hslash]

/-- Nothing but separators, and what a slash hides. -/
def Blank (str : List Char) : Prop := tokenStart false str = []

instance : Decidable (Blank str) := inferInstanceAs (Decidable (_ = _))

theorem Blank.tokenStart (h : Blank str) (b : Bool) : tokenStart b str = [] := by
  cases b with
  | false => exact h
  | true =>
    induction str with
    | nil => rfl
    | cons c cs ih =>
      by_cases hsep : c ∈ separators
      · have hcs : Blank cs := (tokenStart_of_sep hsep).symm.trans h
        by_cases hline : c = '\n'
        · rw [Lexer.tokenStart, if_pos hline]
          exact hcs
        · have hzero : c ≠ '\x00' := by
            rintro rfl
            revert hsep
            decide
          rw [Lexer.tokenStart, if_neg hline, if_neg hzero]
          exact ih hcs
      · by_cases hslash : c = '/'
        · subst hslash
          exact h
        · cases (tokenStart_of_not hsep hslash).symm.trans h

end Start

section Cut

def Inert (X : List Char) : Prop := ∀ c ∈ X.head?, isSymb c = false ∧ c ≠ quote ∧ c ≠ '.'

variable {X : List Char}

theorem inert_lineEnd (hR : lineEnd R = R) : Inert R := by
  intro c hc
  cases R with
  | nil => cases hc
  | cons d R =>
    cases hc
    have hend : c = '\n' ∨ c = '\x00' := by
      by_contra hne
      rw [not_or] at hne
      rw [lineEnd, List.dropWhile_cons_of_pos (by simpa using hne)] at hR
      have hlen := congrArg List.length hR
      have hle := (List.dropWhile_suffix (l := R) fun c => c ≠ '\n' ∧ c ≠ '\x00').length_le
      rw [List.length_cons] at hlen
      omega
    rcases hend with rfl | rfl <;> decide

theorem Inert.eq_false {p : Char → Bool} (hX : Inert (c :: s))
    (hp : ∀ c, p c = true → isSymb c = true) : p c = false := by
  have hc := (hX c rfl).1
  cases hpc : p c with
  | false => rfl
  | true =>
    rw [hp c hpc] at hc
    cases hc

theorem Inert.ne (hX : Inert (c :: s)) (ha : isSymb a = true) : c ≠ a := by
  rintro rfl
  have hc := (hX c rfl).1
  rw [ha] at hc
  cases hc

theorem takeWhile_append_inert {p : Char → Bool} (hp : ∀ c, p c = true → isSymb c = true)
    (hX : Inert X) (q : List Char) : (q ++ X).takeWhile p = q.takeWhile p := by
  induction q with
  | nil =>
    cases X with
    | nil => rfl
    | cons c s => exact List.takeWhile_cons_of_neg (by rw [hX.eq_false hp]; decide)
  | cons a q ih =>
    rw [List.cons_append, List.takeWhile_cons, List.takeWhile_cons, ih]

theorem dropWhile_append_inert {p : Char → Bool} (hp : ∀ c, p c = true → isSymb c = true)
    (hX : Inert X) (q : List Char) : (q ++ X).dropWhile p = q.dropWhile p ++ X := by
  induction q with
  | nil =>
    cases X with
    | nil => rfl
    | cons c s => exact List.dropWhile_cons_of_neg (by rw [hX.eq_false hp]; decide)
  | cons a q ih =>
    rw [List.cons_append, List.dropWhile_cons, List.dropWhile_cons, ih]
    split <;> rfl

theorem isSymb_of_isDigit (h : isDigit c = true) : isSymb c = true := by
  rw [isSymb, h, Bool.true_or, Bool.true_or]

theorem isSymb_of_isHexDigit (h : isHexDigit c = true) : isSymb c = true := by
  simp only [isHexDigit, Bool.or_eq_true, inTextRange_iff] at h
  rcases h with (h | h) | h
  · exact isSymb_of_isDigit h
  · have hupper : inTextRange c 'A' 'Z' = true :=
      inTextRange_iff.mpr ⟨h.1, h.2.trans (by decide)⟩
    exact isSymb_of_isFirstSymb (by simp [isFirstSymb, hupper])
  · have hlower : inTextRange c 'a' 'z' = true :=
      inTextRange_iff.mpr ⟨h.1, h.2.trans (by decide)⟩
    exact isSymb_of_isFirstSymb (by simp [isFirstSymb, hlower])

theorem headD_append_of_ne_nil (h : q ≠ []) : (q ++ X).headD d = q.headD d := by
  cases q with
  | nil => exact absurd rfl h
  | cons a q => rfl

theorem tail_append_of_ne_nil (h : q ≠ []) : (q ++ X).tail = q.tail ++ X := by
  cases q with
  | nil => exact absurd rfl h
  | cons a q => rfl

theorem isDigit_headD_append (hX : Inert X) (q : List Char) :
    isDigit ((q ++ X).headD '\x00') = isDigit (q.headD '\x00') := by
  cases q with
  | nil =>
    cases X with
    | nil => rfl
    | cons c s => exact hX.eq_false fun _ => isSymb_of_isDigit
  | cons a q => rfl

theorem headD_append_eq_iff (hX : ∀ c ∈ X.head?, c ≠ a) (ha : '\x00' ≠ a) (q : List Char) :
    (q ++ X).headD '\x00' = a ↔ q.headD '\x00' = a := by
  cases q with
  | nil =>
    cases X with
    | nil => exact Iff.rfl
    | cons c s => exact iff_of_false (hX c rfl) ha
  | cons b q => exact Iff.rfl

theorem headD_append_eq_quote (hX : Inert X) (q : List Char) :
    (q ++ X).headD '\x00' = quote ↔ q.headD '\x00' = quote :=
  headD_append_eq_iff (fun c hc => (hX c hc).2.1) (by decide) q

theorem headD_append_eq_point (hX : Inert X) (q : List Char) :
    (q ++ X).headD '\x00' = '.' ↔ q.headD '\x00' = '.' :=
  headD_append_eq_iff (fun c hc => (hX c hc).2.2) (by decide) q

theorem nameAt_append (hX : Inert X) (h : q ≠ []) : nameAt (q ++ X) = nameAt q := by
  have hhead : (q ++ X).headD '\x00' = q.headD '\x00' := headD_append_of_ne_nil h
  rw [nameAt, nameAt, hhead, tail_append_of_ne_nil h]
  split
  · exact takeWhile_append_inert (fun _ hc => hc) hX _
  · exact takeWhile_append_inert (fun _ hc => hc) hX _

theorem isHexPrefix_append (hX : Inert X) (q : List Char) :
    isHexPrefix (q ++ X) = isHexPrefix q := by
  cases q with
  | nil =>
    cases X with
    | nil => rfl
    | cons c s =>
      refine (decide_eq_false fun hstart => ?_).trans (show false = isHexPrefix [] by decide)
      injection hstart with hzero _
      exact hX.ne (by decide) hzero
  | cons a q =>
    cases q with
    | nil =>
      cases X with
      | nil => rfl
      | cons c s =>
        refine (decide_eq_false fun hstart => ?_).trans
          (decide_eq_false fun hstart => ?_).symm
        · injection hstart with _ hstart
          injection hstart with hx _
          exact hX.ne (by decide) hx
        · cases hstart
    | cons b q => rfl

theorem getDig_append (hX : Inert X) (q : List Char) : getDig (q ++ X) = getDig q := by
  simp only [getDig, takeWhile_append_inert (fun _ => isSymb_of_isDigit) hX,
    dropWhile_append_inert (fun _ => isSymb_of_isDigit) hX, headD_append_eq_point hX]
  have hpoint := isDigit_headD_append hX
  cases q.dropWhile isDigit with
  | nil => rfl
  | cons a r =>
    simp only [List.cons_append, List.tail_cons, hpoint]
    cases r with
    | nil => rfl
    | cons b r =>
      simp only [List.cons_append, List.tail_cons, hpoint]
      rfl

end Cut

section Reading

open Outcome (Matched)

/-- The same token up to its line, and the text of `m` with `X` behind it. -/
structure Ext (X : List Char) (l m : Lexer) : Prop where
  type : l.tok.tok = m.tok.tok
  symb : l.tok.symb = m.tok.symb
  val : l.tok.val = m.tok.val
  isFloatVal : l.tok.isFloatVal = m.tok.isFloatVal
  rest : l.rest = m.rest ++ X

variable {X : List Char} {l m : Lexer}

theorem Ext.unplaced (h : Ext X l m) : l.tok.unplaced = m.tok.unplaced := by
  rw [Token.unplaced, Token.unplaced, h.type, h.symb, h.val, h.isFloatVal]

theorem Ext.skip (h : Ext X l m) (hn : n ≤ m.rest.length) : Ext X (l.skip n) (m.skip n) :=
  { h with rest := by rw [rest_skip, rest_skip, h.rest, List.drop_append_of_le_length hn] }

theorem Ext.char (h : Ext X l m) (hne : m.rest = [] → X = []) : l.char = m.char := by
  rw [Lexer.char, Lexer.char, h.rest]
  by_cases hrest : m.rest = []
  · rw [hrest, hne hrest]
    rfl
  · exact headD_append_of_ne_nil hrest

theorem putSymb_ext (h : Ext X l m) (first : List Char) :
    Matched (fun l' m' => Ext X l' m' ∧ m'.rest = m.rest) (putSymb first l) (putSymb first m) := by
  rw [putSymb, putSymb]
  split
  · exact .ok ⟨{ h with symb := by rw [h.symb] }, rfl⟩
  · exact .fault

theorem emit_ext (h : Ext X l m) (hn : n ≤ m.rest.length) :
    Matched (Ext X) (emit t symb n l) (emit t symb n m) := by
  refine (putSymb_ext h _).bind (fun _ _ h => h.1) fun _ l' m' hput => ?_
  obtain ⟨hext, hrest⟩ := hput
  have hset : Ext X { l' with tok := { l'.tok with tok := t, line := l'.mCurLine } }
      { m' with tok := { m'.tok with tok := t, line := m'.mCurLine } } := { hext with type := rfl }
  exact .ok (hset.skip (by rw [← hrest] at hn; exact hn))

theorem length_takeWhile_le (p : Char → Bool) (str : List Char) :
    (str.takeWhile p).length ≤ str.length := by
  have happ := congrArg List.length (List.takeWhile_append_dropWhile (p := p) (l := str))
  rw [List.length_append] at happ
  omega

theorem length_quoted_le (hq : m.char = quote) : (nameAt m.rest).length +
    (if (m.rest.tail.dropWhile isSymb).headD '\x00' = quote then 2 else 0) ≤ m.rest.length := by
  have hrest : m.rest = m.char :: m.rest.tail :=
    eq_cons_of_headD (show m.char ≠ '\x00' by rw [hq]; decide)
  have hlen := congrArg List.length hrest
  have happ := congrArg List.length
    (List.takeWhile_append_dropWhile (p := isSymb) (l := m.rest.tail))
  rw [List.length_cons] at hlen
  rw [List.length_append] at happ
  rw [nameAt_of_quote hq]
  split
  · rename_i hclosed
    have hne : (m.rest.tail.dropWhile isSymb).headD '\x00' ≠ '\x00' := by
      rw [hclosed]
      decide
    have hdrop := congrArg List.length (eq_cons_of_headD hne)
    rw [List.length_cons] at hdrop
    omega
  · omega

theorem getName_ext (hX : Inert X) (h : Ext X l m) (hne : m.rest ≠ []) :
    Matched (Ext X) (getName l) (getName m) := by
  have hchar := h.char fun hnil => absurd hnil hne
  have hname : nameAt l.rest = nameAt m.rest := by rw [h.rest, nameAt_append hX hne]
  by_cases hq : m.char = quote
  · have hclosed : (l.rest.tail.dropWhile isSymb).headD '\x00' = quote ↔
        (m.rest.tail.dropWhile isSymb).headD '\x00' = quote := by
      rw [h.rest, tail_append_of_ne_nil hne, dropWhile_append_inert (fun _ hc => hc) hX,
        headD_append_eq_quote hX]
    rw [getName_of_quote hq, getName_of_quote (hchar.trans hq), hname, if_congr hclosed rfl rfl]
    exact emit_ext h (length_quoted_le hq)
  · rw [getName_of_ne hq, getName_of_ne (hchar ▸ hq), hname]
    apply emit_ext h
    rw [nameAt_of_ne hq]
    exact length_takeWhile_le _ _

theorem storeNumber_ext (h : Ext X l m) (hn : digits.length ≤ m.rest.length) :
    Matched (Ext X) (storeNumber digits l) (storeNumber digits m) := by
  rw [storeNumber]
  split
  · exact .ok h
  · exact emit_ext h hn

theorem Ext.setVal (h : Ext X l m) (val : BitVec 64) (f : Bool) :
    Ext X { l with tok := { l.tok with val := val, isFloatVal := f } }
      { m with tok := { m.tok with val := val, isFloatVal := f } } :=
  { h with val := rfl, isFloatVal := rfl }

theorem length_of_isHexPrefix (h : isHexPrefix str = true) : 2 ≤ str.length := by
  have hlen := congrArg List.length (of_decide_eq_true h)
  rw [List.length_take] at hlen
  change min 2 str.length = 2 at hlen
  omega

theorem length_numberAt_le (hhex : isHexPrefix str = false) :
    (numberAt str).length ≤ str.length := by
  have happ := congrArg List.length (List.takeWhile_append_dropWhile (p := isDigit) (l := str))
  rw [List.length_append] at happ
  rw [numberAt, if_neg (by rw [hhex]; decide), List.length_append, fractionAt]
  split
  · rw [List.length_take]
    omega
  · rw [List.length_nil]
    omega

theorem getNumber_ext (hX : Inert X) (h : Ext X l m) :
    Matched (Ext X) (getNumber l) (getNumber m) := by
  have hstart : isHexPrefix l.rest = isHexPrefix m.rest := by rw [h.rest, isHexPrefix_append hX]
  cases hhex : isHexPrefix m.rest with
  | true =>
    have hlen := length_of_isHexPrefix hhex
    have hdigits : getHex (l.rest.drop 2) = getHex (m.rest.drop 2) := by
      rw [h.rest, List.drop_append_of_le_length hlen, getHex, getHex,
        takeWhile_append_inert (fun _ => isSymb_of_isHexDigit) hX]
    simp only [getNumber, bind_def, read_apply, hstart, hhex, if_true, update_apply, hdigits]
    apply storeNumber_ext ((h.skip hlen).setVal _ _)
    change ((m.rest.drop 2).takeWhile isHexDigit).length ≤ (m.skip 2).rest.length
    rw [rest_skip]
    exact length_takeWhile_le _ _
  | false =>
    have hdig : getDig l.rest = getDig m.rest := by rw [h.rest, getDig_append hX]
    cases hm : getDig m.rest with
    | none =>
      rw [getNumber_of_none (hstart.trans hhex) (hdig.trans hm), getNumber_of_none hhex hm]
      exact .fault
    | some r =>
      obtain ⟨val, digits, f⟩ := r
      have hnum := getDig_eq_some hhex hm
      simp only [getNumber, bind_def, read_apply, hstart, hhex, Bool.false_eq_true, if_false, hdig,
        hm]
      apply storeNumber_ext (h.setVal _ _)
      rw [hnum]
      exact length_numberAt_le hhex

theorem getSymbol_ext (h : Ext X l m) (hne : m.rest = [] → X = []) :
    Matched (Ext X) (getSymbol l) (getSymbol m) := by
  have hchar := h.char hne
  have hpos : m.char ≠ '\x00' → 1 ≤ m.rest.length := by
    intro hzero
    rw [eq_cons_of_headD (show m.rest.headD '\x00' ≠ '\x00' from hzero)]
    exact Nat.succ_le_succ (Nat.zero_le _)
  rw [getSymbol, bind_of_ok (read_apply _ _), bind_of_ok (read_apply _ _), hchar]
  cases hsymb : symbTok m.char with
  | some t =>
    apply emit_ext h
    apply hpos
    intro hzero
    rw [hzero] at hsymb
    cases hsymb
  | none =>
    by_cases hzero : m.char = '\x00'
    · simp only [if_pos hzero]
      exact .ok { h with type := rfl }
    · simp only [if_neg hzero]
      refine (putSymb_ext h _).bind (fun _ _ h => h.1) fun _ l' m' hput => ?_
      obtain ⟨hext, hrest⟩ := hput
      exact .ok (hext.skip (by rw [hrest]; exact hpos hzero))

def readToken : LexM Bool := do
  let c ← read char
  if isFirstSymb c ∨ c = quote then getName
  else if isDigit c then getNumber
  else getSymbol

theorem getToken_eq (l : Lexer) : getToken l = readToken l.beginToken := rfl

theorem readToken_ext (hX : Inert X) (h : Ext X l m) (hne : m.rest = [] → X = []) :
    Matched (Ext X) (readToken l) (readToken m) := by
  have hchar := h.char hne
  rw [readToken, bind_of_ok (read_apply _ _), bind_of_ok (read_apply _ _), hchar]
  split
  · rename_i hname
    apply getName_ext hX h
    intro hnil
    rw [char, hnil] at hname
    exact absurd hname (by decide)
  · split
    · exact getNumber_ext hX h
    · exact getSymbol_ext h hne

end Reading

section Slash

open Outcome (Matched)

theorem beginToken_tok (l : Lexer) : l.beginToken.tok = l.tok := by
  fun_induction beginToken l with
  | case1 l _ ih => exact ih
  | case2 l _ => rfl

theorem Ext.of_unplaced {l m : Lexer} (htok : l.tok.unplaced = m.tok.unplaced)
    (hrest : l.rest = m.rest ++ X) : Ext X l m := by
  injection htok with htype hsymb hval hfloat _
  exact ⟨htype, hsymb, hval, hfloat, hrest⟩

/-- A token that is found in the common part is read there as if the text ended behind it. -/
theorem getToken_ext {l m : Lexer} (hX : Inert X) (h : Ext X l m) (hm : ¬ Blank m.rest) :
    Matched (Ext X) (getToken l) (getToken m) := by
  have hrest : m.beginToken.rest = tokenStart false m.rest := rest_beginToken_eq m
  have hext : Ext X l.beginToken m.beginToken := by
    refine .of_unplaced ?_ ?_
    · rw [beginToken_tok, beginToken_tok, h.unplaced]
    · rw [rest_beginToken_eq, hrest, h.rest]
      rcases tokenStart_append false m.rest with ⟨-, happ⟩ | ⟨hnil, -⟩
      · exact happ X
      · exact absurd hnil hm
  exact readToken_ext hX hext fun hnil => absurd (hrest.symm.trans hnil) hm

end Slash

section Ending

variable {l : Lexer}

theorem keeps_putSymb (first : List Char) : Keeps mStream (putSymb first) := by
  intro l _ l' h
  unfold putSymb at h
  split at h
  · cases h
    rfl
  · cases h

theorem keeps_emit (t : TokType) (symb : List Char) (n : Nat) : Keeps mStream (emit t symb n) :=
  .bind (keeps_putSymb _) fun _ => .bind (.update fun _ => rfl) fun _ =>
    .bind (.update fun _ => rfl) fun _ => .pure _

theorem keeps_storeNumber (digits : List Char) : Keeps mStream (storeNumber digits) :=
  .ite (.pure _) (keeps_emit _ _ _)

theorem keeps_getNumber : Keeps mStream getNumber := by
  refine .bind (.read _) fun str => .ite ?_ ?_
  · exact .bind (.update fun _ => rfl) fun _ => .bind (.update fun _ => rfl) fun _ =>
      keeps_storeNumber _
  · split
    · exact .fault _
    · exact .bind (.update fun _ => rfl) fun _ => keeps_storeNumber _

theorem keeps_getSymbol : Keeps mStream getSymbol := by
  refine .bind (.read _) fun c => ?_
  split
  · exact keeps_emit _ _ _
  · exact .ite (.bind (.update fun _ => rfl) fun _ => .pure _)
      (.bind (keeps_putSymb _) fun _ => .bind (.update fun _ => rfl) fun _ => .pure _)

theorem getToken_mStream (h : getToken l = .ok r l') : l'.mStream = l.mStream := by
  have hkeeps : Keeps mStream getToken :=
    .bind (.update beginToken_mStream) fun _ => .bind (.read _) fun _ =>
      .ite (.bind (.read _) fun _ => .bind (.read _) fun _ => keeps_emit _ _ _)
        (.ite keeps_getNumber keeps_getSymbol)
  exact hkeeps l r l' h

end Ending

section Lines

variable {lA lB mA mB : Lexer}

/-- Two texts without a zero, and the same lines behind both. -/
structure Twins (R : List Char) (lA lB mA mB : Lexer) : Prop where
  left : Ext R lA mA
  right : Ext R lB mB
  zeroLeft : '\x00' ∉ mA.mStream
  zeroRight : '\x00' ∉ mB.mStream
  tok : mA.tok.unplaced = mB.tok.unplaced

namespace Twins

theorem next (h : Twins R lA lB mA mB) (hR : lineEnd R = R) (hA : ¬ Blank mA.rest)
    (hB : ¬ Blank mB.rest) (hfirst : tokens mA 0 = tokens mB 0)
    (hlA : getToken lA = .ok r lA') (hlB : getToken lB = .ok r lB') :
    ∃ mA' mB', getToken mA = .ok r mA' ∧ getToken mB = .ok r mB' ∧ Twins R lA' lB' mA' mB' := by
  have hleft := getToken_ext (inert_lineEnd hR) h.left hA
  have hright := getToken_ext (inert_lineEnd hR) h.right hB
  rw [hlA] at hleft
  rw [hlB] at hright
  obtain ⟨mA', hmA, hextA⟩ := hleft.ok_left
  obtain ⟨mB', hmB, hextB⟩ := hright.ok_left
  refine ⟨mA', mB', hmA, hmB, hextA, hextB, ?_, ?_, ?_⟩
  · rw [getToken_mStream hmA]
    exact h.zeroLeft
  · rw [getToken_mStream hmB]
    exact h.zeroRight
  · rw [tokens, tokens, nthCall, nthCall, hmA, hmB] at hfirst
    injection hfirst

theorem swap (h : Twins R lA lB mA mB) : Twins R lB lA mB mA :=
  ⟨h.right, h.left, h.zeroRight, h.zeroLeft, h.tok.symm⟩

end Twins

end Lines

end Lexer

namespace Comment

open Lexer

end Comment

end GvmCore
