import Mathlib.Data.List.TakeWhile
import Mathlib.Tactic.Common
import Mathlib.Tactic.IntervalCases
import Mathlib.Tactic.NormNum

/-!
# Texts of Python expressions

The part of Python's expression syntax that consists of a name with attribute steps and with subscripts
by literals: a reader of it, the literals that it reads, and `literal_eval`.
-/

namespace PyText

/-- The Unicode tables that a tokenizer needs beyond ASCII. -/
structure Tables where
  /-- `XID_Start` -/
  start : Char → Bool
  /-- `XID_Continue` -/
  continues : Char → Bool
  /-- NFKC -/
  normalForm : String → String

inductive Expr
  | name (id : String)
  | attribute (value : Expr) (attr : String)
  | subscript (value index : Expr)
  | slice (lower upper step : Option Expr)
  | str (value : String)
  | int (value : Nat)
  | none
  | neg (operand : Expr)

/-! ## Names -/

def keywords : List String :=
  ["False", "None", "True", "and", "as", "assert", "async", "await", "break", "class", "continue",
    "def", "del", "elif", "else", "except", "finally", "for", "from", "global", "if", "import", "in",
    "is", "lambda", "nonlocal", "not", "or", "pass", "raise", "return", "try", "while", "with",
    "yield"]

def isAscii (c : Char) : Bool := decide (c.toNat < 128)

/-- The tokenizer takes the characters that may belong to a name together. -/
def isNameChar (c : Char) : Bool := c.isAlphanum || decide (c = '_') || !isAscii c

namespace Tables

variable (t : Tables)

def isStart (c : Char) : Bool := if isAscii c then c.isAlpha || decide (c = '_') else t.start c

def isContinue (c : Char) : Bool :=
  if isAscii c then c.isAlphanum || decide (c = '_') else t.continues c

/-- `str.isidentifier`. -/
def isIdentifier : List Char → Bool
  | [] => false
  | c :: cs => t.isStart c && cs.all t.isContinue

/-- The parser replaces a name that is not ASCII by its normal form. -/
def normalize (name : List Char) : String :=
  if name.all isAscii then String.ofList name else t.normalForm (String.ofList name)

/-- Read a name that is not a keyword. -/
def readName (text : List Char) : Option (String × List Char) :=
  let name := text.takeWhile isNameChar
  if t.isIdentifier name && !keywords.contains (String.ofList name) then
    some (t.normalize name, text.dropWhile isNameChar)
  else none

end Tables

/-! ## Literals -/

/-- Read a decimal integer. Leading zeros are refused. -/
def readNat (text : List Char) : Option (Nat × List Char) :=
  let digits := text.takeWhile Char.isDigit
  let n := Nat.ofDigitChars 10 digits 0
  if digits = [] ∨ digits.head? = some '0' ∧ n ≠ 0 then none
  else some (n, text.dropWhile Char.isDigit)

def hexValue (c : Char) : Option Nat :=
  if c.isDigit then some (c.toNat - 48)
  else if 'a' ≤ c ∧ c ≤ 'f' then some (c.toNat - 87)
  else if 'A' ≤ c ∧ c ≤ 'F' then some (c.toNat - 55)
  else none

def charOf (n : Nat) : Option Char := if n.isValidChar then some (Char.ofNat n) else none

/-- The character that hexadecimal digits give. -/
def codePoint (digits : List Char) : Option Char :=
  (digits.mapM hexValue).bind fun values => charOf (values.foldl (fun n d => n * 16 + d) 0)

/-- Put a character, when there is one, in front of what is read after it. -/
def prepend (c : Option Char) (rest : Option (List Char × List Char)) :
    Option (List Char × List Char) :=
  c.bind fun c => rest.map fun r => (c :: r.1, r.2)

/-- Read a string up to its closing quote, with the escapes that `repr` writes. -/
def readString (q : Char) : List Char → Option (List Char × List Char)
  | '\\' :: '\\' :: rest => prepend (some '\\') (readString q rest)
  | '\\' :: '\'' :: rest => prepend (some '\'') (readString q rest)
  | '\\' :: '"' :: rest => prepend (some '"') (readString q rest)
  | '\\' :: 'n' :: rest => prepend (some '\n') (readString q rest)
  | '\\' :: 'r' :: rest => prepend (some '\r') (readString q rest)
  | '\\' :: 't' :: rest => prepend (some '\t') (readString q rest)
  | '\\' :: 'x' :: a :: b :: rest => prepend (codePoint [a, b]) (readString q rest)
  | '\\' :: 'u' :: a :: b :: c :: d :: rest => prepend (codePoint [a, b, c, d]) (readString q rest)
  | '\\' :: 'U' :: a :: b :: c :: d :: e :: f :: g :: h :: rest =>
    prepend (codePoint [a, b, c, d, e, f, g, h]) (readString q rest)
  | c :: rest =>
    if c = '\\' then none
    else if c = q then some ([], rest)
    else if c.toNat < 32 then none
    else prepend (some c) (readString q rest)
  | [] => none

/-- Read a literal. -/
def readAtom : List Char → Option (Expr × List Char)
  | '-' :: rest => (readNat rest).map fun r => (.neg (.int r.1), r.2)
  | '\'' :: rest => (readString '\'' rest).map fun r => (.str (String.ofList r.1), r.2)
  | '"' :: rest => (readString '"' rest).map fun r => (.str (String.ofList r.1), r.2)
  | 'N' :: 'o' :: 'n' :: 'e' :: rest => some (.none, rest)
  | text => (readNat text).map fun r => (.int r.1, r.2)

/-- Read a bound of a slice, which may be left out. -/
def readBound : List Char → Option (Option Expr × List Char)
  | ':' :: rest => some (none, ':' :: rest)
  | ']' :: rest => some (none, ']' :: rest)
  | text => (readAtom text).map fun r => (some r.1, r.2)

/-- Read what stands between the brackets of a subscript. -/
def readIndex (text : List Char) : Option (Expr × List Char) :=
  (readBound text).bind fun lower =>
    match lower.2 with
    | ':' :: rest => (readBound rest).bind fun upper =>
      match upper.2 with
      | ':' :: rest => (readBound rest).map fun step => (.slice lower.1 upper.1 step.1, step.2)
      | rest => some (.slice lower.1 upper.1 none, rest)
    | rest => lower.1.map fun e => (e, rest)

/-! ## Expressions -/

/-- Read the attribute steps and subscripts after an expression. -/
def readTrailers (t : Tables) : Nat → Expr → List Char → Option Expr
  | _, e, [] => some e
  | fuel + 1, e, '.' :: rest =>
    (t.readName rest).bind fun r => readTrailers t fuel (.attribute e r.1) r.2
  | fuel + 1, e, '[' :: rest =>
    (readIndex rest).bind fun r =>
      match r.2 with
      | ']' :: rest => readTrailers t fuel (.subscript e r.1) rest
      | _ => none
  | _, _, _ => none

/-- Read a name and what follows it. -/
def parse (t : Tables) (text : List Char) : Option Expr :=
  (t.readName text).bind fun r => readTrailers t text.length (.name r.1) r.2

inductive Literal
  | none
  | int (i : Int)
  | str (s : String)

/-- `literal_eval`. -/
def literalEval : Expr → Option Literal
  | .none => some .none
  | .int n => some (.int n)
  | .str s => some (.str s)
  | .neg (.int n) => some (.int (-n))
  | _ => Option.none

/-! ## The literals -/

/-- The text of one character of a string with quote `q`. -/
inductive Piece (q : Char) : List Char → Char → Prop
  | plain {c : Char} : 32 ≤ c.toNat → c ≠ q → c ≠ '\\' → Piece q [c] c
  | backslash : Piece q ['\\', '\\'] '\\'
  | single : Piece q ['\\', '\''] '\''
  | double : Piece q ['\\', '"'] '"'
  | newline : Piece q ['\\', 'n'] '\n'
  | carriage : Piece q ['\\', 'r'] '\r'
  | tab : Piece q ['\\', 't'] '\t'
  | hex {a b c : Char} : codePoint [a, b] = some c → Piece q ['\\', 'x', a, b] c
  | short {a b d e c : Char} : codePoint [a, b, d, e] = some c → Piece q ['\\', 'u', a, b, d, e] c
  | long {a b d e f g h i c : Char} : codePoint [a, b, d, e, f, g, h, i] = some c →
      Piece q ['\\', 'U', a, b, d, e, f, g, h, i] c

/-- The text between the quotes of a string. -/
inductive Body (q : Char) : List Char → List Char → Prop
  | nil : Body q [] []
  | cons {text rest value : List Char} {c : Char} :
      Piece q text c → Body q rest value → Body q (text ++ rest) (c :: value)

/-- A string literal and its value. -/
inductive StringText : List Char → List Char → Prop
  | single {body value : List Char} :
      Body '\'' body value → StringText ('\'' :: (body ++ ['\''])) value
  | double {body value : List Char} :
      Body '"' body value → StringText ('"' :: (body ++ ['"'])) value

/-- A decimal literal and its value. -/
structure NatText (digits : List Char) (n : Nat) : Prop where
  ne_nil : digits ≠ []
  isDigit : ∀ c ∈ digits, c.isDigit = true
  value : Nat.ofDigitChars 10 digits 0 = n
  leading : digits.head? = some '0' → n = 0

/-- An integer literal, which may have a sign, and its value. -/
inductive IntText : List Char → Int → Prop
  | nat {digits : List Char} {n : Nat} : NatText digits n → IntText digits n
  | neg {digits : List Char} {n : Nat} : NatText digits n → IntText ('-' :: digits) (-n)

/-- A bound of a slice. -/
inductive BoundText : List Char → Option Int → Prop
  | omitted : BoundText [] none
  | word : BoundText ['N', 'o', 'n', 'e'] none
  | int {text : List Char} {i : Int} : IntText text i → BoundText text (some i)

/-- A slice and its bounds. -/
inductive SliceText : List Char → Option Int → Option Int → Option Int → Prop
  | two {lower upper : List Char} {a b : Option Int} : BoundText lower a → BoundText upper b →
      SliceText (lower ++ ':' :: upper) a b none
  | three {lower upper step : List Char} {a b c : Option Int} : BoundText lower a →
      BoundText upper b → BoundText step c →
        SliceText (lower ++ ':' :: (upper ++ ':' :: step)) a b c

theorem readString_piece {q : Char} {text : List Char} {c : Char} (h : Piece q text c)
    (rest : List Char) : readString q (text ++ rest) = prepend (some c) (readString q rest) := by
  cases h with
  | plain hc hq hb =>
    rw [List.singleton_append, readString]
    · simp [hb, hq, Nat.not_lt.mpr hc]
    all_goals simp_all
  | backslash => rfl
  | single => rfl
  | double => rfl
  | newline => rfl
  | carriage => rfl
  | tab => rfl
  | hex hc => rw [← hc]; rfl
  | short hc => rw [← hc]; rfl
  | long hc => rw [← hc]; rfl

theorem readString_body {q : Char} (hq : q ≠ '\\') {text value : List Char} (h : Body q text value)
    (rest : List Char) : readString q (text ++ q :: rest) = some (value, rest) := by
  induction h with
  | nil =>
    rw [List.nil_append, readString]
    · simp [hq]
    all_goals simp_all
  | cons hpiece _ ih =>
    rw [List.append_assoc, readString_piece hpiece, ih]
    rfl

/-! ## Reading -/

/-- A maximal run of characters ends where another one follows. -/
theorem takeWhile_run {p : Char → Bool} {run rest : List Char} (hrun : ∀ c ∈ run, p c = true)
    (hrest : ∀ c ∈ rest.head?, p c = false) :
    (run ++ rest).takeWhile p = run ∧ (run ++ rest).dropWhile p = rest := by
  rw [List.takeWhile_append_of_pos hrun, List.dropWhile_append_of_pos hrun]
  cases rest with
  | nil => simp
  | cons c rest =>
    have hc := hrest c rfl
    simp [hc]

theorem readNat_text {digits rest : List Char} {n : Nat} (h : NatText digits n)
    (hrest : ∀ c ∈ rest.head?, c.isDigit = false) : readNat (digits ++ rest) = some (n, rest) := by
  obtain ⟨htake, hdrop⟩ := takeWhile_run h.isDigit hrest
  unfold readNat
  rw [htake, hdrop]
  dsimp only
  rw [h.value]
  refine if_neg fun hbad => ?_
  rcases hbad with hnil | ⟨hzero, hne⟩
  · exact h.ne_nil hnil
  · exact hne (h.leading hzero)

theorem readAtom_int {text rest : List Char} {i : Int} (h : IntText text i)
    (hrest : ∀ c ∈ rest.head?, c.isDigit = false) :
    ∃ e, readAtom (text ++ rest) = some (e, rest) ∧ literalEval e = some (.int i) := by
  cases h with
  | @nat digits n hn =>
    refine ⟨.int n, ?_, rfl⟩
    have hread := readNat_text hn hrest
    obtain ⟨c, cs, rfl⟩ := List.exists_cons_of_ne_nil hn.ne_nil
    have hc := hn.isDigit c (List.mem_cons_self ..)
    rw [List.cons_append] at hread ⊢
    rw [readAtom, hread]
    · rfl
    all_goals
      rintro _ heq
      injection heq with hsign
      subst hsign
      exact absurd hc (by decide)
  | neg hn =>
    refine ⟨.neg (.int _), ?_, rfl⟩
    rw [List.cons_append, readAtom, readNat_text hn hrest]
    rfl

/-- The value of a bound, which may be left out. -/
def boundEval : Option Expr → Option Literal
  | none => some .none
  | some e => literalEval e

def Literal.ofBound : Option Int → Literal
  | Option.none => .none
  | some i => .int i

/-- What follows a bound. -/
def EndsBound (rest : List Char) : Prop := rest.head? = some ':' ∨ rest.head? = some ']'

theorem EndsBound.not_digit {rest : List Char} (h : EndsBound rest) :
    ∀ c ∈ rest.head?, c.isDigit = false := by
  intro c hc
  rcases h with h | h
  all_goals
    rw [h] at hc
    cases hc
    decide

theorem IntText.first {text : List Char} {i : Int} (h : IntText text i) :
    ∃ c cs, text = c :: cs ∧ (c = '-' ∨ c.isDigit = true) := by
  cases h with
  | nat hn =>
    obtain ⟨c, cs, rfl⟩ := List.exists_cons_of_ne_nil hn.ne_nil
    exact ⟨c, cs, rfl, Or.inr (hn.isDigit c (List.mem_cons_self ..))⟩
  | neg hn => exact ⟨'-', _, rfl, Or.inl rfl⟩

/-- A text that begins with no end of a bound is read as a literal. -/
theorem readBound_of_first {c : Char} {text : List Char} (hcolon : c ≠ ':') (hclose : c ≠ ']') :
    readBound (c :: text) = (readAtom (c :: text)).map fun r => (some r.1, r.2) := by
  rw [readBound]
  · exact fun _ heq => hcolon (List.cons.inj heq).1
  · exact fun _ heq => hclose (List.cons.inj heq).1

theorem IntText.readBound_eq {text : List Char} {i : Int} (h : IntText text i) (rest : List Char) :
    readBound (text ++ rest) = (readAtom (text ++ rest)).map fun r => (some r.1, r.2) := by
  obtain ⟨c, cs, rfl, hc⟩ := h.first
  rw [List.cons_append]
  refine readBound_of_first ?_ ?_
  all_goals
    rintro rfl
    rcases hc with hc | hc <;> revert hc <;> decide

theorem readBound_text {text rest : List Char} {b : Option Int} (h : BoundText text b)
    (hrest : EndsBound rest) :
    ∃ e, readBound (text ++ rest) = some (e, rest) ∧ boundEval e = some (.ofBound b) := by
  cases h with
  | omitted =>
    refine ⟨none, ?_, rfl⟩
    rw [List.nil_append]
    cases rest with
    | nil => rcases hrest with h | h <;> cases h
    | cons c rest =>
      rcases hrest with h | h
      all_goals
        cases h
        rfl
  | word => exact ⟨some .none, rfl, rfl⟩
  | int hi =>
    obtain ⟨e, hread, heval⟩ := readAtom_int hi hrest.not_digit
    refine ⟨some e, ?_, heval⟩
    rw [hi.readBound_eq, hread]
    rfl

theorem readIndex_string {text value : List Char} (h : StringText text value) (rest : List Char) :
    readIndex (text ++ ']' :: rest) = some (.str (String.ofList value), ']' :: rest) := by
  cases h with
  | single hbody =>
    have hread := readString_body (by decide) hbody (']' :: rest)
    rw [List.cons_append, List.append_assoc, List.singleton_append, readIndex,
      readBound_of_first (by decide) (by decide), readAtom, hread]
    rfl
  | double hbody =>
    have hread := readString_body (by decide) hbody (']' :: rest)
    rw [List.cons_append, List.append_assoc, List.singleton_append, readIndex,
      readBound_of_first (by decide) (by decide), readAtom, hread]
    rfl

theorem readIndex_int {text : List Char} {i : Int} (h : IntText text i) (rest : List Char) :
    ∃ e, readIndex (text ++ ']' :: rest) = some (e, ']' :: rest) ∧ literalEval e = some (.int i) := by
  have hend : EndsBound (']' :: rest) := Or.inr rfl
  obtain ⟨e, hread, heval⟩ := readAtom_int h hend.not_digit
  refine ⟨e, ?_, heval⟩
  rw [readIndex, h.readBound_eq, hread]
  rfl

theorem readIndex_slice {text : List Char} {a b c : Option Int} (h : SliceText text a b c)
    (rest : List Char) :
    ∃ lower upper step, readIndex (text ++ ']' :: rest) = some (.slice lower upper step, ']' :: rest) ∧
      boundEval lower = some (.ofBound a) ∧ boundEval upper = some (.ofBound b) ∧
        boundEval step = some (.ofBound c) := by
  have hclose : EndsBound (']' :: rest) := Or.inr rfl
  have hcolon (text : List Char) : EndsBound (':' :: text) := Or.inl rfl
  cases h with
  | @two lowerText upperText _ _ hlower hupper =>
    obtain ⟨upper, hu, hb⟩ := readBound_text hupper hclose
    rw [List.append_assoc, List.cons_append]
    obtain ⟨lower, hl, ha⟩ := readBound_text hlower (hcolon _)
    refine ⟨lower, upper, none, ?_, ha, hb, rfl⟩
    rw [readIndex, hl, Option.bind_some]
    show (readBound (upperText ++ ']' :: rest)).bind _ = _
    rw [hu]
    rfl
  | @three lowerText upperText stepText _ _ _ hlower hupper hstep =>
    obtain ⟨step, hs, hc⟩ := readBound_text hstep hclose
    rw [List.append_assoc, List.cons_append, List.append_assoc, List.cons_append]
    obtain ⟨upper, hu, hb⟩ := readBound_text hupper (hcolon (stepText ++ ']' :: rest))
    obtain ⟨lower, hl, ha⟩ := readBound_text hlower (hcolon _)
    refine ⟨lower, upper, step, ?_, ha, hb, hc⟩
    rw [readIndex, hl, Option.bind_some]
    show (readBound (upperText ++ ':' :: (stepText ++ ']' :: rest))).bind _ = _
    rw [hu, Option.bind_some]
    show (readBound (stepText ++ ']' :: rest)).map _ = _
    rw [hs]
    rfl

namespace Tables

variable {t : Tables}

theorem isNameChar_of_isContinue {c : Char} (h : t.isContinue c = true) : isNameChar c = true := by
  unfold isContinue at h
  unfold isNameChar
  split at h
  · rw [h, Bool.true_or]
  · rename_i hascii
    simp [hascii]

theorem isNameChar_of_isStart {c : Char} (h : t.isStart c = true) : isNameChar c = true := by
  unfold isStart at h
  unfold isNameChar
  split at h
  · unfold Char.isAlphanum
    rcases Bool.or_eq_true_iff.mp h with h | h <;> simp [h]
  · rename_i hascii
    simp [hascii]

theorem isNameChar_of_isIdentifier {name : List Char} (h : t.isIdentifier name = true) :
    ∀ c ∈ name, isNameChar c = true := by
  cases name with
  | nil => cases h
  | cons c cs =>
    obtain ⟨hstart, hcontinue⟩ := Bool.and_eq_true_iff.mp h
    rw [List.forall_mem_cons]
    exact ⟨isNameChar_of_isStart hstart, fun d hd =>
      isNameChar_of_isContinue (List.all_eq_true.mp hcontinue d hd)⟩

/-- An identifier is read to its end, and is a name unless it is a keyword. -/
theorem readName_identifier {name rest : List Char} (h : t.isIdentifier name = true)
    (hrest : ∀ c ∈ rest.head?, isNameChar c = false) :
    t.readName (name ++ rest) =
      if String.ofList name ∈ keywords then none else some (t.normalize name, rest) := by
  obtain ⟨htake, hdrop⟩ := takeWhile_run (isNameChar_of_isIdentifier h) hrest
  unfold readName
  rw [htake, hdrop]
  dsimp only
  rw [h]
  by_cases hkeyword : String.ofList name ∈ keywords <;> simp [hkeyword]

end Tables

/-! ## Writing -/

/-- The digits that `str` writes. -/
theorem natText_toDigits (n : Nat) : NatText (Nat.toDigits 10 n) n where
  ne_nil := Nat.toDigits_ne_nil
  isDigit c hc := Nat.isDigit_of_mem_toDigits (by decide) (by decide) hc
  value := Nat.ofDigitChars_ten_toDigits
  leading := by
    induction n using Nat.strong_induction_on with
    | _ n ih =>
      intro hzero
      rw [Nat.toDigits_eq_if (by decide)] at hzero
      split at hzero
      · rename_i hsmall
        revert hzero
        interval_cases n <;> decide
      · rename_i hlarge
        obtain ⟨c, cs, hc⟩ := List.exists_cons_of_ne_nil (Nat.toDigits_ne_nil (n := n / 10) (b := 10))
        have := ih (n / 10) (by omega) (by
          rw [hc] at hzero ⊢
          exact hzero)
        omega

/-- An integer as `str` writes it. -/
def intText : Int → List Char
  | .ofNat n => Nat.toDigits 10 n
  | .negSucc n => '-' :: Nat.toDigits 10 (n + 1)

theorem intText_text (i : Int) : IntText (intText i) i := by
  cases i with
  | ofNat n => exact .nat (natText_toDigits n)
  | negSucc n => exact .neg (natText_toDigits (n + 1))

/-- The eight hexadecimal digits of a code point. -/
def longEscape (c : Char) : List Char :=
  let digit (k : Nat) : Char := Nat.digitChar (c.toNat / 16 ^ k % 16)
  ['\\', 'U', digit 7, digit 6, digit 5, digit 4, digit 3, digit 2, digit 1, digit 0]

theorem hexValue_digitChar {d : Nat} (h : d < 16) : hexValue (Nat.digitChar d) = some d := by
  interval_cases d <;> decide

theorem longEscape_piece (q c : Char) : Piece q (longEscape c) c := by
  have hdigit (k : Nat) : hexValue (Nat.digitChar (c.toNat / 16 ^ k % 16)) =
      some (c.toNat / 16 ^ k % 16) := hexValue_digitChar (Nat.mod_lt _ (by decide))
  have hsmall : c.toNat < 16 ^ 8 := by
    have := c.valid
    unfold UInt32.isValidChar Nat.isValidChar at this
    show c.val.toNat < _
    omega
  refine .long ?_
  unfold codePoint
  simp only [List.mapM_cons, List.mapM_nil, hdigit, Option.pure_def, Option.bind_eq_bind,
    Option.bind_some, List.foldl_cons, List.foldl_nil]
  have hvalue (n : Nat) (h : n < 16 ^ 8) :
      (((((((0 * 16 + n / 16 ^ 7 % 16) * 16 + n / 16 ^ 6 % 16) * 16 + n / 16 ^ 5 % 16) * 16 +
        n / 16 ^ 4 % 16) * 16 + n / 16 ^ 3 % 16) * 16 + n / 16 ^ 2 % 16) * 16 + n / 16 ^ 1 % 16) * 16 +
          n / 16 ^ 0 % 16 = n := by
    norm_num at h ⊢
    omega
  have hvalid : c.toNat.isValidChar := c.valid
  rw [hvalue c.toNat hsmall, charOf, if_pos hvalid, Char.ofNat_toNat]

/-- A character inside single quotes. -/
def pieceText (c : Char) : List Char :=
  if 32 ≤ c.toNat ∧ c ≠ '\'' ∧ c ≠ '\\' then [c] else longEscape c

/-- A string as a literal. -/
def stringLiteral (value : List Char) : List Char := '\'' :: (value.flatMap pieceText ++ ['\''])

theorem stringLiteral_text (value : List Char) : StringText (stringLiteral value) value := by
  refine .single ?_
  induction value with
  | nil => exact .nil
  | cons c value ih =>
    rw [List.flatMap_cons]
    refine .cons ?_ ih
    unfold pieceText
    split
    · rename_i h
      exact .plain h.1 h.2.1 h.2.2
    · exact longEscape_piece _ c

end PyText
