import Linefold.Environment
import Linefold.Text.Blank

/-!
# The scanner

A scanner holds one line, split at the cursor, and the column at which the current token starts.
`Scanner.scan` skips blanks and takes one token or comment; it takes at least one character unless
only blanks are left, so a line is exhausted after finitely many calls.
-/

namespace Linefold

/-- What one call of the scanner takes from the line. -/
inductive Lexed where
  | token (t : Token)
  | comment (span : Span)
  deriving DecidableEq, Repr

/-- One line with a cursor in it. -/
structure Scanner where
  line : Nat
  /-- The column of the current token's first character. -/
  start : Nat
  /-- What stands before the cursor, last character first. -/
  past : List Char
  /-- What stands after the cursor. -/
  rest : List Char

namespace Scanner

def ofText (line : Nat) (text : String) : Scanner := ⟨line, 0, [], text.toList⟩

/-! ### The cursor -/

/-- The column of the cursor. -/
def position (s : Scanner) : Nat := s.past.length

/-- Nothing is left after the cursor. -/
def eol (s : Scanner) : Bool := s.rest.isEmpty

def peek (s : Scanner) : Option Char := s.rest.head?

/-- Moves the cursor over one character. -/
def next (s : Scanner) : Option Char × Scanner :=
  match s.rest with
  | [] => (none, s)
  | c :: cs => (some c, { s with past := c :: s.past, rest := cs })

/-- Moves the cursor over one character of a class. -/
def eat (s : Scanner) (p : Char → Bool) : Option Char × Scanner :=
  match s.rest with
  | [] => (none, s)
  | c :: _ => if p c then s.next else (none, s)

/-- Moves the cursor over `n` characters. -/
def skip (s : Scanner) (n : Nat) : Scanner :=
  { s with past := (s.rest.take n).reverse ++ s.past, rest := s.rest.drop n }

/-- Moves the cursor over all characters of a class; true if there is one. -/
def eatWhile (s : Scanner) (p : Char → Bool) : Bool × Scanner :=
  let n := (s.rest.takeWhile p).length
  (0 < n, s.skip n)

/-- Moves the cursor back over `n` characters, at most to the start of the line. -/
def backUp (s : Scanner) (n : Nat) : Scanner :=
  { s with past := s.past.drop n, rest := (s.past.take n).reverse ++ s.rest }

/-- The text from the start of the current token to the cursor; there is none once the cursor was
moved back beyond that start. -/
def current? (s : Scanner) : Option String :=
  if s.start ≤ s.position then
    some (String.ofList (s.past.take (s.position - s.start)).reverse)
  else none

def span (s : Scanner) : Span := ⟨s.line, s.start, s.position⟩

/-! ### Character classes -/

def isLetter (c : Char) : Bool := ('a' ≤ c && c ≤ 'z') || ('A' ≤ c && c ≤ 'Z')

def isNumeric (c : Char) : Bool := '0' ≤ c && c ≤ '9'

def isNameStart (c : Char) : Bool := isLetter c || c = '_'

/-- Letters, digits and the signs that a name may hold, operator signs among them. -/
def isNameChar (c : Char) : Bool :=
  isLetter c || isNumeric c || c = '-' || c = '@' || c = '+' || c = '#' || c = '_' || c = '~'

/-- The characters that open a comment and close it again. -/
def isCommentMark (c : Char) : Bool := c = '\x60' || c = '\\' || c = '!' || c = '|'

/-- The signs that are tokens only where the lexicon has them as operator words. -/
def isOperatorSign (c : Char) : Bool := c = '+' || c = '/' || c = '%' || c = '^'

/-- The characters that are tokens by themselves. -/
def punctuation? : Char → Option TokenKind
  | '.' => some .dot
  | ',' => some .comma
  | ':' => some .colon
  | '=' => some .equal
  | '(' => some .leftParen
  | ')' => some .rightParen
  | '[' => some .leftBracket
  | ']' => some .rightBracket
  | '\x7b' => some .leftBrace
  | '\x7d' => some .rightBrace
  | '<' => some .leftAngle
  | '>' => some .rightAngle
  | '-' => some .minus
  | '*' => some .asterisk
  | _ => none

def keyword? (lexeme : String) : Option TokenKind :=
  match lexeme with
  | "let" => some .keyLet
  | "if" => some .keyIf
  | "then" => some .keyThen
  | "else" => some .keyElse
  | "case" => some .keyCase
  | "of" => some .keyOf
  | "end" => some .keyEnd
  | "true" => some .bool
  | "false" => some .bool
  | "null" => some .null
  | _ => none

/-! ### Lexemes -/

/-- The kind of a lexeme, or none for a comment. -/
abbrev LexemeKind := Option TokenKind

/-- The number of characters up to and with the first `mark`, none if there is no such character. -/
def lengthThrough? (mark : Char) (s : List Char) : Option Nat :=
  (s.findIdx? (· = mark)).map (· + 1)

/-- The kind of a name: a keyword, an operator word of the lexicon or a plain name. -/
def nameKind (globals : Scope) (lexeme : String) : TokenKind :=
  match keyword? lexeme with
  | some k => k
  | none => if (globals.operator? lexeme).isSome then .binOp else .ident

/-- The kind of an operator sign: without an operator word it stands for nothing. -/
def signKind (globals : Scope) (c : Char) : TokenKind :=
  if (globals.operator? c.toString).isSome then .binOp else .eof

/-- The lexeme that starts with `c`: its kind and the number of its further characters. -/
def lexeme (globals : Scope) (c : Char) (s : List Char) : LexemeKind × Nat :=
  match punctuation? c with
  | some k => (some k, 0)
  | none =>
    if c = '"' || c = '\x27' then
      match lengthThrough? c s with
      | some n => (some .str, n)
      | none => (some .eof, s.length)
    else if c = '/' && s.head? = some '/' then (none, s.length)
    else if isCommentMark c then (none, (lengthThrough? c s).getD s.length)
    else if isOperatorSign c then (some (signKind globals c), 0)
    else if isNameStart c then
      let cs := s.takeWhile isNameChar
      (some (nameKind globals (String.ofList (c :: cs))), cs.length)
    else if isNumeric c then (some .num, (s.takeWhile isNumeric).length)
    else (some .eof, 0)

/-! ### Scanning -/

/-- Moves the start of the current token and the cursor to the first character that is not blank. -/
def skipBlanks (s : Scanner) : Scanner :=
  let s := (s.eatWhile isBlank).2
  { s with start := s.position }

/-- Takes the next token or comment; there is none once only blanks are left. -/
def scan (s : Scanner) (globals : Scope) : Option Lexed × Scanner :=
  let s := s.skipBlanks
  match s.rest with
  | [] => (none, s)
  | c :: cs =>
    let (kind, n) := lexeme globals c cs
    let s := s.skip (n + 1)
    match kind with
    | none => (some (.comment s.span), s)
    | some k => (some (.token ⟨k, String.ofList (c :: cs.take n), s.span⟩), s)

theorem length_rest_skipBlanks_le (s : Scanner) : s.skipBlanks.rest.length ≤ s.rest.length := by
  simp [skipBlanks, eatWhile, skip]

/-- Every call but the last takes a character. -/
theorem length_rest_scan_lt {s t : Scanner} {globals : Scope} {l : Lexed}
    (h : s.scan globals = (some l, t)) : t.rest.length < s.rest.length := by
  have hs := length_rest_skipBlanks_le s
  unfold scan at h
  cases hr : s.skipBlanks.rest with
  | nil => simp [hr] at h
  | cons c cs =>
    simp only [hr] at h
    have : t = s.skipBlanks.skip ((lexeme globals c cs).2 + 1) := by
      split at h <;> exact (congrArg Prod.snd h).symm
    subst this
    simp [skip, hr] at hs ⊢
    omega

/-- The tokens and comments up to the end of the line. -/
def scanAll (s : Scanner) (globals : Scope) : List Lexed :=
  match h : s.scan globals with
  | (none, _) => []
  | (some l, t) =>
    have := length_rest_scan_lt h
    l :: t.scanAll globals
termination_by s.rest.length

end Scanner

end Linefold
