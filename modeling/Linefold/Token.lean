import Linefold.Span

/-!
# Tokens

A token is a kind, its text and its place. The code of a kind is fixed, since editors that feed
tokens one by one name kinds by their codes.
-/

namespace Linefold

/-- The kind of a token. -/
inductive TokenKind where
  /-- The end of the input. A character that starts no token and a string without its closing quote
  count as the end, too. -/
  | eof
  | ident | num | str
  | equal
  | keyIf | keyThen | keyElse
  | binOp
  | keyCase | keyOf | keyEnd | keyLet
  | bool | null
  | leftParen | rightParen | leftBracket | rightBracket | leftBrace | rightBrace
  | minus | dot | colon | comma
  | leftAngle | rightAngle
  /-- A kind of its own, so that errors can name it; the grammar has no use for it. -/
  | asterisk
  deriving DecidableEq, Repr

namespace TokenKind

/-- Every kind, in the order of declaration. -/
def all : List TokenKind :=
  [eof, ident, num, str, equal, keyIf, keyThen, keyElse, binOp, keyCase, keyOf, keyEnd, keyLet, bool,
    null, leftParen, rightParen, leftBracket, rightBracket, leftBrace, rightBrace, minus, dot, colon,
    comma, leftAngle, rightAngle, asterisk]

/-- The number that stands for a kind. -/
def code : TokenKind → Nat
  | eof => 0x00
  | ident => 0x01
  | num => 0x02
  | str => 0x03
  | equal => 0x04
  | keyIf => 0x05
  | keyThen => 0x06
  | keyElse => 0x07
  | binOp => 0x0e
  | keyCase => 0x0f
  | keyOf => 0x10
  | keyEnd => 0x11
  | keyLet => 0x12
  | bool => 0x14
  | null => 0x15
  | asterisk => 0x2a
  | leftParen => 0xa1
  | rightParen => 0xa2
  | leftBracket => 0xa3
  | rightBracket => 0xa4
  | leftBrace => 0xa5
  | rightBrace => 0xa6
  | minus => 0xa8
  | dot => 0xa9
  | colon => 0xaa
  | comma => 0xab
  | leftAngle => 0xae
  | rightAngle => 0xaf

/-- The kind with a given code, if there is one. -/
def ofCode? (n : Nat) : Option TokenKind :=
  all.find? fun k => k.code = n

theorem ofCode?_code (k : TokenKind) : ofCode? k.code = some k := by
  cases k <;> decide

/-- The wording for a kind in syntax errors. -/
def phrase : TokenKind → String
  | eof => "the end of the program"
  | ident => "a name"
  | num => "a number"
  | str => "a string"
  | equal => "a '=' symbol"
  | keyIf => "the 'if' keyword"
  | keyThen => "the 'then' keyword"
  | keyElse => "the 'else' keyword"
  | keyCase => "the 'case' keyword"
  | keyOf => "the 'of' keyword"
  | keyEnd => "the 'end' keyword"
  | keyLet => "the 'let' keyword"
  | binOp | asterisk => "an operator"
  | leftParen => "a '('"
  | rightParen => "a ')'"
  | leftBracket => "a '['"
  | rightBracket => "a ']'"
  | leftBrace => "a '\x7b'"
  | rightBrace => "a '\x7d'"
  | leftAngle => "a '<'"
  | rightAngle => "a '>'"
  | minus => "a '-'"
  | dot => "a '.'"
  | colon => "a ':'"
  | comma => "a ','"
  | bool | null => "an expression"

/-- The kinds that can open an expression; any other closes the list it stands in. -/
def startsExpr : TokenKind → Bool
  | ident | num | str | bool | null | leftParen | leftBracket | leftBrace | leftAngle | minus
  | keyLet | keyCase | keyIf => true
  | _ => false

end TokenKind

/-- A piece of a line. -/
structure Token where
  kind : TokenKind
  lexeme : String
  span : Span
  deriving DecidableEq, Repr

/-- The end of the input, at the given place. -/
def Token.eof (span : Span) : Token := ⟨.eof, "", span⟩

end Linefold
