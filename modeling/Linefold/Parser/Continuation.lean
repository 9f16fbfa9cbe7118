import Linefold.Tag
import Linefold.Token

/-!
# Suspended grammar positions

A parse is suspended as a stack of continuations, innermost first. `base` is the height that the
operand stack had when a construct began: what the construct collects lies above it. `brk` is the kind
of the token that ends a list from outside.
-/

namespace Linefold

/-- How an editor shows a token. -/
inductive TokenClass where
  | keyword | number | string | reference | operator | punc | definition | param | comment | error
  deriving DecidableEq, Repr

/-- The written form of a class. -/
def TokenClass.name : TokenClass → String
  | keyword => "keyword"
  | number => "number"
  | string => "string"
  | reference => "variable"
  | operator => "operator"
  | punc => "punc"
  | definition => "def"
  | param => "param"
  | comment => "comment"
  | error => "error"

/-- A position in the grammar that waits for its next token. -/
inductive Cont where
  | program
  /-- At the start of an expression list. -/
  | exprs (brk : TokenKind) (base : Nat)
  /-- After an expression of a list. -/
  | exprsNext (brk : TokenKind) (base : Nat)
  /-- After an expression of a list and a dot. -/
  | exprsAfterDot (brk : TokenKind) (base : Nat)
  | expr
  | letName
  | letEqual (depth : Nat) (name : String) (base : Nat)
  /-- After the body of a definition, which needs no token. -/
  | letBody (depth : Nat) (name : String) (base : Nat)
  | params (brk : TokenKind) (base : Nat)
  /-- At the end of a list pattern. -/
  | paramList (base : Nat)
  | lambdaColon (base : Nat)
  | lambdaEnd (base : Nat)
  | operand
  /-- After an operand with a sign, which needs no token. -/
  | negate (span : Span)
  /-- After an operand; `ops` are the operators that wait for their right sides, innermost first. -/
  | binary (ops : List (Tag × Span))
  | primary
  | parenEnd (span : Span)
  /-- Before an element of a list or its end. -/
  | elements
  | elementNext
  | listEnd (base : Nat)
  /-- Before a binding of a record or its end. -/
  | bindings
  | bindingColon
  | bindingNext
  | recordEnd (base : Nat) (span : Span)
  | caseClauses (base : Nat) (span : Span)
  | pattern
  | ofColon
  /-- After the body of a clause, which needs no token. -/
  | ofEnd
  | ifThen (base : Nat) (span : Span)
  | ifElse (base : Nat) (span : Span)
  | ifEnd (base : Nat) (span : Span)
  deriving DecidableEq, Repr

/-- The position works on what has been parsed already. -/
def Cont.isReduction : Cont → Bool
  | letBody .. | negate _ | ofEnd => true
  | _ => false

end Linefold
