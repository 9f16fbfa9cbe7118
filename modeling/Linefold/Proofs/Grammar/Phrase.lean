import Linefold.Parser

/-!
# The grammar

`Phrase apart c w r`: the kinds `w` are a phrase of category `c` followed by `r`. It is the grammar of
the language over kinds of tokens, with one parameter. In a record a value and the next key stand
apart by a comma or by nothing, and `apart` is the category of the values after which nothing is
needed. With `.expr` for it a comma may always be left out; with `.closed` only where the value
cannot go on with the key as one more expression (`Linefold.Proofs.Grammar.Recognition`).
-/

namespace Linefold

/-- The categories of phrases. -/
inductive Category where
  | program
  | list
  /-- A list that starts with no dot. -/
  | series
  /-- What follows an expression in a list. -/
  | items
  | expr
  /-- An expression that no further expression can be taken into: anything but a definition, and a
  definition whose body is a dot. -/
  | closed
  /-- What follows the scrutinee of a case. -/
  | clauses
  /-- What follows the first branch of a conditional. -/
  | alternative
  | operand
  /-- What follows the first operand of an expression. -/
  | operators
  | primary
  /-- The elements of a bracketed list. -/
  | elements
  /-- What follows an element. -/
  | moreElements
  | bindings
  | params
  deriving DecidableEq, Repr

namespace TokenKind

/-- A kind that is an expression by itself. -/
def isAtom : TokenKind → Bool
  | num | str | bool | null | ident => true
  | _ => false

/-- A kind that can name a field. -/
def isKey : TokenKind → Bool
  | ident | str => true
  | _ => false

def isInfix : TokenKind → Bool
  | binOp | minus => true
  | _ => false

end TokenKind

inductive Phrase (apart : Category) : Category → List TokenKind → List TokenKind → Prop where
  | program {w r} : Phrase apart .list w (.eof :: r) → Phrase apart .program w r
  -- expression lists
  | dot {r} : Phrase apart .list (.dot :: r) r
  | list {w r} : Phrase apart .series w r → Phrase apart .list w r
  | nothing {r} : Phrase apart .series r r
  | series {w v r} : Phrase apart .expr w v → Phrase apart .items v r → Phrase apart .series w r
  | items {w r} : Phrase apart .series w r → Phrase apart .items w r
  | dotItems {w r} : Phrase apart .series w r → Phrase apart .items (.dot :: w) r
  -- expressions
  | definition {w v r} : Phrase apart .params w (.equal :: v) → Phrase apart .list v r →
      Phrase apart .expr (.keyLet :: .ident :: w) r
  | expr {w r} : Phrase apart .closed w r → Phrase apart .expr w r
  | dotDefinition {w r} : Phrase apart .params w (.equal :: .dot :: r) →
      Phrase apart .closed (.keyLet :: .ident :: w) r
  | case {w v r} : Phrase apart .expr w v → Phrase apart .clauses v r →
      Phrase apart .closed (.keyCase :: w) r
  | noClause {r} : Phrase apart .clauses (.keyEnd :: r) r
  | clause {w v u r} : Phrase apart .operand w (.colon :: v) → Phrase apart .list v u →
      Phrase apart .clauses u r → Phrase apart .clauses (.keyOf :: w) r
  | conditional {w v u r} : Phrase apart .expr w (.keyThen :: v) → Phrase apart .list v u →
      Phrase apart .alternative u r → Phrase apart .closed (.keyIf :: w) r
  | noAlternative {r} : Phrase apart .alternative (.keyEnd :: r) r
  | alternative {w r} : Phrase apart .list w (.keyEnd :: r) →
      Phrase apart .alternative (.keyElse :: w) r
  | operation {w v r} : Phrase apart .operand w v → Phrase apart .operators v r →
      Phrase apart .closed w r
  | noOperator {r} : Phrase apart .operators r r
  | operator {k w v r} : k.isInfix → Phrase apart .operand w v → Phrase apart .operators v r →
      Phrase apart .operators (k :: w) r
  | negative {w r} : Phrase apart .primary w r → Phrase apart .operand (.minus :: w) r
  | positive {w r} : Phrase apart .primary w r → Phrase apart .operand w r
  -- primary expressions
  | atom {k r} : k.isAtom → Phrase apart .primary (k :: r) r
  | paren {w r} : Phrase apart .list w (.rightParen :: r) →
      Phrase apart .primary (.leftParen :: w) r
  | bracketed {w r} : Phrase apart .elements w (.rightBracket :: r) →
      Phrase apart .primary (.leftBracket :: w) r
  | noElement {r} : Phrase apart .elements r r
  | element {w v r} : Phrase apart .expr w v → Phrase apart .moreElements v r →
      Phrase apart .elements w r
  | comma {w r} : Phrase apart .elements w r → Phrase apart .moreElements (.comma :: w) r
  | noComma {w r} : Phrase apart .elements w r → Phrase apart .moreElements w r
  | record {w r} : Phrase apart .bindings w (.rightBrace :: r) →
      Phrase apart .primary (.leftBrace :: w) r
  | noBinding {r} : Phrase apart .bindings r r
  | binding {k w r} : k.isKey → Phrase apart .expr w r → Phrase apart .bindings (k :: .colon :: w) r
  | bindingComma {k w v r} : k.isKey → Phrase apart .expr w (.comma :: v) →
      Phrase apart .bindings v r → Phrase apart .bindings (k :: .colon :: w) r
  | bindingApart {k w v r} : k.isKey → Phrase apart apart w v → Phrase apart .bindings v r →
      Phrase apart .bindings (k :: .colon :: w) r
  -- functions
  | lambda {w v r} : Phrase apart .params w (.colon :: v) →
      Phrase apart .list v (.rightAngle :: r) → Phrase apart .primary (.leftAngle :: w) r
  | noParam {r} : Phrase apart .params r r
  | param {w r} : Phrase apart .params w r → Phrase apart .params (.ident :: w) r
  | paramList {w v r} : Phrase apart .params w (.rightBracket :: v) → Phrase apart .params v r →
      Phrase apart .params (.leftBracket :: w) r

namespace Phrase

variable {apart : Category} {k : TokenKind} {w r : List TokenKind}

theorem startsExpr_of_operand (h : Phrase apart .operand (k :: w) r) : k.startsExpr := by
  cases h with
  | negative => rfl
  | positive h =>
    cases h with
    | atom h => cases k <;> simp_all [TokenKind.isAtom, TokenKind.startsExpr]
    | _ => rfl

/-- An expression starts with a kind that can open one. -/
theorem startsExpr_of_expr (h : Phrase apart .expr (k :: w) r) : k.startsExpr := by
  cases h with
  | definition => rfl
  | expr h =>
    cases h with
    | operation h => exact startsExpr_of_operand h
    | _ => rfl

end Phrase

end Linefold
