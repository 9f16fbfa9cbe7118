import Linefold.Parser.Continuation
import Linefold.Parser.Parsed

/-!
# The grammar

`Cont.offer` says what a suspended position does with a token: it takes it and leaves positions for
what has to follow, or it is through and leaves the token to the position around it, or it fails.

    program = list end-of-input
    list    = nothing | "." | expr ("."? expr)* "."?
    expr    = "let" name param* "=" list
            | "case" expr ("of" operand ":" list)* "end"
            | "if" expr "then" list ("else" list)? "end"
            | operand (operator operand)*
    operand = "-"? primary
    param   = name | "[" param* "]"
    primary = number | string | boolean | "null" | name | "(" list ")"
            | "[" (expr ","?)* "]" | record | "<" param* ":" list ">"

A record holds bindings of a name or string to an expression, between braces.
-/

namespace Linefold

/-- What a position does with a token. -/
inductive Offer where
  /-- The token is taken; the given positions come next. -/
  | taken (cls : TokenClass) (next : List Cont)
  /-- The position is through without the token. -/
  | declined
  /-- The token ended the program, the root of which is given. -/
  | finished (root : NodeId)
  deriving DecidableEq, Repr

namespace ParseM

/-! ### Tokens -/

/-- Fails unless the token is of a kind. -/
def expect (kind : TokenKind) (t : Token) : ParseM Unit :=
  if t.kind = kind then pure () else throw (.unexpected kind t.kind t.span)

/-- Takes a token of a kind. -/
def take (kind : TokenKind) (t : Token) (cls : TokenClass) (next : List Cont) : ParseM Offer := do
  expect kind t
  return .taken cls next

/-! ### Lists and operators -/

/-- Collects the expressions of a list. -/
def finishExprs (base : Nat) : ParseM Unit := do leave (.branch .exprs (← drainFrom base))

/-- Combines the two topmost operands. Arithmetic on two numbers is computed on the spot. -/
def reduce (op : Tag × Span) : ParseM Unit := do
  let b ← pop
  let a ← pop
  let x ← ask (·.pool.number? a)
  let y ← ask (·.pool.number? b)
  let value : Option Node := do return .num (← Number.arithmetic? op.1 (← x) (← y))
  leaveAt (value.getD (.branch op.1 [a, b])) op.2

/-- Combines operands as long as the innermost operator binds at least as tightly as `prec`. Gives
the operators left. -/
def reduceWhile (prec : Nat) : List (Tag × Span) → ParseM (List (Tag × Span))
  | [] => return []
  | op :: ops =>
    if op.1.precedence < prec then return op :: ops
    else do
      reduce op
      reduceWhile prec ops

def reduceAll : List (Tag × Span) → ParseM Unit
  | [] => return ()
  | op :: ops => do
    reduce op
    reduceAll ops

/-- The infix operator that a token stands for. -/
def operator? (t : Token) : ParseM (Option Tag) := do
  match t.kind with
  | .minus => return some .sub
  | .binOp =>
    match ← ask (·.env.globals.operator? t.lexeme) with
    | some tag => return some tag
    | none => internal (.notAnOperator t.lexeme)
  | _ => return none

/-! ### Primary expressions -/

/-- The text of a string token: what stands between its first and last character. A token that does
not start and end with ASCII characters has an empty text. -/
def unquote (lexeme : String) : String :=
  match lexeme.toList with
  | a :: b :: cs =>
    if a.toNat < 0x80 ∧ ((b :: cs).getLast (List.cons_ne_nil b cs)).toNat < 0x80 then
      String.ofList (b :: cs).dropLast
    else ""
  | _ => ""

/-- The literal that a function without parameters stands for, if its body is a single literal. -/
def constant? (p : Pool) (w : Word) : Option NodeId :=
  if w.cls = .function ∧ w.arity = 0 then
    match p.get? w.nid with
    | some (.branch .exprs [only]) => if (p.get? only).any Node.isLiteral then some only else none
    | _ => none
  else none

/-- Takes a name. One that no scope defines is a soft error. -/
def takeName (t : Token) : ParseM Offer := do
  expect .ident t
  let word ← lookup? t.lexeme
  let known ← ask fun s => word.bind (constant? s.pool)
  match known with
  | some id => push id
  | none => leaveAt (.ident t.lexeme) t.span
  if word.isNone then
    report (.nameNotFound t.span t.lexeme)
    return .taken .error []
  else
    return .taken .reference []

def takePrimary (t : Token) : ParseM Offer := do
  match t.kind with
  | .num =>
    leaveAt (.num (.ofText t.lexeme)) t.span
    return .taken .number []
  | .str =>
    leaveAt (.str (unquote t.lexeme)) t.span
    return .taken .string []
  | .bool =>
    leaveAt (.bool (t.lexeme = "true")) t.span
    return .taken .number []
  | .null =>
    leaveAt .null t.span
    return .taken .number []
  | .leftBrace => return .taken .punc [.bindings, .recordEnd (← height) t.span]
  | .leftParen => return .taken .punc [.exprs .rightParen (← height), .parenEnd t.span]
  | .leftBracket => return .taken .punc [.elements, .listEnd (← height)]
  | .leftAngle =>
    enter "lambda"
    let base ← height
    return .taken .punc [.params .colon base, .lambdaColon base]
  | _ => takeName t

def takeOperand (t : Token) : ParseM Offer :=
  if t.kind = .minus then return .taken .number [.primary, .negate t.span] else takePrimary t

/-- The offer with further positions after those that it leaves. -/
def followedBy (next : List Cont) : Offer → Offer
  | .taken cls first => .taken cls (first ++ next)
  | offer => offer

def takeExpr (t : Token) : ParseM Offer := do
  match t.kind with
  | .keyLet => return .taken .keyword [.letName]
  | .keyCase => return .taken .keyword [.expr, .caseClauses (← height) t.span]
  | .keyIf => return .taken .keyword [.expr, .ifThen (← height) t.span]
  | _ => return followedBy [.binary []] (← takeOperand t)

/-- At a place in a list where the list may end. -/
def offerListItem (brk : TokenKind) (base : Nat) (t : Token) : ParseM Offer := do
  if t.kind = brk ∨ t.kind.startsExpr = false then
    finishExprs base
    return .declined
  else
    return followedBy [.exprsNext brk base] (← takeExpr t)

def offerElement (t : Token) : ParseM Offer := do
  if t.kind = .rightBracket then return .declined
  else return followedBy [.elementNext] (← takeExpr t)

def offerBinding (t : Token) : ParseM Offer := do
  match t.kind with
  | .rightBrace => return .declined
  | .str =>
    leaveAt (.str (unquote t.lexeme)) t.span
    return .taken .string [.bindingColon, .bindingNext]
  | _ =>
    expect .ident t
    leaveAt (.ident t.lexeme) t.span
    return .taken .definition [.bindingColon, .bindingNext]

/-! ### Definitions and clauses -/

/-- Starts a definition: the name is known from here on, its parameters in a scope of their own. -/
def takeLetName (t : Token) : ParseM Offer := do
  expect .ident t
  let depth ← ask (·.env.depth)
  define t.lexeme (.function t.lexeme)
  enter t.lexeme
  let base ← height
  return .taken .definition [.params .equal base, .letEqual (depth - 1) t.lexeme base]

/-- Ends a definition: the word gets its body and keeps the scope of its parameters. -/
def finishLet (depth : Nat) (name : String) (base : Nat) : ParseM Unit := do
  let body ← pop
  let pattern ← drainFrom base
  let scope ← exit .letDefinition
  let word : Word := {
    Word.function name with
    nid := body
    arity := pattern.length
    closure := some { lexicon := scope.lexicon, params := scope.params, pattern } }
  modify fun s => { s with env := s.env.bindAt depth name word }

/-- Takes a parameter or the end of the parameters. Offsets run on through nested patterns. -/
def offerParam (brk : TokenKind) (base : Nat) (t : Token) : ParseM Offer := do
  if t.kind = brk then return .declined
  else if t.kind = .leftBracket then
    let inner ← height
    return .taken .punc [.params .rightBracket inner, .paramList inner, .params brk base]
  else
    expect .ident t
    let offset ← ask (·.env.top.params.length)
    define t.lexeme (.value t.lexeme offset)
    leaveAt (.ident t.lexeme) t.span
    return .taken .param [.params brk base]

/-- Records a list pattern in the words of the names in it. -/
def markPattern (list : NodeId) : List NodeId → ParseM Unit
  | [] => return ()
  | id :: ids => do
    match ← ask (·.pool.get? id) with
    | some (.ident name) =>
      match ← ask (·.env.top.get? name) with
      | some w => define name { w with patterns := [list] }
      | none => pure ()
    | _ => pure ()
    markPattern list ids

def takeParamList (base : Nat) (t : Token) : ParseM Offer := do
  expect .rightBracket t
  let elts ← drainFrom base
  let list ← intern (.branch .list elts)
  markPattern list elts
  push list
  return .taken .punc []

def takeLambdaEnd (base : Nat) (t : Token) : ParseM Offer := do
  expect .rightAngle t
  let body ← pop
  let pattern ← drainFrom base
  let scope ← exit .lambda
  let names ← internNames scope.params
  let names ← intern (.branch .list names)
  let pattern ← intern (.branch .list pattern)
  leaveAt (.branch .lambda [names, body, pattern]) t.span
  return .taken .punc []

/-- Negates the topmost operand; a number is negated on the spot. -/
def negate (span : Span) : ParseM Unit := do
  let a ← pop
  match ← ask (·.pool.number? a) with
  | some x => leaveAt (.num x.neg) span
  | none => leaveAt (.branch .neg [a]) span

def finishBinding : ParseM Unit := do
  let value ← pop
  let key ← pop
  leave (.branch .binding [key, value])

def takeCaseClause (base : Nat) (span : Span) (t : Token) : ParseM Offer := do
  if t.kind = .keyOf then
    enter "case"
    return .taken .keyword [.pattern, .ofColon, .ofEnd, .caseClauses base span]
  else
    expect .keyEnd t
    leaveAt (.branch .case (← drainFrom base)) span
    return .taken .keyword []

/-- Takes the start of a clause's pattern. A name that no scope defines binds the scrutinee. -/
def takePattern (t : Token) : ParseM Offer := do
  if t.kind = .ident ∧ (← lookup? t.lexeme).isNone then
    let id ← internAt (.ident t.lexeme) t.span
    define t.lexeme { Word.value t.lexeme 0 with patterns := [id] }
    push id
    return .taken .param []
  else takeOperand t

/-- Ends a clause. One that binds its pattern lists the names that it binds. -/
def finishClause : ParseM Unit := do
  let body ← pop
  let pattern ← pop
  let scope ← exit .clause
  let names ← internNames scope.params
  if names.isEmpty then leave (.branch .of [pattern, body])
  else
    let names ← intern (.branch .list names)
    leave (.branch .of [pattern, body, names])

/-- Ends a conditional, which is a case on the two booleans. -/
def takeIfEnd (base : Nat) (span : Span) (t : Token) : ParseM Offer := do
  expect .keyEnd t
  match ← drainFrom base with
  | [condition, yes, no] =>
    let true_ ← intern (.bool true)
    let false_ ← intern (.bool false)
    let yes ← intern (.branch .of [true_, yes])
    let no ← intern (.branch .of [false_, no])
    leaveAt (.branch .case [condition, yes, no]) span
    return .taken .keyword []
  | _ => internal .malformedConditional

end ParseM

namespace Cont

open ParseM

/-- Does what a position has to do that needs no token. -/
def reduce : Cont → ParseM Unit
  | letBody depth name base => finishLet depth name base
  | negate span => ParseM.negate span
  | ofEnd => finishClause
  | _ => return ()

/-- What a position does with a token. -/
def offer (t : Token) : Cont → ParseM Offer
  | program => do
    expect .eof t
    let exprs ← pop
    return .finished (← intern (.branch .prog [exprs]))
  | exprs brk base => do
    if t.kind = .dot then
      finishExprs base
      return .taken .punc []
    else offerListItem brk base t
  | exprsNext brk base =>
    if t.kind = .dot then return .taken .punc [.exprsAfterDot brk base]
    else offerListItem brk base t
  | exprsAfterDot brk base => offerListItem brk base t
  | expr => takeExpr t
  | letName => takeLetName t
  | letEqual depth name base => do
    expect .equal t
    return .taken .punc [.exprs .dot (← height), .letBody depth name base]
  | params brk base => offerParam brk base t
  | paramList base => takeParamList base t
  | lambdaColon base => do
    expect .colon t
    return .taken .punc [.exprs .rightAngle (← height), .lambdaEnd base]
  | lambdaEnd base => takeLambdaEnd base t
  | operand => takeOperand t
  | binary ops => do
    match ← operator? t with
    | some tag =>
      let ops ← reduceWhile tag.precedence ops
      return .taken .operator [.operand, .binary ((tag, t.span) :: ops)]
    | none =>
      reduceAll ops
      return .declined
  | primary => takePrimary t
  | parenEnd span => do
    expect .rightParen t
    leaveAt (.branch .paren [← pop]) span
    return .taken .punc []
  | elements => offerElement t
  | elementNext =>
    if t.kind = .comma then return .taken .punc [.elements] else offerElement t
  | listEnd base => do
    expect .rightBracket t
    leaveAt (.branch .list (← drainFrom base)) t.span
    return .taken .punc []
  | bindings => offerBinding t
  | bindingColon => take .colon t .punc [.expr]
  | bindingNext => do
    finishBinding
    if t.kind = .comma then return .taken .punc [.bindings] else offerBinding t
  | recordEnd base span => do
    expect .rightBrace t
    leaveAt (.branch .record (← drainFrom base)) span
    return .taken .punc []
  | caseClauses base span => takeCaseClause base span t
  | pattern => takePattern t
  | ofColon => do
    expect .colon t
    return .taken .punc [.exprs .keyOf (← height)]
  | ifThen base span => do
    expect .keyThen t
    return .taken .keyword [.exprs .keyElse (← height), .ifElse base span]
  | ifElse base span => do
    if t.kind = .keyElse then return .taken .keyword [.exprs .keyEnd (← height), .ifEnd base span]
    else
      leave (.branch .exprs [])
      takeIfEnd base span t
  | ifEnd base span => takeIfEnd base span t
  | c => do
    c.reduce
    return .declined

end Cont

end Linefold
