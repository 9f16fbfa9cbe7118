import Linefold.Proofs.Outcome

/-!
# One position at a time

A step of the parser is taken apart into turns. When it is the turn of the innermost position, it leaves the
stack, does its work and puts the positions that come next in its place; either it takes the token or it
leaves it to them. Where `Cont.offer` goes on to the positions that a position opens with the same token,
`Cont.turn` stops and lets each of them have a turn of its own. A `Moment` is a parse between two turns, and
`Moment.next` says what becomes of it: the parse rests once the token is gone and the innermost position needs
one.
-/

namespace Linefold

/-! ### Turns -/

/-- What a position does when it is its turn. -/
inductive Turn where
  /-- The token is taken; the given positions come next. -/
  | takes (cls : TokenClass) (next : List Cont)
  /-- The token is left to the given positions. -/
  | passes (next : List Cont)
  /-- The token ended the program, the root of which is given. -/
  | finishes (root : NodeId)

/-- The positions that come next. -/
def Turn.next : Turn → List Cont
  | takes _ next | passes next => next
  | finishes _ => []

def Offer.turn : Offer → Turn
  | taken cls next => .takes cls next
  | declined => .passes []
  | finished root => .finishes root

namespace ParseM

/-- At a place in a list where the list may end. -/
def turnListItem (brk : TokenKind) (base : Nat) (t : Token) : ParseM Turn := do
  if t.kind = brk ∨ t.kind.startsExpr = false then
    finishExprs base
    return .passes []
  else return .passes [.expr, .exprsNext brk base]

def turnExpr (t : Token) : ParseM Turn := do
  match t.kind with
  | .keyLet => return .takes .keyword [.letName]
  | .keyCase => return .takes .keyword [.expr, .caseClauses (← height) t.span]
  | .keyIf => return .takes .keyword [.expr, .ifThen (← height) t.span]
  | _ => return .passes [.operand, .binary []]

end ParseM

namespace Cont

open ParseM

/-- What a position does in its turn while there is a token. -/
def turn (t : Token) : Cont → ParseM Turn
  | exprs brk base => do
    if t.kind = .dot then
      finishExprs base
      return .takes .punc []
    else turnListItem brk base t
  | exprsNext brk base => do
    if t.kind = .dot then return .takes .punc [.exprsAfterDot brk base]
    else turnListItem brk base t
  | exprsAfterDot brk base => turnListItem brk base t
  | expr => turnExpr t
  | operand => do
    if t.kind = .minus then return .takes .number [.primary, .negate t.span]
    else return .passes [.primary]
  | elements => do
    if t.kind = .rightBracket then return .passes [] else return .passes [.expr, .elementNext]
  | elementNext => do
    if t.kind = .comma then return .takes .punc [.elements] else return .passes [.elements]
  | bindingNext => do
    finishBinding
    if t.kind = .comma then return .takes .punc [.bindings] else return .passes [.bindings]
  | pattern => do
    if t.kind = .ident ∧ (← lookup? t.lexeme).isNone then return (← takePattern t).turn
    else return .passes [.operand]
  | ifElse base span => do
    if t.kind = .keyElse then return .takes .keyword [.exprs .keyEnd (← height), .ifEnd base span]
    else
      leave (.branch .exprs [])
      return .passes [.ifEnd base span]
  | c => return (← c.offer t).turn

/-- What a position does in its turn. Without a token there is nothing that it can do but its reduction. -/
def resume (c : Cont) : Option Token → Option (ParseM Turn)
  | some t => some (c.turn t)
  | none => if c.isReduction then some (do c.reduce; return .passes []) else none

end Cont

/-- A position that needs no token has the same turn whatever the token. -/
theorem Cont.turn_reduction {c : Cont} {t : Token} (hc : c.isReduction) :
    (do c.reduce; return .passes []) = c.turn t := by
  have hturn : c.turn t = do return (← (do c.reduce; return Offer.declined)).turn := by
    cases c <;> first | rfl | cases hc
  rw [hturn, bind_assoc]
  rfl

theorem Cont.turn_operand_minus {t : Token} {s : Parsed} (h : t.kind = .minus) :
    Cont.turn t .operand s = .ok (.takes .number [.primary, .negate t.span]) s := by
  show (if t.kind = .minus then pure (.takes .number [.primary, .negate t.span]) else _ : ParseM Turn) s = _
  rw [if_pos h]
  rfl

theorem Cont.turn_operand_of_ne {t : Token} {s : Parsed} (h : t.kind ≠ .minus) :
    Cont.turn t .operand s = .ok (.passes [.primary]) s := by
  show (if t.kind = .minus then _ else pure (.passes [.primary]) : ParseM Turn) s = _
  rw [if_neg h]
  rfl

/-! ### Moments -/

/-- A parse between two turns. -/
structure Moment where
  /-- The token, until a position has taken it. -/
  token : Option Token
  /-- The class of the token that was taken. -/
  cls : TokenClass
  conts : List Cont
  parsed : Parsed
  /-- The root of the program once it has ended. -/
  root : Option NodeId

/-- Why a turn fails. -/
inductive Fault where
  /-- The position has no token to take. -/
  | noToken
  | error (e : Error)

/-- What becomes of a moment. -/
inductive Progress where
  | goes (m : Moment)
  /-- There is no position, or the innermost one needs a further token. -/
  | rests
  | fails (fault : Fault) (parsed : Parsed)

namespace Moment

/-- The moment after a turn that left the positions `conts` below it. -/
def after (m : Moment) (conts : List Cont) : EStateM.Result Error Parsed Turn → Progress
  | .ok (.takes cls next) s => .goes ⟨none, cls, next ++ conts, s, m.root⟩
  | .ok (.passes next) s => .goes ⟨m.token, m.cls, next ++ conts, s, m.root⟩
  | .ok (.finishes root) s => .goes ⟨none, .comment, conts, s, some root⟩
  | .error e s => .fails (.error e) s

/-- Lets the innermost position have its turn. -/
def next (m : Moment) : Progress :=
  match m.conts with
  | [] => .rests
  | c :: conts =>
    if m.token = none ∧ c.isReduction = false then .rests
    else match c.resume m.token with
      | some f => m.after conts (f m.parsed)
      | none => .fails .noToken m.parsed

/-- One turn. -/
def Turns (m m' : Moment) : Prop := m.next = .goes m'

/-- The moment after a turn. -/
def following (m : Moment) : Option Moment :=
  match m.next with
  | .goes m' => some m'
  | _ => none

/-- The state that a parse at rest is in. -/
def state (m : Moment) : ParseState where
  conts := m.conts
  operands := m.parsed.operands
  env := m.parsed.env
  errors := m.parsed.errors
  status := match m.root with
    | none => .parsing
    | some root => .complete root

variable {m m' : Moment} {t : Token} {cls : TokenClass} {c : Cont} {K : List Cont} {s : Parsed}
  {root : Option NodeId}

theorem turns_of_following (h : m.following = some m') : m.Turns m' := by
  unfold following at h
  split at h
  · next hnext =>
    cases h
    exact hnext
  · cases h

theorem next_token : next ⟨some t, cls, c :: K, s, root⟩ = after ⟨some t, cls, c :: K, s, root⟩ K (c.turn t s) := by
  simp [next, Cont.resume]

theorem turns_of_takes {cls' : TokenClass} {next : List Cont} {s' : Parsed}
    (h : c.turn t s = .ok (.takes cls' next) s') :
    Turns ⟨some t, cls, c :: K, s, root⟩ ⟨none, cls', next ++ K, s', root⟩ := by
  unfold Turns
  rw [next_token, h]
  rfl

theorem turns_of_passes {next : List Cont} {s' : Parsed} (h : c.turn t s = .ok (.passes next) s') :
    Turns ⟨some t, cls, c :: K, s, root⟩ ⟨some t, cls, next ++ K, s', root⟩ := by
  unfold Turns
  rw [next_token, h]
  rfl

theorem next_reduction (hc : c.isReduction) :
    next ⟨none, cls, c :: K, s, root⟩ = match c.reduce s with
      | .ok () s' => .goes ⟨none, cls, K, s', root⟩
      | .error e s' => .fails (.error e) s' := by
  simp only [next, Cont.resume, hc, ↓reduceIte, Bool.true_eq_false, and_false]
  unfold after
  simp only [bind, EStateM.bind, pure, EStateM.pure]
  cases c.reduce s <;> rfl

theorem next_eq_rests (hc : c.isReduction = false) : next ⟨none, cls, c :: K, s, root⟩ = .rests := by
  simp [next, hc]

/-- A parse rests, or it is the turn of the innermost position, which has a token or needs none. -/
theorem next_cases (m : Moment) : m.next = .rests ∨ ∃ t c K, m.conts = c :: K ∧
    (m.token = some t ∨ m.token = none ∧ c.isReduction) ∧ m.next = m.after K (c.turn t m.parsed) := by
  obtain ⟨token, cls, conts, s, root⟩ := m
  cases conts with
  | nil => exact .inl rfl
  | cons c K =>
    cases token with
    | some t => exact .inr ⟨t, c, K, rfl, .inl rfl, next_token⟩
    | none =>
      cases hc : c.isReduction with
      | false => exact .inl (next_eq_rests hc)
      | true =>
        let t : Token := ⟨.eof, "", .zero⟩
        refine .inr ⟨t, c, K, rfl, .inr ⟨rfl, hc⟩, ?_⟩
        rw [← Cont.turn_reduction hc]
        simp [next, Cont.resume, hc]

theorem conts_of_after {a : Turn} (h : m.after K (.ok a s) = .goes m') : m'.conts = a.next ++ K := by
  cases a <;> cases h <;> rfl

/-- A turn is that of the innermost position, which has a token or needs none. -/
theorem Turns.exists_turn (h : m.Turns m') : ∃ t c K a, m.conts = c :: K ∧
    (m.token = some t ∨ m.token = none ∧ c.isReduction) ∧ c.turn t m.parsed = .ok a m'.parsed ∧
    m.after K (.ok a m'.parsed) = .goes m' := by
  unfold Turns at h
  rcases m.next_cases with hrests | ⟨t, c, K, hconts, htoken, hnext⟩
  · cases hrests.symm.trans h
  · rw [hnext] at h
    cases hturn : c.turn t m.parsed with
    | ok a s =>
      rw [hturn] at h
      obtain rfl : m'.parsed = s := by cases a <;> cases h <;> rfl
      exact ⟨t, c, K, a, hconts, htoken, hturn, h⟩
    | error e s =>
      rw [hturn] at h
      cases h

/-- A turn without a token is only ever had by a position that needs none. -/
theorem next_ne_noToken (m : Moment) (s : Parsed) : m.next ≠ .fails .noToken s := by
  rcases m.next_cases with h | ⟨t, c, K, -, -, h⟩
  · simp [h]
  · rw [h]
    unfold after
    split <;> simp

/-- A token that is gone stays gone. -/
theorem token_eq_none_of_next (h : m.next = .goes m') (hm : m.token = none) : m'.token = none := by
  rcases m.next_cases with hrests | ⟨t, c, K, -, -, hnext⟩
  · cases hrests.symm.trans h
  · rw [hnext] at h
    unfold after at h
    split at h <;> cases h <;> first | exact hm | rfl

end Moment

end Linefold
