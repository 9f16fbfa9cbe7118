import Linefold.Proofs.Respacing.InStep

/-!
# Parsing in step

Two parses read tokens of the same kinds and lexemes, where operator words of one meaning may stand for each
other (`Token.Agrees`). They intern the same nodes, leave the same operands and the same words, and wait at
the same positions, since a place that a position remembers is only ever passed on to the pool
(`ParseState.Respaced.step`). Names in the text never hide an operator word: the scanner does not take an
operator word for a name, so that the operator words of the globals stay what they were configured to be.
-/

namespace Linefold

attribute [local irreducible] Pool.intern

/-! ### Tokens and positions -/

/-- The tokens have one kind and one lexeme, or are operators with lexemes for one operator tag. -/
def Token.Agrees (g : Scope) (t u : Token) : Prop :=
  t.kind = u.kind ∧
    (t.lexeme = u.lexeme ∨ t.kind = .binOp ∧
      (g.operator? t.lexeme).isSome ∧ g.operator? t.lexeme = g.operator? u.lexeme)

instance (g : Scope) (t u : Token) : Decidable (t.Agrees g u) := inferInstanceAs (Decidable (_ ∧ _))

/-- No operator word stands as a name. -/
def Token.Plain (g : Scope) (t : Token) : Prop := t.kind = .ident → g.operator? t.lexeme = none

namespace Token.Agrees

variable {g : Scope} {t u : Token}

theorem lexeme_eq (h : t.Agrees g u) (hk : t.kind ≠ .binOp) : t.lexeme = u.lexeme :=
  h.2.resolve_right fun hop => hk hop.1

theorem operator?_eq (h : t.Agrees g u) : g.operator? t.lexeme = g.operator? u.lexeme :=
  h.2.elim (congrArg g.operator?) fun hop => hop.2.2

theorem lexeme_eq_of_operator? (h : t.Agrees g u) (hnone : g.operator? t.lexeme = none) :
    t.lexeme = u.lexeme :=
  h.2.resolve_right fun hop => by simp [hnone] at hop

theorem refl (g : Scope) (t : Token) : t.Agrees g t := ⟨rfl, .inl rfl⟩

end Token.Agrees

/-- Operators that wait, with the same tags. -/
abbrev SameTags (ops ops' : List (Tag × Span)) : Prop := List.Forall₂ (fun a b => a.1 = b.1) ops ops'

/-- Positions that remember different places at most. The name of a definition is no operator word. -/
inductive Cont.Respaced (g : Scope) : Cont → Cont → Prop where
  | program : Respaced g .program .program
  | exprs (brk : TokenKind) (base : Nat) : Respaced g (.exprs brk base) (.exprs brk base)
  | exprsNext (brk : TokenKind) (base : Nat) : Respaced g (.exprsNext brk base) (.exprsNext brk base)
  | exprsAfterDot (brk : TokenKind) (base : Nat) :
      Respaced g (.exprsAfterDot brk base) (.exprsAfterDot brk base)
  | expr : Respaced g .expr .expr
  | letName : Respaced g .letName .letName
  | letEqual (depth : Nat) {name : String} (base : Nat) (h : g.operator? name = none) :
      Respaced g (.letEqual depth name base) (.letEqual depth name base)
  | letBody (depth : Nat) {name : String} (base : Nat) (h : g.operator? name = none) :
      Respaced g (.letBody depth name base) (.letBody depth name base)
  | params (brk : TokenKind) (base : Nat) : Respaced g (.params brk base) (.params brk base)
  | paramList (base : Nat) : Respaced g (.paramList base) (.paramList base)
  | lambdaColon (base : Nat) : Respaced g (.lambdaColon base) (.lambdaColon base)
  | lambdaEnd (base : Nat) : Respaced g (.lambdaEnd base) (.lambdaEnd base)
  | operand : Respaced g .operand .operand
  | negate (a b : Span) : Respaced g (.negate a) (.negate b)
  | binary {ops ops' : List (Tag × Span)} (h : SameTags ops ops') : Respaced g (.binary ops) (.binary ops')
  | primary : Respaced g .primary .primary
  | parenEnd (a b : Span) : Respaced g (.parenEnd a) (.parenEnd b)
  | elements : Respaced g .elements .elements
  | elementNext : Respaced g .elementNext .elementNext
  | listEnd (base : Nat) : Respaced g (.listEnd base) (.listEnd base)
  | bindings : Respaced g .bindings .bindings
  | bindingColon : Respaced g .bindingColon .bindingColon
  | bindingNext : Respaced g .bindingNext .bindingNext
  | recordEnd (base : Nat) (a b : Span) : Respaced g (.recordEnd base a) (.recordEnd base b)
  | caseClauses (base : Nat) (a b : Span) : Respaced g (.caseClauses base a) (.caseClauses base b)
  | pattern : Respaced g .pattern .pattern
  | ofColon : Respaced g .ofColon .ofColon
  | ofEnd : Respaced g .ofEnd .ofEnd
  | ifThen (base : Nat) (a b : Span) : Respaced g (.ifThen base a) (.ifThen base b)
  | ifElse (base : Nat) (a b : Span) : Respaced g (.ifElse base a) (.ifElse base b)
  | ifEnd (base : Nat) (a b : Span) : Respaced g (.ifEnd base a) (.ifEnd base b)

abbrev Cont.AllRespaced (g : Scope) : List Cont → List Cont → Prop := List.Forall₂ (Cont.Respaced g)

/-- The same offers but for places. -/
inductive Offer.Respaced (g : Scope) : Offer → Offer → Prop where
  | taken (cls : TokenClass) {next next' : List Cont} (h : Cont.AllRespaced g next next') :
      Respaced g (.taken cls next) (.taken cls next')
  | declined : Respaced g .declined .declined
  | finished (root : NodeId) : Respaced g (.finished root) (.finished root)

/-- The same has been parsed but for places, and the operator words are those of `g`. -/
structure Parsed.Respaced (g : Scope) (s t : Parsed) : Prop where
  pool : s.pool.SameNodes t.pool
  operands : s.operands = t.operands
  env : s.env = t.env
  errors : s.errors.map Diagnostic.message = t.errors.map Diagnostic.message
  words : ∀ name, s.env.globals.operator? name = g.operator? name

/-! ### Operator words -/

namespace Scope

variable {s : Scope} {name n : String} {w : Word}

theorem operator?_bind (n : String) : (s.bind name w).operator? n =
    if n = name then (match w.cls with | .operator t => some t | _ => none) else s.operator? n := by
  unfold operator? get? bind
  rw [Lexicon.find?_insert]
  by_cases h : n = name
  · rw [if_pos h, if_pos h]
    obtain ⟨cls, _⟩ := w
    cases cls <;> rfl
  · rw [if_neg h, if_neg h]

/-- A word that is no operator may have any name that is no operator word. -/
theorem operator?_bind_of_ne (hname : s.operator? name = none) (hw : w.isOperator = false) :
    (s.bind name w).operator? n = s.operator? n := by
  rw [operator?_bind]
  split
  · next h =>
    subst h
    rw [hname]
    obtain ⟨cls, _⟩ := w
    cases cls <;> first | rfl | cases hw
  · rfl

/-- A word may be replaced by one of its class. -/
theorem operator?_bind_of_get? {v : Word} (hget : s.get? name = some v) (hcls : w.cls = v.cls) :
    (s.bind name w).operator? n = s.operator? n := by
  rw [operator?_bind]
  split
  · next h =>
    subst h
    unfold operator?
    rw [hget, hcls]
    obtain ⟨cls, _⟩ := v
    cases cls <;> rfl
  · rfl

end Scope

namespace ParseM

variable {g : Scope} {t u : Token} {base : Nat} {brk : TokenKind} {a b : Span} {o o' : Offer}
  {next next' : List Cont} {α : Type} {R : α → α → Prop}

/-! ### Primitives -/

theorem inStep_ask {f f' : Parsed → α} (h : ∀ s t : Parsed, s.Respaced g t → R (f s) (f' t)) :
    InStep (Parsed.Respaced g) (ask f) (ask f') R :=
  fun s t hst => .ok hst (h s t hst)

theorem inStep_internal {fault : InternalFault} :
    InStep (Parsed.Respaced g) (internal fault) (internal fault) R :=
  .throw rfl

theorem inStep_internAt (n : Node) :
    InStep (Parsed.Respaced g) (internAt n a) (internAt n b) Eq := by
  rintro s t ⟨hpool, hoperands, henv, herrors, hwords⟩
  obtain ⟨hid, hpool⟩ := hpool.internAt n a b
  exact .ok ⟨hpool, hoperands, henv, herrors, hwords⟩ hid

theorem inStep_intern (n : Node) : InStep (Parsed.Respaced g) (intern n) (intern n) Eq := by
  rintro s t ⟨hpool, hoperands, henv, herrors, hwords⟩
  obtain ⟨hid, hpool⟩ := hpool.intern n
  exact .ok ⟨hpool, hoperands, henv, herrors, hwords⟩ hid

theorem inStep_push (id : NodeId) : InStep (Parsed.Respaced g) (push id) (push id) Eq :=
  fun _ _ h => .ok ⟨h.pool, congrArg (id :: ·) h.operands, h.env, h.errors, h.words⟩ rfl

theorem inStep_pop : InStep (Parsed.Respaced g) pop pop Eq := by
  rintro ⟨p, operands, env, errors⟩ ⟨q, _, _, errors'⟩ ⟨hpool, rfl, rfl, herrors, hwords⟩
  cases operands with
  | nil => exact .error ⟨hpool, rfl, rfl, herrors, hwords⟩ rfl
  | cons id operands => exact .ok ⟨hpool, rfl, rfl, herrors, hwords⟩ rfl

theorem inStep_height : InStep (Parsed.Respaced g) height height Eq :=
  inStep_ask fun _ _ h => congrArg List.length h.operands

theorem inStep_drainFrom : InStep (Parsed.Respaced g) (drainFrom base) (drainFrom base) Eq := by
  rintro ⟨p, operands, env, errors⟩ ⟨q, _, _, errors'⟩ ⟨hpool, rfl, rfl, herrors, hwords⟩
  exact .ok ⟨hpool, rfl, rfl, herrors, hwords⟩ rfl

theorem inStep_leave (n : Node) : InStep (Parsed.Respaced g) (leave n) (leave n) Eq :=
  (inStep_intern n).bind_eq inStep_push

theorem inStep_leaveAt (n : Node) : InStep (Parsed.Respaced g) (leaveAt n a) (leaveAt n b) Eq :=
  (inStep_internAt n).bind_eq inStep_push

/-- A definition that leaves the operator words as they are. -/
theorem inStep_define {name : String} {w : Word} (hname : g.operator? name = none)
    (hw : w.isOperator = false) : InStep (Parsed.Respaced g) (define name w) (define name w) Eq := by
  rintro ⟨p, operands, env, errors⟩ ⟨q, _, _, errors'⟩ ⟨hpool, rfl, rfl, herrors, hwords⟩
  refine .ok ⟨hpool, rfl, rfl, herrors, fun n => ?_⟩ rfl
  obtain ⟨inner, globals, limit⟩ := env
  cases inner with
  | nil => exact (Scope.operator?_bind_of_ne ((hwords name).trans hname) hw).trans (hwords n)
  | cons scope inner => exact hwords n

theorem inStep_enter {name : String} : InStep (Parsed.Respaced g) (enter name) (enter name) Eq := by
  rintro ⟨p, operands, env, errors⟩ ⟨q, _, _, errors'⟩ ⟨hpool, rfl, rfl, herrors, hwords⟩
  unfold enter Environment.enter
  by_cases h : env.limit < env.depth
  · simp only [if_pos h]
    exact .error ⟨hpool, rfl, rfl, herrors, hwords⟩ rfl
  · simp only [if_neg h]
    exact .ok ⟨hpool, rfl, rfl, herrors, hwords⟩ rfl

theorem inStep_exit {owner : ScopeOwner} :
    InStep (Parsed.Respaced g) (exit owner) (exit owner) Eq := by
  rintro ⟨p, operands, ⟨inner, globals, limit⟩, errors⟩ ⟨q, _, _, errors'⟩
    ⟨hpool, rfl, rfl, herrors, hwords⟩
  cases inner with
  | nil => exact .error ⟨hpool, rfl, rfl, herrors, hwords⟩ rfl
  | cons scope inner => exact .ok ⟨hpool, rfl, rfl, herrors, hwords⟩ rfl

theorem inStep_lookup? {name : String} :
    InStep (Parsed.Respaced g) (lookup? name) (lookup? name) Eq :=
  inStep_ask fun _ _ h => congrArg (·.lookup? name) h.env

theorem inStep_report {d d' : Diagnostic} (h : d.message = d'.message) :
    InStep (Parsed.Respaced g) (report d) (report d') Eq := by
  rintro s t ⟨hpool, hoperands, henv, herrors, hwords⟩
  refine .ok ⟨hpool, hoperands, henv, ?_, hwords⟩ rfl
  show (s.errors.push d).map _ = (t.errors.push d').map _
  rw [Array.map_push, Array.map_push, herrors, h]

/-- What follows is only done with a token of the kind. -/
theorem inStep_expect {kind : TokenKind} (h : t.Agrees g u) :
    InStep (Parsed.Respaced g) (expect kind t) (expect kind u) fun _ _ => t.kind = kind := by
  unfold expect
  rw [← h.1]
  exact .ite (fun hk => .pure hk) fun _ => .throw rfl

theorem inStep_taken {cls : TokenClass} (h : Cont.AllRespaced g next next') :
    InStep (Parsed.Respaced g) (return .taken cls next) (return .taken cls next') (Offer.Respaced g) :=
  .pure (.taken cls h)

theorem inStep_declined :
    InStep (Parsed.Respaced g) (return .declined) (return .declined) (Offer.Respaced g) :=
  .pure .declined

/-! ### Lists and operators -/

theorem inStep_finishExprs : InStep (Parsed.Respaced g) (finishExprs base) (finishExprs base) Eq :=
  inStep_drainFrom.bind_eq fun _ => inStep_leave _

theorem inStep_number? (id : NodeId) :
    InStep (Parsed.Respaced g) (ask (·.pool.number? id)) (ask (·.pool.number? id)) Eq :=
  inStep_ask fun _ _ h => h.pool.number?_eq id

theorem inStep_reduce {op op' : Tag × Span} (h : op.1 = op'.1) :
    InStep (Parsed.Respaced g) (reduce op) (reduce op') Eq := by
  refine inStep_pop.bind_eq fun b => inStep_pop.bind_eq fun a => ?_
  refine (inStep_number? a).bind_eq fun x => (inStep_number? b).bind_eq fun y => ?_
  rw [h]
  exact inStep_leaveAt _

theorem inStep_reduceWhile {prec : Nat} {ops ops' : List (Tag × Span)} (h : SameTags ops ops') :
    InStep (Parsed.Respaced g) (reduceWhile prec ops) (reduceWhile prec ops') SameTags := by
  induction h with
  | nil => exact .pure .nil
  | cons hop hops ih =>
    unfold reduceWhile
    rw [hop]
    exact .ite (fun _ => .pure (.cons hop hops)) fun _ => (inStep_reduce hop).bind_eq fun _ => ih

theorem inStep_reduceAll {ops ops' : List (Tag × Span)} (h : SameTags ops ops') :
    InStep (Parsed.Respaced g) (reduceAll ops) (reduceAll ops') Eq := by
  induction h with
  | nil => exact .pure rfl
  | cons hop _ ih => exact (inStep_reduce hop).bind_eq fun _ => ih

/-- An operator word is looked up in the globals, where the lexemes of both tokens mean one tag. -/
theorem inStep_operator? (h : t.Agrees g u) :
    InStep (Parsed.Respaced g) (operator? t) (operator? u) Eq := by
  have hlookup : InStep (Parsed.Respaced g) (ask (·.env.globals.operator? t.lexeme))
      (ask (·.env.globals.operator? u.lexeme))
      fun tag tag' => tag = tag' ∧ (tag = none → t.lexeme = u.lexeme) := by
    refine inStep_ask fun s s' hs => ?_
    rw [← hs.env, hs.words, hs.words]
    exact ⟨h.operator?_eq, h.lexeme_eq_of_operator?⟩
  unfold operator?
  rw [← h.1]
  split
  · exact .pure rfl
  · refine hlookup.bind ?_
    rintro tag _ ⟨rfl, hlexeme⟩
    cases tag with
    | some tag => exact .pure rfl
    | none =>
      rw [hlexeme rfl]
      exact .throw rfl
  · exact .pure rfl

/-! ### Primary expressions -/

theorem inStep_takeName (h : t.Agrees g u) :
    InStep (Parsed.Respaced g) (takeName t) (takeName u) (Offer.Respaced g) := by
  refine (inStep_expect h).bind fun _ _ hk => ?_
  rw [← h.lexeme_eq (by simp [hk])]
  refine inStep_lookup?.bind_eq fun word => ?_
  have hknown : InStep (Parsed.Respaced g) (ask fun s => word.bind (constant? s.pool))
      (ask fun s => word.bind (constant? s.pool)) Eq := by
    refine inStep_ask fun s s' hs => congrArg word.bind (funext fun w => ?_)
    unfold constant?
    simp only [hs.pool.get?_eq]
  refine hknown.bind_eq fun known => ?_
  have hreport : InStep (Parsed.Respaced g) (report (.nameNotFound t.span t.lexeme))
      (report (.nameNotFound u.span t.lexeme)) Eq := inStep_report rfl
  have hrest : InStep (Parsed.Respaced g)
      (do
        if word.isNone then
          report (.nameNotFound t.span t.lexeme)
          return .taken .error []
        else return .taken .reference [])
      (do
        if word.isNone then
          report (.nameNotFound u.span t.lexeme)
          return .taken .error []
        else return .taken .reference []) (Offer.Respaced g) :=
    .ite (fun _ => hreport.bind_eq fun _ => inStep_taken .nil) fun _ => inStep_taken .nil
  cases known with
  | none => exact (inStep_leaveAt _).bind_eq fun _ => hrest
  | some id => exact (inStep_push id).bind_eq fun _ => hrest

theorem inStep_takePrimary (h : t.Agrees g u) :
    InStep (Parsed.Respaced g) (takePrimary t) (takePrimary u) (Offer.Respaced g) := by
  have hliteral (cls : TokenClass) (n : Node) : InStep (Parsed.Respaced g)
      (do leaveAt n t.span; return .taken cls []) (do leaveAt n u.span; return .taken cls [])
      (Offer.Respaced g) :=
    (inStep_leaveAt n).bind_eq fun _ => inStep_taken .nil
  unfold takePrimary
  rw [← h.1]
  split
  · next hk =>
    rw [← h.lexeme_eq (by simp [hk])]
    exact hliteral _ _
  · next hk =>
    rw [← h.lexeme_eq (by simp [hk])]
    exact hliteral _ _
  · next hk =>
    rw [← h.lexeme_eq (by simp [hk])]
    exact hliteral _ _
  · exact hliteral _ _
  · exact inStep_height.bind_eq fun _ => inStep_taken (.cons .bindings (.cons (.recordEnd _ _ _) .nil))
  · exact inStep_height.bind_eq fun _ => inStep_taken (.cons (.exprs _ _) (.cons (.parenEnd _ _) .nil))
  · exact inStep_height.bind_eq fun _ => inStep_taken (.cons .elements (.cons (.listEnd _) .nil))
  · refine inStep_enter.bind_eq fun _ => inStep_height.bind_eq fun _ => ?_
    exact inStep_taken (.cons (.params _ _) (.cons (.lambdaColon _) .nil))
  · exact inStep_takeName h

theorem inStep_takeOperand (h : t.Agrees g u) :
    InStep (Parsed.Respaced g) (takeOperand t) (takeOperand u) (Offer.Respaced g) := by
  unfold takeOperand
  rw [← h.1]
  exact .ite (fun _ => inStep_taken (.cons .primary (.cons (.negate _ _) .nil)))
    fun _ => inStep_takePrimary h

theorem inStep_followedBy (hnext : Cont.AllRespaced g next next') (h : o.Respaced g o') :
    InStep (Parsed.Respaced g) (return followedBy next o) (return followedBy next' o')
      (Offer.Respaced g) := by
  cases h with
  | taken cls hfirst => exact inStep_taken (List.rel_append hfirst hnext)
  | declined => exact inStep_declined
  | finished root => exact .pure (.finished root)

theorem inStep_takeExpr (h : t.Agrees g u) :
    InStep (Parsed.Respaced g) (takeExpr t) (takeExpr u) (Offer.Respaced g) := by
  unfold takeExpr
  rw [← h.1]
  split
  · exact inStep_taken (.cons .letName .nil)
  · exact inStep_height.bind_eq fun _ => inStep_taken (.cons .expr (.cons (.caseClauses _ _ _) .nil))
  · exact inStep_height.bind_eq fun _ => inStep_taken (.cons .expr (.cons (.ifThen _ _ _) .nil))
  · exact (inStep_takeOperand h).bind fun _ _ ho => inStep_followedBy (.cons (.binary .nil) .nil) ho

theorem inStep_offerListItem (h : t.Agrees g u) :
    InStep (Parsed.Respaced g) (offerListItem brk base t) (offerListItem brk base u)
      (Offer.Respaced g) := by
  unfold offerListItem
  rw [← h.1]
  exact .ite (fun _ => inStep_finishExprs.bind_eq fun _ => inStep_declined) fun _ =>
    (inStep_takeExpr h).bind fun _ _ ho => inStep_followedBy (.cons (.exprsNext _ _) .nil) ho

theorem inStep_offerElement (h : t.Agrees g u) :
    InStep (Parsed.Respaced g) (offerElement t) (offerElement u) (Offer.Respaced g) := by
  unfold offerElement
  rw [← h.1]
  exact .ite (fun _ => inStep_declined) fun _ =>
    (inStep_takeExpr h).bind fun _ _ ho => inStep_followedBy (.cons .elementNext .nil) ho

theorem inStep_offerBinding (h : t.Agrees g u) :
    InStep (Parsed.Respaced g) (offerBinding t) (offerBinding u) (Offer.Respaced g) := by
  have hkey (cls : TokenClass) (n : Node) : InStep (Parsed.Respaced g)
      (do leaveAt n t.span; return .taken cls [.bindingColon, .bindingNext])
      (do leaveAt n u.span; return .taken cls [.bindingColon, .bindingNext]) (Offer.Respaced g) :=
    (inStep_leaveAt n).bind_eq fun _ => inStep_taken (.cons .bindingColon (.cons .bindingNext .nil))
  unfold offerBinding
  rw [← h.1]
  split
  · exact inStep_declined
  · next hk =>
    rw [← h.lexeme_eq (by simp [hk])]
    exact hkey _ _
  · refine (inStep_expect h).bind fun _ _ hk => ?_
    rw [← h.lexeme_eq (by simp [hk])]
    exact hkey _ _

/-! ### Definitions and clauses -/

theorem inStep_takeLetName (h : t.Agrees g u) (hname : t.Plain g) :
    InStep (Parsed.Respaced g) (takeLetName t) (takeLetName u) (Offer.Respaced g) := by
  refine (inStep_expect h).bind fun _ _ hk => ?_
  rw [← h.lexeme_eq (by simp [hk])]
  refine (inStep_ask (R := Eq) fun _ _ hs => congrArg Environment.depth hs.env).bind_eq fun depth => ?_
  refine (inStep_define (hname hk) rfl).bind_eq fun _ => inStep_enter.bind_eq fun _ => ?_
  exact inStep_height.bind_eq fun _ => inStep_taken (.cons (.params _ _) (.cons (.letEqual _ _ (hname hk)) .nil))

theorem inStep_finishLet {depth : Nat} {name : String} (hname : g.operator? name = none) :
    InStep (Parsed.Respaced g) (finishLet depth name base) (finishLet depth name base) Eq := by
  refine inStep_pop.bind_eq fun body => inStep_drainFrom.bind_eq fun pattern => ?_
  refine inStep_exit.bind_eq fun scope => ?_
  rintro ⟨p, operands, ⟨inner, globals, limit⟩, errors⟩ ⟨q, _, _, errors'⟩
    ⟨hpool, rfl, rfl, herrors, hwords⟩
  refine .ok ⟨hpool, rfl, rfl, herrors, fun n => ?_⟩ rfl
  show (Environment.bindAt _ _ _ _).globals.operator? n = _
  unfold Environment.bindAt
  split
  · exact (Scope.operator?_bind_of_ne ((hwords name).trans hname) rfl).trans (hwords n)
  · split <;> exact hwords n

theorem inStep_offerParam (h : t.Agrees g u) (hname : t.Plain g) :
    InStep (Parsed.Respaced g) (offerParam brk base t) (offerParam brk base u) (Offer.Respaced g) := by
  unfold offerParam
  rw [← h.1]
  refine .ite (fun _ => inStep_declined) fun _ => .ite (fun _ => ?_) fun _ => ?_
  · refine inStep_height.bind_eq fun _ => inStep_taken ?_
    exact .cons (.params _ _) (.cons (.paramList _) (.cons (.params _ _) .nil))
  · refine (inStep_expect h).bind fun _ _ hk => ?_
    rw [← h.lexeme_eq (by simp [hk])]
    have hoffset : InStep (Parsed.Respaced g) (ask (·.env.top.params.length))
        (ask (·.env.top.params.length)) Eq :=
      inStep_ask fun _ _ hs => congrArg (·.top.params.length) hs.env
    refine hoffset.bind_eq fun offset => (inStep_define (hname hk) rfl).bind_eq fun _ => ?_
    exact (inStep_leaveAt _).bind_eq fun _ => inStep_taken (.cons (.params _ _) .nil)

/-- A word is marked in the scope that it was found in, so that its class is what it was. -/
theorem inStep_mark {name : String} {list : NodeId} {k : ParseM Unit}
    (hk : InStep (Parsed.Respaced g) k k Eq) :
    InStep (Parsed.Respaced g)
      (do
        match ← ask (·.env.top.get? name) with
        | some w =>
          define name { w with patterns := [list] }
          k
        | none => k)
      (do
        match ← ask (·.env.top.get? name) with
        | some w =>
          define name { w with patterns := [list] }
          k
        | none => k) Eq := by
  rintro ⟨p, operands, env, errors⟩ ⟨q, _, _, errors'⟩ ⟨hpool, rfl, rfl, herrors, hwords⟩
  have htop : ask (·.env.top.get? name) = fun s : Parsed => .ok (s.env.top.get? name) s := rfl
  simp only [Bind.bind, EStateM.bind, htop]
  cases hw : env.top.get? name with
  | none => exact hk _ _ ⟨hpool, rfl, rfl, herrors, hwords⟩
  | some w =>
    refine hk _ _ ⟨hpool, rfl, rfl, herrors, fun n => ?_⟩
    obtain ⟨inner, globals, limit⟩ := env
    cases inner with
    | nil => exact (Scope.operator?_bind_of_get? (w := { w with patterns := [list] }) hw rfl).trans (hwords n)
    | cons scope inner => exact hwords n

theorem inStep_markPattern {list : NodeId} {ids : List NodeId} :
    InStep (Parsed.Respaced g) (markPattern list ids) (markPattern list ids) Eq := by
  induction ids with
  | nil => exact .pure rfl
  | cons id ids ih =>
    refine (inStep_ask (R := Eq) fun _ _ hs => hs.pool.get?_eq id).bind_eq fun n => ?_
    simp only
    split
    · exact inStep_mark ih
    · exact ih

theorem inStep_takeParamList (h : t.Agrees g u) :
    InStep (Parsed.Respaced g) (takeParamList base t) (takeParamList base u) (Offer.Respaced g) := by
  refine (inStep_expect h).bind fun _ _ _ => inStep_drainFrom.bind_eq fun elts => ?_
  refine (inStep_intern _).bind_eq fun list => inStep_markPattern.bind_eq fun _ => ?_
  exact (inStep_push list).bind_eq fun _ => inStep_taken .nil

theorem inStep_internNames {names : List String} :
    InStep (Parsed.Respaced g) (internNames names) (internNames names) Eq := by
  induction names with
  | nil => exact .pure rfl
  | cons name names ih => exact (inStep_intern _).bind_eq fun id => ih.bind_eq fun ids => .pure rfl

theorem inStep_takeLambdaEnd (h : t.Agrees g u) :
    InStep (Parsed.Respaced g) (takeLambdaEnd base t) (takeLambdaEnd base u) (Offer.Respaced g) := by
  refine (inStep_expect h).bind fun _ _ _ => inStep_pop.bind_eq fun body => ?_
  refine inStep_drainFrom.bind_eq fun pattern => inStep_exit.bind_eq fun scope => ?_
  refine inStep_internNames.bind_eq fun names => (inStep_intern _).bind_eq fun names => ?_
  refine (inStep_intern _).bind_eq fun pattern => (inStep_leaveAt _).bind_eq fun _ => ?_
  exact inStep_taken .nil

theorem inStep_negate : InStep (Parsed.Respaced g) (negate a) (negate b) Eq := by
  refine inStep_pop.bind_eq fun id => (inStep_number? id).bind_eq fun x => ?_
  cases x with
  | some x => exact inStep_leaveAt _
  | none => exact inStep_leaveAt _

theorem inStep_finishBinding : InStep (Parsed.Respaced g) finishBinding finishBinding Eq :=
  inStep_pop.bind_eq fun _ => inStep_pop.bind_eq fun _ => inStep_leave _

theorem inStep_takeCaseClause (h : t.Agrees g u) :
    InStep (Parsed.Respaced g) (takeCaseClause base a t) (takeCaseClause base b u)
      (Offer.Respaced g) := by
  unfold takeCaseClause
  rw [← h.1]
  refine .ite (fun _ => inStep_enter.bind_eq fun _ => inStep_taken ?_) fun _ => ?_
  · exact .cons .pattern (.cons .ofColon (.cons .ofEnd (.cons (.caseClauses _ _ _) .nil)))
  · refine (inStep_expect h).bind fun _ _ _ => inStep_drainFrom.bind_eq fun parts => ?_
    exact (inStep_leaveAt _).bind_eq fun _ => inStep_taken .nil

/-- The name of an operator that stands as a pattern could be looked up under another lexeme, but operators
are no patterns. -/
theorem inStep_takePattern (h : t.Agrees g u) (hname : t.Plain g) :
    InStep (Parsed.Respaced g) (takePattern t) (takePattern u) (Offer.Respaced g) := by
  by_cases hk : t.kind = .ident
  · unfold takePattern
    rw [← h.1, ← h.lexeme_eq (by simp [hk])]
    refine inStep_lookup?.bind_eq fun word => .ite (fun _ => ?_) fun _ => inStep_takeOperand h
    refine (inStep_internAt _).bind_eq fun id => (inStep_define (hname hk) rfl).bind_eq fun _ => ?_
    exact (inStep_push id).bind_eq fun _ => inStep_taken .nil
  · have hoperand (t : Token) (hk : t.kind ≠ .ident) : takePattern t = takeOperand t := by
      unfold takePattern
      simp only [hk, false_and, ↓reduceIte]
      rfl
    rw [hoperand t hk, hoperand u (h.1 ▸ hk)]
    exact inStep_takeOperand h

theorem inStep_finishClause : InStep (Parsed.Respaced g) finishClause finishClause Eq := by
  refine inStep_pop.bind_eq fun body => inStep_pop.bind_eq fun pattern => ?_
  refine inStep_exit.bind_eq fun scope => inStep_internNames.bind_eq fun names => ?_
  exact .ite (fun _ => inStep_leave _) fun _ => (inStep_intern _).bind_eq fun _ => inStep_leave _

theorem inStep_takeIfEnd (h : t.Agrees g u) :
    InStep (Parsed.Respaced g) (takeIfEnd base a t) (takeIfEnd base b u) (Offer.Respaced g) := by
  refine (inStep_expect h).bind fun _ _ _ => inStep_drainFrom.bind_eq fun parts => ?_
  split
  · refine (inStep_intern _).bind_eq fun _ => (inStep_intern _).bind_eq fun _ => ?_
    refine (inStep_intern _).bind_eq fun _ => (inStep_intern _).bind_eq fun _ => ?_
    exact (inStep_leaveAt _).bind_eq fun _ => inStep_taken .nil
  · exact inStep_internal

end ParseM

/-! ### Positions -/

namespace Cont

open ParseM

variable {g : Scope} {t u : Token} {c d : Cont}

theorem Respaced.reduce (h : c.Respaced g d) : InStep (Parsed.Respaced g) c.reduce d.reduce Eq := by
  cases h with
  | letBody depth base hname => exact inStep_finishLet hname
  | negate a b => exact inStep_negate
  | ofEnd => exact inStep_finishClause
  | _ => exact .pure rfl

theorem Respaced.isReduction_eq (h : c.Respaced g d) : c.isReduction = d.isReduction := by
  cases h <;> rfl

theorem Respaced.offer (hc : c.Respaced g d) (h : t.Agrees g u) (hname : t.Plain g) :
    InStep (Parsed.Respaced g) (c.offer t) (d.offer u) (Offer.Respaced g) := by
  have started (cls : TokenClass) {f f' : Nat → List Cont}
      (hf : ∀ base, AllRespaced g (f base) (f' base)) : InStep (Parsed.Respaced g)
        (do return .taken cls (f (← height))) (do return .taken cls (f' (← height)))
        (Offer.Respaced g) :=
    inStep_height.bind_eq fun base => inStep_taken (hf base)
  cases hc with
  | program =>
    refine (inStep_expect h).bind fun _ _ _ => inStep_pop.bind_eq fun exprs => ?_
    exact (inStep_intern _).bind_eq fun root => .pure (.finished root)
  | exprs brk base =>
    simp only [Cont.offer, ← h.1]
    exact .ite (fun _ => inStep_finishExprs.bind_eq fun _ => inStep_taken .nil) fun _ =>
      inStep_offerListItem h
  | exprsNext brk base =>
    simp only [Cont.offer, ← h.1]
    exact .ite (fun _ => inStep_taken (.cons (.exprsAfterDot _ _) .nil)) fun _ => inStep_offerListItem h
  | exprsAfterDot brk base => exact inStep_offerListItem h
  | expr => exact inStep_takeExpr h
  | letName => exact inStep_takeLetName h hname
  | letEqual depth base hdefined =>
    refine (inStep_expect h).bind fun _ _ _ => started .punc fun base' => ?_
    exact .cons (.exprs _ _) (.cons (.letBody _ _ hdefined) .nil)
  | params brk base => exact inStep_offerParam h hname
  | paramList base => exact inStep_takeParamList h
  | lambdaColon base =>
    refine (inStep_expect h).bind fun _ _ _ => started .punc fun base' => ?_
    exact .cons (.exprs _ _) (.cons (.lambdaEnd _) .nil)
  | lambdaEnd base => exact inStep_takeLambdaEnd h
  | operand => exact inStep_takeOperand h
  | binary hops =>
    refine (inStep_operator? h).bind_eq fun tag => ?_
    cases tag with
    | some tag =>
      refine (inStep_reduceWhile hops).bind fun _ _ hops => inStep_taken ?_
      exact .cons .operand (.cons (.binary (.cons rfl hops)) .nil)
    | none => exact (inStep_reduceAll hops).bind_eq fun _ => inStep_declined
  | primary => exact inStep_takePrimary h
  | parenEnd a b =>
    refine (inStep_expect h).bind fun _ _ _ => inStep_pop.bind_eq fun inner => ?_
    exact (inStep_leaveAt _).bind_eq fun _ => inStep_taken .nil
  | elements => exact inStep_offerElement h
  | elementNext =>
    simp only [Cont.offer, ← h.1]
    exact .ite (fun _ => inStep_taken (.cons .elements .nil)) fun _ => inStep_offerElement h
  | listEnd base =>
    refine (inStep_expect h).bind fun _ _ _ => inStep_drainFrom.bind_eq fun elts => ?_
    exact (inStep_leaveAt _).bind_eq fun _ => inStep_taken .nil
  | bindings => exact inStep_offerBinding h
  | bindingColon => exact (inStep_expect h).bind fun _ _ _ => inStep_taken (.cons .expr .nil)
  | bindingNext =>
    simp only [Cont.offer, ← h.1]
    refine inStep_finishBinding.bind_eq fun _ => .ite (fun _ => inStep_taken (.cons .bindings .nil)) ?_
    exact fun _ => inStep_offerBinding h
  | recordEnd base a b =>
    refine (inStep_expect h).bind fun _ _ _ => inStep_drainFrom.bind_eq fun elts => ?_
    exact (inStep_leaveAt _).bind_eq fun _ => inStep_taken .nil
  | caseClauses base a b => exact inStep_takeCaseClause h
  | pattern => exact inStep_takePattern h hname
  | ofColon =>
    exact (inStep_expect h).bind fun _ _ _ => started .punc fun base => .cons (.exprs _ _) .nil
  | ifThen base a b =>
    refine (inStep_expect h).bind fun _ _ _ => started .keyword fun base' => ?_
    exact .cons (.exprs _ _) (.cons (.ifElse _ _ _) .nil)
  | ifElse base a b =>
    simp only [Cont.offer, ← h.1]
    refine .ite (fun _ => started .keyword fun base' => ?_) fun _ => ?_
    · exact .cons (.exprs _ _) (.cons (.ifEnd _ _ _) .nil)
    · exact (inStep_leave _).bind_eq fun _ => inStep_takeIfEnd h
  | ifEnd base a b => exact inStep_takeIfEnd h
  | letBody depth base hdefined =>
    exact (Respaced.letBody depth base hdefined).reduce.bind_eq fun _ => inStep_declined
  | negate a b => exact (Respaced.negate a b).reduce.bind_eq fun _ => inStep_declined
  | ofEnd => exact Respaced.ofEnd.reduce.bind_eq fun _ => inStep_declined

end Cont

/-! ### Steps -/

/-- What tokens come to, but for places. -/
inductive Advance.Respaced (g : Scope) : Advance → Advance → Prop where
  | taken (cls : TokenClass) {conts conts' : List Cont} (h : Cont.AllRespaced g conts conts') :
      Respaced g (.taken cls conts) (.taken cls conts')
  | finished (root : NodeId) : Respaced g (.finished root) (.finished root)

inductive Status.Respaced : Status → Status → Prop where
  | parsing : Respaced .parsing .parsing
  | complete (root : NodeId) : Respaced (.complete root) (.complete root)
  | failed {e f : Error} (h : e.placeless = f.placeless) : Respaced (.failed e) (.failed f)

/-- The states of two parses of one text in different layouts. -/
structure ParseState.Respaced (g : Scope) (s t : ParseState) : Prop where
  conts : Cont.AllRespaced g s.conts t.conts
  operands : s.operands = t.operands
  env : s.env = t.env
  errors : s.errors.map Diagnostic.message = t.errors.map Diagnostic.message
  status : s.status.Respaced t.status
  words : ∀ name, s.env.globals.operator? name = g.operator? name

section

variable {g : Scope} {t u : Token} {conts conts' : List Cont}

theorem inStep_advance (hconts : Cont.AllRespaced g conts conts') (h : t.Agrees g u) (hname : t.Plain g) :
    InStep (Parsed.Respaced g) (advance t conts) (advance u conts') (Advance.Respaced g) := by
  induction hconts with
  | nil => exact .pure (.taken _ .nil)
  | cons hc hconts ih =>
    refine (hc.offer h hname).bind fun o o' ho => ?_
    cases ho with
    | taken cls hnext => exact .pure (.taken cls (List.rel_append hnext hconts))
    | declined => exact ih
    | finished root => exact .pure (.finished root)

theorem inStep_settle (hconts : Cont.AllRespaced g conts conts') :
    InStep (Parsed.Respaced g) (settle conts) (settle conts') (Cont.AllRespaced g) := by
  induction hconts with
  | nil => exact .pure .nil
  | cons hc hconts ih =>
    unfold settle
    rw [hc.isReduction_eq]
    exact .ite (fun _ => hc.reduce.bind_eq fun _ => ih) fun _ => .pure (.cons hc hconts)

theorem inStep_consume (hconts : Cont.AllRespaced g conts conts') (h : t.Agrees g u) (hname : t.Plain g) :
    InStep (Parsed.Respaced g) (ParseState.consume t conts) (ParseState.consume u conts')
      (Advance.Respaced g) := by
  refine (inStep_advance hconts h hname).bind fun o o' ho => ?_
  cases ho with
  | taken cls hconts => exact (inStep_settle hconts).bind fun _ _ h => .pure (.taken cls h)
  | finished root => exact .pure (.finished root)

end

namespace ParseState.Respaced

variable {g : Scope} {t u : Token} {s s' : ParseState} {p q : Pool}

theorem initial {env : Environment} (h : ∀ name, env.globals.operator? name = g.operator? name) :
    (ParseState.initial env).Respaced g (ParseState.initial env) :=
  ⟨.cons (.exprs _ _) (.cons .program .nil), rfl, rfl, rfl, .parsing, h⟩

theorem root_eq (h : s.Respaced g s') : s.root = s'.root := by
  have hstatus := h.status
  unfold ParseState.root
  generalize s.status = left, s'.status = right at hstatus ⊢
  cases hstatus <;> rfl

/-- One token of each text is read in step. -/
theorem step (h : s.Respaced g s') (hpool : p.SameNodes q) (htokens : t.Agrees g u) (hname : t.Plain g) :
    (s.step p t).2.1.Respaced g (s'.step q u).2.1 ∧
      (s.step p t).2.2.SameNodes (s'.step q u).2.2 := by
  obtain ⟨conts, operands, env, errors, status⟩ := s
  obtain ⟨conts', _, _, errors', status'⟩ := s'
  obtain ⟨hconts, rfl, rfl, herrors, hstatus, hwords⟩ := h
  cases hstatus with
  | parsing =>
    have hend := inStep_consume hconts htokens hname ⟨p, operands, env, errors⟩
      ⟨q, operands, env, errors'⟩ ⟨hpool, rfl, rfl, herrors, hwords⟩
    generalize hl : consume t conts _ = left, hr : consume u conts' _ = right at hend
    cases hend with
    | ok hst ha =>
      obtain ⟨hpool, hoperands, henv, herrors, hwords⟩ := hst
      cases ha with
      | taken cls hconts =>
        simp only [ParseState.step, hl, hr]
        exact ⟨⟨hconts, hoperands, henv, herrors, .parsing, hwords⟩, hpool⟩
      | finished root =>
        simp only [ParseState.step, hl, hr]
        exact ⟨⟨.nil, hoperands, henv, herrors, .complete root, hwords⟩, hpool⟩
    | error hst he =>
      obtain ⟨hpool, hoperands, henv, herrors, hwords⟩ := hst
      simp only [ParseState.step, hl, hr]
      exact ⟨⟨.nil, hoperands, henv, herrors, .failed he, hwords⟩, hpool⟩
  | complete root => exact ⟨⟨hconts, rfl, rfl, herrors, .complete root, hwords⟩, hpool⟩
  | failed he => exact ⟨⟨hconts, rfl, rfl, herrors, .failed he, hwords⟩, hpool⟩

end ParseState.Respaced

end Linefold
