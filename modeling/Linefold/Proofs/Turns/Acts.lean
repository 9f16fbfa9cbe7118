import Linefold.Proofs.Operands.Ready
import Linefold.Proofs.Turns.Turn

/-!
# What a turn does to scopes and soft errors

`acts_turn` says all that a turn can do apart from operands and nodes: the positions that come next, the
scopes, and the soft errors that are reported. Most turns leave the scopes as they are (`Still`); the others
are listed in `Acts`. A turn can blame a missing scope only if its position closes one and there is none.
-/

namespace Linefold

/-- The finished word of a definition: its body, and the scope and patterns of its parameters. -/
def Word.defined (name : String) (body : NodeId) (pattern : List NodeId) (scope : Scope) : Word :=
  { Word.function name with
    nid := body
    arity := pattern.length
    closure := some { lexicon := scope.lexicon, params := scope.params, pattern } }

/-- Some words of the innermost scope are given patterns. -/
inductive Environment.Remembers : Environment → Environment → Prop where
  | refl {e} : Remembers e e
  | step {e e' : Environment} {name w patterns} : e.top.get? name = some w →
      Remembers (e.bind name { w with patterns }) e' → Remembers e e'

/-- The places in a list where it may end, for a token other than a dot where a dot is looked for. -/
inductive ListPlace (t : Token) (brk : TokenKind) (base : Nat) : Cont → Prop where
  | first : t.kind ≠ .dot → ListPlace t brk base (.exprs brk base)
  | next : t.kind ≠ .dot → ListPlace t brk base (.exprsNext brk base)
  | afterDot : ListPlace t brk base (.exprsAfterDot brk base)

/-- The turns that leave the scopes and report nothing. -/
inductive Still (t : Token) (e : Environment) : Cont → Turn → Prop where
  | program {root} : t.kind = .eof → Still t e .program (.finishes root)
  -- lists
  | dotList {brk base} : t.kind = .dot → Still t e (.exprs brk base) (.takes .punc [])
  | dot {brk base} : t.kind = .dot → Still t e (.exprsNext brk base) (.takes .punc [.exprsAfterDot brk base])
  | endOfList {c brk base} : ListPlace t brk base c → t.kind = brk ∨ t.kind.startsExpr = false →
      Still t e c (.passes [])
  | item {c brk base} : ListPlace t brk base c → t.kind.startsExpr → Still t e c (.passes [.expr, .exprsNext brk base])
  -- expressions
  | definition : t.kind = .keyLet → Still t e .expr (.takes .keyword [.letName])
  | case {b} : t.kind = .keyCase → Still t e .expr (.takes .keyword [.expr, .caseClauses b t.span])
  | conditional {b} : t.kind = .keyIf → Still t e .expr (.takes .keyword [.expr, .ifThen b t.span])
  | operation : t.kind ≠ .keyLet → t.kind ≠ .keyCase → t.kind ≠ .keyIf →
      Still t e .expr (.passes [.operand, .binary []])
  | letEqual {d name base b} : t.kind = .equal →
      Still t e (.letEqual d name base) (.takes .punc [.exprs .dot b, .letBody d name base])
  | noParam {brk base} : t.kind = brk → Still t e (.params brk base) (.passes [])
  | paramList {brk base b} : t.kind ≠ brk → t.kind = .leftBracket →
      Still t e (.params brk base) (.takes .punc [.params .rightBracket b, .paramList b, .params brk base])
  | lambdaColon {base b} : t.kind = .colon →
      Still t e (.lambdaColon base) (.takes .punc [.exprs .rightAngle b, .lambdaEnd base])
  | negative : t.kind = .minus → Still t e .operand (.takes .number [.primary, .negate t.span])
  | positive : t.kind ≠ .minus → Still t e .operand (.passes [.primary])
  | negate {span} : Still t e (.negate span) (.passes [])
  | operator {ops ops'} : t.kind.isInfix → Still t e (.binary ops) (.takes .operator [.operand, .binary ops'])
  | noOperator {ops} : t.kind.isInfix = false → Still t e (.binary ops) (.passes [])
  -- primary expressions
  | literal {cls} : t.kind.isAtom → t.kind ≠ .ident → Still t e .primary (.takes cls [])
  | record {b} : t.kind = .leftBrace → Still t e .primary (.takes .punc [.bindings, .recordEnd b t.span])
  | paren {b} : t.kind = .leftParen → Still t e .primary (.takes .punc [.exprs .rightParen b, .parenEnd t.span])
  | bracketed {b} : t.kind = .leftBracket → Still t e .primary (.takes .punc [.elements, .listEnd b])
  | name : t.kind = .ident → (e.lookup? t.lexeme).isSome → Still t e .primary (.takes .reference [])
  | parenEnd {span} : t.kind = .rightParen → Still t e (.parenEnd span) (.takes .punc [])
  | noElement : t.kind = .rightBracket → Still t e .elements (.passes [])
  | element : t.kind ≠ .rightBracket → Still t e .elements (.passes [.expr, .elementNext])
  | elementComma : t.kind = .comma → Still t e .elementNext (.takes .punc [.elements])
  | elementNext : t.kind ≠ .comma → Still t e .elementNext (.passes [.elements])
  | listEnd {base} : t.kind = .rightBracket → Still t e (.listEnd base) (.takes .punc [])
  | noBinding : t.kind = .rightBrace → Still t e .bindings (.passes [])
  | key {cls} : t.kind.isKey → Still t e .bindings (.takes cls [.bindingColon, .bindingNext])
  | bindingColon : t.kind = .colon → Still t e .bindingColon (.takes .punc [.expr])
  | bindingComma : t.kind = .comma → Still t e .bindingNext (.takes .punc [.bindings])
  | bindingNext : t.kind ≠ .comma → Still t e .bindingNext (.passes [.bindings])
  | recordEnd {base span} : t.kind = .rightBrace → Still t e (.recordEnd base span) (.takes .punc [])
  -- cases and conditionals
  | caseEnd {base span} : t.kind = .keyEnd → Still t e (.caseClauses base span) (.takes .keyword [])
  | pattern : ¬ (t.kind = .ident ∧ (e.lookup? t.lexeme).isNone) → Still t e .pattern (.passes [.operand])
  | ofColon {b} : t.kind = .colon → Still t e .ofColon (.takes .punc [.exprs .keyOf b])
  | ifThen {base span b} : t.kind = .keyThen →
      Still t e (.ifThen base span) (.takes .keyword [.exprs .keyElse b, .ifElse base span])
  | ifElse {base span b} : t.kind = .keyElse →
      Still t e (.ifElse base span) (.takes .keyword [.exprs .keyEnd b, .ifEnd base span])
  | noAlternative {base span} : t.kind ≠ .keyElse → Still t e (.ifElse base span) (.passes [.ifEnd base span])
  | ifEnd {base span} : t.kind = .keyEnd → Still t e (.ifEnd base span) (.takes .keyword [])

/-- The environment under a further scope. -/
def Environment.under (e : Environment) (scope : Scope) : Environment := { e with inner := scope :: e.inner }

/-- What the turn of a position does: the positions that come next, the environment after it, and the soft
errors that it reports. -/
inductive Acts (t : Token) (e : Environment) : Cont → Turn → Environment → List Diagnostic → Prop where
  | still {c a} : Still t e c a → Acts t e c a e []
  | unknown : t.kind = .ident → e.lookup? t.lexeme = none →
      Acts t e .primary (.takes .error []) e [.nameNotFound t.span t.lexeme]
  | letName {b} : t.kind = .ident → e.depth ≤ e.limit →
      Acts t e .letName (.takes .definition [.params .equal b, .letEqual (e.depth - 1) t.lexeme b])
        ((e.bind t.lexeme (.function t.lexeme)).under ⟨t.lexeme, []⟩) []
  | letBody {d name base body pattern scope} {e' : Environment} : e = e'.under scope →
      Acts t e (.letBody d name base) (.passes []) (e'.bindAt d name (.defined name body pattern scope)) []
  | param {brk base offset} : t.kind ≠ brk → t.kind = .ident →
      Acts t e (.params brk base) (.takes .param [.params brk base])
        (e.bind t.lexeme (.value t.lexeme offset)) []
  | paramList {base e'} : t.kind = .rightBracket → e.Remembers e' →
      Acts t e (.paramList base) (.takes .punc []) e' []
  | lambda {b} : t.kind = .leftAngle → e.depth ≤ e.limit →
      Acts t e .primary (.takes .punc [.params .colon b, .lambdaColon b]) (e.under ⟨"lambda", []⟩) []
  | lambdaEnd {base scope} {e' : Environment} : t.kind = .rightAngle → e = e'.under scope →
      Acts t e (.lambdaEnd base) (.takes .punc []) e' []
  | clause {base span} : t.kind = .keyOf → e.depth ≤ e.limit →
      Acts t e (.caseClauses base span)
        (.takes .keyword [.pattern, .ofColon, .ofEnd, .caseClauses base span]) (e.under ⟨"case", []⟩) []
  | patternName {id} : t.kind = .ident → e.lookup? t.lexeme = none →
      Acts t e .pattern (.takes .param [])
        (e.bind t.lexeme { Word.value t.lexeme 0 with patterns := [id] }) []
  | ofEnd {scope} {e' : Environment} : e = e'.under scope → Acts t e .ofEnd (.passes []) e' []

@[simp] theorem Environment.limit_bind {e : Environment} {name : String} {w : Word} :
    (e.bind name w).limit = e.limit := by
  unfold Environment.bind Environment.modifyTop
  split <;> rfl

/-! ### Parts that leave scopes and errors alone -/

variable {α β : Type} {t : Token} {c : Cont} {s : Parsed} {e : Environment} {turn : α → Turn} {P : α → Prop}
  {Q : β → Prop}

/-- The result satisfies `P`; the scopes and the soft errors stay, and no scope is missed. -/
def Calm (P : α → Prop) (f : ParseM α) : Prop :=
  ∀ s, Ensures f (fun a s' => P a ∧ s'.env = s.env ∧ s'.errors = s.errors)
    (fun e _ => ∀ owner, e ≠ .internal (.missingScope owner)) s

theorem calm_pure {a : α} (h : P a) : Calm P (pure a) := fun _ => ⟨h, rfl, rfl⟩

theorem Calm.bind {f : ParseM β} {g : β → ParseM α} (hf : Calm Q f) (hg : ∀ a, Q a → Calm P (g a)) :
    Calm P (f >>= g) := by
  intro s
  refine Ensures.bind_iff.2 ((hf s).mono ?_ fun _ _ he => he)
  rintro a s' ⟨ha, henv, herrors⟩
  refine (hg a ha s').mono ?_ fun _ _ he => he
  rintro b s'' ⟨hb, henv', herrors'⟩
  exact ⟨hb, henv'.trans henv, herrors'.trans herrors⟩

namespace ParseM

theorem calm_ask {f : Parsed → α} : Calm (fun _ => True) (ask f) := fun _ => ⟨trivial, rfl, rfl⟩

theorem calm_height : Calm (fun _ => True) height := calm_ask

theorem calm_intern {n : Node} : Calm (fun _ => True) (intern n) := fun _ => ⟨trivial, rfl, rfl⟩

theorem calm_leave {n : Node} : Calm (fun _ => True) (leave n) := fun _ => ⟨trivial, rfl, rfl⟩

theorem calm_leaveAt {n : Node} {span : Span} : Calm (fun _ => True) (leaveAt n span) :=
  fun _ => ⟨trivial, rfl, rfl⟩

theorem calm_drainFrom {base : Nat} : Calm (fun _ => True) (drainFrom base) := fun _ => ⟨trivial, rfl, rfl⟩

theorem calm_finishExprs {base : Nat} : Calm (fun _ => True) (finishExprs base) :=
  calm_drainFrom.bind fun _ _ => calm_leave

theorem calm_pop : Calm (fun _ => True) pop := by
  intro s
  rw [ensures_pop]
  split
  · simp
  · exact ⟨trivial, rfl, rfl⟩

theorem calm_expect {kind : TokenKind} : Calm (fun _ => t.kind = kind) (expect kind t) := by
  intro s
  rw [ensures_expect]
  split
  · next h => exact ⟨h, rfl, rfl⟩
  · simp

theorem calm_internNames {names : List String} : Calm (fun _ => True) (internNames names) := by
  induction names with
  | nil => exact calm_pure trivial
  | cons name names ih => exact calm_intern.bind fun _ _ => ih.bind fun _ _ => calm_pure trivial

theorem calm_reduce {op : Tag × Span} : Calm (fun _ => True) (reduce op) :=
  calm_pop.bind fun _ _ => calm_pop.bind fun _ _ => calm_ask.bind fun _ _ => calm_ask.bind fun _ _ => calm_leaveAt

theorem calm_reduceWhile {prec : Nat} {ops : List (Tag × Span)} : Calm (fun _ => True) (reduceWhile prec ops) := by
  induction ops with
  | nil => exact calm_pure trivial
  | cons op ops ih =>
    unfold reduceWhile
    split
    · exact calm_pure trivial
    · exact calm_reduce.bind fun _ _ => ih

theorem calm_reduceAll {ops : List (Tag × Span)} : Calm (fun _ => True) (reduceAll ops) := by
  induction ops with
  | nil => exact calm_pure trivial
  | cons op ops ih => exact calm_reduce.bind fun _ _ => ih

theorem calm_finishBinding : Calm (fun _ => True) finishBinding :=
  calm_pop.bind fun _ _ => calm_pop.bind fun _ _ => calm_leave

theorem calm_negate {span : Span} : Calm (fun _ => True) (negate span) := by
  refine calm_pop.bind fun a _ => calm_ask.bind fun x _ => ?_
  cases x with
  | some x => exact calm_leaveAt
  | none => exact calm_leaveAt

theorem calm_operator? : Calm (fun tag => tag.isSome = t.kind.isInfix) (operator? t) := by
  have hcalm : Calm (fun _ => True) (operator? t) := by
    unfold operator?
    split
    · exact calm_pure trivial
    · refine calm_ask.bind fun tag _ => ?_
      cases tag with
      | some tag => exact calm_pure trivial
      | none => exact fun _ _ h => by cases h
    · exact calm_pure trivial
  exact fun s => ((ensures_operator? t s).and (hcalm s)).mono (fun _ _ h => ⟨h.1, h.2.2⟩) fun _ _ he => he.2

end ParseM

/-! ### Turns that leave scopes and errors alone -/

/-- The result is a turn of the position that leaves the scopes and reports nothing. -/
abbrev Stays (t : Token) (e : Environment) (c : Cont) (turn : α → Turn) (f : ParseM α) : Prop :=
  Calm (fun a => Still t e c (turn a)) f

theorem stays_offer {f : ParseM Offer} (h : Stays t e c Offer.turn f) :
    Stays t e c id (do return (← f).turn) :=
  Calm.bind h fun _ ha => calm_pure ha

namespace ParseM

/-! ### Positions that leave scopes and errors alone -/

theorem stays_turnListItem {brk : TokenKind} {base : Nat} (hc : ListPlace t brk base c) :
    Stays t e c id (turnListItem brk base t) := by
  unfold turnListItem
  split
  · next h => exact calm_finishExprs.bind fun _ _ => calm_pure (.endOfList hc h)
  · next h =>
    refine calm_pure (.item hc ?_)
    simpa using fun hs => h (.inr hs)

theorem stays_exprs {brk : TokenKind} {base : Nat} : Stays t e (.exprs brk base) id ((Cont.exprs brk base).turn t) := by
  show Stays t e _ id (if t.kind = .dot then _ else _)
  split
  · next h => exact calm_finishExprs.bind fun _ _ => calm_pure (.dotList h)
  · next h => exact stays_turnListItem (.first h)

theorem stays_exprsNext {brk : TokenKind} {base : Nat} :
    Stays t e (.exprsNext brk base) id ((Cont.exprsNext brk base).turn t) := by
  show Stays t e _ id (if t.kind = .dot then _ else _)
  split
  · next h => exact calm_pure (.dot h)
  · next h => exact stays_turnListItem (.next h)

theorem stays_turnExpr : Stays t e .expr id (turnExpr t) := by
  unfold turnExpr
  split
  · next h => exact calm_pure (.definition h)
  · next h => exact calm_height.bind fun _ _ => calm_pure (.case h)
  · next h => exact calm_height.bind fun _ _ => calm_pure (.conditional h)
  · next hlet hcase hif => exact calm_pure (.operation hlet hcase hif)

theorem stays_operand : Stays t e .operand id (Cont.turn t .operand) := by
  show Stays t e _ id (if t.kind = .minus then _ else _)
  split
  · next h => exact calm_pure (.negative h)
  · next h => exact calm_pure (.positive h)

theorem stays_binary {ops : List (Tag × Span)} :
    Stays t e (.binary ops) Offer.turn ((Cont.binary ops).offer t) := by
  refine calm_operator?.bind fun tag htag => ?_
  cases tag with
  | some tag => exact calm_reduceWhile.bind fun _ _ => calm_pure (.operator htag.symm)
  | none => exact calm_reduceAll.bind fun _ _ => calm_pure (.noOperator htag.symm)

theorem stays_elements : Stays t e .elements id (Cont.turn t .elements) := by
  show Stays t e _ id (if t.kind = .rightBracket then _ else _)
  split
  · next h => exact calm_pure (.noElement h)
  · next h => exact calm_pure (.element h)

theorem stays_elementNext : Stays t e .elementNext id (Cont.turn t .elementNext) := by
  show Stays t e _ id (if t.kind = .comma then _ else _)
  split
  · next h => exact calm_pure (.elementComma h)
  · next h => exact calm_pure (.elementNext h)

theorem stays_offerBinding : Stays t e .bindings Offer.turn (offerBinding t) := by
  unfold offerBinding
  split
  · next h => exact calm_pure (.noBinding h)
  · next h => exact calm_leaveAt.bind fun _ _ => calm_pure (.key (by rw [h]; rfl))
  · exact calm_expect.bind fun _ h => calm_leaveAt.bind fun _ _ => calm_pure (.key (by rw [h]; rfl))

theorem stays_bindingNext : Stays t e .bindingNext id (Cont.turn t .bindingNext) := by
  refine calm_finishBinding.bind fun _ _ => ?_
  split
  · next h => exact calm_pure (.bindingComma h)
  · next h => exact calm_pure (.bindingNext h)

theorem stays_ifElse {base : Nat} {span : Span} : Stays t e (.ifElse base span) id (Cont.turn t (.ifElse base span)) := by
  show Stays t e _ id (if t.kind = .keyElse then _ else _)
  split
  · next h => exact calm_height.bind fun _ _ => calm_pure (.ifElse h)
  · next h => exact calm_leave.bind fun _ _ => calm_pure (.noAlternative h)

theorem stays_takeIfEnd {base : Nat} {span : Span} :
    Stays t e (.ifEnd base span) Offer.turn (takeIfEnd base span t) := by
  refine calm_expect.bind fun _ h => calm_drainFrom.bind fun ids _ => ?_
  split
  · exact calm_intern.bind fun _ _ => calm_intern.bind fun _ _ => calm_intern.bind fun _ _ =>
      calm_intern.bind fun _ _ => calm_leaveAt.bind fun _ _ => calm_pure (.ifEnd h)
  · exact fun _ _ h => by cases h

end ParseM

/-! ### Turns that change scopes or report -/

/-- The result is a turn of the position. Only a position that closes a scope may miss one. -/
def ActsOn (t : Token) (c : Cont) (turn : α → Turn) (f : ParseM α) (s : Parsed) : Prop :=
  Ensures f (fun a s' => ∃ ds, Acts t s.env c (turn a) s'.env ds ∧ s'.errors.toList = s.errors.toList ++ ds)
    (fun e _ => ∀ owner, e = .internal (.missingScope owner) → c.scopes = 1 ∧ s.env.inner = []) s

theorem Stays.acts {f : ParseM α} (h : Stays t s.env c turn f) : ActsOn t c turn f s := by
  refine (h s).mono ?_ fun _ _ he owner heq => absurd heq (he owner)
  rintro a s' ⟨hstill, henv, herrors⟩
  rw [henv, herrors]
  exact ⟨[], .still hstill, (List.append_nil _).symm⟩

/-- What leaves scopes and errors alone may come first. -/
theorem actsOn_bind {f : ParseM β} {g : β → ParseM α} (hf : Calm Q f)
    (hg : ∀ a, Q a → ∀ s, ActsOn t c turn (g a) s) : ActsOn t c turn (f >>= g) s := by
  refine Ensures.bind_iff.2 ((hf s).mono ?_ fun _ _ he owner heq => absurd heq (he owner))
  rintro a s' ⟨ha, henv, herrors⟩
  have h := hg a ha s'
  unfold ActsOn at h
  rwa [henv, herrors] at h

theorem actsOn_offer {f : ParseM Offer} (h : ActsOn t c Offer.turn f s) :
    ActsOn t c id (do return (← f).turn) s :=
  Ensures.bind_iff.2 h

namespace ParseM

theorem acts_takeName : ActsOn t .primary Offer.turn (takeName t) s := by
  refine actsOn_bind calm_expect fun _ hk s => ?_
  unfold ActsOn
  rw [Ensures.bind_iff, ensures_lookup?]
  cases hw : s.env.lookup? t.lexeme with
  | none => exact ⟨_, .unknown hk hw, Array.toList_push ..⟩
  | some w =>
    have hstill : Acts t s.env .primary (.takes .reference []) s.env [] := .still (.name hk (by rw [hw]; rfl))
    rw [Ensures.bind_iff, ensures_ask]
    split
    · next h => cases h
    · split <;> exact ⟨_, hstill, (List.append_nil _).symm⟩

theorem acts_takePrimary : ActsOn t .primary Offer.turn (takePrimary t) s := by
  have literal {n : Node} {cls : TokenClass} (hatom : t.kind.isAtom) (hk : t.kind ≠ .ident) :
      ActsOn t .primary Offer.turn (do leaveAt n t.span; return .taken cls []) s :=
    Stays.acts (calm_leaveAt.bind fun _ _ => calm_pure (.literal hatom hk))
  unfold takePrimary
  split
  · next h => exact literal (by rw [h]; rfl) (by simp [h])
  · next h => exact literal (by rw [h]; rfl) (by simp [h])
  · next h => exact literal (by rw [h]; rfl) (by simp [h])
  · next h => exact literal (by rw [h]; rfl) (by simp [h])
  · next h => exact Stays.acts (calm_height.bind fun _ _ => calm_pure (.record h))
  · next h => exact Stays.acts (calm_height.bind fun _ _ => calm_pure (.paren h))
  · next h => exact Stays.acts (calm_height.bind fun _ _ => calm_pure (.bracketed h))
  · next h =>
    unfold ActsOn
    rw [Ensures.bind_iff, ensures_enter]
    split
    · simp
    · next hd => exact ⟨_, .lambda h (Nat.not_lt.1 hd), by simp⟩
  · exact acts_takeName

theorem acts_takeLetName : ActsOn t .letName Offer.turn (takeLetName t) s := by
  refine actsOn_bind calm_expect fun _ hk s => ?_
  unfold ActsOn
  simp only [Ensures.bind_iff, ensures_ask, ensures_define, ensures_enter]
  split
  · simp
  · next hd =>
    refine ⟨_, .letName hk ?_, by simp⟩
    simpa [Environment.depth] using hd

/-- A scope is missed only where there is none. -/
theorem acts_exit {f : Scope → ParseM α} {owner : ScopeOwner} (hc : c.scopes = 1)
    (hf : ∀ scope (env : Environment), s.env = env.under scope → Ensures (f scope)
      (fun a s' => ∃ ds, Acts t s.env c (turn a) s'.env ds ∧ s'.errors.toList = s.errors.toList ++ ds)
      (fun e _ => ∀ owner, e = .internal (.missingScope owner) → c.scopes = 1 ∧ s.env.inner = [])
      { s with env }) :
    ActsOn t c turn (exit owner >>= f) s := by
  unfold ActsOn
  rw [Ensures.bind_iff, ensures_exit]
  unfold Environment.exit
  split
  · next h =>
    split at h
    · cases h
    · next hinner =>
      cases h
      refine hf _ _ ?_
      unfold Environment.under
      rw [← hinner]
  · next h =>
    split at h
    · next hinner => exact fun _ _ => ⟨hc, hinner⟩
    · cases h

/-- A scope is closed, and what comes after that leaves scopes and errors alone. -/
theorem acts_closing {f : Scope → ParseM α} {owner : ScopeOwner} (hc : c.scopes = 1)
    (hf : ∀ scope (env : Environment), s.env = env.under scope → Calm (fun a => Acts t s.env c (turn a) env []) (f scope)) :
    ActsOn t c turn (exit owner >>= f) s := by
  refine acts_exit hc fun scope env henv => ?_
  refine (hf scope env henv _).mono ?_ fun _ _ he owner heq => absurd heq (he owner)
  rintro a s' ⟨ha, henv', herrors⟩
  refine ⟨[], ?_, by rw [herrors, List.append_nil]⟩
  rw [henv']
  exact ha

theorem acts_letBody {d base : Nat} {name : String} :
    ActsOn t (.letBody d name base) Offer.turn ((Cont.letBody d name base).offer t) s := by
  show ActsOn t _ _ (finishLet d name base >>= fun _ => _) s
  unfold finishLet
  simp only [bind_assoc]
  refine actsOn_bind calm_pop fun body _ _ => actsOn_bind calm_drainFrom fun pattern _ s => acts_exit rfl ?_
  intro scope env henv
  exact ⟨[], .letBody henv, (List.append_nil _).symm⟩

theorem acts_ofEnd : ActsOn t .ofEnd Offer.turn (Cont.ofEnd.offer t) s := by
  show ActsOn t _ _ (finishClause >>= fun _ => _) s
  unfold finishClause
  simp only [bind_assoc]
  refine actsOn_bind calm_pop fun body _ _ => actsOn_bind calm_pop fun pattern _ s => acts_closing rfl ?_
  intro scope env henv
  refine calm_internNames.bind fun names _ => Calm.bind (Q := fun _ => True) ?_ fun _ _ => calm_pure (.ofEnd henv)
  split
  · exact calm_leave
  · exact calm_intern.bind fun _ _ => calm_leave

theorem acts_offerParam {brk : TokenKind} {base : Nat} :
    ActsOn t (.params brk base) Offer.turn (offerParam brk base t) s := by
  unfold offerParam
  split
  · next h => exact Stays.acts (calm_pure (.noParam h))
  · next hbrk =>
    split
    · next h => exact Stays.acts (calm_height.bind fun _ _ => calm_pure (.paramList hbrk h))
    · exact actsOn_bind calm_expect fun _ hk _ => ⟨[], .param hbrk hk, by simp⟩

theorem remembers_markPattern {list : NodeId} {ids : List NodeId} {E : Error → Parsed → Prop} :
    Ensures (markPattern list ids) (fun _ s' => s.env.Remembers s'.env ∧ s'.errors = s.errors) E s := by
  induction ids generalizing s with
  | nil => exact ⟨.refl, rfl⟩
  | cons id ids ih =>
    unfold markPattern
    rw [Ensures.bind_iff, ensures_ask]
    split
    · rw [Ensures.bind_iff, ensures_ask]
      split
      · next w hw =>
        rw [Ensures.bind_iff, ensures_define]
        exact ih.mono (fun _ _ h => ⟨.step hw h.1, h.2⟩) fun _ _ he => he
      · exact ih
    · exact ih

theorem acts_takeParamList {base : Nat} : ActsOn t (.paramList base) Offer.turn (takeParamList base t) s := by
  refine actsOn_bind calm_expect fun _ h _ => actsOn_bind calm_drainFrom fun elts _ _ =>
    actsOn_bind calm_intern fun list _ s => ?_
  refine Ensures.bind_iff.2 (remembers_markPattern.mono ?_ fun _ _ he => he)
  rintro _ s' ⟨hmarks, herrors⟩
  exact ⟨[], .paramList h hmarks, by simp [← herrors]⟩

theorem acts_takeLambdaEnd {base : Nat} : ActsOn t (.lambdaEnd base) Offer.turn (takeLambdaEnd base t) s := by
  refine actsOn_bind calm_expect fun _ h _ => actsOn_bind calm_pop fun body _ _ =>
    actsOn_bind calm_drainFrom fun pattern _ s => acts_closing rfl ?_
  intro scope env henv
  exact calm_internNames.bind fun _ _ => calm_intern.bind fun _ _ => calm_intern.bind fun _ _ =>
    calm_leaveAt.bind fun _ _ => calm_pure (.lambdaEnd h henv)

theorem acts_takeCaseClause {base : Nat} {span : Span} :
    ActsOn t (.caseClauses base span) Offer.turn (takeCaseClause base span t) s := by
  unfold takeCaseClause
  split
  · next h =>
    unfold ActsOn
    rw [Ensures.bind_iff, ensures_enter]
    split
    · simp
    · next hd => exact ⟨[], .clause h (Nat.not_lt.1 hd), by simp⟩
  · exact Stays.acts (calm_expect.bind fun _ h => calm_drainFrom.bind fun _ _ => calm_leaveAt.bind fun _ _ =>
      calm_pure (.caseEnd h))

theorem acts_pattern : ActsOn t .pattern id (Cont.turn t .pattern) s := by
  unfold ActsOn
  show Ensures (lookup? t.lexeme >>= fun _ => _) _ _ s
  rw [Ensures.bind_iff, ensures_lookup?]
  split
  · next h =>
    unfold takePattern
    simp only [Ensures.bind_iff, ensures_lookup?, if_pos h]
    exact ⟨[], .patternName h.1 (Option.isNone_iff_eq_none.1 h.2), by simp⟩
  · next h => exact ⟨[], .still (.pattern h), by simp⟩

end ParseM

open ParseM

/-- Everything that a turn does to the scopes and the soft errors. -/
theorem acts_turn (t : Token) (c : Cont) (s : Parsed) : ActsOn t c id (c.turn t) s := by
  have offered {f : ParseM Offer} (hf : c.offer t = f) (h : Stays t s.env c Offer.turn f)
      (hc : c.turn t = do return (← c.offer t).turn) : ActsOn t c id (c.turn t) s := by
    rw [hc, hf]
    exact (stays_offer h).acts
  have opens {c : Cont} {kind : TokenKind} {offer : Nat → Offer}
      (h : ∀ b, t.kind = kind → Still t s.env c (offer b).turn) :
      Stays t s.env c Offer.turn (do expect kind t; return offer (← height)) :=
    calm_expect.bind fun _ hk => calm_height.bind fun b _ => calm_pure (h b hk)
  have closes {c : Cont} {kind : TokenKind} {tag : Tag} {base : Nat} {span : Span}
      (h : t.kind = kind → Still t s.env c (.takes .punc [])) :
      Stays t s.env c Offer.turn
        (do expect kind t; leaveAt (.branch tag (← drainFrom base)) span; return .taken .punc []) :=
    calm_expect.bind fun _ hk => calm_drainFrom.bind fun _ _ => calm_leaveAt.bind fun _ _ => calm_pure (h hk)
  cases c with
  | program =>
    refine offered rfl (calm_expect.bind fun _ h => ?_) rfl
    exact calm_pop.bind fun _ _ => calm_intern.bind fun _ _ => calm_pure (.program h)
  | exprs brk base => exact stays_exprs.acts
  | exprsNext brk base => exact stays_exprsNext.acts
  | exprsAfterDot brk base => exact (stays_turnListItem .afterDot).acts
  | expr => exact stays_turnExpr.acts
  | letName => exact actsOn_offer acts_takeLetName
  | letEqual depth name base => exact offered rfl (opens fun _ => .letEqual) rfl
  | letBody depth name base => exact actsOn_offer acts_letBody
  | params brk base => exact actsOn_offer acts_offerParam
  | paramList base => exact actsOn_offer acts_takeParamList
  | lambdaColon base => exact offered rfl (opens fun _ => .lambdaColon) rfl
  | lambdaEnd base => exact actsOn_offer acts_takeLambdaEnd
  | operand => exact stays_operand.acts
  | negate span => exact offered rfl (calm_negate.bind fun _ _ => calm_pure .negate) rfl
  | binary ops => exact (stays_offer stays_binary).acts
  | primary => exact actsOn_offer acts_takePrimary
  | parenEnd span =>
    refine offered rfl (calm_expect.bind fun _ h => ?_) rfl
    exact calm_pop.bind fun _ _ => calm_leaveAt.bind fun _ _ => calm_pure (.parenEnd h)
  | elements => exact stays_elements.acts
  | elementNext => exact stays_elementNext.acts
  | listEnd base => exact offered rfl (closes .listEnd) rfl
  | bindings => exact offered rfl stays_offerBinding rfl
  | bindingColon => exact offered rfl (calm_expect.bind fun _ h => calm_pure (.bindingColon h)) rfl
  | bindingNext => exact stays_bindingNext.acts
  | recordEnd base span => exact offered rfl (closes .recordEnd) rfl
  | caseClauses base span => exact actsOn_offer acts_takeCaseClause
  | pattern => exact acts_pattern
  | ofColon => exact offered rfl (opens fun _ => .ofColon) rfl
  | ofEnd => exact actsOn_offer acts_ofEnd
  | ifThen base span => exact offered rfl (opens fun _ => .ifThen) rfl
  | ifElse base span => exact stays_ifElse.acts
  | ifEnd base span => exact offered rfl stays_takeIfEnd rfl

/-! ### Positions stay nested -/

/-- The positions that a turn leaves fit together. -/
def Turn.Nests (K : List Cont) : Turn → Prop
  | takes _ next | passes next => Nested (next ++ K)
  | finishes _ => K = []

variable {e' : Environment} {a : Turn} {K : List Cont} {ds : List Diagnostic}

theorem Still.nests (h : Still t e c a) (hK : Nested (c :: K)) : a.Nests K := by
  have below (hc : c.beneath ≠ .bottom) : Nested K := Stacked.nested hK hc
  cases h with
  | program =>
    cases K with
    | nil => rfl
    | cons c K => cases hK.1
  | dotList | noParam | negate | noOperator | literal | name | parenEnd | noElement | listEnd | noBinding
  | recordEnd | caseEnd | ifEnd => exact below (by simp [Cont.beneath])
  | endOfList hc | item hc =>
    cases hc <;> first | exact below (by simp [Cont.beneath]) | exact ⟨rfl, hK⟩
  | positive => exact Stacked.primary_of_operand hK
  | negative => exact ⟨rfl, hK⟩
  | bindingColon => exact Stacked.expr_of_bindingNext hK
  | pattern => exact Stacked.operand_of_ofColon hK
  | ofColon => exact Stacked.list_of_ofEnd hK
  | dot | definition | elementComma | elementNext | bindingComma | bindingNext | noAlternative => exact hK
  | paramList => exact ⟨rfl, rfl, hK⟩
  | element | case | conditional | operation | letEqual | lambdaColon | operator | record | paren | bracketed | key
  | ifThen | ifElse => exact ⟨rfl, hK⟩

theorem Acts.nests (h : Acts t e c a e' ds) (hK : Nested (c :: K)) : a.Nests K := by
  have below (hc : c.beneath ≠ .bottom) : Nested K := Stacked.nested hK hc
  cases h with
  | still h => exact h.nests hK
  | unknown | letBody | paramList | lambdaEnd | patternName | ofEnd => exact below (by simp [Cont.beneath])
  | letName | lambda => exact ⟨rfl, hK⟩
  | param => exact hK
  | clause => exact ⟨rfl, rfl, rfl, hK⟩

/-! ### Turns of moments -/

namespace Moment

variable {m m' : Moment} {err : Error} {s' : Parsed}

/-- What a turn does, whatever its position. -/
theorem Turns.acts (h : m.Turns m') : ∃ t c K a ds, m.conts = c :: K ∧
    (m.token = some t ∨ m.token = none ∧ c.isReduction) ∧ Acts t m.parsed.env c a m'.parsed.env ds ∧
    m'.parsed.errors.toList = m.parsed.errors.toList ++ ds ∧ m.after K (.ok a m'.parsed) = .goes m' := by
  obtain ⟨t, c, K, a, hconts, htoken, hturn, hafter⟩ := h.exists_turn
  obtain ⟨ds, ha, hds⟩ := (acts_turn t c m.parsed).of_eq_ok hturn
  exact ⟨t, c, K, a, ds, hconts, htoken, ha, hds, hafter⟩

/-- Where a scope is missed there is none, and the innermost position should have closed one. -/
theorem blames_of_fails (h : m.next = .fails (.error err) s') : ∃ c K, m.conts = c :: K ∧
    ∀ owner, err = .internal (.missingScope owner) → c.scopes = 1 ∧ m.parsed.env.inner = [] := by
  rcases m.next_cases with hrests | ⟨t, c, K, hconts, -, hnext⟩
  · cases hrests.symm.trans h
  · have hacts := acts_turn t c m.parsed
    unfold ActsOn Ensures at hacts
    rw [hnext] at h
    split at hacts
    · next a s heq =>
      rw [heq] at h
      cases a <;> cases h
    · next heq =>
      rw [heq] at h
      cases h
      exact ⟨c, K, hconts, hacts⟩

/-- What a turn leaves is nested, unless the token has ended the program. -/
theorem Turns.nested (h : m.Turns m') (hm : Nested m.conts) :
    m'.root = m.root ∧ Nested m'.conts ∨ ∃ root, m' = ⟨none, .comment, [], m'.parsed, some root⟩ := by
  obtain ⟨t, c, K, a, ds, hconts, -, ha, -, hafter⟩ := h.acts
  rw [hconts] at hm
  have hnests := ha.nests hm
  cases a with
  | takes cls next | passes next =>
    rw [← Progress.goes.inj hafter]
    exact .inl ⟨rfl, hnests⟩
  | finishes root =>
    obtain rfl : K = [] := hnests
    exact .inr ⟨root, (Progress.goes.inj hafter).symm⟩

end Moment

end Linefold
