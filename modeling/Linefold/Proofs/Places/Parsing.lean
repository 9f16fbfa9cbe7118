import Linefold.Proofs.Folding.Additions
import Linefold.Proofs.Wholeness.Parsing

/-!
# Places of cases

A pool keeps the place at which a node was parsed first. A `CASE` gets one in two positions of the grammar only:
where the `end` of a `case` or an `if` is taken, and the place is that of the keyword that opened it. So places of
cases are places of such keywords, if those are that the parse is suspended in (`Placed.step`).
-/

namespace Linefold

attribute [local irreducible] Pool.intern

/-! ### Pools -/

/-- A node with a place is held, and if it is a case, `P` holds of the place. -/
def Pool.Placed (P : Span → Prop) (p : Pool) : Prop :=
  ∀ id span, p.coord? id = some span → ∃ n, p.get? id = some n ∧ (n.tag = .case → P span)

theorem Node.tag_within {n : Node} {size : Nat} : (n.within size).tag = n.tag := by
  cases n <;> rfl

namespace Pool

variable {P Q : Span → Prop} {p q : Pool} {n : Node} {span : Span}

theorem placed_empty : Pool.empty.Placed P := by
  intro id span h
  simp [coord?, empty] at h

namespace Placed

theorem mono (h : p.Placed P) (hPQ : ∀ span, P span → Q span) : p.Placed Q := fun id span hspan =>
  (h id span hspan).imp fun _ hn => ⟨hn.1, fun hcase => hPQ span (hn.2 hcase)⟩

theorem grown (h : p.Placed P) (hpq : p.Extends q) (hcoords : q.coords = p.coords) : q.Placed P := by
  intro id span hspan
  rw [coord?, hcoords] at hspan
  exact (h id span hspan).imp fun n hn => ⟨hpq id n hn.1, hn.2⟩

theorem intern (h : p.Placed P) : (p.intern n).2.Placed P := h.grown (p.extends_intern n) (p.coords_intern n)

theorem internAt (h : p.Placed P) (hspan : n.tag = .case → P span) : (p.internAt n span).2.Placed P := by
  intro id at_ hat
  have hget : (p.internAt n span).2.get? id = (p.intern n).2.get? id := rfl
  have hcoord : (p.internAt n span).2.coord? id = ((p.intern n).2.coords.insertIfNew (p.intern n).1 span)[id]? := rfl
  rw [hcoord, Std.TreeMap.getElem?_insertIfNew] at hat
  split at hat
  · next hnew =>
    cases hat
    have hid := Std.LawfulEqCmp.eq_of_compare hnew.1
    refine ⟨n.within p.size, ?_, fun hcase => hspan (Node.tag_within.symm.trans hcase)⟩
    rw [hget, ← hid]
    exact p.get?_intern_within n
  · exact h.intern id at_ hat

theorem accrues (h : p.Placed P) (hpq : p.Accrues q) : q.Placed P := h.grown hpq.keeps hpq.coords_eq

end Placed

end Pool

/-! ### Computations -/

/-- The error is that of a fold which no clause is left for. -/
def Error.isExhaustion : Error → Bool
  | nonExhaustiveCase .. => true
  | _ => false

/-- The place of the keyword that opened the construct that the position is in. -/
def Cont.opening? : Cont → Option Span
  | caseClauses _ span | ifThen _ span | ifElse _ span | ifEnd _ span => some span
  | _ => none

/-- Of the positions that are left, `O` holds of the keywords. -/
def Cont.AllOpened (O : Span → Prop) (conts : List Cont) : Prop :=
  ∀ c ∈ conts, ∀ span, c.opening? = some span → O span

def Offer.Opened (O : Span → Prop) : Offer → Prop
  | taken _ next => Cont.AllOpened O next
  | _ => True

section

variable {O : Span → Prop} {c : Cont} {first next : List Cont}

theorem Cont.allOpened_nil : Cont.AllOpened O [] := List.forall_mem_nil _

theorem Cont.AllOpened.append (hfirst : Cont.AllOpened O first) (hnext : Cont.AllOpened O next) :
    Cont.AllOpened O (first ++ next) :=
  List.forall_mem_append.2 ⟨hfirst, hnext⟩

theorem Cont.AllOpened.cons (hc : ∀ span, c.opening? = some span → O span) (hnext : Cont.AllOpened O next) :
    Cont.AllOpened O (c :: next) :=
  List.forall_mem_cons.2 ⟨hc, hnext⟩

/-- Positions without a keyword. -/
theorem Cont.allOpened_of_none (h : ∀ c ∈ next, c.opening? = none) : Cont.AllOpened O next := fun c hc span hspan => by
  cases (h c hc).symm.trans hspan

end

namespace ParseM

variable {α β : Type} {P O : Span → Prop} {f : ParseM α} {R R' : α → Prop} {n : Node} {id : NodeId}
  {ids : List NodeId} {span : Span} {name : String} {w : Word} {t : Token} {base : Nat} {brk : TokenKind}
  {next : List Cont} {o : Offer}

/-- The computation keeps the places of cases among those that `P` allows, and its result is as `R` says. -/
def Places (P : Span → Prop) (f : ParseM α) (R : α → Prop) : Prop :=
  ∀ s, s.pool.Placed P → Ensures f (fun a t => t.pool.Placed P ∧ R a)
    (fun e t => t.pool.Placed P ∧ e.isExhaustion = false) s

theorem places_pure {a : α} (h : R a) : Places P (pure a) R := fun _ hs => ⟨hs, h⟩

theorem places_throw {e : Error} (h : e.isExhaustion = false) : Places P (throw e : ParseM α) R := fun _ hs => ⟨hs, h⟩

theorem Places.bind {g : α → ParseM β} {R' : β → Prop} (hf : Places P f R) (hg : ∀ a, R a → Places P (g a) R') :
    Places P (f >>= g) R' := fun s hs =>
  Ensures.bind_iff.2 ((hf s hs).mono (fun a t h => hg a h.2 t h.1) fun _ _ h => h)

/-- What comes before may be of no account. -/
theorem Places.then {g : α → ParseM β} {R' : β → Prop} (hf : Places P f fun _ => True)
    (hg : ∀ a, Places P (g a) R') : Places P (f >>= g) R' :=
  hf.bind fun a _ => hg a

/-! ### The parts of the parser -/

theorem places_ask {f : Parsed → α} : Places P (ask f) fun _ => True := fun _ hs => ⟨hs, trivial⟩

theorem places_internal {fault : InternalFault} : Places P (internal fault : ParseM α) R := places_throw rfl

theorem places_expect {kind : TokenKind} : Places P (expect kind t) fun _ => t.kind = kind := by
  unfold expect
  split
  · next h => exact places_pure h
  · exact places_throw rfl

theorem places_intern : Places P (intern n) fun _ => True := fun _ hs => ⟨hs.intern, trivial⟩

theorem places_internAt (h : n.tag = .case → P span) : Places P (internAt n span) fun _ => True := fun _ hs =>
  ⟨hs.internAt h, trivial⟩

theorem places_internNames {names : List String} : Places P (internNames names) fun _ => True := by
  induction names with
  | nil => exact places_pure trivial
  | cons name names ih => exact places_intern.then fun _ => ih.then fun _ => places_pure trivial

theorem places_push : Places P (push id) fun _ => True := fun _ hs => ⟨hs, trivial⟩

theorem places_leave : Places P (leave n) fun _ => True := places_intern.then fun _ => places_push

theorem places_leaveAt (h : n.tag = .case → P span) : Places P (leaveAt n span) fun _ => True :=
  (places_internAt h).then fun _ => places_push

theorem places_pop : Places P pop fun _ => True := by
  rintro ⟨q, operands, env, errors⟩ hs
  rw [ensures_pop]
  cases operands with
  | nil => exact ⟨hs, rfl⟩
  | cons id operands => exact ⟨hs, trivial⟩

theorem places_drainFrom : Places P (drainFrom base) fun _ => True := fun _ hs => ⟨hs, trivial⟩

theorem places_define : Places P (define name w) fun _ => True := fun _ hs => ⟨hs, trivial⟩

theorem places_enter : Places P (enter name) fun _ => True := by
  intro s hs
  rw [ensures_enter]
  split
  · exact ⟨hs, rfl⟩
  · exact ⟨hs, trivial⟩

theorem places_exit {owner : ScopeOwner} : Places P (exit owner) fun _ => True := by
  intro s hs
  rw [ensures_exit]
  rcases s.env.exit with ⟨_ | scope, env⟩
  · exact ⟨hs, rfl⟩
  · exact ⟨hs, trivial⟩

theorem places_report {d : Diagnostic} : Places P (report d) fun _ => True := fun _ hs => ⟨hs, trivial⟩

/-! ### Offers -/

theorem places_taken {cls : TokenClass} (h : ∀ c ∈ next, c.opening? = none) :
    Places P (return .taken cls next : ParseM Offer) (Offer.Opened O) :=
  places_pure (Cont.allOpened_of_none h)

theorem places_declined : Places P (return .declined : ParseM Offer) (Offer.Opened O) := places_pure trivial

/-- Positions that start at the height that the operand stack has now. -/
theorem places_takenAt {cls : TokenClass} {f : Nat → List Cont} (h : ∀ base, Cont.AllOpened O (f base)) :
    Places P (do return .taken cls (f (← height)) : ParseM Offer) (Offer.Opened O) :=
  places_ask.then fun base => places_pure (h base)

theorem places_followedBy (ho : o.Opened O) (h : ∀ c ∈ next, c.opening? = none) :
    Places P (return followedBy next o : ParseM Offer) (Offer.Opened O) := by
  refine places_pure ?_
  cases o with
  | taken cls first => exact Cont.AllOpened.append ho (Cont.allOpened_of_none h)
  | declined | finished => trivial

/-! ### Lists and operators -/

theorem places_finishExprs : Places P (finishExprs base) fun _ => True := places_drainFrom.then fun _ => places_leave

theorem tag_ne_case {result : Option Node} {tag : Tag} {es : List NodeId} (htag : tag.isOperator)
    (hresult : ∀ n, result = some n → n.isLiteral) : (result.getD (.branch tag es)).tag ≠ .case := by
  cases result with
  | some n =>
    intro hcase
    have hn := hresult n rfl
    cases n <;> cases hcase
    cases hn
  | none =>
    rintro rfl
    cases htag

theorem places_reduce {op : Tag × Span} (hop : op.1.isOperator) : Places P (reduce op) fun _ => True := by
  refine places_pop.then fun b => places_pop.then fun a => places_ask.then fun x => places_ask.then fun y => ?_
  exact places_leaveAt fun hcase => absurd hcase (tag_ne_case hop fun _ => Node.isLiteral_of_arithmetic)

theorem places_reduceWhile {prec : Nat} {ops : List (Tag × Span)} (hops : ∀ op ∈ ops, op.1.isOperator) :
    Places P (reduceWhile prec ops) fun _ => True := by
  induction ops with
  | nil => exact places_pure trivial
  | cons op ops ih =>
    obtain ⟨hop, hrest⟩ := List.forall_mem_cons.1 hops
    unfold reduceWhile
    split
    · exact places_pure trivial
    · exact (places_reduce hop).then fun _ => ih hrest

theorem places_reduceAll {ops : List (Tag × Span)} (hops : ∀ op ∈ ops, op.1.isOperator) :
    Places P (reduceAll ops) fun _ => True := by
  induction ops with
  | nil => exact places_pure trivial
  | cons op ops ih =>
    obtain ⟨hop, hrest⟩ := List.forall_mem_cons.1 hops
    exact (places_reduce hop).then fun _ => ih hrest

theorem places_operator? : Places P (operator? t) fun _ => True := by
  unfold operator?
  split
  · exact places_pure trivial
  · refine places_ask.then fun tag => ?_
    cases tag with
    | some tag => exact places_pure trivial
    | none => exact places_internal
  · exact places_pure trivial

/-! ### Primary expressions -/

/-- A node that is no case, at the place of the token. -/
theorem places_leaf {cls : TokenClass} (hn : n.tag ≠ .case) (h : ∀ c ∈ next, c.opening? = none) :
    Places P (do leaveAt n span; return .taken cls next : ParseM Offer) (Offer.Opened O) :=
  (places_leaveAt fun hcase => absurd hcase hn).then fun _ => places_taken h

theorem places_takeName : Places P (takeName t) (Offer.Opened O) := by
  refine places_expect.bind fun _ _ => places_ask.then fun word => places_ask.then fun known => ?_
  have hrest : Places P (do
        if word.isNone then
          report (.nameNotFound t.span t.lexeme)
          return Offer.taken .error []
        else return Offer.taken .reference []) (Offer.Opened O) := by
    split
    · exact places_report.then fun _ => places_taken (List.forall_mem_nil _)
    · exact places_taken (List.forall_mem_nil _)
  cases known with
  | none => exact (places_leaveAt (by rintro ⟨⟩)).then fun _ => hrest
  | some id => exact places_push.then fun _ => hrest

theorem places_takePrimary : Places P (takePrimary t) (Offer.Opened O) := by
  unfold takePrimary
  split
  · exact places_leaf (by rintro ⟨⟩) (List.forall_mem_nil _)
  · exact places_leaf (by rintro ⟨⟩) (List.forall_mem_nil _)
  · exact places_leaf (by rintro ⟨⟩) (List.forall_mem_nil _)
  · exact places_leaf (by rintro ⟨⟩) (List.forall_mem_nil _)
  · exact places_takenAt fun _ => Cont.allOpened_of_none (by simp [Cont.opening?])
  · exact places_takenAt fun _ => Cont.allOpened_of_none (by simp [Cont.opening?])
  · exact places_takenAt fun _ => Cont.allOpened_of_none (by simp [Cont.opening?])
  · exact places_enter.then fun _ => places_takenAt fun _ => Cont.allOpened_of_none (by simp [Cont.opening?])
  · exact places_takeName

theorem places_takeOperand : Places P (takeOperand t) (Offer.Opened O) := by
  unfold takeOperand
  split
  · exact places_taken (by simp [Cont.opening?])
  · exact places_takePrimary

/-- The token is the keyword that a construct is opened with, and the place is its own. -/
abbrev OpensAt (O : Span → Prop) (t : Token) : Prop := t.kind = .keyCase ∨ t.kind = .keyIf → O t.span

theorem places_takeExpr (ht : OpensAt O t) : Places P (takeExpr t) (Offer.Opened O) := by
  unfold takeExpr
  split
  · exact places_taken (by simp [Cont.opening?])
  · next hcase => exact places_takenAt fun _ => by simpa [Cont.AllOpened, Cont.opening?] using ht (.inl hcase)
  · next hif => exact places_takenAt fun _ => by simpa [Cont.AllOpened, Cont.opening?] using ht (.inr hif)
  · exact places_takeOperand.bind fun _ ho => places_followedBy ho (by simp [Cont.opening?])

theorem places_offerListItem (ht : OpensAt O t) : Places P (offerListItem brk base t) (Offer.Opened O) := by
  unfold offerListItem
  split
  · exact places_finishExprs.then fun _ => places_declined
  · exact (places_takeExpr ht).bind fun _ ho => places_followedBy ho (by simp [Cont.opening?])

theorem places_offerElement (ht : OpensAt O t) : Places P (offerElement t) (Offer.Opened O) := by
  unfold offerElement
  split
  · exact places_declined
  · exact (places_takeExpr ht).bind fun _ ho => places_followedBy ho (by simp [Cont.opening?])

theorem places_offerBinding : Places P (offerBinding t) (Offer.Opened O) := by
  unfold offerBinding
  split
  · exact places_declined
  · exact places_leaf (by rintro ⟨⟩) (by simp [Cont.opening?])
  · exact places_expect.bind fun _ _ => places_leaf (by rintro ⟨⟩) (by simp [Cont.opening?])

/-! ### Definitions and clauses -/

theorem places_takeLetName : Places P (takeLetName t) (Offer.Opened O) := by
  refine places_expect.bind fun _ _ => places_ask.then fun depth => places_define.then fun _ => ?_
  exact places_enter.then fun _ => places_takenAt fun _ => Cont.allOpened_of_none (by simp [Cont.opening?])

theorem places_finishLet {depth : Nat} : Places P (finishLet depth name base) fun _ => True :=
  places_pop.then fun _ => places_drainFrom.then fun _ => places_exit.then fun _ _ hs => ⟨hs, trivial⟩

theorem places_offerParam : Places P (offerParam brk base t) (Offer.Opened O) := by
  unfold offerParam
  split
  · exact places_declined
  · split
    · exact places_takenAt fun _ => Cont.allOpened_of_none (by simp [Cont.opening?])
    · refine places_expect.bind fun _ _ => places_ask.then fun offset => places_define.then fun _ => ?_
      exact places_leaf (by rintro ⟨⟩) (by simp [Cont.opening?])

theorem places_markPattern : Places P (markPattern id ids) fun _ => True := by
  induction ids with
  | nil => exact places_pure trivial
  | cons i ids ih =>
    refine places_ask.then fun n => ?_
    split
    · refine places_ask.then fun w => ?_
      cases w with
      | none => exact ih
      | some w => exact places_define.then fun _ => ih
    · exact ih

theorem places_takeParamList : Places P (takeParamList base t) (Offer.Opened O) := by
  refine places_expect.bind fun _ _ => places_drainFrom.then fun elts => places_intern.then fun list => ?_
  exact places_markPattern.then fun _ => places_push.then fun _ => places_taken (List.forall_mem_nil _)

theorem places_takeLambdaEnd : Places P (takeLambdaEnd base t) (Offer.Opened O) := by
  refine places_expect.bind fun _ _ => places_pop.then fun body => places_drainFrom.then fun pattern => ?_
  refine places_exit.then fun scope => places_internNames.then fun names => places_intern.then fun names => ?_
  exact places_intern.then fun pattern => places_leaf (by rintro ⟨⟩) (List.forall_mem_nil _)

theorem places_negate : Places P (negate span) fun _ => True := by
  refine places_pop.then fun a => places_ask.then fun x => ?_
  split
  · exact places_leaveAt (by rintro ⟨⟩)
  · exact places_leaveAt (by rintro ⟨⟩)

theorem places_finishBinding : Places P finishBinding fun _ => True :=
  places_pop.then fun _ => places_pop.then fun _ => places_leave

/-- A case gets the place of the keyword when its `end` is taken. -/
abbrev EndsAt (P O : Span → Prop) (t : Token) : Prop := t.kind = .keyEnd → ∀ span, O span → P span

theorem places_takeCaseClause (ht : EndsAt P O t) (hspan : O span) :
    Places P (takeCaseClause base span t) (Offer.Opened O) := by
  unfold takeCaseClause
  split
  · exact places_enter.then fun _ => places_pure (by simpa [Offer.Opened, Cont.AllOpened, Cont.opening?] using hspan)
  · refine places_expect.bind fun _ hend => places_drainFrom.then fun parts => ?_
    exact (places_leaveAt fun _ => ht hend span hspan).then fun _ => places_taken (List.forall_mem_nil _)

theorem places_takePattern : Places P (takePattern t) (Offer.Opened O) := by
  refine places_ask.then fun word => ?_
  split
  · refine (places_internAt (by rintro ⟨⟩)).then fun id => places_define.then fun _ => ?_
    exact places_push.then fun _ => places_taken (List.forall_mem_nil _)
  · exact places_takeOperand

theorem places_finishClause : Places P finishClause fun _ => True := by
  refine places_pop.then fun body => places_pop.then fun pattern => places_exit.then fun scope => ?_
  refine places_internNames.then fun names => ?_
  split
  · exact places_leave
  · exact places_intern.then fun list => places_leave

theorem places_takeIfEnd (ht : EndsAt P O t) (hspan : O span) : Places P (takeIfEnd base span t) (Offer.Opened O) := by
  refine places_expect.bind fun _ hend => places_drainFrom.then fun parts => ?_
  split
  · refine places_intern.then fun _ => places_intern.then fun _ => places_intern.then fun _ => ?_
    refine places_intern.then fun _ => (places_leaveAt fun _ => ht hend span hspan).then fun _ => ?_
    exact places_taken (List.forall_mem_nil _)
  · exact places_internal

end ParseM

/-! ### Positions -/

namespace Cont

open ParseM

variable {P O : Span → Prop} {t : Token} {c : Cont}

theorem places_cont_reduce (c : Cont) : Places P c.reduce fun _ => True := by
  cases c with
  | letBody depth name base => exact places_finishLet
  | negate span => exact places_negate
  | ofEnd => exact places_finishClause
  | _ => exact places_pure trivial

theorem places_offer (hc : c.isBinary) (hopened : ∀ span, c.opening? = some span → O span) (hopens : OpensAt O t)
    (hcloses : EndsAt P O t) : Places P (c.offer t) (Offer.Opened O) := by
  have expecting {kind : TokenKind} {f : ParseM Offer} (hf : Places P f (Offer.Opened O)) :
      Places P (do expect kind t; f) (Offer.Opened O) := places_expect.bind fun _ _ => hf
  cases c with
  | program =>
    refine places_expect.bind fun _ _ => places_pop.then fun exprs => places_intern.then fun root => ?_
    exact places_pure trivial
  | exprs brk base =>
    simp only [offer]
    split
    · exact places_finishExprs.then fun _ => places_taken (List.forall_mem_nil _)
    · exact places_offerListItem hopens
  | exprsNext brk base =>
    simp only [offer]
    split
    · exact places_taken (by simp [opening?])
    · exact places_offerListItem hopens
  | exprsAfterDot brk base => exact places_offerListItem hopens
  | expr => exact places_takeExpr hopens
  | letName => exact places_takeLetName
  | letEqual depth name base => exact expecting (places_takenAt fun _ => allOpened_of_none (by simp [opening?]))
  | params brk base => exact places_offerParam
  | paramList base => exact places_takeParamList
  | lambdaColon base => exact expecting (places_takenAt fun _ => allOpened_of_none (by simp [opening?]))
  | lambdaEnd base => exact places_takeLambdaEnd
  | operand => exact places_takeOperand
  | binary ops =>
    have hops : ∀ op ∈ ops, op.1.isOperator := List.all_eq_true.1 hc
    refine places_operator?.then fun tag => ?_
    cases tag with
    | some tag => exact (places_reduceWhile hops).then fun _ => places_taken (by simp [opening?])
    | none => exact (places_reduceAll hops).then fun _ => places_declined
  | primary => exact places_takePrimary
  | parenEnd span => exact expecting (places_pop.then fun _ => places_leaf (by rintro ⟨⟩) (List.forall_mem_nil _))
  | elements => exact places_offerElement hopens
  | elementNext =>
    simp only [offer]
    split
    · exact places_taken (by simp [opening?])
    · exact places_offerElement hopens
  | listEnd base => exact expecting (places_drainFrom.then fun _ => places_leaf (by rintro ⟨⟩) (List.forall_mem_nil _))
  | bindings => exact places_offerBinding
  | bindingColon => exact expecting (places_taken (by simp [opening?]))
  | bindingNext =>
    refine places_finishBinding.then fun _ => ?_
    split
    · exact places_taken (by simp [opening?])
    · exact places_offerBinding
  | recordEnd base span => exact expecting (places_drainFrom.then fun _ => places_leaf (by rintro ⟨⟩) (List.forall_mem_nil _))
  | caseClauses base span => exact places_takeCaseClause hcloses (hopened span rfl)
  | pattern => exact places_takePattern
  | ofColon => exact expecting (places_takenAt fun _ => allOpened_of_none (by simp [opening?]))
  | ifThen base span =>
    have hspan : O span := hopened span rfl
    exact expecting (places_takenAt fun _ => by simpa [AllOpened, opening?] using hspan)
  | ifElse base span =>
    have hspan : O span := hopened span rfl
    simp only [offer]
    split
    · exact places_takenAt fun _ => by simpa [AllOpened, opening?] using hspan
    · exact places_leave.then fun _ => places_takeIfEnd hcloses hspan
  | ifEnd base span => exact places_takeIfEnd hcloses (hopened span rfl)
  | letBody | negate | ofEnd => exact (places_cont_reduce _).then fun _ => places_declined

end Cont

/-! ### Steps -/

section

open ParseM

variable {P O : Span → Prop} {t : Token} {conts : List Cont}

def Advance.Opened (O : Span → Prop) : Advance → Prop
  | taken _ conts => Cont.AllOpened O conts
  | finished _ => True

theorem places_advance (hbinary : conts.all Cont.isBinary) (hconts : Cont.AllOpened O conts) (hopens : OpensAt O t)
    (hcloses : EndsAt P O t) : Places P (advance t conts) (Advance.Opened O) := by
  induction conts with
  | nil => exact places_pure Cont.allOpened_nil
  | cons c conts ih =>
    obtain ⟨hc, hbinary⟩ := Bool.and_eq_true_iff.1 hbinary
    obtain ⟨hopened, hconts⟩ := List.forall_mem_cons.1 hconts
    refine (Cont.places_offer hc hopened hopens hcloses).bind fun o ho => ?_
    cases o with
    | taken cls next => exact places_pure (Cont.AllOpened.append ho hconts)
    | declined => exact ih hbinary hconts
    | finished root => exact places_pure trivial

theorem places_settle (hconts : Cont.AllOpened O conts) : Places P (settle conts) (Cont.AllOpened O) := by
  induction conts with
  | nil => exact places_pure Cont.allOpened_nil
  | cons c conts ih =>
    unfold settle
    split
    · exact c.places_cont_reduce.then fun _ => ih (List.forall_mem_cons.1 hconts).2
    · exact places_pure hconts

theorem places_consume (hbinary : conts.all Cont.isBinary) (hconts : Cont.AllOpened O conts) (hopens : OpensAt O t)
    (hcloses : EndsAt P O t) : Places P (ParseState.consume t conts) (Advance.Opened O) := by
  refine (places_advance hbinary hconts hopens hcloses).bind fun a ha => ?_
  cases a with
  | taken cls conts => exact (places_settle ha).bind fun _ hconts => places_pure hconts
  | finished root => exact places_pure trivial

end

namespace ParseState

/-- The parse is suspended in constructs whose keywords stand where `O` says, and has not failed as a fold does. -/
structure Opened (O : Span → Prop) (s : ParseState) : Prop where
  conts : Cont.AllOpened O s.conts
  failed : ∀ e, s.status = .failed e → e.isExhaustion = false

variable {P O O' : Span → Prop} {p : Pool} {s : ParseState} {t : Token}

theorem Opened.mono (h : s.Opened O) (hO : ∀ span, O span → O' span) : s.Opened O' :=
  ⟨fun c hc span hspan => hO span (h.conts c hc span hspan), h.failed⟩

theorem opened_initial {e : Environment} : (initial e).Opened O :=
  ⟨Cont.allOpened_of_none (by simp [initial, Cont.opening?]), by rintro _ ⟨⟩⟩

theorem Opened.step (h : s.Opened O) (hbinary : s.conts.all Cont.isBinary) (hp : p.Placed P)
    (hopens : ParseM.OpensAt O t) (hcloses : ParseM.EndsAt P O t) :
    (s.step p t).2.2.Placed P ∧ (s.step p t).2.1.Opened O := by
  obtain ⟨conts, operands, env, errors, status⟩ := s
  cases status with
  | parsing =>
    have hstep := places_consume hbinary h.conts hopens hcloses ⟨p, operands, env, errors⟩ hp
    unfold Ensures at hstep
    split at hstep
    · next a s hs =>
      obtain ⟨hpool, ha⟩ := hstep
      cases a with
      | taken cls conts =>
        simp only [ParseState.step, hs]
        exact ⟨hpool, ha, by rintro _ ⟨⟩⟩
      | finished root =>
        simp only [ParseState.step, hs]
        exact ⟨hpool, Cont.allOpened_nil, by rintro _ ⟨⟩⟩
    · next e s hs =>
      simp only [ParseState.step, hs]
      refine ⟨hstep.1, Cont.allOpened_nil, ?_⟩
      rintro _ ⟨⟩
      exact hstep.2
  | complete root => exact ⟨hp, h⟩
  | failed e => exact ⟨hp, h⟩

end ParseState

end Linefold
