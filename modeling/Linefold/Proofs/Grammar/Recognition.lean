import Linefold.Proofs.Grammar.Derivative
import Linefold.Proofs.Outcome

/-!
# Positions and the grammar

`agrees_offer`: when a position takes a token, the positions that are left expect just what may
follow it; when it hands the token on, so do the positions below it with the token still to come; when
it refuses the token as a syntax error, nothing that it expects starts with it. Scopes and operands
play no part: a position that fails for one of them says nothing about the grammar.
-/

namespace Linefold

/-- The error is none of the grammar's. -/
def Error.isStop : Error → Bool
  | .recursion _ | .internal _ => true
  | _ => false

variable {t : Token} {c c' c₀ : Cont} {K : List Cont} {o o' : Bool} {α : Type}

/-- The position may be through with its part when a token comes that it does not take. -/
def Cont.handsOn : Cont → Bool
  | exprs .. | exprsNext .. | exprsAfterDot .. | params .. | binary _ | elements | elementNext => true
  | bindings | bindingNext | letBody .. | negate _ | ofEnd => true
  | _ => false

/-- The positions `next` on `K` expect what may follow the token. -/
def Leads (t : Token) (c : Cont) (K : List Cont) (o : Bool) (next : List Cont) : Prop :=
  Nested (next ++ K) ∧ ∀ w, Expects (c :: K) o (t.kind :: w) ↔ Expects (next ++ K) false w

/-- What a position made of a token agrees with what it expects. -/
def Follows (t : Token) (c : Cont) (K : List Cont) (o : Bool) : Offer → Prop
  | .taken _ next => Leads t c K o next
  | .declined =>
    c.handsOn ∧ Nested K ∧ ∃ o', (o' = true → t.kind.startsExpr = false) ∧
      ∀ w, Expects (c :: K) o (t.kind :: w) ↔ Expects K o' (t.kind :: w)
  | .finished _ => t.kind = .eof ∧ ∀ w, Expects (c :: K) o (t.kind :: w) ↔ w = []

/-- An error that is the grammar's names the token and is right to refuse it. -/
def Refuses (t : Token) (K : List Cont) (o : Bool) (e : Error) : Prop :=
  e.isStop ∨ (∃ kind, e = .unexpected kind t.kind t.span) ∧ ∀ w, ¬ Expects K o (t.kind :: w)

def Agrees (t : Token) (c : Cont) (K : List Cont) (o : Bool) (f : ParseM Offer) : Prop :=
  ∀ s, Ensures f (fun a _ => Follows t c K o a) (fun e _ => Refuses t (c :: K) o e) s

/-- The position agrees with the grammar and does not hand the token on. -/
def Takes (t : Token) (c : Cont) (K : List Cont) (o : Bool) (f : ParseM Offer) : Prop :=
  ∀ s, Ensures f (fun a _ => ∃ cls next, a = .taken cls next ∧ Leads t c K o next)
    (fun e _ => Refuses t (c :: K) o e) s

def NeverSyntax (f : ParseM α) : Prop :=
  ∀ s, Ensures f (fun _ _ => True) (fun e _ => e.isStop) s

theorem Refuses.congr {K' : List Cont} {e : Error} (h : Refuses t K' o' e)
    (heq : ∀ w, Expects K o (t.kind :: w) ↔ Expects K' o' (t.kind :: w)) : Refuses t K o e := by
  rcases h with h | ⟨hk, h⟩
  · exact .inl h
  · exact .inr ⟨hk, fun w hw => h w ((heq w).1 hw)⟩

theorem Takes.agrees {f : ParseM Offer} (h : Takes t c K o f) : Agrees t c K o f := by
  intro s
  refine (h s).mono ?_ fun _ _ he => he
  rintro _ _ ⟨cls, next, rfl, h⟩
  exact h

/-- A position that expects the same may go on for another. -/
theorem Takes.congr {f : ParseM Offer} (h : Takes t c' K o' f)
    (heq : ∀ w, Expects (c :: K) o (t.kind :: w) ↔ Expects (c' :: K) o' (t.kind :: w)) :
    Takes t c K o f := by
  intro s
  refine (h s).mono ?_ ?_
  · rintro _ _ ⟨cls, next, rfl, hN, h⟩
    exact ⟨cls, next, rfl, hN, fun w => (heq w).trans (h w)⟩
  · intro e _ he
    exact he.congr heq

/-- A position that is through with its part leaves the rest to the position below it. -/
theorem Takes.followedBy {f : ParseM Offer} (h : Takes t c' (c :: K) o' f)
    (heq : ∀ w, Expects (c₀ :: K) o (t.kind :: w) ↔ Expects (c' :: c :: K) o' (t.kind :: w)) :
    Takes t c₀ K o (ParseM.followedBy [c] <$> f) := by
  intro s
  rw [Ensures.map_iff]
  refine (h s).mono ?_ ?_
  · rintro _ _ ⟨cls, next, rfl, hN, h⟩
    have happ : next ++ [c] ++ K = next ++ c :: K := by simp
    refine ⟨cls, next ++ [c], rfl, ?_, fun w => ?_⟩
    · rw [happ]
      exact hN
    · rw [happ]
      exact (heq w).trans (h w)
  · intro e _ he
    exact he.congr heq

theorem agrees_pure {a : Offer} (h : Follows t c K o a) : Agrees t c K o (pure a) := fun _ => h

theorem agrees_bind {f : ParseM α} {g : α → ParseM Offer} (hf : NeverSyntax f)
    (hg : ∀ a, Agrees t c K o (g a)) : Agrees t c K o (f >>= g) := by
  intro s
  rw [Ensures.bind_iff]
  exact (hf s).mono (fun a s _ => hg a s) fun e _ he => .inl he

theorem agrees_expect {kind : TokenKind} {g : Unit → ParseM Offer}
    (hne : t.kind ≠ kind → ∀ w, ¬ Expects (c :: K) o (t.kind :: w))
    (hg : t.kind = kind → Agrees t c K o (g ())) :
    Agrees t c K o (ParseM.expect kind t >>= g) := by
  intro s
  rw [Ensures.bind_iff, ParseM.ensures_expect]
  split
  · next h => exact hg h s
  · next h => exact .inr ⟨⟨_, rfl⟩, hne h⟩

/-! ### What never fails with a syntax error -/

theorem NeverSyntax.bind {β : Type} {f : ParseM α} {g : α → ParseM β} (hf : NeverSyntax f)
    (hg : ∀ a, NeverSyntax (g a)) : NeverSyntax (f >>= g) := by
  intro s
  rw [Ensures.bind_iff]
  exact (hf s).mono (fun a s _ => hg a s) fun _ _ he => he

theorem neverSyntax_pure {a : α} : NeverSyntax (pure a) := fun _ => trivial

namespace ParseM

theorem neverSyntax_ask {f : Parsed → α} : NeverSyntax (ask f) := fun _ => trivial

theorem neverSyntax_height : NeverSyntax height := fun _ => trivial

theorem neverSyntax_push {id : NodeId} : NeverSyntax (push id) := fun _ => trivial

theorem neverSyntax_intern {n : Node} : NeverSyntax (intern n) := fun _ => trivial

theorem neverSyntax_leave {n : Node} : NeverSyntax (leave n) := fun _ => trivial

theorem neverSyntax_leaveAt {n : Node} {span : Span} : NeverSyntax (leaveAt n span) :=
  fun _ => trivial

theorem neverSyntax_define {name : String} {w : Word} : NeverSyntax (define name w) :=
  fun _ => trivial

theorem neverSyntax_drainFrom {base : Nat} : NeverSyntax (drainFrom base) := fun _ => trivial

theorem neverSyntax_pop : NeverSyntax pop := by
  intro s
  rw [ensures_pop]
  split
  · rfl
  · trivial

theorem neverSyntax_enter {name : String} : NeverSyntax (enter name) := by
  intro s
  rw [ensures_enter]
  split
  · rfl
  · trivial

theorem neverSyntax_exit {owner : ScopeOwner} : NeverSyntax (exit owner) := by
  intro s
  rw [ensures_exit]
  split
  · trivial
  · rfl

theorem neverSyntax_finishExprs {base : Nat} : NeverSyntax (finishExprs base) :=
  neverSyntax_drainFrom.bind fun _ => neverSyntax_leave

theorem neverSyntax_reduce {op : Tag × Span} : NeverSyntax (reduce op) :=
  neverSyntax_pop.bind fun _ => neverSyntax_pop.bind fun _ => neverSyntax_ask.bind fun _ =>
    neverSyntax_ask.bind fun _ => neverSyntax_leaveAt

theorem neverSyntax_reduceWhile {prec : Nat} {ops : List (Tag × Span)} :
    NeverSyntax (reduceWhile prec ops) := by
  induction ops with
  | nil => exact neverSyntax_pure
  | cons op ops ih =>
    unfold reduceWhile
    split
    · exact neverSyntax_pure
    · exact neverSyntax_reduce.bind fun _ => ih

theorem neverSyntax_reduceAll {ops : List (Tag × Span)} : NeverSyntax (reduceAll ops) := by
  induction ops with
  | nil => exact neverSyntax_pure
  | cons op ops ih => exact neverSyntax_reduce.bind fun _ => ih

theorem neverSyntax_internNames {names : List String} : NeverSyntax (internNames names) := by
  induction names with
  | nil => exact neverSyntax_pure
  | cons name names ih =>
    exact neverSyntax_intern.bind fun _ => ih.bind fun _ => neverSyntax_pure

theorem neverSyntax_markPattern {list : NodeId} {ids : List NodeId} :
    NeverSyntax (markPattern list ids) := by
  induction ids with
  | nil => exact neverSyntax_pure
  | cons id ids ih =>
    refine neverSyntax_ask.bind fun n => ?_
    split
    · refine neverSyntax_ask.bind fun w => ?_
      split
      · exact neverSyntax_define.bind fun _ => ih
      · exact ih
    · exact ih

theorem neverSyntax_finishLet {depth : Nat} {name : String} {base : Nat} :
    NeverSyntax (finishLet depth name base) :=
  neverSyntax_pop.bind fun _ => neverSyntax_drainFrom.bind fun _ =>
    neverSyntax_exit.bind fun _ => fun _ => trivial

theorem neverSyntax_finishBinding : NeverSyntax finishBinding :=
  neverSyntax_pop.bind fun _ => neverSyntax_pop.bind fun _ => neverSyntax_leave

theorem neverSyntax_finishClause : NeverSyntax finishClause := by
  refine neverSyntax_pop.bind fun _ => neverSyntax_pop.bind fun _ => neverSyntax_exit.bind fun _ =>
    neverSyntax_internNames.bind fun names => ?_
  split
  · exact neverSyntax_leave
  · exact neverSyntax_intern.bind fun _ => neverSyntax_leave

theorem neverSyntax_negate {span : Span} : NeverSyntax (negate span) := by
  refine neverSyntax_pop.bind fun _ => neverSyntax_ask.bind fun x => ?_
  split
  · exact neverSyntax_leaveAt
  · exact neverSyntax_leaveAt

end ParseM

theorem Cont.neverSyntax_reduce (c : Cont) : NeverSyntax c.reduce := by
  cases c <;> first
    | exact ParseM.neverSyntax_finishLet
    | exact ParseM.neverSyntax_negate
    | exact ParseM.neverSyntax_finishClause
    | exact neverSyntax_pure

/-! ### Expressions -/

namespace ParseM

variable {brk : TokenKind} {base n : Nat} {name : String} {span : Span} {ops : List (Tag × Span)}

theorem takes_takeName (hK : Stacked .primary K) (hk : t.kind.startsPrimary → t.kind = .ident) :
    Takes t .primary K o (takeName t) := by
  intro s
  unfold takeName
  rw [Ensures.bind_iff, ensures_expect]
  split
  · next hid =>
    have leads : Leads t .primary K o [] :=
      ⟨hK.nested (by simp), fun w => by rw [hid]; exact expects_primary_atom rfl⟩
    simp only [Ensures.bind_iff, ensures_lookup?, ensures_ask]
    split <;> split <;> exact ⟨_, _, rfl, leads⟩
  · next hid =>
    refine .inr ⟨⟨_, rfl⟩, ?_⟩
    rintro w ⟨v, hv, -⟩
    exact hid (hk (startsPrimary_of_reads hv))

theorem takes_takePrimary (hK : Stacked .primary K) : Takes t .primary K o (takePrimary t) := by
  have atom (hk : t.kind.isAtom) : Leads t .primary K o [] :=
    ⟨hK.nested (by simp), fun w => expects_primary_atom hk⟩
  intro s
  unfold takePrimary
  split
  case h_1 h | h_2 h | h_3 h | h_4 h => exact ⟨_, _, rfl, atom (by rw [h]; rfl)⟩
  case h_5 h => exact ⟨_, _, rfl, ⟨rfl, hK⟩, fun w => by rw [h]; exact expects_primary_leftBrace⟩
  case h_6 h => exact ⟨_, _, rfl, ⟨rfl, hK⟩, fun w => by rw [h]; exact expects_primary_leftParen⟩
  case h_7 h => exact ⟨_, _, rfl, ⟨rfl, hK⟩, fun w => by rw [h]; exact expects_primary_leftBracket⟩
  case h_8 h =>
    rw [Ensures.bind_iff, ensures_enter]
    split
    · exact .inl rfl
    · exact ⟨_, _, rfl, ⟨rfl, hK⟩, fun w => by rw [h]; exact expects_primary_leftAngle⟩
  case h_9 hnum hstr hbool hnull hbrace hparen hbracket hangle =>
    refine takes_takeName hK (fun h => ?_) s
    cases hk : t.kind <;> simp_all [TokenKind.startsPrimary, TokenKind.isAtom]

theorem takes_takeOperand (hK : Stacked .operand K) : Takes t .operand K o (takeOperand t) := by
  unfold takeOperand
  split
  · next h =>
    exact fun _ => ⟨_, _, rfl, ⟨rfl, hK⟩, fun w => by rw [h]; exact expects_operand_minus⟩
  · next h =>
    exact (takes_takePrimary (o := o) hK.primary_of_operand).congr fun _ => expects_operand_iff h

theorem takes_takeExpr (hK : Stacked .expr K) : Takes t .expr K o (takeExpr t) := by
  unfold takeExpr
  split
  · next h =>
    exact fun _ => ⟨_, _, rfl, hK, fun w => by rw [h]; exact expects_expr_keyLet⟩
  · next h =>
    exact fun _ => ⟨_, _, rfl, ⟨rfl, hK⟩, fun w => by rw [h]; exact expects_expr_keyCase⟩
  · next h =>
    exact fun _ => ⟨_, _, rfl, ⟨rfl, hK⟩, fun w => by rw [h]; exact expects_expr_keyIf⟩
  · next hlet hcase hif =>
    refine (takes_takeOperand (K := .binary [] :: K) (o := o) ⟨rfl, hK⟩).followedBy fun w => ?_
    exact expects_expr_operand hlet hcase hif

/-! ### Lists -/

/-- A place where a list may end. -/
theorem agrees_offerListItem (hK : Stacked (.list brk) K) (hc : c.handsOn)
    (hstart : t.kind.startsExpr → ∀ w, Expects (c :: K) o (t.kind :: w) ↔
      Expects (.expr :: .exprsNext brk base :: K) o (t.kind :: w))
    (hend : t.kind.startsExpr = false → ∀ w, Expects (c :: K) o (t.kind :: w) ↔
      Expects K true (t.kind :: w)) :
    Agrees t c K o (offerListItem brk base t) := by
  unfold offerListItem
  split
  · next h =>
    have hk : t.kind.startsExpr = false := by
      rcases h with h | h
      · rw [h]
        exact hK.startsExpr_eq_false
      · exact h
    refine agrees_bind neverSyntax_finishExprs fun _ => agrees_pure ?_
    exact ⟨hc, hK.nested (by simp), true, fun _ => hk, hend hk⟩
  · next h =>
    have hk : t.kind.startsExpr := by
      cases hs : t.kind.startsExpr
      · exact absurd (.inr hs) h
      · rfl
    refine (Takes.followedBy (takes_takeExpr (o := o) ?_) (hstart hk)).agrees
    exact ⟨rfl, hK⟩

theorem agrees_offerElement (hK : Stacked .listEnd K) (hc : c.handsOn)
    (heq : ∀ w, Expects (c :: K) o (t.kind :: w) ↔ Expects (.elements :: K) o (t.kind :: w)) :
    Agrees t c K o (offerElement t) := by
  unfold offerElement
  split
  · next h =>
    refine agrees_pure ⟨hc, hK.nested (by simp), false, by simp, fun w => (heq w).trans ?_⟩
    exact expects_elements_declined (by rw [h]; rfl)
  · next h =>
    refine (Takes.followedBy (takes_takeExpr (o := o) (K := .elementNext :: K) ⟨rfl, hK⟩) ?_).agrees
    exact fun w => (heq w).trans (expects_elements_iff hK h)

theorem agrees_offerBinding (hK : Stacked .recordEnd K) (hc : c.handsOn)
    (heq : ∀ w, Expects (c :: K) o (t.kind :: w) ↔ Expects (.bindings :: K) o (t.kind :: w)) :
    Agrees t c K o (offerBinding t) := by
  have key (hk : t.kind.isKey) : Leads t c K o [.bindingColon, .bindingNext] :=
    ⟨⟨rfl, hK⟩, fun w => (heq w).trans (expects_bindings_key hK hk)⟩
  unfold offerBinding
  split
  · next h =>
    refine agrees_pure ⟨hc, hK.nested (by simp), false, by simp, fun w => (heq w).trans ?_⟩
    exact expects_bindings_declined (by rw [h]; rfl)
  · next h =>
    exact agrees_bind neverSyntax_leaveAt fun _ => agrees_pure (key (by rw [h]; rfl))
  · next hbrace hstr =>
    refine agrees_expect (fun hid w hw => ?_) fun hid =>
      agrees_bind neverSyntax_leaveAt fun _ => agrees_pure (key (by rw [hid]; rfl))
    have hk : t.kind.isKey = false := by
      cases hk : t.kind <;> first | rfl | (rw [hk] at hid hstr; simp at hid hstr)
    exact not_expects_recordEnd hK hbrace ((expects_bindings_declined hk).1 ((heq w).1 hw))

/-! ### Functions, cases and conditionals -/

theorem agrees_takeLetName (hK : Stacked .expr K) : Agrees t .letName K o (takeLetName t) := by
  refine agrees_expect (fun h _ => not_expects_of_awaits rfl h) fun h => ?_
  refine agrees_bind neverSyntax_ask fun _ => agrees_bind neverSyntax_define fun _ =>
    agrees_bind neverSyntax_enter fun _ => agrees_bind neverSyntax_height fun _ => agrees_pure ?_
  exact ⟨⟨rfl, hK⟩, fun w => by rw [h]; exact expects_letName⟩

theorem agrees_offerParam (hK : Stacked (.params brk) K) :
    Agrees t (.params brk base) K o (offerParam brk base t) := by
  have hbrk : brk ≠ .ident ∧ brk ≠ .leftBracket := by
    rcases hK.params_cases with ⟨rfl, -⟩ | ⟨rfl, -⟩ | ⟨rfl, -⟩ <;> simp
  unfold offerParam
  split
  · next h =>
    refine agrees_pure ⟨rfl, hK.nested (by simp), false, by simp, fun w => ?_⟩
    rw [h]
    exact expects_params_declined hK
  · next h =>
    split
    · next hl =>
      refine agrees_bind neverSyntax_height fun _ => agrees_pure ⟨⟨rfl, rfl, hK⟩, fun w => ?_⟩
      rw [hl]
      exact expects_params_leftBracket hK hbrk.2.symm
    · next hl =>
      refine agrees_expect (fun hid _ => not_expects_params_of_ne hK h hid hl) fun hid => ?_
      refine agrees_bind neverSyntax_ask fun _ => agrees_bind neverSyntax_define fun _ =>
        agrees_bind neverSyntax_leaveAt fun _ => agrees_pure ⟨hK, fun w => ?_⟩
      rw [hid]
      exact expects_params_ident hK hbrk.1.symm

theorem agrees_takeParamList (hK : Stacked .moreParams K) :
    Agrees t (.paramList base) K o (takeParamList base t) := by
  refine agrees_expect (fun h _ => not_expects_of_awaits rfl h) fun h => ?_
  refine agrees_bind neverSyntax_drainFrom fun _ => agrees_bind neverSyntax_intern fun _ =>
    agrees_bind neverSyntax_markPattern fun _ => agrees_bind neverSyntax_push fun _ => agrees_pure ?_
  refine ⟨hK.nested (by simp), fun w => ?_⟩
  rw [h]
  exact exists_cons_eq_iff

theorem agrees_takeLambdaEnd (hK : Stacked .primary K) :
    Agrees t (.lambdaEnd base) K o (takeLambdaEnd base t) := by
  refine agrees_expect (fun h _ => not_expects_of_awaits rfl h) fun h => ?_
  refine agrees_bind neverSyntax_pop fun _ => agrees_bind neverSyntax_drainFrom fun _ =>
    agrees_bind neverSyntax_exit fun _ => agrees_bind neverSyntax_internNames fun _ =>
    agrees_bind neverSyntax_intern fun _ => agrees_bind neverSyntax_intern fun _ =>
    agrees_bind neverSyntax_leaveAt fun _ => agrees_pure ?_
  refine ⟨hK.nested (by simp), fun w => ?_⟩
  rw [h]
  exact exists_cons_eq_iff

theorem agrees_takeCaseClause (hK : Stacked .expr K) :
    Agrees t (.caseClauses base span) K o (takeCaseClause base span t) := by
  unfold takeCaseClause
  split
  · next h =>
    refine agrees_bind neverSyntax_enter fun _ => agrees_pure ⟨⟨rfl, rfl, rfl, hK⟩, fun w => ?_⟩
    rw [h]
    exact expects_caseClauses_keyOf
  · next h =>
    refine agrees_expect (fun he _ => not_expects_caseClauses h he) fun he =>
      agrees_bind neverSyntax_drainFrom fun _ => agrees_bind neverSyntax_leaveAt fun _ =>
        agrees_pure ⟨hK.nested (by simp), fun w => ?_⟩
    rw [he]
    exact expects_caseClauses_keyEnd

theorem takes_takePattern (hK : Stacked .ofColon K) : Takes t .pattern K o (takePattern t) := by
  have hoperand : Takes t .pattern K o (takeOperand t) :=
    (takes_takeOperand (o := o) hK.operand_of_ofColon).congr fun _ => Iff.rfl
  intro s
  unfold takePattern
  rw [Ensures.bind_iff, ensures_lookup?]
  split
  · next h =>
    refine ⟨_, _, rfl, hK.nested (by simp), fun w => ?_⟩
    rw [h.1]
    have hoperand : Expects (.operand :: K) o (.ident :: w) ↔ Expects (.primary :: K) o (.ident :: w) :=
      expects_operand_iff (by decide)
    exact hoperand.trans (expects_primary_atom rfl)
  · exact hoperand s

theorem agrees_takeIfEnd (hK : Stacked .expr K)
    (heq : ∀ w, Expects (c :: K) o (t.kind :: w) ↔ Expects (.ifEnd base span :: K) o (t.kind :: w)) :
    Agrees t c K o (takeIfEnd base span t) := by
  unfold takeIfEnd
  refine agrees_expect (fun h w hw => not_expects_of_awaits rfl h ((heq w).1 hw)) fun h => ?_
  have leads : Leads t c K o [] := by
    refine ⟨hK.nested (by simp), fun w => (heq w).trans ?_⟩
    rw [h]
    exact exists_cons_eq_iff
  refine agrees_bind neverSyntax_drainFrom fun ids => ?_
  split
  · intro s
    simp only [Ensures.bind_iff, ensures_intern, ensures_leaveAt]
    exact leads
  · exact fun _ => .inl rfl

/-- A token stands for an infix operator exactly if it is of such a kind. -/
theorem ensures_operator? (t : Token) (s : Parsed) :
    Ensures (operator? t) (fun tag _ => tag.isSome = t.kind.isInfix)
      (fun e _ => e.isStop) s := by
  unfold operator?
  split
  · next h => exact (by rw [h]; rfl : true = t.kind.isInfix)
  · next h =>
    rw [Ensures.bind_iff, ensures_ask]
    split
    · exact (by rw [h]; rfl : true = t.kind.isInfix)
    · rfl
  · next hminus hop =>
    show false = t.kind.isInfix
    cases hk : t.kind <;> simp_all [TokenKind.isInfix]

theorem agrees_binary (hK : Stacked .expr K) :
    Agrees t (.binary ops) K o ((Cont.binary ops).offer t) := by
  intro s
  show Ensures (operator? t >>= fun _ => _) _ _ s
  rw [Ensures.bind_iff]
  refine (ensures_operator? t s).mono ?_ fun _ _ he => .inl he
  intro tag s htag
  cases tag with
  | some tag =>
    refine agrees_bind neverSyntax_reduceWhile (fun ops => agrees_pure ?_) s
    exact ⟨⟨rfl, hK⟩, fun w => expects_binary_iff hK htag.symm⟩
  | none =>
    refine agrees_bind neverSyntax_reduceAll (fun _ => agrees_pure ?_) s
    exact ⟨rfl, hK.nested (by simp), false, by simp, fun w => expects_binary_declined htag.symm⟩

end ParseM

/-! ### Every position -/

open ParseM in
theorem agrees_offer (hK : Nested (c :: K)) (ho : o = true → t.kind.startsExpr = false) :
    Agrees t c K o (c.offer t) := by
  cases c with
  | program =>
    refine agrees_expect (fun h _ => not_expects_of_awaits rfl h) fun h =>
      agrees_bind neverSyntax_pop fun _ => agrees_bind neverSyntax_intern fun _ =>
        agrees_pure ⟨h, fun w => ?_⟩
    cases K with
    | nil =>
      rw [h]
      exact exists_cons_eq_iff
    | cons c K => cases hK.1
  | exprs brk base =>
    have hK : Stacked (.list brk) K := hK
    show Agrees t _ K o (if t.kind = .dot then _ else _)
    split
    · next h =>
      refine agrees_bind neverSyntax_finishExprs fun _ => agrees_pure ⟨hK.nested (by simp), fun w => ?_⟩
      rw [h]
      exact expects_exprs_dot hK
    · next h =>
      exact agrees_offerListItem hK rfl (fun hs _ => expects_exprs_iff hK hs)
        fun hs _ => expects_exprs_declined hs h
  | exprsNext brk base =>
    have hK : Stacked (.list brk) K := hK
    show Agrees t _ K o (if t.kind = .dot then _ else _)
    split
    · next h =>
      refine agrees_pure ⟨hK, fun w => ?_⟩
      rw [h]
      exact expects_exprsNext_dot hK
    · next h =>
      exact agrees_offerListItem hK rfl (fun hs _ => expects_exprsNext_iff hK hs)
        fun hs _ => expects_exprsNext_declined hs h
  | exprsAfterDot brk base =>
    have hK : Stacked (.list brk) K := hK
    exact agrees_offerListItem hK rfl (fun hs _ => expects_exprsAfterDot_iff hK hs)
      fun hs _ => expects_exprsAfterDot_declined hs
  | expr => exact (takes_takeExpr hK).agrees
  | letName => exact agrees_takeLetName hK
  | letEqual depth name base =>
    refine agrees_expect (fun h _ => not_expects_of_awaits rfl h) fun h =>
      agrees_bind neverSyntax_height fun _ => agrees_pure ⟨⟨rfl, hK⟩, fun w => ?_⟩
    rw [h]
    exact expects_letEqual
  | params brk base => exact agrees_offerParam hK
  | paramList base => exact agrees_takeParamList hK
  | lambdaColon base =>
    refine agrees_expect (fun h _ => not_expects_of_awaits rfl h) fun h =>
      agrees_bind neverSyntax_height fun _ => agrees_pure ⟨⟨rfl, hK⟩, fun w => ?_⟩
    rw [h]
    exact expects_lambdaColon
  | lambdaEnd base => exact agrees_takeLambdaEnd hK
  | operand => exact (takes_takeOperand hK).agrees
  | primary => exact (takes_takePrimary hK).agrees
  | binary ops => exact agrees_binary hK
  | parenEnd span =>
    have hK : Stacked .primary K := hK
    refine agrees_expect (fun h _ => not_expects_of_awaits rfl h) fun h =>
      agrees_bind neverSyntax_pop fun _ => agrees_bind neverSyntax_leaveAt fun _ =>
        agrees_pure ⟨hK.nested (by simp), fun w => ?_⟩
    rw [h]
    exact exists_cons_eq_iff
  | elements => exact agrees_offerElement hK rfl fun _ => Iff.rfl
  | elementNext =>
    have hK : Stacked .listEnd K := hK
    show Agrees t _ K o (if t.kind = .comma then _ else _)
    split
    · next h =>
      refine agrees_pure ⟨hK, fun w => ?_⟩
      rw [h]
      exact expects_elementNext_comma hK
    · next h => exact agrees_offerElement hK rfl fun _ => expects_elementNext_iff h
  | listEnd base =>
    have hK : Stacked .primary K := hK
    refine agrees_expect (fun h _ => not_expects_of_awaits rfl h) fun h =>
      agrees_bind neverSyntax_drainFrom fun _ => agrees_bind neverSyntax_leaveAt fun _ =>
        agrees_pure ⟨hK.nested (by simp), fun w => ?_⟩
    rw [h]
    exact exists_cons_eq_iff
  | bindings => exact agrees_offerBinding hK rfl fun _ => Iff.rfl
  | bindingColon =>
    have hK : Stacked .bindingNext K := hK
    refine agrees_expect (fun h _ => not_expects_of_awaits rfl h) fun h =>
      agrees_pure ⟨hK.expr_of_bindingNext, fun w => ?_⟩
    rw [h]
    exact exists_cons_eq_iff
  | bindingNext =>
    have hK : Stacked .recordEnd K := hK
    refine agrees_bind neverSyntax_finishBinding fun _ => ?_
    split
    · next h =>
      refine agrees_pure ⟨hK, fun w => ?_⟩
      rw [h]
      exact expects_bindingNext_comma hK
    · next h => exact agrees_offerBinding hK rfl fun _ => expects_bindingNext_iff h ho
  | recordEnd base span =>
    have hK : Stacked .primary K := hK
    refine agrees_expect (fun h _ => not_expects_of_awaits rfl h) fun h =>
      agrees_bind neverSyntax_drainFrom fun _ => agrees_bind neverSyntax_leaveAt fun _ =>
        agrees_pure ⟨hK.nested (by simp), fun w => ?_⟩
    rw [h]
    exact exists_cons_eq_iff
  | caseClauses base span => exact agrees_takeCaseClause hK
  | pattern => exact (takes_takePattern hK).agrees
  | ofColon =>
    have hK : Stacked .ofEnd K := hK
    refine agrees_expect (fun h _ => not_expects_of_awaits rfl h) fun h =>
      agrees_bind neverSyntax_height fun _ => agrees_pure ⟨hK.list_of_ofEnd, fun w => ?_⟩
    rw [h]
    exact expects_ofColon hK
  | ifThen base span =>
    refine agrees_expect (fun h _ => not_expects_of_awaits rfl h) fun h =>
      agrees_bind neverSyntax_height fun _ => agrees_pure ⟨⟨rfl, hK⟩, fun w => ?_⟩
    rw [h]
    exact expects_ifThen
  | ifElse base span =>
    have hK : Stacked .expr K := hK
    show Agrees t _ K o (if t.kind = .keyElse then _ else _)
    split
    · next h =>
      refine agrees_bind neverSyntax_height fun _ => agrees_pure ⟨⟨rfl, hK⟩, fun w => ?_⟩
      rw [h]
      exact expects_ifElse_keyElse
    · next h =>
      exact agrees_bind neverSyntax_leave fun _ =>
        agrees_takeIfEnd hK fun _ => expects_ifElse_iff h
  | ifEnd base span => exact agrees_takeIfEnd hK fun _ => Iff.rfl
  | letBody depth name base =>
    have hK : Stacked .expr K := hK
    exact agrees_bind neverSyntax_finishLet fun _ =>
      agrees_pure ⟨rfl, hK.nested (by simp), o, ho, fun _ => Iff.rfl⟩
  | negate span =>
    have hK : Stacked .operand K := hK
    exact agrees_bind neverSyntax_negate fun _ =>
      agrees_pure ⟨rfl, hK.nested (by simp), o, ho, fun _ => Iff.rfl⟩
  | ofEnd =>
    have hK : Stacked .caseClauses K := hK
    exact agrees_bind neverSyntax_finishClause fun _ =>
      agrees_pure ⟨rfl, hK.nested (by simp), o, ho, fun _ => Iff.rfl⟩

end Linefold
