import Mathlib.Data.Set.Insert
import Linefold.Proofs.Grammar.Derivative

/-!
# Lexical scoping

`Lexical c N w N' r D`: the tokens `w` are a phrase of category `c` followed by `r`; with the names `N` known
before it, the names `N'` are known after it, and `D` are the tokens of those names in it that are not known
where they stand, in source order. A definition makes its name known from there on in the scope around it, and
its parameters in itself; a function makes its parameters known in itself; a name that is not known and is all of
a clause's pattern is known in the clause. Phrases are as long as they can be, so that a text is read in one way
only (`Lexical.unique`).
-/

namespace Linefold

/-- The next token is of no such kind. -/
def NotAhead (p : TokenKind → Bool) : List Token → Prop
  | [] => True
  | t :: _ => p t.kind = false

theorem notAhead_of_ne {k : TokenKind} {t : Token} {v : List Token} (h : t.kind ≠ k) : NotAhead (· = k) (t :: v) :=
  decide_eq_false h

/-- The tokens start with a name that is not known and a colon. -/
def BindsAhead (N : Set String) (w : List Token) : Prop :=
  ∃ x colon v, w = x :: colon :: v ∧ x.kind = .ident ∧ x.lexeme ∉ N ∧ colon.kind = .colon

/-- The kinds that a parameter starts with. -/
def TokenKind.startsParam : TokenKind → Bool
  | ident | leftBracket => true
  | _ => false

inductive Lexical : Category → Set String → List Token → Set String → List Token → List Token → Prop where
  | program {N w N' eof r D} : Lexical .list N w N' (eof :: r) D → eof.kind = .eof → Lexical .program N w N' r D
  -- expression lists
  | dot {N dot r} : dot.kind = .dot → Lexical .list N (dot :: r) N r []
  | list {N w N' r D} : NotAhead (· = .dot) w → Lexical .series N w N' r D → Lexical .list N w N' r D
  | nothing {N r} : NotAhead TokenKind.startsExpr r → Lexical .series N r N r []
  | series {N w N₁ v D₁ N₂ r D₂} : Lexical .expr N w N₁ v D₁ → Lexical .items N₁ v N₂ r D₂ →
      Lexical .series N w N₂ r (D₁ ++ D₂)
  | items {N w N' r D} : NotAhead (· = .dot) w → Lexical .series N w N' r D → Lexical .items N w N' r D
  | dotItems {N dot w N' r D} : dot.kind = .dot → Lexical .series N w N' r D → Lexical .items N (dot :: w) N' r D
  -- expressions
  | definition {N start name w N₁ equal v N₂ r D} : start.kind = .keyLet → name.kind = .ident →
      Lexical .params (insert name.lexeme N) w N₁ (equal :: v) [] → equal.kind = .equal →
      Lexical .list N₁ v N₂ r D → Lexical .expr N (start :: name :: w) (insert name.lexeme N) r D
  | case {N start w N₁ v D₁ r D₂} : start.kind = .keyCase → Lexical .expr N w N₁ v D₁ →
      Lexical .clauses N₁ v N₁ r D₂ → Lexical .expr N (start :: w) N₁ r (D₁ ++ D₂)
  | conditional {N start w N₁ after v D₁ N₂ u D₂ N₃ r D₃} : start.kind = .keyIf →
      Lexical .expr N w N₁ (after :: v) D₁ → after.kind = .keyThen → Lexical .list N₁ v N₂ u D₂ →
      Lexical .alternative N₂ u N₃ r D₃ → Lexical .expr N (start :: w) N₃ r (D₁ ++ D₂ ++ D₃)
  | operation {N w N₁ v D₁ N₂ r D₂} : Lexical .operand N w N₁ v D₁ → Lexical .operators N₁ v N₂ r D₂ →
      Lexical .expr N w N₂ r (D₁ ++ D₂)
  | noClause {N stop r} : stop.kind = .keyEnd → Lexical .clauses N (stop :: r) N r []
  | bindingClause {N of x colon v N₁ u D₁ r D₂} : of.kind = .keyOf → x.kind = .ident → x.lexeme ∉ N →
      colon.kind = .colon → Lexical .list (insert x.lexeme N) v N₁ u D₁ → Lexical .clauses N u N r D₂ →
      Lexical .clauses N (of :: x :: colon :: v) N r (D₁ ++ D₂)
  | clause {N of w N₁ colon v D₁ N₂ u D₂ r D₃} : of.kind = .keyOf → ¬ BindsAhead N w →
      Lexical .operand N w N₁ (colon :: v) D₁ → colon.kind = .colon → Lexical .list N₁ v N₂ u D₂ →
      Lexical .clauses N u N r D₃ → Lexical .clauses N (of :: w) N r (D₁ ++ D₂ ++ D₃)
  | noAlternative {N stop r} : stop.kind = .keyEnd → Lexical .alternative N (stop :: r) N r []
  | alternative {N start w N' stop r D} : start.kind = .keyElse → Lexical .list N w N' (stop :: r) D →
      stop.kind = .keyEnd → Lexical .alternative N (start :: w) N' r D
  | noOperator {N r} : NotAhead TokenKind.isInfix r → Lexical .operators N r N r []
  | operator {N op w N₁ v D₁ N₂ r D₂} : op.kind.isInfix → Lexical .operand N w N₁ v D₁ →
      Lexical .operators N₁ v N₂ r D₂ → Lexical .operators N (op :: w) N₂ r (D₁ ++ D₂)
  | negative {N minus w N' r D} : minus.kind = .minus → Lexical .primary N w N' r D →
      Lexical .operand N (minus :: w) N' r D
  | positive {N w N' r D} : Lexical .primary N w N' r D → Lexical .operand N w N' r D
  -- primary expressions
  | literal {N x r} : x.kind.isAtom → x.kind ≠ .ident → Lexical .primary N (x :: r) N r []
  | known {N x r} : x.kind = .ident → x.lexeme ∈ N → Lexical .primary N (x :: r) N r []
  | unknown {N x r} : x.kind = .ident → x.lexeme ∉ N → Lexical .primary N (x :: r) N r [x]
  | paren {N left w N' right r D} : left.kind = .leftParen → Lexical .list N w N' (right :: r) D →
      right.kind = .rightParen → Lexical .primary N (left :: w) N' r D
  | bracketed {N left w N' right r D} : left.kind = .leftBracket → Lexical .elements N w N' (right :: r) D →
      right.kind = .rightBracket → Lexical .primary N (left :: w) N' r D
  | noElement {N r} : NotAhead TokenKind.startsExpr r → Lexical .elements N r N r []
  | element {N w N₁ v D₁ N₂ r D₂} : Lexical .expr N w N₁ v D₁ → Lexical .moreElements N₁ v N₂ r D₂ →
      Lexical .elements N w N₂ r (D₁ ++ D₂)
  | comma {N comma w N' r D} : comma.kind = .comma → Lexical .elements N w N' r D →
      Lexical .moreElements N (comma :: w) N' r D
  | noComma {N w N' r D} : NotAhead (· = .comma) w → Lexical .elements N w N' r D →
      Lexical .moreElements N w N' r D
  | record {N left w N' right r D} : left.kind = .leftBrace → Lexical .bindings N w N' (right :: r) D →
      right.kind = .rightBrace → Lexical .primary N (left :: w) N' r D
  | noBinding {N r} : NotAhead TokenKind.isKey r → Lexical .bindings N r N r []
  | bindingComma {N key colon w N₁ comma v D₁ N₂ r D₂} : key.kind.isKey → colon.kind = .colon →
      Lexical .expr N w N₁ (comma :: v) D₁ → comma.kind = .comma → Lexical .bindings N₁ v N₂ r D₂ →
      Lexical .bindings N (key :: colon :: w) N₂ r (D₁ ++ D₂)
  | bindingApart {N key colon w N₁ v D₁ N₂ r D₂} : key.kind.isKey → colon.kind = .colon →
      Lexical .expr N w N₁ v D₁ → NotAhead (· = .comma) v → Lexical .bindings N₁ v N₂ r D₂ →
      Lexical .bindings N (key :: colon :: w) N₂ r (D₁ ++ D₂)
  -- functions
  | lambda {N left w N₁ colon v N₂ right r D} : left.kind = .leftAngle → Lexical .params N w N₁ (colon :: v) [] →
      colon.kind = .colon → Lexical .list N₁ v N₂ (right :: r) D → right.kind = .rightAngle →
      Lexical .primary N (left :: w) N r D
  | noParam {N r} : NotAhead TokenKind.startsParam r → Lexical .params N r N r []
  | param {N x w N' r} : x.kind = .ident → Lexical .params (insert x.lexeme N) w N' r [] →
      Lexical .params N (x :: w) N' r []
  | paramList {N left w N₁ right v N₂ r} : left.kind = .leftBracket →
      Lexical .params N w N₁ (right :: v) [] → right.kind = .rightBracket → Lexical .params N₁ v N₂ r [] →
      Lexical .params N (left :: w) N₂ r []

/-! ### Unknown names stand in the text -/

/-- Names that stand between `w` and the rest `r` of it, in that order. -/
def Among (w r D : List Token) : Prop := ∃ u, w = u ++ r ∧ D.Sublist (u.filter (·.kind = .ident))

namespace Among

variable {w v r D D₁ D₂ : List Token} {t : Token}

theorem nil : Among r r [] := ⟨[], rfl, .refl _⟩

theorem name (h : t.kind = .ident) : Among (t :: r) r [t] := ⟨[t], rfl, by simp [h]⟩

theorem append (h₁ : Among w v D₁) (h₂ : Among v r D₂) : Among w r (D₁ ++ D₂) := by
  obtain ⟨u₁, rfl, h₁⟩ := h₁
  obtain ⟨u₂, rfl, h₂⟩ := h₂
  refine ⟨u₁ ++ u₂, (List.append_assoc ..).symm, ?_⟩
  rw [List.filter_append]
  exact h₁.append h₂

theorem skip : Among (t :: r) r [] := ⟨[t], rfl, List.nil_sublist _⟩

theorem cons (h : Among w r D) : Among (t :: w) r D := skip.append h

theorem past (h : Among w (t :: r) D) : Among w r D := by
  have := h.append skip
  rwa [List.append_nil] at this

end Among

namespace Lexical

variable {c : Category} {N N' N'' : Set String} {w r r' D D' : List Token}

theorem among (h : Lexical c N w N' r D) : Among w r D := by
  induction h with
  | program _ _ ih => exact ih.past
  | nothing | noOperator | noElement | noBinding | noParam => exact .nil
  | dot | noClause | noAlternative | literal | known => exact .skip
  | unknown h => exact .name h
  | list _ _ ih | items _ _ ih | noComma _ _ ih | positive _ ih => exact ih
  | dotItems _ _ ih | comma _ _ ih | negative _ _ ih | param _ _ ih => exact ih.cons
  | series _ _ ih₁ ih₂ | operation _ _ ih₁ ih₂ | element _ _ ih₁ ih₂ => exact ih₁.append ih₂
  | case _ _ _ ih₁ ih₂ | operator _ _ _ ih₁ ih₂ => exact (ih₁.append ih₂).cons
  | definition _ _ _ _ _ ihp ihl => exact (ihp.past.append ihl).cons.cons
  | conditional _ _ _ _ _ ih ihl iha => exact ((ih.past.append ihl).append iha).cons
  | bindingClause _ _ _ _ _ _ ihl ihc => exact (ihl.append ihc).cons.cons.cons
  | clause _ _ _ _ _ _ ih ihl ihc => exact ((ih.past.append ihl).append ihc).cons
  | alternative _ _ _ ih | paren _ _ _ ih | bracketed _ _ _ ih | record _ _ _ ih => exact ih.past.cons
  | bindingComma _ _ _ _ _ ih ihb => exact (ih.past.append ihb).cons.cons
  | bindingApart _ _ _ _ _ ih ihb => exact (ih.append ihb).cons.cons
  | lambda _ _ _ _ _ ihp ihl => exact (ihp.past.append ihl.past).cons
  | paramList _ _ _ _ ih ihs => exact (ih.past.append ihs).cons

/-! ### How phrases start -/

theorem starts_primary (h : Lexical .primary N w N' r D) : ∃ t v, w = t :: v ∧ t.kind.startsPrimary := by
  cases h with
  | @literal _ x r hatom => exact ⟨x, r, rfl, by simp [TokenKind.startsPrimary, hatom]⟩
  | known h | unknown h | paren h | bracketed h | record h | lambda h => exact ⟨_, _, rfl, by rw [h]; rfl⟩

theorem starts_operand (h : Lexical .operand N w N' r D) :
    ∃ t v, w = t :: v ∧ (t.kind = .minus ∨ t.kind.startsPrimary) := by
  cases h with
  | negative h => exact ⟨_, _, rfl, .inl h⟩
  | positive h =>
    obtain ⟨t, v, rfl, ht⟩ := h.starts_primary
    exact ⟨t, v, rfl, .inr ht⟩

theorem starts_expr (h : Lexical .expr N w N' r D) : ∃ t v, w = t :: v ∧ t.kind.startsExpr := by
  cases h with
  | definition h | case h | conditional h => exact ⟨_, _, rfl, by rw [h]; rfl⟩
  | operation h =>
    obtain ⟨t, v, rfl, ht⟩ := h.starts_operand
    refine ⟨t, v, rfl, ?_⟩
    cases hk : t.kind <;> simp_all [TokenKind.startsPrimary, TokenKind.isAtom, TokenKind.startsExpr]

/-- An operation starts with none of the words that other expressions start with. -/
theorem kind_of_operand {t : Token} (h : Lexical .operand N (t :: w) N' r D) :
    t.kind ≠ .keyLet ∧ t.kind ≠ .keyCase ∧ t.kind ≠ .keyIf := by
  obtain ⟨t', v, heq, ht⟩ := h.starts_operand
  obtain ⟨rfl, rfl⟩ := List.cons.inj heq
  rcases ht with ht | ht
  · simp [ht]
  · refine ⟨?_, ?_, ?_⟩ <;> rintro hk <;> rw [hk] at ht <;> cases ht

theorem kind_ne_minus_of_primary {t : Token} (h : Lexical .primary N (t :: w) N' r D) : t.kind ≠ .minus := by
  obtain ⟨t', v, heq, ht⟩ := h.starts_primary
  obtain ⟨rfl, rfl⟩ := List.cons.inj heq
  intro hk
  rw [hk] at ht
  cases ht

/-! ### A text is read in one way -/

/-- Every phrase of the category that the tokens start with leaves these names, ends here, and has these unknown
names. -/
def Sole (c : Category) (N : Set String) (w : List Token) (N' : Set String) (r D : List Token) : Prop :=
  ∀ ⦃N'' r' D'⦄, Lexical c N w N'' r' D' → N' = N'' ∧ r = r' ∧ D = D'

variable {N₁ N₂ N₃ : Set String} {u v D₁ D₂ D₃ : List Token} {t x after comma colon : Token}

theorem sole_program (ih : Sole .list N w N' (t :: r) D) : Sole .program N w N' r D := by
  intro _ _ _ h'
  cases h' with
  | program h' _ =>
    obtain ⟨rfl, hr, rfl⟩ := ih h'
    exact ⟨rfl, (List.cons.inj hr).2, rfl⟩

/-! #### Expression lists -/

theorem sole_dot (hdot : t.kind = .dot) : Sole .list N (t :: r) N r [] := by
  intro _ _ _ h'
  cases h' with
  | dot => exact ⟨rfl, rfl, rfl⟩
  | list hdot' => simp [NotAhead, hdot] at hdot'

theorem sole_list (hdot : NotAhead (· = .dot) w) (ih : Sole .series N w N' r D) : Sole .list N w N' r D := by
  intro _ _ _ h'
  cases h' with
  | dot hdot' => simp [NotAhead, hdot'] at hdot
  | list _ h' => exact ih h'

theorem sole_nothing (hr : NotAhead TokenKind.startsExpr r) : Sole .series N r N r [] := by
  intro _ _ _ h'
  cases h' with
  | nothing => exact ⟨rfl, rfl, rfl⟩
  | series h' =>
    obtain ⟨t, v, rfl, ht⟩ := h'.starts_expr
    simp [NotAhead, ht] at hr

theorem sole_series (h : Lexical .expr N w N₁ v D₁) (ih : Sole .expr N w N₁ v D₁) (ihi : Sole .items N₁ v N₂ r D₂) :
    Sole .series N w N₂ r (D₁ ++ D₂) := by
  intro _ _ _ h'
  cases h' with
  | nothing hr =>
    obtain ⟨t, v, rfl, ht⟩ := h.starts_expr
    simp [NotAhead, ht] at hr
  | series h' hi' =>
    obtain ⟨rfl, rfl, rfl⟩ := ih h'
    obtain ⟨rfl, rfl, rfl⟩ := ihi hi'
    exact ⟨rfl, rfl, rfl⟩

theorem sole_items (hdot : NotAhead (· = .dot) w) (ih : Sole .series N w N' r D) : Sole .items N w N' r D := by
  intro _ _ _ h'
  cases h' with
  | items _ h' => exact ih h'
  | dotItems hdot' => simp [NotAhead, hdot'] at hdot

theorem sole_dotItems (hdot : t.kind = .dot) (ih : Sole .series N w N' r D) : Sole .items N (t :: w) N' r D := by
  intro _ _ _ h'
  cases h' with
  | items hdot' => simp [NotAhead, hdot] at hdot'
  | dotItems _ h' => exact ih h'

/-! #### Expressions -/

theorem sole_definition (hlet : t.kind = .keyLet) (ihp : Sole .params (insert x.lexeme N) w N₁ (after :: v) [])
    (ihl : Sole .list N₁ v N₂ r D) : Sole .expr N (t :: x :: w) (insert x.lexeme N) r D := by
  intro _ _ _ h'
  cases h' with
  | definition _ _ hp' _ hl' =>
    obtain ⟨rfl, heq, -⟩ := ihp hp'
    obtain ⟨rfl, rfl⟩ := List.cons.inj heq
    obtain ⟨-, rfl, rfl⟩ := ihl hl'
    exact ⟨rfl, rfl, rfl⟩
  | case hk' | conditional hk' => simp [hlet] at hk'
  | operation h' => exact absurd hlet h'.kind_of_operand.1

theorem sole_case (hcase : t.kind = .keyCase) (ih : Sole .expr N w N₁ v D₁) (ihc : Sole .clauses N₁ v N₁ r D₂) :
    Sole .expr N (t :: w) N₁ r (D₁ ++ D₂) := by
  intro _ _ _ h'
  cases h' with
  | definition hk' | conditional hk' => simp [hcase] at hk'
  | case _ h' hc' =>
    obtain ⟨rfl, rfl, rfl⟩ := ih h'
    obtain ⟨-, rfl, rfl⟩ := ihc hc'
    exact ⟨rfl, rfl, rfl⟩
  | operation h' => exact absurd hcase h'.kind_of_operand.2.1

theorem sole_conditional (hif : t.kind = .keyIf) (ih : Sole .expr N w N₁ (after :: v) D₁)
    (ihl : Sole .list N₁ v N₂ u D₂) (iha : Sole .alternative N₂ u N₃ r D₃) :
    Sole .expr N (t :: w) N₃ r (D₁ ++ D₂ ++ D₃) := by
  intro _ _ _ h'
  cases h' with
  | definition hk' | case hk' => simp [hif] at hk'
  | conditional _ h' _ hl' ha' =>
    obtain ⟨rfl, heq, rfl⟩ := ih h'
    obtain ⟨rfl, rfl⟩ := List.cons.inj heq
    obtain ⟨rfl, rfl, rfl⟩ := ihl hl'
    obtain ⟨rfl, rfl, rfl⟩ := iha ha'
    exact ⟨rfl, rfl, rfl⟩
  | operation h' => exact absurd hif h'.kind_of_operand.2.2

theorem sole_operation (h : Lexical .operand N w N₁ v D₁) (ih : Sole .operand N w N₁ v D₁)
    (iho : Sole .operators N₁ v N₂ r D₂) : Sole .expr N w N₂ r (D₁ ++ D₂) := by
  intro _ _ _ h'
  cases h' with
  | definition hk' => exact absurd hk' h.kind_of_operand.1
  | case hk' => exact absurd hk' h.kind_of_operand.2.1
  | conditional hk' => exact absurd hk' h.kind_of_operand.2.2
  | operation h' ho' =>
    obtain ⟨rfl, rfl, rfl⟩ := ih h'
    obtain ⟨rfl, rfl, rfl⟩ := iho ho'
    exact ⟨rfl, rfl, rfl⟩

theorem sole_noClause (hend : t.kind = .keyEnd) : Sole .clauses N (t :: r) N r [] := by
  intro _ _ _ h'
  cases h' with
  | noClause => exact ⟨rfl, rfl, rfl⟩
  | bindingClause hk' | clause hk' => simp [hend] at hk'

theorem sole_bindingClause (hof : t.kind = .keyOf) (hbinds : BindsAhead N (x :: colon :: v))
    (ihl : Sole .list (insert x.lexeme N) v N₁ u D₁) (ihc : Sole .clauses N u N r D₂) :
    Sole .clauses N (t :: x :: colon :: v) N r (D₁ ++ D₂) := by
  intro _ _ _ h'
  cases h' with
  | noClause hk' => simp [hof] at hk'
  | bindingClause _ _ _ _ hl' hc' =>
    obtain ⟨rfl, rfl, rfl⟩ := ihl hl'
    obtain ⟨-, rfl, rfl⟩ := ihc hc'
    exact ⟨rfl, rfl, rfl⟩
  | clause _ hnot => exact absurd hbinds hnot

theorem sole_clause (hof : t.kind = .keyOf) (hnot : ¬ BindsAhead N w) (ih : Sole .operand N w N₁ (colon :: v) D₁)
    (ihl : Sole .list N₁ v N₂ u D₂) (ihc : Sole .clauses N u N r D₃) :
    Sole .clauses N (t :: w) N r (D₁ ++ D₂ ++ D₃) := by
  intro _ _ _ h'
  cases h' with
  | noClause hk' => simp [hof] at hk'
  | bindingClause _ hx hunknown hcolon => exact absurd ⟨_, _, _, rfl, hx, hunknown, hcolon⟩ hnot
  | clause _ _ h' _ hl' hc' =>
    obtain ⟨rfl, heq, rfl⟩ := ih h'
    obtain ⟨rfl, rfl⟩ := List.cons.inj heq
    obtain ⟨rfl, rfl, rfl⟩ := ihl hl'
    obtain ⟨-, rfl, rfl⟩ := ihc hc'
    exact ⟨rfl, rfl, rfl⟩

theorem sole_noAlternative (hend : t.kind = .keyEnd) : Sole .alternative N (t :: r) N r [] := by
  intro _ _ _ h'
  cases h' with
  | noAlternative => exact ⟨rfl, rfl, rfl⟩
  | alternative hk' => simp [hend] at hk'

theorem sole_alternative (helse : t.kind = .keyElse) (ih : Sole .list N w N' (after :: r) D) :
    Sole .alternative N (t :: w) N' r D := by
  intro _ _ _ h'
  cases h' with
  | noAlternative hk' => simp [helse] at hk'
  | alternative _ hl' _ =>
    obtain ⟨rfl, heq, rfl⟩ := ih hl'
    exact ⟨rfl, (List.cons.inj heq).2, rfl⟩

theorem sole_noOperator (hr : NotAhead TokenKind.isInfix r) : Sole .operators N r N r [] := by
  intro _ _ _ h'
  cases h' with
  | noOperator => exact ⟨rfl, rfl, rfl⟩
  | operator hop => simp [NotAhead, hop] at hr

theorem sole_operator (hop : t.kind.isInfix) (ih : Sole .operand N w N₁ v D₁) (iho : Sole .operators N₁ v N₂ r D₂) :
    Sole .operators N (t :: w) N₂ r (D₁ ++ D₂) := by
  intro _ _ _ h'
  cases h' with
  | noOperator hr => simp [NotAhead, hop] at hr
  | operator _ h' ho' =>
    obtain ⟨rfl, rfl, rfl⟩ := ih h'
    obtain ⟨rfl, rfl, rfl⟩ := iho ho'
    exact ⟨rfl, rfl, rfl⟩

theorem sole_negative (hminus : t.kind = .minus) (ih : Sole .primary N w N' r D) : Sole .operand N (t :: w) N' r D := by
  intro _ _ _ h'
  cases h' with
  | negative _ h' => exact ih h'
  | positive h' => exact absurd hminus h'.kind_ne_minus_of_primary

theorem sole_positive (h : Lexical .primary N w N' r D) (ih : Sole .primary N w N' r D) : Sole .operand N w N' r D := by
  intro _ _ _ h'
  cases h' with
  | negative hminus => exact absurd hminus h.kind_ne_minus_of_primary
  | positive h' => exact ih h'

/-! #### Primary expressions -/

theorem sole_literal (hatom : t.kind.isAtom) (hne : t.kind ≠ .ident) : Sole .primary N (t :: r) N r [] := by
  intro _ _ _ h'
  cases h' with
  | literal => exact ⟨rfl, rfl, rfl⟩
  | known hk' | unknown hk' => exact absurd hk' hne
  | paren hk' | bracketed hk' | record hk' | lambda hk' => simp [hk', TokenKind.isAtom] at hatom

theorem sole_known (hk : t.kind = .ident) (hknown : t.lexeme ∈ N) : Sole .primary N (t :: r) N r [] := by
  intro _ _ _ h'
  cases h' with
  | literal _ hne => exact absurd hk hne
  | known => exact ⟨rfl, rfl, rfl⟩
  | unknown _ hunknown => exact absurd hknown hunknown
  | paren hk' | bracketed hk' | record hk' | lambda hk' => simp [hk'] at hk

theorem sole_unknown (hk : t.kind = .ident) (hunknown : t.lexeme ∉ N) : Sole .primary N (t :: r) N r [t] := by
  intro _ _ _ h'
  cases h' with
  | literal _ hne => exact absurd hk hne
  | known _ hknown => exact absurd hknown hunknown
  | unknown => exact ⟨rfl, rfl, rfl⟩
  | paren hk' | bracketed hk' | record hk' | lambda hk' => simp [hk'] at hk

theorem sole_paren (hk : t.kind = .leftParen) (ih : Sole .list N w N' (after :: r) D) :
    Sole .primary N (t :: w) N' r D := by
  intro _ _ _ h'
  cases h' with
  | literal hatom => simp [hk, TokenKind.isAtom] at hatom
  | known hk' | unknown hk' | bracketed hk' | record hk' | lambda hk' => simp [hk'] at hk
  | paren _ h' =>
    obtain ⟨rfl, heq, rfl⟩ := ih h'
    exact ⟨rfl, (List.cons.inj heq).2, rfl⟩

theorem sole_bracketed (hk : t.kind = .leftBracket) (ih : Sole .elements N w N' (after :: r) D) :
    Sole .primary N (t :: w) N' r D := by
  intro _ _ _ h'
  cases h' with
  | literal hatom => simp [hk, TokenKind.isAtom] at hatom
  | known hk' | unknown hk' | paren hk' | record hk' | lambda hk' => simp [hk'] at hk
  | bracketed _ h' =>
    obtain ⟨rfl, heq, rfl⟩ := ih h'
    exact ⟨rfl, (List.cons.inj heq).2, rfl⟩

theorem sole_noElement (hr : NotAhead TokenKind.startsExpr r) : Sole .elements N r N r [] := by
  intro _ _ _ h'
  cases h' with
  | noElement => exact ⟨rfl, rfl, rfl⟩
  | element h' =>
    obtain ⟨t, v, rfl, ht⟩ := h'.starts_expr
    simp [NotAhead, ht] at hr

theorem sole_element (h : Lexical .expr N w N₁ v D₁) (ih : Sole .expr N w N₁ v D₁)
    (ihm : Sole .moreElements N₁ v N₂ r D₂) : Sole .elements N w N₂ r (D₁ ++ D₂) := by
  intro _ _ _ h'
  cases h' with
  | noElement hr =>
    obtain ⟨t, v, rfl, ht⟩ := h.starts_expr
    simp [NotAhead, ht] at hr
  | element h' hm' =>
    obtain ⟨rfl, rfl, rfl⟩ := ih h'
    obtain ⟨rfl, rfl, rfl⟩ := ihm hm'
    exact ⟨rfl, rfl, rfl⟩

theorem sole_comma (hcomma : t.kind = .comma) (ih : Sole .elements N w N' r D) :
    Sole .moreElements N (t :: w) N' r D := by
  intro _ _ _ h'
  cases h' with
  | comma _ h' => exact ih h'
  | noComma hapart => simp [NotAhead, hcomma] at hapart

theorem sole_noComma (hapart : NotAhead (· = .comma) w) (ih : Sole .elements N w N' r D) :
    Sole .moreElements N w N' r D := by
  intro _ _ _ h'
  cases h' with
  | comma hcomma => simp [NotAhead, hcomma] at hapart
  | noComma _ h' => exact ih h'

theorem sole_record (hk : t.kind = .leftBrace) (ih : Sole .bindings N w N' (after :: r) D) :
    Sole .primary N (t :: w) N' r D := by
  intro _ _ _ h'
  cases h' with
  | literal hatom => simp [hk, TokenKind.isAtom] at hatom
  | known hk' | unknown hk' | paren hk' | bracketed hk' | lambda hk' => simp [hk'] at hk
  | record _ h' =>
    obtain ⟨rfl, heq, rfl⟩ := ih h'
    exact ⟨rfl, (List.cons.inj heq).2, rfl⟩

theorem sole_noBinding (hr : NotAhead TokenKind.isKey r) : Sole .bindings N r N r [] := by
  intro _ _ _ h'
  cases h' with
  | noBinding => exact ⟨rfl, rfl, rfl⟩
  | bindingComma hkey | bindingApart hkey => simp [NotAhead, hkey] at hr

theorem sole_bindingComma (hkey : t.kind.isKey) (hcomma : comma.kind = .comma)
    (ih : Sole .expr N w N₁ (comma :: v) D₁) (ihb : Sole .bindings N₁ v N₂ r D₂) :
    Sole .bindings N (t :: colon :: w) N₂ r (D₁ ++ D₂) := by
  intro _ _ _ h'
  cases h' with
  | noBinding hr => simp [NotAhead, hkey] at hr
  | bindingComma _ _ h' _ hb' =>
    obtain ⟨rfl, heq, rfl⟩ := ih h'
    obtain ⟨rfl, rfl⟩ := List.cons.inj heq
    obtain ⟨rfl, rfl, rfl⟩ := ihb hb'
    exact ⟨rfl, rfl, rfl⟩
  | bindingApart _ _ h' hapart =>
    obtain ⟨rfl, rfl, rfl⟩ := ih h'
    simp [NotAhead, hcomma] at hapart

theorem sole_bindingApart (hkey : t.kind.isKey) (hapart : NotAhead (· = .comma) v) (ih : Sole .expr N w N₁ v D₁)
    (ihb : Sole .bindings N₁ v N₂ r D₂) : Sole .bindings N (t :: colon :: w) N₂ r (D₁ ++ D₂) := by
  intro _ _ _ h'
  cases h' with
  | noBinding hr => simp [NotAhead, hkey] at hr
  | bindingComma _ _ h' hcomma =>
    obtain ⟨rfl, rfl, rfl⟩ := ih h'
    simp [NotAhead, hcomma] at hapart
  | bindingApart _ _ h' _ hb' =>
    obtain ⟨rfl, rfl, rfl⟩ := ih h'
    obtain ⟨rfl, rfl, rfl⟩ := ihb hb'
    exact ⟨rfl, rfl, rfl⟩

/-! #### Functions -/

theorem sole_lambda (hk : t.kind = .leftAngle) (ihp : Sole .params N w N₁ (colon :: v) [])
    (ihl : Sole .list N₁ v N₂ (after :: r) D) : Sole .primary N (t :: w) N r D := by
  intro _ _ _ h'
  cases h' with
  | literal hatom => simp [hk, TokenKind.isAtom] at hatom
  | known hk' | unknown hk' | paren hk' | bracketed hk' | record hk' => simp [hk'] at hk
  | lambda _ hp' _ hl' =>
    obtain ⟨rfl, heq, -⟩ := ihp hp'
    obtain ⟨rfl, rfl⟩ := List.cons.inj heq
    obtain ⟨-, heq, rfl⟩ := ihl hl'
    exact ⟨rfl, (List.cons.inj heq).2, rfl⟩

theorem sole_noParam (hr : NotAhead TokenKind.startsParam r) : Sole .params N r N r [] := by
  intro _ _ _ h'
  cases h' with
  | noParam => exact ⟨rfl, rfl, rfl⟩
  | param hk | paramList hk => simp [NotAhead, hk, TokenKind.startsParam] at hr

theorem sole_param (hk : t.kind = .ident) (ih : Sole .params (insert t.lexeme N) w N' r []) :
    Sole .params N (t :: w) N' r [] := by
  intro _ _ _ h'
  cases h' with
  | noParam hr => simp [NotAhead, hk, TokenKind.startsParam] at hr
  | param _ h' => exact ih h'
  | paramList hk' => simp [hk] at hk'

theorem sole_paramList (hk : t.kind = .leftBracket) (ih : Sole .params N w N₁ (after :: v) [])
    (ihs : Sole .params N₁ v N₂ r []) : Sole .params N (t :: w) N₂ r [] := by
  intro _ _ _ h'
  cases h' with
  | noParam hr => simp [NotAhead, hk, TokenKind.startsParam] at hr
  | param hk' => simp [hk] at hk'
  | paramList _ h' _ hs' =>
    obtain ⟨rfl, heq, -⟩ := ih h'
    obtain ⟨rfl, rfl⟩ := List.cons.inj heq
    obtain ⟨rfl, rfl, -⟩ := ihs hs'
    exact ⟨rfl, rfl, rfl⟩

/-! #### All of them -/

theorem sole (h : Lexical c N w N' r D) : Sole c N w N' r D := by
  induction h with
  | program _ _ ih => exact sole_program ih
  | dot h => exact sole_dot h
  | list h _ ih => exact sole_list h ih
  | nothing h => exact sole_nothing h
  | series h _ ih ihi => exact sole_series h ih ihi
  | items h _ ih => exact sole_items h ih
  | dotItems h _ ih => exact sole_dotItems h ih
  | definition h _ _ _ _ ihp ihl => exact sole_definition h ihp ihl
  | case h _ _ ih ihc => exact sole_case h ih ihc
  | conditional h _ _ _ _ ih ihl iha => exact sole_conditional h ih ihl iha
  | operation h _ ih iho => exact sole_operation h ih iho
  | noClause h => exact sole_noClause h
  | bindingClause h hx hunknown hcolon _ _ ihl ihc =>
    exact sole_bindingClause h ⟨_, _, _, rfl, hx, hunknown, hcolon⟩ ihl ihc
  | clause h hnot _ _ _ _ ih ihl ihc => exact sole_clause h hnot ih ihl ihc
  | noAlternative h => exact sole_noAlternative h
  | alternative h _ _ ih => exact sole_alternative h ih
  | noOperator h => exact sole_noOperator h
  | operator h _ _ ih iho => exact sole_operator h ih iho
  | negative h _ ih => exact sole_negative h ih
  | positive h ih => exact sole_positive h ih
  | literal h hne => exact sole_literal h hne
  | known h hknown => exact sole_known h hknown
  | unknown h hunknown => exact sole_unknown h hunknown
  | paren h _ _ ih => exact sole_paren h ih
  | bracketed h _ _ ih => exact sole_bracketed h ih
  | noElement h => exact sole_noElement h
  | element h _ ih ihm => exact sole_element h ih ihm
  | comma h _ ih => exact sole_comma h ih
  | noComma h _ ih => exact sole_noComma h ih
  | record h _ _ ih => exact sole_record h ih
  | noBinding h => exact sole_noBinding h
  | bindingComma h _ _ hcomma _ ih ihb => exact sole_bindingComma h hcomma ih ihb
  | bindingApart h _ _ hapart _ ih ihb => exact sole_bindingApart h hapart ih ihb
  | lambda h _ _ _ _ ihp ihl => exact sole_lambda h ihp ihl
  | noParam h => exact sole_noParam h
  | param h _ ih => exact sole_param h ih
  | paramList h _ _ _ ih ihs => exact sole_paramList h ih ihs

theorem unique (h : Lexical c N w N' r D) (h' : Lexical c N w N'' r' D') : N' = N'' ∧ r = r' ∧ D = D' :=
  h.sole h'

end Lexical

end Linefold
