import Linefold.Proofs.Grammar.Phrase

/-!
# What a stack of positions expects

`Nested`: which position may stand on which. `Expects K o w`: the positions `K` can be left, one after
the other, over exactly the kinds `w`. The flag `o` says whether the part that was just left is open,
which means that its last list would have taken one more expression; only a record looks at it.
A position may hand its token to the positions around it although these come later in the grammar;
`expects_exprsNext_iff` and `expects_binary_iff` say why nothing is lost by letting the innermost one
take what it can.
-/

namespace Linefold

/-! ### Positions on positions -/

/-- What a position relies on below it. -/
inductive Role where
  | bottom
  /-- The end of an expression list, which a token of kind `brk` ends from outside. -/
  | list (brk : TokenKind)
  /-- The end of an expression. -/
  | expr
  | operand
  /-- The end of a primary expression. -/
  | primary
  /-- The end of parameters, which a token of kind `brk` follows. -/
  | params (brk : TokenKind)
  /-- The end of a list pattern. -/
  | moreParams
  | listEnd
  | recordEnd
  | bindingNext
  | ofColon
  | ofEnd
  | caseClauses
  deriving DecidableEq, Repr

namespace Cont

/-- What a position needs to stand on. -/
def beneath : Cont → Role
  | program => .bottom
  | exprs brk _ | exprsNext brk _ | exprsAfterDot brk _ => .list brk
  | expr | letName | letEqual .. | letBody .. | binary _ | caseClauses .. => .expr
  | ifThen .. | ifElse .. | ifEnd .. => .expr
  | params brk _ => .params brk
  | paramList _ => .moreParams
  | operand | negate _ => .operand
  | primary | lambdaColon _ | lambdaEnd _ | parenEnd _ | listEnd _ | recordEnd .. => .primary
  | elements | elementNext => .listEnd
  | bindings | bindingNext => .recordEnd
  | bindingColon => .bindingNext
  | pattern => .ofColon
  | ofColon => .ofEnd
  | ofEnd => .caseClauses

def fits : Role → Cont → Bool
  | .bottom, _ => false
  | .list brk, program | .list brk, letBody .. => brk = .dot
  | .list brk, parenEnd _ => brk = .rightParen
  | .list brk, lambdaEnd _ => brk = .rightAngle
  | .list brk, ofEnd => brk = .keyOf
  | .list brk, ifElse .. => brk = .keyElse
  | .list brk, ifEnd .. => brk = .keyEnd
  | .expr, exprsNext .. | .expr, elementNext | .expr, bindingNext | .expr, caseClauses ..
  | .expr, ifThen .. => true
  | .operand, binary _ | .operand, ofColon => true
  | .primary, negate _ | .primary, binary _ | .primary, ofColon => true
  | .params brk, letEqual .. => brk = .equal
  | .params brk, lambdaColon _ => brk = .colon
  | .params brk, paramList _ => brk = .rightBracket
  | .moreParams, params .. => true
  | .listEnd, listEnd _ => true
  | .recordEnd, recordEnd .. => true
  | .bindingNext, bindingNext => true
  | .ofColon, ofColon => true
  | .ofEnd, ofEnd => true
  | .caseClauses, caseClauses .. => true
  | _, _ => false

end Cont

/-- The positions can stand below one that relies on `r`. -/
def Stacked : Role → List Cont → Prop
  | r, [] => r = .bottom
  | r, c :: K => c.fits r ∧ Stacked c.beneath K

/-- The positions of a parse that goes on. -/
def Nested : List Cont → Prop
  | [] => False
  | c :: K => Stacked c.beneath K

theorem Stacked.nested {r : Role} {K : List Cont} (h : Stacked r K) (hr : r ≠ .bottom) :
    Nested K := by
  cases K with
  | nil => exact absurd h hr
  | cons c K => exact h.2

/-- What may end a primary expression is what may end an operand, or a sign before it. -/
theorem Stacked.primary_of_operand {K : List Cont} (h : Stacked .operand K) :
    Stacked .primary K := by
  cases K with
  | nil => exact absurd h (by simp [Stacked])
  | cons c K =>
    obtain ⟨hc, hK⟩ := h
    cases c <;> first | exact ⟨rfl, hK⟩ | cases hc

theorem Stacked.operand_of_ofColon {K : List Cont} (h : Stacked .ofColon K) :
    Stacked .operand K := by
  cases K with
  | nil => exact absurd h (by simp [Stacked])
  | cons c K =>
    obtain ⟨hc, hK⟩ := h
    cases c <;> first | exact ⟨rfl, hK⟩ | cases hc

theorem Stacked.list_of_ofEnd {K : List Cont} (h : Stacked .ofEnd K) :
    Stacked (.list .keyOf) K := by
  cases K with
  | nil => exact absurd h (by simp [Stacked])
  | cons c K =>
    obtain ⟨hc, hK⟩ := h
    cases c <;> first | exact ⟨rfl, hK⟩ | cases hc

theorem Stacked.expr_of_bindingNext {K : List Cont} (h : Stacked .bindingNext K) :
    Stacked .expr K := by
  cases K with
  | nil => exact absurd h (by simp [Stacked])
  | cons c K =>
    obtain ⟨hc, hK⟩ := h
    cases c <;> first | exact ⟨rfl, hK⟩ | cases hc

/-! ### Expectations -/

/-- The phrases of the language. -/
abbrev Reads : Category → List TokenKind → List TokenKind → Prop := Phrase .closed

/-- A list, which is open unless it is a dot, and then `next`. -/
def ReadsList (next : Bool → List TokenKind → Prop) (w : List TokenKind) : Prop :=
  (∃ v, w = .dot :: v ∧ next false v) ∨ ∃ v, Reads .series w v ∧ next true v

/-- An expression, which is open unless it is closed, and then `next`. -/
def ReadsExpr (next : Bool → List TokenKind → Prop) (w : List TokenKind) : Prop :=
  (∃ v, Reads .closed w v ∧ next false v) ∨ ∃ v, Reads .expr w v ∧ next true v

def Expects : List Cont → Bool → List TokenKind → Prop
  | [], _, w => w = []
  | c :: K, o, w =>
    match c with
    | .program => ∃ v, w = .eof :: v ∧ Expects K false v
    | .exprs _ _ => ReadsList (Expects K) w
    | .exprsNext _ _ => ∃ v, Reads .items w v ∧ Expects K true v
    | .exprsAfterDot _ _ => ∃ v, Reads .series w v ∧ Expects K true v
    | .expr => ReadsExpr (Expects K) w
    | .letName => ∃ u v, w = .ident :: u ∧ Reads .params u (.equal :: v) ∧ ReadsList (Expects K) v
    | .letEqual _ _ _ => ∃ v, w = .equal :: v ∧ ReadsList (Expects K) v
    | .letBody _ _ _ | .negate _ | .ofEnd => Expects K o w
    | .params _ _ => ∃ v, Reads .params w v ∧ Expects K false v
    | .paramList _ => ∃ v, w = .rightBracket :: v ∧ Expects K false v
    | .lambdaColon _ => ∃ u v, w = .colon :: u ∧ Reads .list u (.rightAngle :: v) ∧ Expects K false v
    | .lambdaEnd _ => ∃ v, w = .rightAngle :: v ∧ Expects K false v
    | .operand | .pattern => ∃ v, Reads .operand w v ∧ Expects K false v
    | .binary _ => ∃ v, Reads .operators w v ∧ Expects K false v
    | .primary => ∃ v, Reads .primary w v ∧ Expects K false v
    | .parenEnd _ => ∃ v, w = .rightParen :: v ∧ Expects K false v
    | .elements => ∃ v, Reads .elements w v ∧ Expects K false v
    | .elementNext => ∃ v, Reads .moreElements w v ∧ Expects K false v
    | .listEnd _ => ∃ v, w = .rightBracket :: v ∧ Expects K false v
    | .bindings => ∃ v, Reads .bindings w v ∧ Expects K false v
    | .bindingColon => ∃ v, w = .colon :: v ∧ ReadsExpr (Expects K) v
    | .bindingNext =>
      (∃ u v, w = .comma :: u ∧ Reads .bindings u v ∧ Expects K false v) ∨
        (o = false ∧ ∃ v, Reads .bindings w v ∧ Expects K false v) ∨ Expects K false w
    | .recordEnd _ _ => ∃ v, w = .rightBrace :: v ∧ Expects K false v
    | .caseClauses _ _ => ∃ v, Reads .clauses w v ∧ Expects K false v
    | .ofColon => ∃ u v, w = .colon :: u ∧ Reads .list u v ∧ Expects K false v
    | .ifThen _ _ =>
      ∃ u v y, w = .keyThen :: u ∧ Reads .list u v ∧ Reads .alternative v y ∧ Expects K false y
    | .ifElse _ _ => ∃ v, Reads .alternative w v ∧ Expects K false v
    | .ifEnd _ _ => ∃ v, w = .keyEnd :: v ∧ Expects K false v

variable {K : List Cont} {o : Bool} {k brk : TokenKind} {w : List TokenKind}

/-- What may follow an open part may follow a closed one. -/
theorem Expects.closed (h : Expects K true w) : Expects K false w := by
  induction K with
  | nil => exact h
  | cons c K ih =>
    cases c with
    | letBody | negate | ofEnd => exact ih h
    | bindingNext =>
      rcases h with h | ⟨⟨⟩, _⟩ | h
      · exact .inl h
      · exact .inr (.inr h)
    | _ => exact h

/-! ### What lists leave to the positions around them -/

/-- A kind that ends a list and belongs to the construct around it. -/
def TokenKind.closesList : TokenKind → Bool
  | eof | rightParen | rightAngle | keyOf | keyEnd | keyElse => true
  | _ => false

/-- Below the end of a list, only a definition hands a token on. -/
theorem Stacked.letBody_of_expects (hK : Stacked (.list brk) K) (hk : k.closesList = false)
    (h : Expects K o (k :: w)) :
    ∃ depth name base K', K = .letBody depth name base :: K' ∧ Stacked .expr K' := by
  match K with
  | [] => cases hK
  | c :: K =>
    obtain ⟨hc, hK⟩ := hK
    cases c with
    | letBody depth name base => exact ⟨depth, name, base, K, rfl, hK⟩
    | ofEnd =>
      match K with
      | [] => cases hK
      | c :: K =>
        cases c with
        | caseClauses =>
          obtain ⟨v, hv, -⟩ := h
          cases hv <;> cases hk
        | _ => cases hK.1
    | ifElse =>
      obtain ⟨v, hv, -⟩ := h
      cases hv <;> cases hk
    | program | parenEnd | lambdaEnd | ifEnd =>
      obtain ⟨v, hv, -⟩ := h
      cases hv
      cases hk
    | _ => cases hc

/-- A token that ends a list from outside opens no expression. -/
theorem Stacked.startsExpr_eq_false (hK : Stacked (.list brk) K) : brk.startsExpr = false := by
  match K with
  | [] => cases hK
  | c :: K =>
    obtain ⟨hc, -⟩ := hK
    cases c <;> first | (obtain rfl := of_decide_eq_true hc; rfl) | cases hc

theorem reads_series_iff (hk : k.startsExpr = false) {v : List TokenKind} :
    Reads .series (k :: w) v ↔ v = k :: w := by
  constructor
  · intro h
    cases h with
    | nothing => rfl
    | series h => exact absurd h.startsExpr_of_expr (by simp [hk])
  · rintro rfl
    exact .nothing

theorem reads_items_iff (hk : k ≠ .dot) {v : List TokenKind} :
    Reads .items (k :: w) v ↔ Reads .series (k :: w) v := by
  constructor
  · intro h
    cases h with
    | items h => exact h
    | dotItems => exact absurd rfl hk
  · exact .items

theorem reads_elements_eq (hk : k.startsExpr = false) {v : List TokenKind}
    (h : Reads .elements (k :: w) v) : v = k :: w := by
  cases h with
  | noElement => rfl
  | element h => exact absurd h.startsExpr_of_expr (by simp [hk])

theorem reads_bindings_eq (hk : k.isKey = false) {v : List TokenKind}
    (h : Reads .bindings (k :: w) v) : v = k :: w := by
  cases h with
  | noBinding => rfl
  | binding h | bindingComma h | bindingApart h => exact absurd h (by simp [hk])

/-- A list that is not flagged by what comes next is a list. -/
theorem readsList_iff {next : Bool → List TokenKind → Prop}
    (h : ∀ v, next true v ↔ next false v) :
    ReadsList next w ↔ ∃ v, Reads .list w v ∧ next false v := by
  constructor
  · rintro (⟨v, rfl, hv⟩ | ⟨v, hs, hv⟩)
    · exact ⟨v, .dot, hv⟩
    · exact ⟨v, .list hs, (h v).1 hv⟩
  · rintro ⟨v, hs, hv⟩
    cases hs with
    | dot => exact .inl ⟨v, rfl, hv⟩
    | list hs => exact .inr ⟨v, hs, (h v).2 hv⟩

theorem readsExpr_iff {next : Bool → List TokenKind → Prop}
    (h : ∀ v, next true v ↔ next false v) :
    ReadsExpr next w ↔ ∃ v, Reads .expr w v ∧ next true v := by
  constructor
  · rintro (⟨v, hs, hv⟩ | ⟨v, hs, hv⟩)
    · exact ⟨v, .expr hs, (h v).2 hv⟩
    · exact ⟨v, hs, hv⟩
  · exact .inr

/-! ### Letting the innermost position go first -/

/-- Where an expression has just ended and may be followed by one more, what follows is just what
may follow that one. -/
theorem Stacked.absorb_expr (hk : k.startsExpr) :
    ∀ {K : List Cont}, Stacked .expr K → Expects K true (k :: w) →
      ∃ v, Reads .expr (k :: w) v ∧ Expects K true v
  | .exprsNext _ _ :: K, hK, ⟨v, hv, h⟩ => by
    have hdot : k ≠ .dot := by rintro rfl; cases hk
    rw [reads_items_iff hdot] at hv
    cases hv with
    | nothing =>
      obtain ⟨_, _, _, K, rfl, hK'⟩ :=
        hK.2.letBody_of_expects (by cases k <;> first | rfl | cases hk) h
      obtain ⟨v, hv, h⟩ := Stacked.absorb_expr hk hK' h
      exact ⟨v, hv, v, .items .nothing, h⟩
    | series he hi => exact ⟨_, he, v, hi, h⟩
  | .elementNext :: .listEnd _ :: K, _, ⟨v, hv, h⟩ => by
    cases hv with
    | comma => cases hk
    | noComma hv =>
      cases hv with
      | noElement => obtain ⟨_, ⟨⟩, -⟩ := h; cases hk
      | element he hm => exact ⟨_, he, v, hm, h⟩
  | .bindingNext :: .recordEnd _ _ :: K, _, h => by
    rcases h with ⟨_, _, ⟨⟩, -⟩ | ⟨⟨⟩, -⟩ | ⟨_, ⟨⟩, -⟩ <;> cases hk
  | .caseClauses _ _ :: K, _, ⟨v, hv, _⟩ => by cases hv <;> cases hk
  | .ifThen _ _ :: K, _, h => by
    obtain ⟨_, _, _, ⟨⟩, -⟩ := h
    cases hk

/-- A dot too many for one list is taken by a list around it. -/
theorem Stacked.absorb_dot :
    ∀ {K : List Cont} {o : Bool}, Stacked .expr K → Expects K o (.dot :: w) → Expects K true w
  | .exprsNext _ _ :: K, _, hK, ⟨v, hv, h⟩ => by
    cases hv with
    | items hv =>
      obtain rfl := (reads_series_iff rfl).1 hv
      obtain ⟨_, _, _, K, rfl, hK'⟩ := hK.2.letBody_of_expects rfl h
      exact ⟨w, .items .nothing, Stacked.absorb_dot (K := K) hK' h⟩
    | dotItems hv => exact ⟨v, .items hv, h⟩
  | .elementNext :: .listEnd _ :: K, _, _, ⟨v, hv, h⟩ => by
    cases hv with
    | noComma hv =>
      obtain rfl := reads_elements_eq rfl hv
      obtain ⟨_, ⟨⟩, -⟩ := h
  | .bindingNext :: .recordEnd _ _ :: K, _, _, h => by
    rcases h with ⟨_, _, ⟨⟩, -⟩ | ⟨-, v, hv, h⟩ | ⟨_, ⟨⟩, -⟩
    obtain rfl := reads_bindings_eq rfl hv
    obtain ⟨_, ⟨⟩, -⟩ := h
  | .caseClauses _ _ :: K, _, _, ⟨v, hv, _⟩ => by cases hv
  | .ifThen _ _ :: K, _, _, h => by obtain ⟨_, _, _, ⟨⟩, -⟩ := h

theorem Stacked.not_expects_binOp :
    ∀ {K : List Cont} {o : Bool}, Stacked .expr K → ¬ Expects K o (.binOp :: w)
  | .exprsNext _ _ :: K, _, hK, ⟨v, hv, h⟩ => by
    obtain rfl := (reads_series_iff rfl).1 ((reads_items_iff (by decide)).1 hv)
    obtain ⟨_, _, _, K, rfl, hK'⟩ := hK.2.letBody_of_expects rfl h
    exact Stacked.not_expects_binOp (K := K) hK' h
  | .elementNext :: .listEnd _ :: K, _, _, ⟨v, hv, h⟩ => by
    cases hv with
    | noComma hv =>
      obtain rfl := reads_elements_eq rfl hv
      obtain ⟨_, ⟨⟩, -⟩ := h
  | .bindingNext :: .recordEnd _ _ :: K, _, _, h => by
    rcases h with ⟨_, _, ⟨⟩, -⟩ | ⟨-, v, hv, h⟩ | ⟨_, ⟨⟩, -⟩
    obtain rfl := reads_bindings_eq rfl hv
    obtain ⟨_, ⟨⟩, -⟩ := h
  | .caseClauses _ _ :: K, _, _, ⟨v, hv, _⟩ => by cases hv
  | .ifThen _ _ :: K, _, _, h => by obtain ⟨_, _, _, ⟨⟩, -⟩ := h

/-- Only a record looks at whether what it stands on is open, and no field starts with a sign. -/
theorem Stacked.expects_minus_true (hK : Stacked .expr K) (h : Expects K false (.minus :: w)) :
    Expects K true (.minus :: w) := by
  match K with
  | [] => cases hK
  | c :: K =>
    cases c with
    | exprsNext | elementNext | caseClauses | ifThen => exact h
    | bindingNext =>
      match K with
      | .recordEnd _ _ :: K =>
        rcases h with ⟨_, _, ⟨⟩, -⟩ | ⟨-, v, hv, h⟩ | ⟨_, ⟨⟩, -⟩
        obtain rfl := reads_bindings_eq rfl hv
        obtain ⟨_, ⟨⟩, -⟩ := h
    | _ => cases hK.1

/-- An infix operator goes to the innermost expression. -/
theorem expects_binary_iff {ops : List (Tag × Span)} (hK : Stacked .expr K) (hk : k.isInfix) :
    Expects (.binary ops :: K) o (k :: w) ↔ Expects (.operand :: .binary ops :: K) false w := by
  constructor
  · rintro ⟨v, hv, h⟩
    cases hv with
    | operator _ ho hs => exact ⟨_, ho, v, hs, h⟩
    | noOperator =>
      cases k with
      | binOp => exact absurd h hK.not_expects_binOp
      | minus =>
        obtain ⟨v, hv, h⟩ := hK.absorb_expr rfl (hK.expects_minus_true h)
        cases hv with
        | expr hv =>
          cases hv with
          | operation ho hs =>
            cases ho with
            | negative ho => exact ⟨_, .positive ho, v, hs, h.closed⟩
            | positive ho => cases ho; cases ‹TokenKind.isAtom _›
      | _ => cases hk
  · rintro ⟨u, hu, v, hv, h⟩
    exact ⟨v, .operator hk hu hv, h⟩

end Linefold
