import Linefold.Proofs.Grammar.Expectation

/-!
# What is expected after a token

For each position and each kind of token that it takes: what the positions that are left expect is
what may follow that token. For the kinds that it does not take: nothing may start with them, or what
the position expects is what the positions below it expect.
-/

namespace Linefold

variable {K : List Cont} {o o' : Bool} {k brk : TokenKind} {w : List TokenKind} {base base' n : Nat}
  {name : String} {span : Span}

/-! ### Positions that wait for one kind of token -/

def Cont.awaits : Cont → Option TokenKind
  | program => some .eof
  | letName => some .ident
  | letEqual .. => some .equal
  | paramList _ | listEnd _ => some .rightBracket
  | lambdaColon _ | bindingColon | ofColon => some .colon
  | lambdaEnd _ => some .rightAngle
  | parenEnd _ => some .rightParen
  | recordEnd .. => some .rightBrace
  | ifThen .. => some .keyThen
  | ifEnd .. => some .keyEnd
  | _ => none

theorem not_expects_of_awaits {c : Cont} (hc : c.awaits = some brk) (hk : k ≠ brk) :
    ¬ Expects (c :: K) o (k :: w) := by
  intro h
  apply hk
  cases c <;> cases hc <;> obtain ⟨_, h⟩ := h
  case letName | lambdaColon | ofColon =>
    obtain ⟨_, h, -⟩ := h
    exact (List.cons.inj h).1
  case ifThen =>
    obtain ⟨_, _, h, -⟩ := h
    exact (List.cons.inj h).1
  all_goals exact (List.cons.inj h.1).1

theorem exists_cons_eq_iff {P : List TokenKind → Prop} : (∃ v, k :: w = k :: v ∧ P v) ↔ P w := by
  simp

/-! ### Primary expressions and operands -/

theorem expects_primary_atom (hk : k.isAtom) :
    Expects (.primary :: K) o (k :: w) ↔ Expects K false w := by
  constructor
  · rintro ⟨v, hv, h⟩
    cases hv with
    | atom => exact h
    | _ => cases hk
  · exact fun h => ⟨w, .atom hk, h⟩

theorem expects_primary_leftParen :
    Expects (.primary :: K) o (.leftParen :: w) ↔
      Expects (.exprs brk base :: .parenEnd span :: K) o' w := by
  refine Iff.trans ?_ (readsList_iff fun _ => Iff.rfl).symm
  constructor
  · rintro ⟨v, hv, h⟩
    cases hv with
    | atom hk => cases hk
    | paren hl => exact ⟨_, hl, v, rfl, h⟩
  · rintro ⟨_, hl, v, rfl, h⟩
    exact ⟨v, .paren hl, h⟩

theorem expects_primary_leftBracket :
    Expects (.primary :: K) o (.leftBracket :: w) ↔
      Expects (.elements :: .listEnd base :: K) o' w := by
  constructor
  · rintro ⟨v, hv, h⟩
    cases hv with
    | atom hk => cases hk
    | bracketed he => exact ⟨_, he, v, rfl, h⟩
  · rintro ⟨_, he, v, rfl, h⟩
    exact ⟨v, .bracketed he, h⟩

theorem expects_primary_leftBrace :
    Expects (.primary :: K) o (.leftBrace :: w) ↔
      Expects (.bindings :: .recordEnd base span :: K) o' w := by
  constructor
  · rintro ⟨v, hv, h⟩
    cases hv with
    | atom hk => cases hk
    | record hb => exact ⟨_, hb, v, rfl, h⟩
  · rintro ⟨_, hb, v, rfl, h⟩
    exact ⟨v, .record hb, h⟩

theorem expects_primary_leftAngle :
    Expects (.primary :: K) o (.leftAngle :: w) ↔
      Expects (.params brk base :: .lambdaColon base :: K) o' w := by
  constructor
  · rintro ⟨v, hv, h⟩
    cases hv with
    | atom hk => cases hk
    | lambda hp hl => exact ⟨_, hp, _, v, rfl, hl, h⟩
  · rintro ⟨_, hp, _, v, rfl, hl, h⟩
    exact ⟨v, .lambda hp hl, h⟩

/-- The kinds that can open a primary expression. -/
def TokenKind.startsPrimary (k : TokenKind) : Bool :=
  k.isAtom || k = leftParen || k = leftBracket || k = leftBrace || k = leftAngle

theorem startsPrimary_of_reads {v : List TokenKind} (h : Reads .primary (k :: w) v) :
    k.startsPrimary := by
  cases h with
  | atom h => simp [TokenKind.startsPrimary, h]
  | _ => rfl

theorem startsPrimary_of_reads_operand {v : List TokenKind} (hk : k ≠ .minus)
    (h : Reads .operand (k :: w) v) : k.startsPrimary := by
  cases h with
  | negative => exact absurd rfl hk
  | positive h => exact startsPrimary_of_reads h

theorem expects_operand_minus :
    Expects (.operand :: K) o (.minus :: w) ↔
      Expects (.primary :: .negate span :: K) o' w := by
  constructor
  · rintro ⟨v, hv, h⟩
    cases hv with
    | negative hp => exact ⟨v, hp, h⟩
    | positive hp => cases startsPrimary_of_reads hp
  · rintro ⟨v, hp, h⟩
    exact ⟨v, .negative hp, h⟩

theorem expects_operand_iff (hk : k ≠ .minus) :
    Expects (.operand :: K) o (k :: w) ↔ Expects (.primary :: K) o' (k :: w) := by
  constructor
  · rintro ⟨v, hv, h⟩
    cases hv with
    | negative => exact absurd rfl hk
    | positive hp => exact ⟨v, hp, h⟩
  · rintro ⟨v, hp, h⟩
    exact ⟨v, .positive hp, h⟩

/-! ### Expressions -/

theorem expects_binary_declined (hk : k.isInfix = false) {ops : List (Tag × Span)} :
    Expects (.binary ops :: K) o (k :: w) ↔ Expects K false (k :: w) := by
  constructor
  · rintro ⟨v, hv, h⟩
    cases hv with
    | noOperator => exact h
    | operator hk' => simp [hk] at hk'
  · exact fun h => ⟨_, .noOperator, h⟩

/-- A definition is closed exactly if its list is a dot. -/
theorem expects_expr_keyLet :
    Expects (.expr :: K) o (.keyLet :: w) ↔ Expects (.letName :: K) o' w := by
  constructor
  · rintro (⟨v, hv, h⟩ | ⟨v, hv, h⟩)
    · cases hv with
      | dotDefinition hp => exact ⟨_, _, rfl, hp, .inl ⟨v, rfl, h⟩⟩
      | operation ho => cases startsPrimary_of_reads_operand (by decide) ho
    · cases hv with
      | definition hp hl =>
        cases hl with
        | dot => exact ⟨_, _, rfl, hp, .inl ⟨v, rfl, h.closed⟩⟩
        | list hs => exact ⟨_, _, rfl, hp, .inr ⟨v, hs, h⟩⟩
      | expr hv =>
        cases hv with
        | dotDefinition hp => exact ⟨_, _, rfl, hp, .inl ⟨v, rfl, h.closed⟩⟩
        | operation ho => cases startsPrimary_of_reads_operand (by decide) ho
  · rintro ⟨_, _, rfl, hp, ⟨v, rfl, h⟩ | ⟨v, hs, h⟩⟩
    · exact .inl ⟨v, .dotDefinition hp, h⟩
    · exact .inr ⟨v, .definition hp (.list hs), h⟩

/-- Apart from definitions every expression is closed. -/
theorem expects_expr_iff (hk : k ≠ .keyLet) :
    Expects (.expr :: K) o (k :: w) ↔ ∃ v, Reads .closed (k :: w) v ∧ Expects K false v := by
  constructor
  · rintro (⟨v, hv, h⟩ | ⟨v, hv, h⟩)
    · exact ⟨v, hv, h⟩
    · cases hv with
      | definition => exact absurd rfl hk
      | expr hv => exact ⟨v, hv, h.closed⟩
  · exact .inl

theorem expects_expr_keyCase :
    Expects (.expr :: K) o (.keyCase :: w) ↔
      Expects (.expr :: .caseClauses base span :: K) o' w := by
  rw [expects_expr_iff (by decide)]
  refine Iff.trans ?_ (readsExpr_iff fun _ => Iff.rfl).symm
  constructor
  · rintro ⟨v, hv, h⟩
    cases hv with
    | case he hc => exact ⟨_, he, v, hc, h⟩
    | operation ho => cases startsPrimary_of_reads_operand (by decide) ho
  · rintro ⟨u, he, v, hc, h⟩
    exact ⟨v, .case he hc, h⟩

theorem expects_expr_keyIf :
    Expects (.expr :: K) o (.keyIf :: w) ↔ Expects (.expr :: .ifThen base span :: K) o' w := by
  rw [expects_expr_iff (by decide)]
  refine Iff.trans ?_ (readsExpr_iff fun _ => Iff.rfl).symm
  constructor
  · rintro ⟨v, hv, h⟩
    cases hv with
    | conditional he hl ha => exact ⟨_, he, _, _, v, rfl, hl, ha, h⟩
    | operation ho => cases startsPrimary_of_reads_operand (by decide) ho
  · rintro ⟨_, he, _, _, v, rfl, hl, ha, h⟩
    exact ⟨v, .conditional he hl ha, h⟩

theorem expects_expr_operand (hlet : k ≠ .keyLet) (hcase : k ≠ .keyCase) (hif : k ≠ .keyIf)
    {ops : List (Tag × Span)} :
    Expects (.expr :: K) o (k :: w) ↔ Expects (.operand :: .binary ops :: K) o' (k :: w) := by
  rw [expects_expr_iff hlet]
  constructor
  · rintro ⟨v, hv, h⟩
    cases hv with
    | dotDefinition => exact absurd rfl hlet
    | case => exact absurd rfl hcase
    | conditional => exact absurd rfl hif
    | operation ho hs => exact ⟨_, ho, v, hs, h⟩
  · rintro ⟨u, ho, v, hs, h⟩
    exact ⟨v, .operation ho hs, h⟩

/-! ### Expression lists -/

/-- Where a list may go on, it takes an expression. -/
theorem expects_series_iff (hK : Stacked (.list brk) K) (hk : k.startsExpr) :
    (∃ v, Reads .series (k :: w) v ∧ Expects K true v) ↔
      Expects (.expr :: .exprsNext brk base :: K) o (k :: w) := by
  refine Iff.trans ?_ (readsExpr_iff fun _ => Iff.rfl).symm
  constructor
  · rintro ⟨v, hv, h⟩
    cases hv with
    | nothing =>
      obtain ⟨_, _, _, K, rfl, hK'⟩ :=
        hK.letBody_of_expects (by cases k <;> first | rfl | cases hk) h
      obtain ⟨v, hv, h⟩ := hK'.absorb_expr hk h
      exact ⟨v, hv, v, .items .nothing, h⟩
    | series he hi => exact ⟨_, he, v, hi, h⟩
  · rintro ⟨u, he, v, hi, h⟩
    exact ⟨v, .series he hi, h⟩

theorem ne_dot_of_startsExpr (hk : k.startsExpr) : k ≠ .dot := by
  rintro rfl
  cases hk

theorem expects_exprs_iff (hK : Stacked (.list brk) K) (hk : k.startsExpr) :
    Expects (.exprs brk base :: K) o (k :: w) ↔
      Expects (.expr :: .exprsNext brk base :: K) o' (k :: w) := by
  rw [← expects_series_iff hK hk]
  constructor
  · rintro (⟨v, hv, -⟩ | h)
    · cases hv
      cases hk
    · exact h
  · exact .inr

theorem expects_exprsNext_iff (hK : Stacked (.list brk) K) (hk : k.startsExpr) :
    Expects (.exprsNext brk base :: K) o (k :: w) ↔
      Expects (.expr :: .exprsNext brk base :: K) o' (k :: w) := by
  rw [← expects_series_iff hK hk]
  have hdot := ne_dot_of_startsExpr hk
  constructor
  · rintro ⟨v, hv, h⟩
    exact ⟨v, (reads_items_iff hdot).1 hv, h⟩
  · rintro ⟨v, hv, h⟩
    exact ⟨v, (reads_items_iff hdot).2 hv, h⟩

theorem expects_exprsAfterDot_iff (hK : Stacked (.list brk) K) (hk : k.startsExpr) :
    Expects (.exprsAfterDot brk base :: K) o (k :: w) ↔
      Expects (.expr :: .exprsNext brk base :: K) o' (k :: w) :=
  expects_series_iff hK hk

theorem expects_exprsAfterDot_declined (hk : k.startsExpr = false) :
    Expects (.exprsAfterDot brk base :: K) o (k :: w) ↔ Expects K true (k :: w) := by
  constructor
  · rintro ⟨v, hv, h⟩
    obtain rfl := (reads_series_iff hk).1 hv
    exact h
  · exact fun h => ⟨_, .nothing, h⟩

theorem expects_exprs_declined (hk : k.startsExpr = false) (hdot : k ≠ .dot) :
    Expects (.exprs brk base :: K) o (k :: w) ↔ Expects K true (k :: w) := by
  constructor
  · rintro (⟨v, hv, -⟩ | ⟨v, hv, h⟩)
    · cases hv
      exact absurd rfl hdot
    · obtain rfl := (reads_series_iff hk).1 hv
      exact h
  · exact fun h => .inr ⟨_, .nothing, h⟩

theorem expects_exprsNext_declined (hk : k.startsExpr = false) (hdot : k ≠ .dot) :
    Expects (.exprsNext brk base :: K) o (k :: w) ↔ Expects K true (k :: w) := by
  constructor
  · rintro ⟨v, hv, h⟩
    obtain rfl := (reads_series_iff hk).1 ((reads_items_iff hdot).1 hv)
    exact h
  · exact fun h => ⟨_, .items .nothing, h⟩

/-- A dot at the start of a list is the list. -/
theorem expects_exprs_dot (hK : Stacked (.list brk) K) :
    Expects (.exprs brk base :: K) o (.dot :: w) ↔ Expects K false w := by
  constructor
  · rintro (⟨v, hv, h⟩ | ⟨v, hv, h⟩)
    · cases hv
      exact h
    · obtain rfl := (reads_series_iff rfl).1 hv
      obtain ⟨_, _, _, K, rfl, hK'⟩ := hK.letBody_of_expects rfl h
      exact (Stacked.absorb_dot (K := K) hK' h).closed
  · exact fun h => .inl ⟨w, rfl, h⟩

theorem expects_exprsNext_dot (hK : Stacked (.list brk) K) :
    Expects (.exprsNext brk base :: K) o (.dot :: w) ↔
      Expects (.exprsAfterDot brk base :: K) o' w := by
  constructor
  · rintro ⟨v, hv, h⟩
    cases hv with
    | items hv =>
      obtain rfl := (reads_series_iff rfl).1 hv
      obtain ⟨_, _, _, K, rfl, hK'⟩ := hK.letBody_of_expects rfl h
      exact ⟨w, .nothing, Stacked.absorb_dot (K := K) hK' h⟩
    | dotItems hv => exact ⟨v, hv, h⟩
  · rintro ⟨v, hv, h⟩
    exact ⟨v, .dotItems hv, h⟩

/-! ### Bracketed lists and records -/

theorem expects_elements_declined (hk : k.startsExpr = false) :
    Expects (.elements :: K) o (k :: w) ↔ Expects K false (k :: w) := by
  constructor
  · rintro ⟨v, hv, h⟩
    obtain rfl := reads_elements_eq hk hv
    exact h
  · exact fun h => ⟨_, .noElement, h⟩

theorem not_expects_listEnd (hK : Stacked .listEnd K) (hk : k ≠ .rightBracket) :
    ¬ Expects K o (k :: w) := by
  match K with
  | .listEnd _ :: K =>
    rintro ⟨_, ⟨⟩, -⟩
    exact hk rfl

theorem not_expects_recordEnd (hK : Stacked .recordEnd K) (hk : k ≠ .rightBrace) :
    ¬ Expects K o (k :: w) := by
  match K with
  | .recordEnd _ _ :: K =>
    rintro ⟨_, ⟨⟩, -⟩
    exact hk rfl

theorem expects_elements_iff (hK : Stacked .listEnd K) (hk : k ≠ .rightBracket) :
    Expects (.elements :: K) o (k :: w) ↔ Expects (.expr :: .elementNext :: K) o' (k :: w) := by
  refine Iff.trans ?_ (readsExpr_iff fun _ => Iff.rfl).symm
  constructor
  · rintro ⟨v, hv, h⟩
    cases hv with
    | noElement => exact absurd h (not_expects_listEnd hK hk)
    | element he hm => exact ⟨_, he, v, hm, h⟩
  · rintro ⟨u, he, v, hm, h⟩
    exact ⟨v, .element he hm, h⟩

theorem expects_elementNext_comma (hK : Stacked .listEnd K) :
    Expects (.elementNext :: K) o (.comma :: w) ↔ Expects (.elements :: K) o' w := by
  constructor
  · rintro ⟨v, hv, h⟩
    cases hv with
    | comma hv => exact ⟨v, hv, h⟩
    | noComma hv =>
      obtain rfl := reads_elements_eq rfl hv
      exact absurd h (not_expects_listEnd hK (by decide))
  · rintro ⟨v, hv, h⟩
    exact ⟨v, .comma hv, h⟩

theorem expects_elementNext_iff (hk : k ≠ .comma) :
    Expects (.elementNext :: K) o (k :: w) ↔ Expects (.elements :: K) o' (k :: w) := by
  constructor
  · rintro ⟨v, hv, h⟩
    cases hv with
    | comma => exact absurd rfl hk
    | noComma hv => exact ⟨v, hv, h⟩
  · rintro ⟨v, hv, h⟩
    exact ⟨v, .noComma hv, h⟩

theorem expects_bindings_declined (hk : k.isKey = false) :
    Expects (.bindings :: K) o (k :: w) ↔ Expects K false (k :: w) := by
  constructor
  · rintro ⟨v, hv, h⟩
    obtain rfl := reads_bindings_eq hk hv
    exact h
  · exact fun h => ⟨_, .noBinding, h⟩

theorem expects_bindings_key (hK : Stacked .recordEnd K) (hk : k.isKey) :
    Expects (.bindings :: K) o (k :: w) ↔ Expects (.bindingColon :: .bindingNext :: K) o' w := by
  constructor
  · rintro ⟨v, hv, h⟩
    cases hv with
    | noBinding => exact absurd h (not_expects_recordEnd hK (by rintro rfl; cases hk))
    | binding _ he => exact ⟨_, rfl, .inr ⟨v, he, .inr (.inr h)⟩⟩
    | bindingComma _ he hb => exact ⟨_, rfl, .inr ⟨_, he, .inl ⟨_, v, rfl, hb, h⟩⟩⟩
    | bindingApart _ he hb => exact ⟨_, rfl, .inl ⟨_, he, .inr (.inl ⟨rfl, v, hb, h⟩)⟩⟩
  · rintro ⟨u, rfl, ⟨v, he, ⟨_, r, rfl, hb, h⟩ | ⟨-, r, hb, h⟩ | h⟩ |
      ⟨v, he, ⟨_, r, rfl, hb, h⟩ | ⟨⟨⟩, -⟩ | h⟩⟩
    · exact ⟨r, .bindingComma hk (.expr he) hb, h⟩
    · exact ⟨r, .bindingApart hk he hb, h⟩
    · exact ⟨v, .binding hk (.expr he), h⟩
    · exact ⟨r, .bindingComma hk he hb, h⟩
    · exact ⟨v, .binding hk he, h⟩

theorem expects_bindingNext_comma (hK : Stacked .recordEnd K) :
    Expects (.bindingNext :: K) o (.comma :: w) ↔ Expects (.bindings :: K) o' w := by
  constructor
  · rintro (⟨_, v, ⟨⟩, hb, h⟩ | ⟨-, v, hb, h⟩ | h)
    · exact ⟨v, hb, h⟩
    · obtain rfl := reads_bindings_eq rfl hb
      exact absurd h (not_expects_recordEnd hK (by decide))
    · exact absurd h (not_expects_recordEnd hK (by decide))
  · rintro ⟨v, hb, h⟩
    exact .inl ⟨_, v, rfl, hb, h⟩

/-- After an open value no field follows without a comma, but then an open value does not leave a
key to its record. -/
theorem expects_bindingNext_iff (hk : k ≠ .comma) (ho : o = true → k.startsExpr = false) :
    Expects (.bindingNext :: K) o (k :: w) ↔ Expects (.bindings :: K) o' (k :: w) := by
  constructor
  · rintro (⟨_, v, ⟨⟩, hb, h⟩ | ⟨-, v, hb, h⟩ | h)
    · exact absurd rfl hk
    · exact ⟨v, hb, h⟩
    · exact ⟨_, .noBinding, h⟩
  · rintro ⟨v, hb, h⟩
    cases o with
    | false => exact .inr (.inl ⟨rfl, v, hb, h⟩)
    | true =>
      have hkey : k.isKey = false := by
        have := ho rfl
        cases k <;> first | rfl | cases this
      obtain rfl := reads_bindings_eq hkey hb
      exact .inr (.inr h)

/-! ### Functions -/

theorem expects_letName :
    Expects (.letName :: K) o (.ident :: w) ↔
      Expects (.params brk base :: .letEqual n name base :: K) o' w := by
  constructor
  · rintro ⟨_, v, ⟨⟩, hp, h⟩
    exact ⟨_, hp, v, rfl, h⟩
  · rintro ⟨_, hp, v, rfl, h⟩
    exact ⟨w, v, rfl, hp, h⟩

theorem expects_letEqual :
    Expects (.letEqual n name base :: K) o (.equal :: w) ↔
      Expects (.exprs brk base' :: .letBody n name base :: K) o' w := by
  constructor
  · rintro ⟨v, ⟨⟩, h⟩
    exact h
  · exact fun h => ⟨w, rfl, h⟩

theorem Stacked.params_cases (hK : Stacked (.params brk) K) :
    (brk = .equal ∧ ∃ n name base K', K = .letEqual n name base :: K') ∨
      (brk = .colon ∧ ∃ base K', K = .lambdaColon base :: K') ∨
      (brk = .rightBracket ∧ ∃ base K', K = .paramList base :: K') := by
  match K with
  | [] => cases hK
  | c :: K =>
    obtain ⟨hc, -⟩ := hK
    cases c with
    | letEqual n name base => exact .inl ⟨of_decide_eq_true hc, n, name, base, K, rfl⟩
    | lambdaColon base => exact .inr (.inl ⟨of_decide_eq_true hc, base, K, rfl⟩)
    | paramList base => exact .inr (.inr ⟨of_decide_eq_true hc, base, K, rfl⟩)
    | _ => cases hc

theorem expects_params_declined (hK : Stacked (.params brk) K) :
    Expects (.params brk base :: K) o (brk :: w) ↔ Expects K false (brk :: w) := by
  constructor
  · rintro ⟨v, hv, h⟩
    cases hv with
    | noParam => exact h
    | param | paramList => rcases hK.params_cases with ⟨⟨⟩, -⟩ | ⟨⟨⟩, -⟩ | ⟨⟨⟩, -⟩
  · exact fun h => ⟨_, .noParam, h⟩

theorem not_expects_params (hK : Stacked (.params brk) K) (hk : k ≠ brk) :
    ¬ Expects K o (k :: w) := by
  rcases hK.params_cases with ⟨rfl, _, _, _, K, rfl⟩ | ⟨rfl, _, K, rfl⟩ | ⟨rfl, _, K, rfl⟩
  · rintro ⟨_, ⟨⟩, -⟩
    exact hk rfl
  · rintro ⟨_, _, ⟨⟩, -⟩
    exact hk rfl
  · rintro ⟨_, ⟨⟩, -⟩
    exact hk rfl

theorem expects_params_ident (hK : Stacked (.params brk) K) (hbrk : .ident ≠ brk) :
    Expects (.params brk base :: K) o (.ident :: w) ↔ Expects (.params brk base :: K) o' w := by
  constructor
  · rintro ⟨v, hv, h⟩
    cases hv with
    | noParam => exact absurd h (not_expects_params hK hbrk)
    | param hv => exact ⟨v, hv, h⟩
  · rintro ⟨v, hv, h⟩
    exact ⟨v, .param hv, h⟩

theorem expects_params_leftBracket (hK : Stacked (.params brk) K) (hbrk : .leftBracket ≠ brk) :
    Expects (.params brk base :: K) o (.leftBracket :: w) ↔
      Expects (.params .rightBracket base' :: .paramList base' :: .params brk base :: K) o' w := by
  constructor
  · rintro ⟨v, hv, h⟩
    cases hv with
    | noParam => exact absurd h (not_expects_params hK hbrk)
    | paramList hv hw => exact ⟨_, hv, _, rfl, v, hw, h⟩
  · rintro ⟨_, hv, _, rfl, v, hw, h⟩
    exact ⟨v, .paramList hv hw, h⟩

theorem not_expects_params_of_ne (hK : Stacked (.params brk) K) (hk : k ≠ brk) (hi : k ≠ .ident)
    (hb : k ≠ .leftBracket) : ¬ Expects (.params brk base :: K) o (k :: w) := by
  rintro ⟨v, hv, h⟩
  cases hv with
  | noParam => exact not_expects_params hK hk h
  | param => exact hi rfl
  | paramList => exact hb rfl

theorem expects_lambdaColon :
    Expects (.lambdaColon base :: K) o (.colon :: w) ↔
      Expects (.exprs brk base' :: .lambdaEnd base :: K) o' w := by
  refine Iff.trans ?_ (readsList_iff fun _ => Iff.rfl).symm
  constructor
  · rintro ⟨_, v, ⟨⟩, hl, h⟩
    exact ⟨_, hl, v, rfl, h⟩
  · rintro ⟨_, hl, v, rfl, h⟩
    exact ⟨_, v, rfl, hl, h⟩

/-! ### Cases and conditionals -/

theorem expects_caseClauses_keyOf :
    Expects (.caseClauses base span :: K) o (.keyOf :: w) ↔
      Expects (.pattern :: .ofColon :: .ofEnd :: .caseClauses base span :: K) o' w := by
  constructor
  · rintro ⟨v, hv, h⟩
    cases hv with
    | clause ho hl hc => exact ⟨_, ho, _, _, rfl, hl, v, hc, h⟩
  · rintro ⟨_, ho, _, _, rfl, hl, v, hc, h⟩
    exact ⟨v, .clause ho hl hc, h⟩

theorem expects_caseClauses_keyEnd :
    Expects (.caseClauses base span :: K) o (.keyEnd :: w) ↔ Expects K false w := by
  constructor
  · rintro ⟨v, hv, h⟩
    cases hv with
    | noClause => exact h
  · exact fun h => ⟨w, .noClause, h⟩

theorem not_expects_caseClauses (ho : k ≠ .keyOf) (he : k ≠ .keyEnd) :
    ¬ Expects (.caseClauses base span :: K) o (k :: w) := by
  rintro ⟨v, hv, -⟩
  cases hv with
  | clause => exact ho rfl
  | noClause => exact he rfl

theorem expects_ofColon (hK : Stacked .ofEnd K) :
    Expects (.ofColon :: K) o (.colon :: w) ↔ Expects (.exprs brk base :: K) o' w := by
  match K with
  | .ofEnd :: .caseClauses _ _ :: K =>
    refine Iff.trans ?_ (readsList_iff fun _ => Iff.rfl).symm
    constructor
    · rintro ⟨_, v, ⟨⟩, hl, h⟩
      exact ⟨v, hl, h⟩
    · rintro ⟨v, hl, h⟩
      exact ⟨w, v, rfl, hl, h⟩

theorem expects_ifThen :
    Expects (.ifThen base span :: K) o (.keyThen :: w) ↔
      Expects (.exprs brk base' :: .ifElse base span :: K) o' w := by
  refine Iff.trans ?_ (readsList_iff fun _ => Iff.rfl).symm
  constructor
  · rintro ⟨_, v, r, ⟨⟩, hl, ha, h⟩
    exact ⟨v, hl, r, ha, h⟩
  · rintro ⟨v, hl, r, ha, h⟩
    exact ⟨w, v, r, rfl, hl, ha, h⟩

theorem expects_ifElse_keyElse :
    Expects (.ifElse base span :: K) o (.keyElse :: w) ↔
      Expects (.exprs brk base' :: .ifEnd base span :: K) o' w := by
  refine Iff.trans ?_ (readsList_iff fun _ => Iff.rfl).symm
  constructor
  · rintro ⟨v, hv, h⟩
    cases hv with
    | alternative hl => exact ⟨_, hl, v, rfl, h⟩
  · rintro ⟨_, hl, v, rfl, h⟩
    exact ⟨v, .alternative hl, h⟩

theorem expects_ifElse_iff (hk : k ≠ .keyElse) :
    Expects (.ifElse base span :: K) o (k :: w) ↔ Expects (.ifEnd base span :: K) o' (k :: w) := by
  constructor
  · rintro ⟨v, hv, h⟩
    cases hv with
    | alternative => exact absurd rfl hk
    | noAlternative => exact ⟨_, rfl, h⟩
  · rintro ⟨_, ⟨⟩, h⟩
    exact ⟨_, .noAlternative, h⟩

end Linefold
