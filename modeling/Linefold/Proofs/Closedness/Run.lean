import Linefold.Proofs.Closedness.Closing
import Linefold.Proofs.Operands.Run

/-!
# A parse knows its names

Every position that is offered a suitable token leaves positions that find their operands, with the names
that they use, on the levels of the parse (`goes_offer`). So does every step between tokens
(`ParseState.Scoped.step`), and a program that is complete sees nothing but globals and the names `M`.
-/

namespace Linefold

attribute [local irreducible] Pool.intern

variable {M Op : String → Prop} {t : Token} {c : Cont} {K : List Cont} {s : Parsed}

/-- What is taken of a token that a position is offered: names are no operator words, and definitions do not
stand where a value is waited for. Names that a list pattern or a scope that is thrown away binds are among
`M`. -/
structure Suited (M Op : String → Prop) (t : Token) (c : Cont) (K : List Cont) : Prop where
  plain : t.kind = .ident → ¬ Op t.lexeme
  value : c = .expr → t.kind ≠ .keyLet
  part : ∀ base, c = .params .rightBracket base → t.kind = .ident → M t.lexeme
  lost : c = .letName → t.kind = .ident → discards K = true → M t.lexeme

open ParseM in
theorem goes_offer (hN : Nested (c :: K)) (ht : Suited M Op t c K) (h : InScope M Op (c :: K) s) :
    Ensures (c.offer t) (Goes M Op K) (fun _ _ => True) s := by
  obtain ⟨l, ls, hK, h⟩ := h
  have goes_expect {kind : TokenKind} {f : Unit → ParseM Offer}
      (hf : Ensures (f ()) (Goes M Op K) (fun _ _ => True) s) :
      Ensures (expect kind t >>= f) (Goes M Op K) (fun _ _ => True) s := by
    rw [Ensures.bind_iff, ensures_expect]
    split
    · exact hf
    · trivial
  -- What needs no token is done before the token is handed on.
  have goes_declined {f : ParseM Unit} (hf : Ensures f (fun _ s => InScope M Op K s) (fun _ _ => True) s) :
      Ensures (do f; return .declined) (Goes M Op K) (fun _ _ => True) s :=
    Ensures.bind_iff.2 (hf.mono (fun _ _ h => h) fun _ _ he => he)
  cases c with
  | program =>
    obtain ⟨hΓ, hK⟩ := hK
    refine goes_expect (Ensures.bind_iff.2 (h.pop hΓ rfl fun exprs parts rest he hparts h => ?_))
    obtain rfl : K = [] := by
      cases K with
      | nil => rfl
      | cons c K => cases hN.1
    obtain ⟨howner, -, hls⟩ := hK
    obtain rfl := List.map_eq_nil_iff.1 hls
    obtain rfl := List.map_eq_nil_iff.1 hparts
    have htidy : (Node.branch .prog [exprs]).Tidy M Op s.pool :=
      Node.tidy_branch (by decide) (by simpa using he.2.held)
    refine Ensures.bind_iff.2 (h.interned htidy fun root pool hext hroot h => ?_)
    refine ⟨_, ?_, rfl, h.toStanding, fills_branch (by decide) hroot fun c hc => ?_⟩
    swap
    · exact List.mem_singleton.1 hc ▸ he.2.grow hext
    show l.owner = .globals
    revert howner
    cases l.owner <;> intro howner <;> first | rfl | exact howner.elim
  | exprs brk base =>
    show Ensures (if t.kind = .dot then _ else _) _ _ s
    split
    · exact Ensures.bind_iff.2 ((inScope_collect (by decide) hK h).mono (fun _ _ h => h) fun _ _ he => he)
    · exact goes_offerListItem ht.plain hK h
  | exprsNext brk base =>
    show Ensures (if t.kind = .dot then _ else _) _ _ s
    split
    · exact ⟨l, ls, hK, h⟩
    · exact goes_offerListItem ht.plain hK h
  | exprsAfterDot brk base => exact goes_offerListItem ht.plain hK h
  | expr => exact (delivers_takeExpr ht.plain (fun hlet => absurd hlet (ht.value rfl)) hK h).goes
  | letName => exact goes_takeLetName (ht.lost rfl) hK h
  | letEqual depth name base =>
    refine goes_expect ?_
    obtain ⟨howner, hdepth, hclosing⟩ := hK
    exact h.inScope (K := .exprs .dot s.operands.length :: .letBody depth name base :: K)
      (.nil h.length_eq ⟨howner, hdepth, hclosing.body⟩)
  | letBody depth name base => exact goes_declined (inScope_finishLet hK h)
  | params brk base =>
    refine goes_offerParam ht.plain (fun hbrk => ?_) hN hK h
    subst hbrk
    exact ht.part base rfl
  | paramList base => exact goes_takeParamList hK h
  | lambdaColon base =>
    refine goes_expect ?_
    obtain ⟨howner, hclosing⟩ := hK
    exact h.inScope (K := .exprs .rightAngle s.operands.length :: .lambdaEnd base :: K)
      (.nil h.length_eq ⟨howner, hclosing.body⟩)
  | lambdaEnd base => exact goes_takeLambdaEnd hK h
  | operand => exact (delivers_takeOperand ht.plain hK h).goes
  | primary => exact (delivers_takePrimary ht.plain hK h).goes
  | negate span =>
    obtain ⟨Γ, hΓ, hK⟩ := hK
    exact goes_declined (inScope_negate hΓ hK h)
  | binary ops => exact goes_binary hK h
  | parenEnd span =>
    obtain ⟨Γ, hΓ, hK⟩ := hK
    refine goes_expect (Ensures.bind_iff.2 (h.pop hΓ rfl fun inner parts rest hi hparts h => ?_))
    subst hparts
    have htidy : (Node.branch .paren [inner]).Tidy M Op s.pool :=
      Node.tidy_branch (by decide) (by simpa using hi.2.held)
    have hleft := h.leaveAt .node span htidy fun p hext id hget =>
      fills_branch (by decide) hget fun c hc => List.mem_singleton.1 hc ▸ hi.2.grow hext
    exact hleft.inScope hK
  | elements => exact goes_offerElement ht.plain hN hK h
  | elementNext =>
    show Ensures (if t.kind = .comma then _ else _) _ _ s
    split
    · exact ⟨l, ls, hK, h⟩
    · exact goes_offerElement ht.plain hN hK h
  | listEnd base =>
    refine goes_expect ?_
    exact Ensures.bind_iff.2 ((inScope_collectAt (by decide) hK h).mono (fun _ _ h => h) fun _ _ he => he)
  | bindings => exact goes_offerBinding ht.plain hN hK h
  | bindingColon => exact goes_expect ⟨l, ls, hK, h⟩
  | bindingNext =>
    obtain ⟨Γ, hΓ, hK⟩ := hK
    refine Ensures.bind_iff.2 ((inScope_finishBinding hΓ h).mono ?_ fun _ _ he => he)
    rintro - s ⟨l', h, howner, hparts⟩
    rw [← howner, ← hparts] at hK
    split
    · exact ⟨l', ls, hK, h⟩
    · exact goes_offerBinding ht.plain hN hK h
  | recordEnd base span =>
    refine goes_expect ?_
    exact Ensures.bind_iff.2 ((inScope_collectAt (by decide) hK h).mono (fun _ _ h => h) fun _ _ he => he)
  | caseClauses base span => exact goes_takeCaseClause hK h
  | pattern => exact goes_takePattern ht.plain hK.1 hK.2 h
  | ofColon =>
    refine goes_expect ?_
    exact h.inScope (K := .exprs .keyOf s.operands.length :: K) (.nil h.length_eq hK)
  | ofEnd => exact goes_declined (inScope_finishClause hK h)
  | ifThen base span =>
    refine goes_expect ?_
    obtain ⟨Γ, hΓ, hb, hK⟩ := hK
    exact h.inScope (K := .exprs .keyElse s.operands.length :: .ifElse base span :: K)
      (.nil h.length_eq ⟨Γ, by rw [hΓ]; rfl, hb, hK⟩)
  | ifElse base span =>
    obtain ⟨Γ, hΓ, hb, hK⟩ := hK
    show Ensures (if t.kind = .keyElse then _ else _) _ _ s
    split
    · exact h.inScope (K := .exprs .keyEnd s.operands.length :: .ifEnd base span :: K)
        (.nil h.length_eq ⟨Γ, by rw [hΓ]; rfl, hb, hK⟩)
    · have hleft := h.leave .node (n := .branch .exprs []) (Node.tidy_branch (by decide) nofun)
        fun p _ id hget => fills_branch (by decide) hget nofun
      rw [Ensures.bind_iff, ensures_leave]
      have hparts : (l.put .node (s.pool.intern (.branch .exprs [])).1).parts.map Prod.fst = [.node, .node, .node] ++ Γ :=
        congrArg (Slot.node :: ·) hΓ
      exact goes_takeIfEnd hparts hb hK hleft
  | ifEnd base span =>
    obtain ⟨Γ, hΓ, hb, hK⟩ := hK
    exact goes_takeIfEnd hΓ hb hK h

/-! ### Where a token is handed on -/

/-- The token suits the innermost position. -/
def SuitedHead (M Op : String → Prop) (t : Token) : List Cont → Prop
  | [] => True
  | c :: K => Suited M Op t c K

/-- A position that hands a token on stands on none that waits for an expression, a parameter or a name. -/
theorem suitedHead_of_handsOn (hplain : t.kind = .ident → ¬ Op t.lexeme) (hc : c.handsOn)
    (hr : ∀ span, c ≠ .negate span) (hK : Stacked c.beneath K) :
    SuitedHead M Op t K ∧ ∀ span K', K ≠ .negate span :: K' := by
  have hrole : c.beneath ≠ .operand ∧ c.beneath ≠ .primary ∧ c.beneath ≠ .moreParams := by
    cases c with
    | negate span => exact absurd rfl (hr span)
    | _ => first | simp [Cont.beneath]; done | cases hc
  cases K with
  | nil => exact ⟨trivial, fun _ _ => (List.cons_ne_nil _ _).symm⟩
  | cons c' K =>
    obtain ⟨hfits, -⟩ := hK
    revert hfits hrole
    generalize c.beneath = role
    intro hrole hfits
    refine ⟨⟨hplain, ?_, ?_, ?_⟩, ?_⟩
    · rintro rfl
      cases role <;> cases hfits
    · rintro base rfl
      cases role <;> first | exact absurd rfl hrole.2.2 | cases hfits
    · rintro rfl
      cases role <;> cases hfits
    · rintro span K' ⟨⟩
      cases role <;> first | exact absurd rfl hrole.2.1 | cases hfits

/-- What is left after a token was offered to positions. -/
def AdvanceGoes (M Op : String → Prop) : Advance → Parsed → Prop
  | .taken _ next, s => Nested next ∧ InScope M Op next s
  | .finished root, s => Goes M Op [] (.finished root) s

theorem advance_goes (hN : Nested K) (hr : ∀ span K', K ≠ .negate span :: K')
    (hplain : t.kind = .ident → ¬ Op t.lexeme) (ht : SuitedHead M Op t K) (h : InScope M Op K s) :
    Ensures (advance t K) (AdvanceGoes M Op) (fun _ _ => True) s := by
  induction K generalizing s with
  | nil => cases hN
  | cons c K ih =>
    unfold advance
    rw [Ensures.bind_iff]
    have hgrammar := agrees_offer (o := false) (t := t) hN (by simp) s
    refine (hgrammar.and (goes_offer hN ht h)).mono ?_ fun _ _ _ => trivial
    rintro a s ⟨hfollows, hgoes⟩
    cases a with
    | taken cls next => exact ⟨hfollows.1, hgoes⟩
    | finished root => exact hgoes
    | declined =>
      obtain ⟨hc, hN', -⟩ := hfollows
      obtain ⟨hsuited, hr⟩ :=
        suitedHead_of_handsOn hplain hc (fun span hspan => hr span K (by rw [hspan])) hN
      exact ih hN' hr hsuited hgoes

/-! ### Positions that need no token -/

theorem inScope_reduce (hc : c.isReduction) (h : InScope M Op (c :: K) s) :
    Ensures c.reduce (fun _ s => InScope M Op K s) (fun _ _ => True) s := by
  obtain ⟨l, ls, hK, h⟩ := h
  cases c with
  | letBody depth name base => exact ParseM.inScope_finishLet hK h
  | negate span =>
    obtain ⟨Γ, hΓ, hK⟩ := hK
    exact ParseM.inScope_negate hΓ hK h
  | ofEnd => exact ParseM.inScope_finishClause hK h
  | _ => cases hc

theorem settle_inScope (h : InScope M Op K s) :
    Ensures (settle K) (fun K s => Settled K ∧ InScope M Op K s) (fun _ _ => True) s := by
  induction K generalizing s with
  | nil => exact ⟨trivial, h⟩
  | cons c K ih =>
    unfold settle
    split
    · next hc =>
      exact Ensures.bind_iff.2 ((inScope_reduce hc h).mono (fun _ _ h => ih h) fun _ _ he => he)
    · next hc => exact ⟨Bool.eq_false_iff.2 hc, h⟩

/-- What is left after a token was read. -/
def ConsumeGoes (M Op : String → Prop) : Advance → Parsed → Prop
  | .taken _ next, s => Nested next ∧ Settled next ∧ InScope M Op next s
  | .finished root, s => Goes M Op [] (.finished root) s

theorem consume_goes (hN : Nested K) (hr : ∀ span K', K ≠ .negate span :: K')
    (hplain : t.kind = .ident → ¬ Op t.lexeme) (ht : SuitedHead M Op t K) (h : InScope M Op K s) :
    Ensures (ParseState.consume t K) (ConsumeGoes M Op) (fun _ _ => True) s := by
  unfold ParseState.consume
  rw [Ensures.bind_iff]
  refine (advance_goes hN hr hplain ht h).mono ?_ fun _ _ he => he
  intro a s ha
  cases a with
  | finished root => exact ha
  | taken cls next =>
    obtain ⟨hN, hscope⟩ := ha
    refine Ensures.bind_iff.2 (((settle_expects hN s).and (settle_inScope hscope)).mono ?_ fun _ _ _ => trivial)
    rintro K s ⟨⟨hN, -⟩, hsettled, hscope⟩
    exact ⟨hN, hsettled, hscope⟩

/-! ### Steps -/

namespace ParseState

/-- The parse can go on, is over for some error, or has a program that sees globals and names `M`. -/
def Scoped (M Op : String → Prop) (s : ParseState) (pool : Pool) : Prop :=
  match s.status with
  | .parsing => Nested s.conts ∧ Settled s.conts ∧ InScope M Op s.conts ⟨pool, s.operands, s.env, s.errors⟩
  | .complete root => Goes M Op [] (.finished root) ⟨pool, s.operands, s.env, s.errors⟩
  | .failed _ => True

theorem Scoped.step {s : ParseState} {pool : Pool} (h : s.Scoped M Op pool)
    (hplain : t.kind = .ident → ¬ Op t.lexeme) (ht : s.status = .parsing → SuitedHead M Op t s.conts) :
    (s.step pool t).2.1.Scoped M Op (s.step pool t).2.2 := by
  obtain ⟨conts, operands, env, errors, status⟩ := s
  cases status with
  | complete root => exact h
  | failed e => exact h
  | parsing =>
    obtain ⟨hN, hsettled, hscope⟩ := h
    have hr : ∀ span K', conts ≠ .negate span :: K' := by
      rintro span K' rfl
      cases hsettled
    have hconsume := consume_goes hN hr hplain (ht rfl) hscope
    unfold Ensures at hconsume
    unfold ParseState.step
    simp only
    split at hconsume
    · next a s heq =>
      rw [heq]
      cases a with
      | taken cls next => exact hconsume
      | finished root => exact hconsume
    · next e s heq =>
      rw [heq]
      trivial

end ParseState

end Linefold
