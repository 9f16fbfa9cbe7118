import Linefold.Proofs.Grammar.Expectation

/-!
# How a parse can end

Every stack of positions can be left over some kinds (`exists_expects`), the last of which is the end
of the program, and only the last (`Nested.leaves_eof`).
-/

namespace Linefold

variable {K : List Cont} {o : Bool} {w : List TokenKind}

theorem exists_expects (K : List Cont) : ∃ w, Expects K true w := by
  induction K with
  | nil => exact ⟨[], rfl⟩
  | cons c K ih =>
    obtain ⟨v, h⟩ := ih
    have hv := h.closed
    cases c with
    | program => exact ⟨_, v, rfl, hv⟩
    | exprs => exact ⟨v, .inr ⟨v, .nothing, h⟩⟩
    | exprsNext => exact ⟨v, v, .items .nothing, h⟩
    | exprsAfterDot => exact ⟨v, v, .nothing, h⟩
    | expr => exact ⟨_, .inl ⟨v, .operation (.positive (.atom (k := .num) rfl)) .noOperator, hv⟩⟩
    | letName => exact ⟨_, _, v, rfl, .noParam, .inr ⟨v, .nothing, h⟩⟩
    | letEqual => exact ⟨_, v, rfl, .inr ⟨v, .nothing, h⟩⟩
    | letBody | negate | ofEnd => exact ⟨v, h⟩
    | params => exact ⟨v, v, .noParam, hv⟩
    | lambdaColon => exact ⟨_, _, v, rfl, .list .nothing, hv⟩
    | operand | pattern => exact ⟨_, v, .positive (.atom (k := .num) rfl), hv⟩
    | binary => exact ⟨v, v, .noOperator, hv⟩
    | primary => exact ⟨_, v, .atom (k := .num) rfl, hv⟩
    | elements => exact ⟨v, v, .noElement, hv⟩
    | elementNext => exact ⟨v, v, .noComma .noElement, hv⟩
    | bindings => exact ⟨v, v, .noBinding, hv⟩
    | bindingColon =>
      exact ⟨_, _, rfl, .inl ⟨v, .operation (.positive (.atom (k := .num) rfl)) .noOperator, hv⟩⟩
    | bindingNext => exact ⟨v, .inr (.inr hv)⟩
    | caseClauses => exact ⟨_, v, .noClause, hv⟩
    | ofColon => exact ⟨_, _, v, rfl, .list .nothing, hv⟩
    | ifThen => exact ⟨_, _, _, v, rfl, .list .nothing, .noAlternative, hv⟩
    | ifElse => exact ⟨_, v, .noAlternative, hv⟩
    | paramList | lambdaEnd | parenEnd | listEnd | recordEnd | ifEnd => exact ⟨_, v, rfl, hv⟩

/-! ### Kinds that do not end the program -/

/-- The kinds are some that are not the end of the program, and then others. -/
def Leaves (w r : List TokenKind) : Prop := ∃ u, w = u ++ r ∧ .eof ∉ u

namespace Leaves

variable {v r : List TokenKind} {k : TokenKind}

theorem refl (r : List TokenKind) : Leaves r r := ⟨[], rfl, by simp⟩

theorem trans (hw : Leaves w v) (hv : Leaves v r) : Leaves w r := by
  obtain ⟨u, rfl, hu⟩ := hw
  obtain ⟨x, rfl, hx⟩ := hv
  exact ⟨u ++ x, by simp, by simp [hu, hx]⟩

theorem cons (h : Leaves w r) (hk : k ≠ .eof) : Leaves (k :: w) r := by
  obtain ⟨u, rfl, hu⟩ := h
  exact ⟨k :: u, rfl, by simp [hu, hk.symm]⟩

theorem tail (h : Leaves w (k :: r)) (hk : k ≠ .eof) : Leaves w r :=
  h.trans ((refl r).cons hk)

end Leaves

/-- Only a program holds its end. -/
theorem Phrase.leaves {c : Category} {r : List TokenKind} (h : Reads c w r) (hc : c ≠ .program) :
    Leaves w r := by
  induction h with
  | program => exact absurd rfl hc
  | dot | noClause | noAlternative => exact (Leaves.refl _).cons (by decide)
  | nothing | noOperator | noElement | noBinding | noParam => exact .refl _
  | atom h => exact (Leaves.refl _).cons (by rintro rfl; cases h)
  | list _ ih | items _ ih | expr _ ih | positive _ ih | noComma _ ih => exact ih (by decide)
  | dotItems _ ih | negative _ ih | comma _ ih | param _ ih => exact (ih (by decide)).cons (by decide)
  | series _ _ ih₁ ih₂ | operation _ _ ih₁ ih₂ | element _ _ ih₁ ih₂ =>
    exact (ih₁ (by decide)).trans (ih₂ (by decide))
  | definition _ _ ih₁ ih₂ =>
    have h := ((ih₁ (by decide)).tail (by decide)).trans (ih₂ (by decide))
    exact (h.cons (by decide)).cons (by decide)
  | dotDefinition _ ih =>
    have h := ((ih (by decide)).tail (by decide)).tail (by decide)
    exact (h.cons (by decide)).cons (by decide)
  | case _ _ ih₁ ih₂ => exact ((ih₁ (by decide)).trans (ih₂ (by decide))).cons (by decide)
  | clause _ _ _ ih₁ ih₂ ih₃ | conditional _ _ _ ih₁ ih₂ ih₃ =>
    have h := (ih₁ (by decide)).tail (by decide)
    exact (h.trans ((ih₂ (by decide)).trans (ih₃ (by decide)))).cons (by decide)
  | alternative _ ih | paren _ ih | bracketed _ ih | record _ ih =>
    exact ((ih (by decide)).tail (by decide)).cons (by decide)
  | operator hk _ _ ih₁ ih₂ =>
    exact ((ih₁ (by decide)).trans (ih₂ (by decide))).cons (by rintro rfl; cases hk)
  | binding hk _ ih => exact ((ih (by decide)).cons (by decide)).cons (by rintro rfl; cases hk)
  | bindingComma hk _ _ ih₁ ih₂ =>
    have h := ((ih₁ (by decide)).tail (by decide)).trans (ih₂ (by decide))
    exact (h.cons (by decide)).cons (by rintro rfl; cases hk)
  | bindingApart hk _ _ ih₁ ih₂ =>
    have h := (ih₁ (by decide)).trans (ih₂ (by decide))
    exact (h.cons (by decide)).cons (by rintro rfl; cases hk)
  | lambda _ _ ih₁ ih₂ =>
    have h := ((ih₁ (by decide)).tail (by decide)).trans ((ih₂ (by decide)).tail (by decide))
    exact h.cons (by decide)
  | paramList _ _ ih₁ ih₂ =>
    exact (((ih₁ (by decide)).tail (by decide)).trans (ih₂ (by decide))).cons (by decide)

/-! ### Positions that wait for the end -/

theorem ReadsList.leaves {next : Bool → List TokenKind → Prop} (h : ReadsList next w) :
    ∃ o v, Leaves w v ∧ next o v := by
  rcases h with ⟨v, rfl, h⟩ | ⟨v, hs, h⟩
  · exact ⟨false, v, (Leaves.refl _).cons (by decide), h⟩
  · exact ⟨true, v, hs.leaves (by decide), h⟩

theorem ReadsExpr.leaves {next : Bool → List TokenKind → Prop} (h : ReadsExpr next w) :
    ∃ o v, Leaves w v ∧ next o v := by
  rcases h with ⟨v, hs, h⟩ | ⟨v, hs, h⟩
  · exact ⟨false, v, hs.leaves (by decide), h⟩
  · exact ⟨true, v, hs.leaves (by decide), h⟩

/-- What a position expects ends with what the positions below it expect. -/
theorem Expects.leaves {c : Cont} (hc : c ≠ .program) (h : Expects (c :: K) o w) :
    ∃ o' v, Leaves w v ∧ Expects K o' v := by
  cases c with
  | program => exact absurd rfl hc
  | exprs => exact ReadsList.leaves h
  | expr => exact ReadsExpr.leaves h
  | exprsNext | exprsAfterDot =>
    obtain ⟨v, hv, h⟩ := h
    exact ⟨true, v, hv.leaves (by decide), h⟩
  | letName =>
    obtain ⟨u, v, rfl, hu, h⟩ := h
    obtain ⟨o', x, hx, h⟩ := h.leaves
    exact ⟨o', x, (((hu.leaves (by decide)).tail (by decide)).trans hx).cons (by decide), h⟩
  | letEqual =>
    obtain ⟨v, rfl, h⟩ := h
    obtain ⟨o', x, hx, h⟩ := h.leaves
    exact ⟨o', x, hx.cons (by decide), h⟩
  | bindingColon =>
    obtain ⟨v, rfl, h⟩ := h
    obtain ⟨o', x, hx, h⟩ := h.leaves
    exact ⟨o', x, hx.cons (by decide), h⟩
  | letBody | negate | ofEnd => exact ⟨o, w, .refl w, h⟩
  | lambdaColon =>
    obtain ⟨u, v, rfl, hv, h⟩ := h
    exact ⟨false, v, ((hv.leaves (by decide)).tail (by decide)).cons (by decide), h⟩
  | ofColon =>
    obtain ⟨u, v, rfl, hv, h⟩ := h
    exact ⟨false, v, (hv.leaves (by decide)).cons (by decide), h⟩
  | ifThen =>
    obtain ⟨u, v, x, rfl, hv, hx, h⟩ := h
    exact ⟨false, x, ((hv.leaves (by decide)).trans (hx.leaves (by decide))).cons (by decide), h⟩
  | bindingNext =>
    rcases h with ⟨u, v, rfl, hv, h⟩ | ⟨-, v, hv, h⟩ | h
    · exact ⟨false, v, (hv.leaves (by decide)).cons (by decide), h⟩
    · exact ⟨false, v, hv.leaves (by decide), h⟩
    · exact ⟨false, w, .refl w, h⟩
  | params | operand | pattern | binary | primary | elements | elementNext | bindings
  | caseClauses | ifElse =>
    obtain ⟨v, hv, h⟩ := h
    exact ⟨false, v, hv.leaves (by decide), h⟩
  | paramList | lambdaEnd | parenEnd | listEnd | recordEnd | ifEnd =>
    obtain ⟨v, rfl, h⟩ := h
    exact ⟨false, v, (Leaves.refl v).cons (by decide), h⟩

theorem Cont.eq_program_of_beneath {c : Cont} (h : c.beneath = .bottom) : c = .program := by
  cases c <;> first | rfl | cases h

/-- A parse that goes on waits for the end of the program and for nothing after it. -/
theorem Nested.leaves_eof : ∀ {K : List Cont} {o : Bool} {w : List TokenKind}, Nested K →
    Expects K o w → Leaves w [.eof]
  | c :: K, _, _, hK, h => by
    by_cases hc : c = .program
    · subst hc
      match K with
      | [] =>
        obtain ⟨_, rfl, rfl⟩ := h
        exact .refl _
      | c :: K => cases hK.1
    · obtain ⟨o', v, hv, h⟩ := h.leaves hc
      have hN : Nested K := Stacked.nested hK fun hb => hc (Cont.eq_program_of_beneath hb)
      exact hv.trans (hN.leaves_eof h)

theorem Nested.not_expects_nil (hK : Nested K) : ¬ Expects K o [] := by
  intro h
  obtain ⟨u, hu, -⟩ := hK.leaves_eof h
  simp at hu

theorem Nested.eq_nil_of_expects_eof (hK : Nested K) (h : Expects K o (.eof :: w)) : w = [] := by
  obtain ⟨u, hu, heof⟩ := hK.leaves_eof h
  cases u with
  | nil => exact (List.cons.inj hu).2
  | cons k u =>
    rw [← (List.cons.inj hu).1] at heof
    exact absurd (List.mem_cons_self ..) heof

end Linefold
