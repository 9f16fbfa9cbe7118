import Linefold.Proofs.Headers.Words

/-!
# The scope of a header under a body

While a body is read, the scope that belongs to the header stays where it is, below the scopes that the positions of
the body will close (`Covers`). Parameters, patterns and what else gives words a value comes in one of these only. So
the words of the header stay as they are (`Acts.covers`), unless a definition that stands in the body itself has the
name of one of them.
-/

namespace Linefold

/-- The scopes are those that the positions of a body will close, above the innermost of `d` scopes, which lists the
names `xs` of the header. Only the names `N` are defined in this one, and if they are not distinct from the others
nothing is said of it. -/
def Covers (N : String → Prop) (d : Nat) (xs : List String) : List Cont → Environment → Prop
  | [], e => ∃ (e' : Environment) (scope : Scope), e = e'.under scope ∧ e.depth = d ∧
      (xs.Nodup → (∀ x ∈ xs, ¬ N x) → scope.lexicon.Lists 0 xs)
  | c :: P, e =>
    match c with
    | .letEqual k name _ | .letBody k name _ =>
      ∃ (e' : Environment) (scope : Scope), e = e'.under scope ∧ k + 1 = e'.depth ∧ (e'.depth = d → N name) ∧ Covers N d xs P e'
    | .lambdaColon _ | .lambdaEnd _ | .ofEnd => ∃ (e' : Environment) (scope : Scope), e = e'.under scope ∧ Covers N d xs P e'
    | .params _ _ | .paramList _ | .pattern => d < e.depth ∧ Covers N d xs P e
    | _ => Covers N d xs P e

variable {N : String → Prop} {d : Nat} {xs : List String} {P : List Cont} {e e' : Environment} {c : Cont} {t : Token}
  {a : Turn} {ds : List Diagnostic} {name : String} {w : Word}

namespace Covers

/-- Of the scopes above that of the header there is one for every position that closes one. -/
theorem depth_eq (h : Covers N d xs P e) : e.depth = d + openScopes P := by
  induction P generalizing e with
  | nil =>
    obtain ⟨-, -, -, hd, -⟩ := h
    exact hd
  | cons c P ih =>
    cases c with
    | letEqual | letBody =>
      obtain ⟨e', scope, rfl, -, -, h⟩ := h
      exact congrArg (· + 1) (ih h)
    | lambdaColon | lambdaEnd | ofEnd =>
      obtain ⟨e', scope, rfl, h⟩ := h
      exact congrArg (· + 1) (ih h)
    | params | paramList | pattern => exact ih h.2
    | _ => exact ih h

theorem le_depth (h : Covers N d xs P e) : d ≤ e.depth := by
  rw [h.depth_eq]
  exact Nat.le_add_right ..

/-- What gets a value is not in the scope of the header, and what is defined there has one of the names `N`. -/
theorem bind (h : Covers N d xs P e) (hw : d < e.depth ∨ w.isValue = false ∧ (e.depth = d → N name)) :
    Covers N d xs P (e.bind name w) := by
  induction P with
  | nil =>
    obtain ⟨e', scope, rfl, hd, hlists⟩ := h
    refine ⟨e', _, Environment.bind_under, hd, fun hdistinct hfree => ?_⟩
    obtain ⟨hvalue, hname⟩ := hw.resolve_left (Nat.not_lt.2 (Nat.le_of_eq hd))
    exact (hlists hdistinct hfree).define hvalue fun hx => hfree name hx (hname hd)
  | cons c P ih =>
    cases c with
    | letEqual | letBody =>
      obtain ⟨e', scope, rfl, hk, hN, h⟩ := h
      exact ⟨e', _, Environment.bind_under, hk, hN, h⟩
    | lambdaColon | lambdaEnd | ofEnd =>
      obtain ⟨e', scope, rfl, h⟩ := h
      exact ⟨e', _, Environment.bind_under, h⟩
    | params | paramList | pattern => exact ⟨by simpa using h.1, ih h.2⟩
    | _ => exact ih h

theorem remembers (h : Covers N d xs P e) (hd : d < e.depth) (hmarks : e.Remembers e') : Covers N d xs P e' := by
  induction hmarks with
  | refl => exact h
  | step _ _ ih => exact ih (h.bind (.inl hd)) (by simpa using hd)

end Covers

/-! ### Turns -/

theorem Still.covers (h : Still t e c a) (hc : Covers N d xs (c :: P) e) : Covers N d xs (a.next ++ P) e := by
  cases h with
  | endOfList hplace | item hplace => cases hplace <;> exact hc
  | noParam | pattern => exact hc.2
  | paramList => exact ⟨hc.1, hc.1, hc⟩
  | _ => exact hc

/-- The scope of the header stays under the body. -/
theorem Acts.covers (h : Acts t e c a e' ds) (hN : c = .letName → e.depth = d → N t.lexeme)
    (hc : Covers N d xs (c :: P) e) : Covers N d xs (a.next ++ P) e' := by
  cases h with
  | still h => exact h.covers hc
  | unknown => exact hc
  | letName =>
    have hP : Covers N d xs P e := hc
    have hbind : Covers N d xs P (e.bind t.lexeme (.function t.lexeme)) := hP.bind (.inr ⟨rfl, hN rfl⟩)
    have hdepth : e.depth - 1 + 1 = (e.bind t.lexeme (.function t.lexeme)).depth := by
      rw [Environment.depth_bind]
      rfl
    refine ⟨Nat.lt_succ_of_le hbind.le_depth, _, _, rfl, hdepth, fun hd => hN rfl ?_, hbind⟩
    rwa [Environment.depth_bind] at hd
  | letBody he =>
    obtain ⟨e'', scope, he', hk, hname, hc⟩ := hc
    obtain rfl := (Environment.under_inj (he.symm.trans he')).1
    rw [Environment.bindAt_of_depth hk]
    exact hc.bind (.inr ⟨rfl, hname⟩)
  | param => exact ⟨by simpa using hc.1, hc.2.bind (.inl hc.1)⟩
  | patternName => exact hc.2.bind (.inl hc.1)
  | paramList _ hmarks => exact hc.2.remembers hc.1 hmarks
  | lambda => exact ⟨Nat.lt_succ_of_le hc.le_depth, _, _, rfl, hc⟩
  | clause => exact ⟨Nat.lt_succ_of_le hc.le_depth, _, _, rfl, hc⟩
  | lambdaEnd _ he | ofEnd he =>
    obtain ⟨e'', scope, he', hc⟩ := hc
    obtain rfl := (Environment.under_inj (he.symm.trans he')).1
    exact hc

end Linefold
