import Linefold.Proofs.Grammar.Acceptance
import Linefold.Proofs.Operands.Offer

/-!
# A parse finds its operands

`Sound s pool` is kept by every step whose token suits the innermost position (`Sound.step`). Between
tokens no position is left that needs no token, so an operator token meets operators only at the
innermost position, before anything else has changed the environment.
-/

namespace Linefold

attribute [local irreducible] Pool.intern

variable {t : Token} {c : Cont} {K : List Cont} {s : Parsed}

/-- The innermost position needs a token. -/
def Settled : List Cont → Prop
  | [] => True
  | c :: _ => c.isReduction = false

/-- The token suits the innermost position. -/
def SuitsHead (t : Token) (e : Environment) : List Cont → Prop
  | [] => True
  | c :: _ => Suits t c e

/-! ### Where a token is handed on -/

/-- A position that hands a token on stands on one that waits neither for an expression nor for an
operator. -/
theorem suitsHead_of_handsOn {e : Environment} (hc : c.handsOn) (hr : ∀ span, c ≠ .negate span)
    (hK : Stacked c.beneath K) : SuitsHead t e K ∧ ∀ span K', K ≠ .negate span :: K' := by
  have hrole : c.beneath ≠ .operand ∧ c.beneath ≠ .primary := by
    cases c with
    | negate span => exact absurd rfl (hr span)
    | _ => first | simp [Cont.beneath]; done | cases hc
  cases K with
  | nil => exact ⟨trivial, fun _ _ h => nomatch h⟩
  | cons c' K =>
    obtain ⟨hfits, -⟩ := hK
    revert hfits hrole
    generalize c.beneath = role
    intro hrole hfits
    refine ⟨⟨?_, ?_⟩, ?_⟩
    · rintro rfl
      cases role <;> cases hfits
    · rintro - ops rfl
      cases role <;> first | exact absurd rfl hrole.1 | exact absurd rfl hrole.2 | cases hfits
    · rintro span K' ⟨⟩
      cases role <;> first | exact absurd rfl hrole.2 | cases hfits

/-- What is left after a token was offered to positions lets them go on. -/
def AdvanceYields : Advance → Parsed → Prop
  | .taken _ next, s => Nested next ∧ Typed next s
  | .finished root, s => s.pool.WellShaped ∧ ∃ es, s.pool.get? root = some (.branch .prog es)

theorem advance_yields (hN : Nested K) (hr : ∀ span K', K ≠ .negate span :: K')
    (ht : SuitsHead t s.env K) (h : Typed K s) :
    Ensures (advance t K) AdvanceYields (fun e _ => e.isGenuine) s := by
  induction K generalizing s with
  | nil => cases hN
  | cons c K ih =>
    unfold advance
    rw [Ensures.bind_iff]
    have hgrammar := agrees_offer (o := false) (t := t) hN (by simp) s
    refine (hgrammar.and (yields_offer hN ht h)).mono ?_ fun _ _ he => he.2
    rintro a s ⟨hfollows, hyields⟩
    cases a with
    | taken cls next => exact ⟨hfollows.1, hyields⟩
    | finished root => exact hyields
    | declined =>
      obtain ⟨hc, hN', -⟩ := hfollows
      obtain ⟨hsuits, hr⟩ := suitsHead_of_handsOn hc (fun span hspan => hr span K (by rw [hspan])) hN
      exact ih hN' hr hsuits hyields

/-! ### Positions that need no token -/

theorem ensures_reduce_typed {E : Error → Parsed → Prop} (hc : c.isReduction) (h : Typed (c :: K) s) :
    Ensures c.reduce (fun _ s => Typed K s) E s := by
  obtain ⟨Γ, hK, h⟩ := h
  cases c with
  | letBody d name base => exact ParseM.ensures_finishLet hK h
  | negate span =>
    obtain ⟨Γ, rfl, hK⟩ := hK
    exact (ParseM.ensures_negate h).mono (fun _ _ h => ⟨_, hK, h⟩) fun _ _ he => he
  | ofEnd =>
    obtain ⟨Γ, rfl, hK⟩ := hK
    exact (ParseM.ensures_finishClause h).mono (fun _ _ h => ⟨_, hK, h⟩) fun _ _ he => he
  | _ => cases hc

theorem settle_typed {E : Error → Parsed → Prop} (h : Typed K s) :
    Ensures (settle K) (fun K s => Settled K ∧ Typed K s) E s := by
  induction K generalizing s with
  | nil => exact ⟨trivial, h⟩
  | cons c K ih =>
    unfold settle
    split
    · next hc =>
      exact Ensures.bind_iff.2 ((ensures_reduce_typed hc h).mono (fun _ _ h => ih h) fun _ _ he => he)
    · next hc => exact ⟨Bool.eq_false_iff.2 hc, h⟩

/-- What is left after a token was read. -/
def ConsumeYields : Advance → Parsed → Prop
  | .taken _ next, s => Nested next ∧ Settled next ∧ Typed next s
  | .finished root, s => s.pool.WellShaped ∧ ∃ es, s.pool.get? root = some (.branch .prog es)

theorem consume_yields (hN : Nested K) (hr : ∀ span K', K ≠ .negate span :: K')
    (ht : SuitsHead t s.env K) (h : Typed K s) :
    Ensures (ParseState.consume t K) ConsumeYields (fun e _ => e.isGenuine) s := by
  unfold ParseState.consume
  rw [Ensures.bind_iff]
  refine (advance_yields hN hr ht h).mono ?_ fun _ _ he => he
  intro a s ha
  cases a with
  | finished root => exact ha
  | taken cls next =>
    obtain ⟨hN, htyped⟩ := ha
    have hsettled := (settle_expects hN s).and (settle_typed (E := fun e _ => e.isGenuine) htyped)
    refine Ensures.bind_iff.2 (hsettled.mono ?_ fun _ _ he => he.2)
    rintro K s ⟨⟨hN, -⟩, hsettled, htyped⟩
    exact ⟨hN, hsettled, htyped⟩

/-! ### Steps -/

namespace ParseState

/-- The parse can go on, or is over for a reason that a text may have. -/
def Sound (s : ParseState) (pool : Pool) : Prop :=
  match s.status with
  | .parsing => Nested s.conts ∧ Settled s.conts ∧ Typed s.conts ⟨pool, s.operands, s.env, s.errors⟩
  | .complete root => pool.WellShaped ∧ ∃ es, pool.get? root = some (.branch .prog es)
  | .failed e => e.isGenuine

theorem Sound.step {s : ParseState} {pool : Pool} (h : s.Sound pool)
    (ht : s.status = .parsing → SuitsHead t s.env s.conts) :
    (s.step pool t).2.1.Sound (s.step pool t).2.2 := by
  obtain ⟨conts, operands, env, errors, status⟩ := s
  cases status with
  | complete root => exact h
  | failed e => exact h
  | parsing =>
    obtain ⟨hN, hsettled, htyped⟩ := h
    have hr : ∀ span K', conts ≠ .negate span :: K' := by
      rintro span K' rfl
      cases hsettled
    have hconsume := consume_yields hN hr (ht rfl) htyped
    unfold Ensures at hconsume
    unfold ParseState.step
    simp only
    split at hconsume
    · next a s heq =>
      rw [heq]
      cases a with
      | taken cls next => exact hconsume
      | finished root => exact hconsume
    · next e s heq =>
      rw [heq]
      exact hconsume

end ParseState

end Linefold
