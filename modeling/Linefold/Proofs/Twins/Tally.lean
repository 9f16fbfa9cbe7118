import Linefold.Proofs.Evaluation.Agreement
import Linefold.Proofs.Outcome
import Linefold.Proofs.Twins.Patterns

/-!
# Two computations on two pools

`TallyIn E T f g R`: run on the two pools of `T`, `f` and `g` both succeed, with results in relation `R`, or both
fail, with errors in relation `E`. In contrast to `Agree`, the computations may be of different kinds, and nothing is
known of the pools but that they grow.
-/

namespace Linefold

open Pattern (PoolM)

variable {α β γ δ : Type} {E : Error → Error → Prop} {T : Twin} {f f' : PoolM α} {g g' : PoolM β}
  {R R' : Twin → α → β → Prop} {S : Twin → γ → δ → Prop} {k : α → PoolM γ} {l : β → PoolM δ} {a : α} {b : β}
  {e e' : Error} {p q : Pool}

/-- Both succeed, with results in relation and pools that have grown, or both fail, with errors in relation. -/
def TallyIn (E : Error → Error → Prop) (T : Twin) (f : PoolM α) (g : PoolM β) (R : Twin → α → β → Prop) : Prop :=
  match f T.left, g T.right with
  | .ok a p, .ok b q => T.Grows ⟨p, q⟩ ∧ R ⟨p, q⟩ a b
  | .error e _, .error e' _ => E e e'
  | _, _ => False

/-- Both succeed, with results in relation and pools that have grown, or both fail. -/
abbrev Tally (T : Twin) (f : PoolM α) (g : PoolM β) (R : Twin → α → β → Prop) : Prop := TallyIn (fun _ _ => True) T f g R

theorem tally_pure (h : R T a b) : TallyIn E T (pure a) (pure b) R := ⟨.refl T, h⟩

theorem tally_ok (hf : f T.left = .ok a p) (hg : g T.right = .ok b q) (hTU : T.Grows ⟨p, q⟩) (h : R ⟨p, q⟩ a b) :
    TallyIn E T f g R := by
  unfold TallyIn
  rw [hf, hg]
  exact ⟨hTU, h⟩

theorem tallyIn_error (h : E e e') (hf : f T.left = .error e p) (hg : g T.right = .error e' q) : TallyIn E T f g R := by
  unfold TallyIn
  rw [hf, hg]
  exact h

theorem tally_error (hf : f T.left = .error e p) (hg : g T.right = .error e' q) : Tally T f g R :=
  tallyIn_error trivial hf hg

namespace TallyIn

theorem congr (h : TallyIn E T f' g' R) (hf : f T.left = f' T.left) (hg : g T.right = g' T.right) :
    TallyIn E T f g R := by
  unfold TallyIn at h ⊢
  rw [hf, hg]
  exact h

theorem bind (h : TallyIn E T f g R) (hk : ∀ U a b, T.Grows U → R U a b → TallyIn E U (k a) (l b) S) :
    TallyIn E T (f >>= k) (g >>= l) S := by
  unfold TallyIn at h ⊢
  simp only [Bind.bind, EStateM.bind]
  split at h
  · next a p b q hf hg =>
    rw [hf, hg]
    have hnext := hk _ a b h.1 h.2
    unfold TallyIn at hnext
    dsimp only at hnext ⊢
    split at hnext
    · exact ⟨h.1.trans hnext.1, hnext.2⟩
    · exact hnext
    · exact hnext.elim
  · next hf hg =>
    rw [hf, hg]
    exact h
  · exact h.elim

theorem mono (h : TallyIn E T f g R) (hR : ∀ U a b, T.Grows U → R U a b → R' U a b) : TallyIn E T f g R' := by
  unfold TallyIn at h ⊢
  split at h
  · exact ⟨h.1, hR _ _ _ h.1 h.2⟩
  · exact h
  · exact h.elim

/-- The first computation has a step that the second one has not. -/
theorem after_left {g : PoolM δ} (hf : f T.left = .ok a p) (hT : T.left.Extends p)
    (h : TallyIn E ⟨p, T.right⟩ (k a) g S) : TallyIn E T (f >>= k) g S := by
  unfold TallyIn at h ⊢
  simp only [Bind.bind, EStateM.bind, hf]
  dsimp only at h
  split at h
  · exact ⟨⟨hT.trans h.1.1, h.1.2⟩, h.2⟩
  · exact h
  · exact h.elim

/-- What is known of the first computation alone. -/
theorem and_left {P : α → Pool → Prop} {P' : Error → Pool → Prop} (h : TallyIn E T f g R) (hf : Ensures f P P' T.left) :
    TallyIn E T f g fun U a b => R U a b ∧ P a U.left := by
  unfold TallyIn at h ⊢
  unfold Ensures at hf
  split at h
  · next heq _ =>
    rw [heq] at hf
    exact ⟨h.1, h.2, hf⟩
  · exact h
  · exact h.elim

end TallyIn

theorem tally_get {k : Pool → PoolM γ} {l : Pool → PoolM δ} (h : TallyIn E T (k T.left) (l T.right) S) :
    TallyIn E T (get >>= k) (get >>= l) S :=
  h.congr rfl rfl

theorem Agree.tally {f g : PoolM α} {R : Twin → α → α → Prop} (h : Agree T f g R) : Tally T f g R := by
  have hres := h T.left T.right (.refl T) trivial
  unfold Agreed at hres
  unfold Tally TallyIn
  split at hres
  · next a p b q hf hg =>
    rw [hf, hg]
    exact ⟨hres.1, hres.2.2⟩
  · next hf hg =>
    rw [hf, hg]
    trivial
  · exact hres.elim

/-- Folds that do what computations do that tally. -/
theorem Machine.fold_tally {m m' : Machine} {c d : NodeId} {f g : PoolM NodeId} {R : Twin → NodeId → NodeId → Prop}
    (h : TallyIn E T f g R) (hm : m.env.Unnamed m.pool) (hf : Evaluator.operand m.env c m.pool = f T.left)
    (hm' : m'.env.Unnamed m'.pool) (hg : Evaluator.operand m'.env d m'.pool = g T.right) :
    match m.fold c, m'.fold d with
    | .ok a r, .ok b s => R ⟨r.pool, s.pool⟩ a b
    | .error e _, .error e' _ => E e e'
    | _, _ => False := by
  rw [fold_eq_operand hm, fold_eq_operand hm', hf, hg]
  unfold TallyIn at h
  split at h
  · next hleft hright =>
    rw [hleft, hright]
    exact h.2
  · next hleft hright =>
    rw [hleft, hright]
    exact h
  · exact h.elim

end Linefold
