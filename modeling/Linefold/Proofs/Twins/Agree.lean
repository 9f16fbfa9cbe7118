import Linefold.Parser
import Linefold.Proofs.Twins.Words

/-!
# Computations that agree over two pools

`Agree T f g R`: started from states that are alike, over pools that have grown from `T`, `f` and `g` both
succeed, with results in relation `R`, or both fail with the same error; in either case the pools have
grown and the states are alike again. The rules below follow the computations' own steps, so two runs of
one function on arguments that are alike are compared function by function.
-/

namespace Linefold

/-- A state with a pool, and what it means for two of them to be alike apart from their pools. -/
class Pooled (σ : Type) where
  pool : σ → Pool
  Alike : Twin → σ → σ → Prop

variable {σ α β : Type} [Pooled σ]

/-- The pools of two states. -/
def Twin.of (s t : σ) : Twin := ⟨Pooled.pool s, Pooled.pool t⟩

/-- Outcomes that are alike. -/
def Agreed (T : Twin) (R : Twin → α → α → Prop) :
    EStateM.Result Error σ α → EStateM.Result Error σ α → Prop
  | .ok a s, .ok b t => T.Grows (.of s t) ∧ Pooled.Alike (.of s t) s t ∧ R (.of s t) a b
  | .error e s, .error e' t => T.Grows (.of s t) ∧ Pooled.Alike (.of s t) s t ∧ e = e'
  | _, _ => False

def Agree (T : Twin) (f g : EStateM Error σ α) (R : Twin → α → α → Prop) : Prop :=
  ∀ s t : σ, T.Grows (.of s t) → Pooled.Alike (.of s t) s t → Agreed (.of s t) R (f s) (g t)

variable {T U : Twin} {f f' : EStateM Error σ α} {R : Twin → α → α → Prop} {S : Twin → β → β → Prop}
  {a b : α} {e : Error}

theorem Agreed.mono_left {r r' : EStateM.Result Error σ α} (h : Agreed U R r r') (hTU : T.Grows U) :
    Agreed T R r r' := by
  cases r <;> cases r' <;> first | exact ⟨hTU.trans h.1, h.2⟩ | exact h

theorem Agree.bind {g g' : α → EStateM Error σ β} (hf : Agree T f f' R)
    (hg : ∀ U a b, T.Grows U → R U a b → Agree U (g a) (g' b) S) : Agree T (f >>= g) (f' >>= g') S := by
  intro s t hT hst
  have hres := hf s t hT hst
  simp only [Bind.bind, EStateM.bind]
  unfold Agreed at hres
  split at hres
  · next a s' b t' hs ht =>
    rw [hs, ht]
    exact (hg _ a b (hT.trans hres.1) hres.2.2 s' t' (.refl _) hres.2.1).mono_left hres.1
  · next e s' e' t' hs ht =>
    rw [hs, ht]
    exact hres
  · exact hres.elim

theorem agree_pure (h : ∀ U, T.Grows U → R U a b) :
    Agree T (pure a : EStateM Error σ α) (pure b) R :=
  fun _ _ hT hst => ⟨.refl _, hst, h _ hT⟩

theorem agree_throw : Agree T (throw e : EStateM Error σ α) (throw e) R :=
  fun _ _ _ hst => ⟨.refl _, hst, rfl⟩

/-! ### The parser's state -/

instance : Pooled Parsed where
  pool := Parsed.pool
  Alike T s t := List.Forall₂ T.Alike s.operands t.operands ∧ s.env.Alike T t.env ∧ s.errors = t.errors

namespace ParseM

variable {n m : Node} {i j : NodeId} {span : Span} {name : String} {w v : Word}

theorem agree_ask {f g : Parsed → α}
    (h : ∀ s t : Parsed, T.Grows (.of s t) → List.Forall₂ (Twin.of s t).Alike s.operands t.operands →
      s.env.Alike (.of s t) t.env → R (.of s t) (f s) (g t)) :
    Agree T (ask f) (ask g) R :=
  fun s t hT hst => ⟨.refl _, hst, h s t hT hst.1 hst.2.1⟩

theorem agree_internal {fault : InternalFault} :
    Agree T (internal fault : ParseM α) (internal fault) R :=
  agree_throw

theorem agree_expect {kind : TokenKind} {t : Token} :
    Agree T (expect kind t) (expect kind t) fun _ => Eq := by
  unfold expect
  split
  · exact agree_pure fun _ _ => rfl
  · exact agree_throw

theorem agree_intern (h : n.Matches T.Alike m) : Agree T (intern n) (intern m) Twin.Alike := by
  intro s t hT ⟨hoperands, henv, herrors⟩
  have hm := Twin.matches_mono h hT
  have hgrows := (Twin.of s t).grows_intern n m
  exact ⟨hgrows, ⟨Twin.forall₂_mono hoperands hgrows, henv.mono hgrows, herrors⟩, Twin.alike_intern hm⟩

theorem agree_internAt (h : n.Matches T.Alike m) :
    Agree T (internAt n span) (internAt m span) Twin.Alike := by
  intro s t hT hst
  obtain ⟨hgrows, ⟨hoperands, henv, herrors⟩, hid⟩ := agree_intern h s t hT hst
  have hlocate : Twin.Grows ((Twin.of s t).intern n m)
      ⟨(s.pool.internAt n span).2, (t.pool.internAt m span).2⟩ := ⟨fun _ _ h => h, fun _ _ h => h⟩
  exact ⟨hgrows.trans hlocate, ⟨Twin.forall₂_mono hoperands hlocate, henv.mono hlocate, herrors⟩,
    hid.mono hlocate⟩

/-! ### Operands -/

theorem agree_push (h : T.Alike i j) : Agree T (push i) (push j) fun _ => Eq :=
  fun _ _ hT hst => ⟨.refl _, ⟨.cons (h.mono hT) hst.1, hst.2⟩, rfl⟩

theorem agree_leave (h : n.Matches T.Alike m) : Agree T (leave n) (leave m) fun _ => Eq :=
  (agree_intern h).bind fun _ _ _ _ hid => agree_push hid

theorem agree_leaveAt (h : n.Matches T.Alike m) :
    Agree T (leaveAt n span) (leaveAt m span) fun _ => Eq :=
  (agree_internAt h).bind fun _ _ _ _ hid => agree_push hid

theorem agree_pop : Agree T pop pop Twin.Alike := by
  rintro ⟨p, operands, env, errors⟩ ⟨q, operands', env', errors'⟩ hT ⟨hoperands, henv, herrors⟩
  cases hoperands with
  | nil => exact ⟨.refl _, ⟨.nil, henv, herrors⟩, rfl⟩
  | cons hid hoperands => exact ⟨.refl _, ⟨hoperands, henv, herrors⟩, hid⟩

theorem agree_drainFrom {base : Nat} :
    Agree T (drainFrom base) (drainFrom base) fun U => List.Forall₂ U.Alike := by
  rintro ⟨p, operands, env, errors⟩ ⟨q, operands', env', errors'⟩ hT ⟨hoperands, henv, herrors⟩
  have hlength : operands.length = operands'.length := hoperands.length_eq
  unfold drainFrom
  simp only [hlength]
  exact ⟨.refl _, ⟨List.forall₂_drop _ hoperands, henv, herrors⟩,
    List.rel_reverse (List.forall₂_take _ hoperands)⟩

theorem agree_height : Agree T height height fun _ => Eq :=
  agree_ask fun _ _ _ hoperands _ => hoperands.length_eq

/-! ### Scopes and errors -/

theorem agree_define (h : w.Alike T v) : Agree T (define name w) (define name v) fun _ => Eq :=
  fun _ _ hT hst => ⟨.refl _, ⟨hst.1, hst.2.1.bind (h.mono hT), hst.2.2⟩, rfl⟩

theorem agree_enter : Agree T (enter name) (enter name) fun _ => Eq := by
  rintro s t hT ⟨hoperands, henv, herrors⟩
  unfold enter
  rcases henv.enter name with ⟨hs, ht⟩ | ⟨e, f, hs, ht, henv⟩
  · simp only [hs, ht]
    exact ⟨.refl _, ⟨hoperands, henv, herrors⟩, rfl⟩
  · simp only [hs, ht]
    exact ⟨.refl _, ⟨hoperands, henv, herrors⟩, rfl⟩

theorem agree_exit {owner : ScopeOwner} : Agree T (exit owner) (exit owner) Scope.Alike := by
  rintro s t hT ⟨hoperands, henv, herrors⟩
  obtain ⟨hscope, hexit⟩ := henv.exit
  unfold exit
  generalize s.env.exit = left, t.env.exit = right at hscope hexit
  obtain ⟨scope, e⟩ := left
  obtain ⟨scope', f⟩ := right
  cases hscope with
  | none => exact ⟨.refl _, ⟨hoperands, henv, herrors⟩, rfl⟩
  | some hs => exact ⟨.refl _, ⟨hoperands, hexit, herrors⟩, hs⟩

theorem agree_lookup? : Agree T (lookup? name) (lookup? name) fun U => Option.Rel (Word.Alike U) :=
  agree_ask fun _ _ _ _ henv => henv.lookup?

theorem agree_report {d : Diagnostic} : Agree T (report d) (report d) fun _ => Eq := by
  rintro s t hT ⟨hoperands, henv, herrors⟩
  exact ⟨.refl _, ⟨hoperands, henv, congrArg (Array.push · d) herrors⟩, rfl⟩

end ParseM

end Linefold
