import Linefold.Parser

/-!
# What a computation guarantees

`Ensures f Q E s`: run from `s`, `f` ends with a result and a state that satisfy `Q`, or with an error
and a state that satisfy `E`. Nothing is said about how it gets there, so a function of the parser is
opened once, for its own `Ensures` lemma.
-/

namespace Linefold

variable {ε σ α β : Type}

def Ensures (f : EStateM ε σ α) (Q : α → σ → Prop) (E : ε → σ → Prop) (s : σ) : Prop :=
  match f s with
  | .ok a s => Q a s
  | .error e s => E e s

namespace Ensures

variable {f : EStateM ε σ α} {Q Q' : α → σ → Prop} {E E' : ε → σ → Prop} {s : σ}

theorem mono (h : Ensures f Q E s) (hQ : ∀ a s, Q a s → Q' a s) (hE : ∀ e s, E e s → E' e s) :
    Ensures f Q' E' s := by
  unfold Ensures at *
  split at h
  · exact hQ _ _ h
  · exact hE _ _ h

theorem of_eq_ok {a : α} {s' : σ} (h : Ensures f Q E s) (hf : f s = .ok a s') : Q a s' := by
  unfold Ensures at h
  rwa [hf] at h

theorem bind_iff {g : α → EStateM ε σ β} {Q : β → σ → Prop} :
    Ensures (f >>= g) Q E s ↔ Ensures f (fun a s => Ensures (g a) Q E s) E s := by
  unfold Ensures
  simp only [bind, EStateM.bind]
  cases f s <;> rfl

theorem map_iff {g : α → β} {Q : β → σ → Prop} :
    Ensures (g <$> f) Q E s ↔ Ensures f (fun a s => Q (g a) s) E s := by
  unfold Ensures
  simp only [Functor.map, EStateM.map]
  cases f s <;> rfl

/-- The error and the result are looked at apart. -/
theorem and (h : Ensures f Q E s) (h' : Ensures f Q' E' s) :
    Ensures f (fun a s => Q a s ∧ Q' a s) (fun e s => E e s ∧ E' e s) s := by
  unfold Ensures at *
  split at h <;> simp_all

end Ensures

/-! ### The parts of the parser -/

namespace ParseM

variable {Q : α → Parsed → Prop} {E : Error → Parsed → Prop} {s : Parsed}

theorem ensures_ask {f : Parsed → α} : Ensures (ask f) Q E s ↔ Q (f s) s := Iff.rfl

theorem ensures_expect {Q : Unit → Parsed → Prop} {kind : TokenKind} {t : Token} :
    Ensures (expect kind t) Q E s ↔
      if t.kind = kind then Q () s else E (.unexpected kind t.kind t.span) s := by
  unfold expect
  split <;> rfl

theorem ensures_push {Q : Unit → Parsed → Prop} {id : NodeId} :
    Ensures (push id) Q E s ↔ Q () { s with operands := id :: s.operands } := Iff.rfl

theorem ensures_define {Q : Unit → Parsed → Prop} {name : String} {w : Word} :
    Ensures (define name w) Q E s ↔ Q () { s with env := s.env.bind name w } := Iff.rfl

theorem ensures_lookup? {Q : Option Word → Parsed → Prop} {name : String} :
    Ensures (lookup? name) Q E s ↔ Q (s.env.lookup? name) s := Iff.rfl

theorem ensures_intern {Q : NodeId → Parsed → Prop} {n : Node} :
    Ensures (intern n) Q E s ↔ Q (s.pool.intern n).1 { s with pool := (s.pool.intern n).2 } :=
  Iff.rfl

theorem ensures_internAt {Q : NodeId → Parsed → Prop} {n : Node} {span : Span} :
    Ensures (internAt n span) Q E s ↔
      Q (s.pool.internAt n span).1 { s with pool := (s.pool.internAt n span).2 } :=
  Iff.rfl

theorem ensures_leave {Q : Unit → Parsed → Prop} {n : Node} :
    Ensures (leave n) Q E s ↔ Q () { s with
      pool := (s.pool.intern n).2
      operands := (s.pool.intern n).1 :: s.operands } :=
  Iff.rfl

theorem ensures_leaveAt {Q : Unit → Parsed → Prop} {n : Node} {span : Span} :
    Ensures (leaveAt n span) Q E s ↔ Q () { s with
      pool := (s.pool.internAt n span).2
      operands := (s.pool.internAt n span).1 :: s.operands } :=
  Iff.rfl

theorem ensures_pop {Q : NodeId → Parsed → Prop} :
    Ensures pop Q E s ↔ match s.operands with
      | [] => E (.internal .operandUnderflow) s
      | id :: operands => Q id { s with operands } := by
  unfold Ensures pop
  cases s.operands <;> rfl

theorem ensures_drainFrom {Q : List NodeId → Parsed → Prop} {base : Nat} :
    Ensures (drainFrom base) Q E s ↔
      Q (s.operands.take (s.operands.length - base)).reverse
        { s with operands := s.operands.drop (s.operands.length - base) } :=
  Iff.rfl

theorem ensures_enter {Q : Unit → Parsed → Prop} {name : String} :
    Ensures (enter name) Q E s ↔
      if s.env.limit < s.env.depth then E (.recursion s.env.limit) s
      else Q () { s with env := { s.env with inner := ⟨name, []⟩ :: s.env.inner } } := by
  unfold Ensures enter Environment.enter
  by_cases h : s.env.limit < s.env.depth <;> simp only [h, ↓reduceIte]

theorem ensures_exit {Q : Scope → Parsed → Prop} {owner : ScopeOwner} :
    Ensures (exit owner) Q E s ↔ match s.env.exit with
      | (some scope, env) => Q scope { s with env }
      | (none, _) => E (.internal (.missingScope owner)) s := by
  unfold Ensures exit
  rcases s.env.exit with ⟨_ | scope, env⟩ <;> rfl

end ParseM

end Linefold
