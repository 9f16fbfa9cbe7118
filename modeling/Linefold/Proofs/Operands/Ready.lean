import Linefold.Proofs.Grammar.Recognition
import Linefold.Proofs.Shape
import Linefold.Proofs.Words

/-!
# What the positions need on the operand stack

`Ready K Γ`: with parts `Γ` on the operand stack, last first, the positions `K` can go on. A position
that began at height `base` owns what lies above, and once it is through it leaves one part for the
positions below; only a definition leaves none. `Holds Γ depth s`: the operands of `s` are such parts,
in a well-shaped pool.
-/

namespace Linefold

/-- The operators that wait for their right sides are binary. -/
def Operators (ops : List (Tag × Span)) : Prop := ∀ op ∈ ops, op.1.isOperator

/-- Any number of parts of one kind above a height. -/
def Above (part : Part) (base : Nat) (Γ : List Part) (next : List Part → Prop) : Prop :=
  ∃ n Γ₀, Γ = List.replicate n part ++ Γ₀ ∧ base = Γ₀.length ∧ next Γ₀

def Ready : List Cont → List Part → Prop
  | [], Γ => Γ = []
  | c :: K, Γ =>
    match c with
    | .program => Γ = [.exprs] ∧ Ready K []
    | .exprs _ base | .exprsNext _ base | .exprsAfterDot _ base =>
      Above .value base Γ fun Γ => Ready K (.exprs :: Γ)
    | .expr | .operand | .primary | .pattern => Ready K (.value :: Γ)
    | .letName | .params _ _ | .elements | .elementNext | .bindings => Ready K Γ
    | .letEqual _ _ base => Above .pattern base Γ fun Γ => Ready K Γ
    | .letBody _ _ base => ∃ Γ', Γ = .exprs :: Γ' ∧ Above .pattern base Γ' fun Γ => Ready K Γ
    | .paramList base => Above .pattern base Γ fun Γ => Ready K (.pattern :: Γ)
    | .lambdaColon base => Above .pattern base Γ fun Γ => Ready K (.value :: Γ)
    | .lambdaEnd base =>
      ∃ Γ', Γ = .exprs :: Γ' ∧ Above .pattern base Γ' fun Γ => Ready K (.value :: Γ)
    | .negate _ => ∃ Γ', Γ = .value :: Γ' ∧ Ready K (.value :: Γ')
    | .binary ops =>
      Operators ops ∧ ∃ Γ', Γ = List.replicate (ops.length + 1) .value ++ Γ' ∧ Ready K (.value :: Γ')
    | .parenEnd _ => ∃ Γ', Γ = .exprs :: Γ' ∧ Ready K (.value :: Γ')
    | .listEnd base => Above .value base Γ fun Γ => Ready K (.value :: Γ)
    | .bindingColon => Ready K (.value :: Γ)
    | .bindingNext => ∃ Γ', Γ = .value :: .key :: Γ' ∧ Ready K (.binding :: Γ')
    | .recordEnd base _ => Above .binding base Γ fun Γ => Ready K (.value :: Γ)
    | .caseClauses base _ =>
      ∃ n Γ', Γ = List.replicate n .clause ++ .value :: Γ' ∧ base = Γ'.length ∧
        Ready K (.value :: Γ')
    | .ofColon => Ready K (.exprs :: Γ)
    | .ofEnd => ∃ Γ', Γ = .exprs :: .value :: Γ' ∧ Ready K (.clause :: Γ')
    | .ifThen base _ => ∃ Γ', Γ = .value :: Γ' ∧ base = Γ'.length ∧ Ready K (.value :: Γ')
    | .ifElse base _ => ∃ Γ', Γ = [.exprs, .value] ++ Γ' ∧ base = Γ'.length ∧ Ready K (.value :: Γ')
    | .ifEnd base _ =>
      ∃ Γ', Γ = [.exprs, .exprs, .value] ++ Γ' ∧ base = Γ'.length ∧ Ready K (.value :: Γ')

variable {K : List Cont} {Γ : List Part} {part : Part} {base : Nat} {next : List Part → Prop}
  {brk : TokenKind}

/-! ### Lists of parts -/

theorem Above.nil (hb : base = Γ.length) (h : next Γ) : Above part base Γ next := ⟨0, Γ, rfl, hb, h⟩

theorem Above.cons (h : Above part base Γ next) : Above part base (part :: Γ) next := by
  obtain ⟨n, Γ₀, rfl, hb, h⟩ := h
  exact ⟨n + 1, Γ₀, rfl, hb, h⟩

/-- Parameters may go on. -/
theorem Ready.cons_pattern (hK : Stacked (.params brk) K) (h : Ready K Γ) : Ready K (.pattern :: Γ) := by
  rcases hK.params_cases with ⟨-, _, _, _, K, rfl⟩ | ⟨-, _, K, rfl⟩ | ⟨-, _, K, rfl⟩ <;>
    exact Above.cons h

/-- So may the elements of a list. -/
theorem Ready.cons_value (hK : Stacked .listEnd K) (h : Ready K Γ) : Ready K (.value :: Γ) := by
  match K with
  | .listEnd _ :: K => exact Above.cons h

/-- So may the bindings of a record. -/
theorem Ready.cons_binding (hK : Stacked .recordEnd K) (h : Ready K Γ) : Ready K (.binding :: Γ) := by
  match K with
  | .recordEnd _ _ :: K => exact Above.cons h

/-! ### Scopes of positions -/

namespace Cont

/-- The number of scopes that the position will close. -/
def scopes : Cont → Nat
  | letEqual .. | letBody .. | lambdaColon _ | lambdaEnd _ | ofEnd => 1
  | _ => 0

end Cont

def openScopes : List Cont → Nat
  | [] => 0
  | c :: K => openScopes K + c.scopes

/-! ### Parse states -/

/-- The words of operators are those of binary operators. -/
def Environment.OperatorsBinary (e : Environment) : Prop :=
  e.All fun _ w => ∀ t, w.cls = .operator t → t.isOperator

structure Holds (Γ : List Part) (depth : Nat) (s : Parsed) : Prop where
  operands : List.Forall₂ s.pool.Fits Γ s.operands
  pool : s.pool.WellShaped
  words : s.env.OperatorsBinary
  depth : s.env.inner.length = depth

/-- The positions can go on from the state. -/
def Typed (K : List Cont) (s : Parsed) : Prop := ∃ Γ, Ready K Γ ∧ Holds Γ (openScopes K) s

/-- An error that a text may have. -/
def Error.isGenuine : Error → Bool
  | .unexpected .. | .recursion _ => true
  | _ => false

theorem forall₂_append {α β : Type} {R : α → β → Prop} {as bs : List α} {l : List β}
    (h : List.Forall₂ R (as ++ bs) l) :
    List.Forall₂ R as (l.take as.length) ∧ List.Forall₂ R bs (l.drop as.length) := by
  induction as generalizing l with
  | nil => exact ⟨.nil, h⟩
  | cons a as ih =>
    cases h with
    | cons ha h => exact ⟨.cons ha (ih h).1, (ih h).2⟩

namespace Holds

variable {depth : Nat} {s : Parsed} {n : Node} {id : NodeId} {span : Span} {Δ : List Part}

/-! ### Operands -/

theorem push (h : Holds Γ depth s) (hid : s.pool.Fits part id) :
    Holds (part :: Γ) depth { s with operands := id :: s.operands } :=
  ⟨.cons hid h.operands, h.pool, h.words, h.depth⟩

theorem intern (h : Holds Γ depth s) (hn : n.Shaped s.pool) :
    Holds Γ depth { s with pool := (s.pool.intern n).2 } :=
  ⟨Pool.forall₂_fits_mono h.operands (s.pool.extends_intern n), h.pool.intern hn, h.words, h.depth⟩

/-- What is interned is found from then on. -/
theorem interned {E : Error → Parsed → Prop} {Q : NodeId → Parsed → Prop} (h : Holds Γ depth s)
    (hn : n.Shaped s.pool)
    (hQ : ∀ id pool, s.pool.Extends pool → pool.get? id = some n → Holds Γ depth { s with pool } →
      Q id { s with pool }) :
    Ensures (ParseM.intern n) Q E s :=
  hQ _ _ (s.pool.extends_intern n) (Pool.get?_intern_of_shaped hn) (h.intern hn)

theorem internAt (h : Holds Γ depth s) (hn : n.Shaped s.pool) :
    Holds Γ depth { s with pool := (s.pool.internAt n span).2 } :=
  ⟨Pool.forall₂_fits_mono h.operands (s.pool.extends_internAt n span), h.pool.internAt hn, h.words,
    h.depth⟩

/-- A node is left as a part that it is wherever it is found. -/
theorem leave (h : Holds Γ depth s) (hn : n.Shaped s.pool)
    (hpart : ∀ p : Pool, s.pool.Extends p → ∀ id, p.get? id = some n → p.Fits part id) :
    Holds (part :: Γ) depth { s with
      pool := (s.pool.intern n).2
      operands := (s.pool.intern n).1 :: s.operands } :=
  (h.intern hn).push (hpart _ (s.pool.extends_intern n) _ (Pool.get?_intern_of_shaped hn))

theorem leaveAt (h : Holds Γ depth s) (hn : n.Shaped s.pool)
    (hpart : ∀ p : Pool, s.pool.Extends p → ∀ id, p.get? id = some n → p.Fits part id) :
    Holds (part :: Γ) depth { s with
      pool := (s.pool.internAt n span).2
      operands := (s.pool.internAt n span).1 :: s.operands } :=
  (h.internAt hn).push (hpart _ (s.pool.extends_internAt n span) _ (Pool.get?_intern_of_shaped hn))

theorem pop {E : Error → Parsed → Prop} {Q : NodeId → Parsed → Prop} (h : Holds (part :: Γ) depth s)
    (hQ : ∀ id ids, s.pool.Fits part id → Holds Γ depth { s with operands := ids } →
      Q id { s with operands := ids }) :
    Ensures ParseM.pop Q E s := by
  rw [ParseM.ensures_pop]
  obtain ⟨pool, operands, env, errors⟩ := s
  obtain ⟨hops, hpool, hwords, hdepth⟩ := h
  cases hops with
  | cons hid hops => exact hQ _ _ hid ⟨hops, hpool, hwords, hdepth⟩

/-- What lies above a height is taken in source order. -/
theorem drainFrom {E : Error → Parsed → Prop} {Q : List NodeId → Parsed → Prop}
    (h : Holds (Δ ++ Γ) depth s) (hb : base = Γ.length)
    (hQ : ∀ ids rest, List.Forall₂ s.pool.Fits Δ.reverse ids →
      Holds Γ depth { s with operands := rest } → Q ids { s with operands := rest }) :
    Ensures (ParseM.drainFrom base) Q E s := by
  have hlen : s.operands.length - base = Δ.length := by
    have := h.operands.length_eq
    rw [List.length_append] at this
    omega
  obtain ⟨hΔ, hΓ⟩ := forall₂_append h.operands
  rw [ParseM.ensures_drainFrom, hlen]
  exact hQ _ _ (List.rel_reverse hΔ) ⟨hΓ, h.pool, h.words, h.depth⟩

/-! ### Scopes -/

theorem enter (h : Holds Γ depth s) (name : String) :
    Holds Γ (depth + 1) { s with env := { s.env with inner := ⟨name, []⟩ :: s.env.inner } } :=
  ⟨h.operands, h.pool, h.words.enter name, congrArg (· + 1) h.depth⟩

theorem define (h : Holds Γ depth s) (name : String) {w : Word}
    (hw : ∀ t, w.cls = .operator t → t.isOperator) :
    Holds Γ depth { s with env := s.env.bind name w } :=
  ⟨h.operands, h.pool, h.words.bind hw, Environment.length_inner_bind.trans h.depth⟩

end Holds

end Linefold
