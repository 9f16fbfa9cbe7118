import Mathlib.Algebra.GroupWithZero.Nat
import Linefold.Proofs.Closedness.Levels
import Linefold.Proofs.Operands.Ready

/-!
# Which operands a position finds on which level

`Laid K o Γ Ξ`: the positions `K` can go on with operands `Γ` on the innermost level, whose scope belongs to
`o`, and the rows `Ξ` around it. A position that closes a scope owns its whole level, and leaves its part on the
level around; every other position stays on its level.
-/

namespace Linefold

/-- What a level is without its names and nodes. -/
abbrev Row := Owner × List Slot

def Level.row (l : Level) : Row := (l.owner, l.parts.map Prod.fst)

def operandCount (rows : List Row) : Nat := (rows.map (·.2.length)).sum

/-- Any number of operands of one kind above a height. -/
def Over (slot : Slot) (base : Nat) (Γ : List Slot) (Ξ : List Row) (next : List Slot → Prop) : Prop :=
  ∃ n Γ₀, Γ = List.replicate n slot ++ Γ₀ ∧ base = Γ₀.length + operandCount Ξ ∧ next Γ₀

/-- What is left to be taken by a construct that opened a scope: the parameters and then the body. -/
def Closing (front : List Slot) (slot : Slot) (base : Nat) (Γ : List Slot) (Ξ : List Row)
    (next : Owner → List Slot → List Row → Prop) : Prop :=
  ∃ n o Γ₀ Ξ₀, Γ = front ++ List.replicate n slot ∧ Ξ = (o, Γ₀) :: Ξ₀ ∧ base = operandCount Ξ ∧ next o Γ₀ Ξ₀

def Laid : List Cont → Owner → List Slot → List Row → Prop
  | [], o, Γ, Ξ => (match o with | .globals => True | _ => False) ∧ Γ = [] ∧ Ξ = []
  | c :: K, o, Γ, Ξ =>
    match c with
    | .program => Γ = [.node] ∧ Laid K o [] Ξ
    | .exprs _ base | .exprsNext _ base | .exprsAfterDot _ base =>
      Over .node base Γ Ξ fun Γ => Laid K o (.node :: Γ) Ξ
    | .expr | .operand | .primary => Laid K o (.node :: Γ) Ξ
    | .pattern => Laid K o (.node :: Γ) Ξ ∧ Laid K o (.subject :: Γ) Ξ
    | .letName | .params _ _ | .elements | .elementNext | .bindings => Laid K o Γ Ξ
    | .letEqual depth name base =>
      o = .definition name ∧ depth + 1 = Ξ.length ∧ Closing [] .param base Γ Ξ (Laid K)
    | .letBody depth name base =>
      o = .definition name ∧ depth + 1 = Ξ.length ∧ Closing [.node] .param base Γ Ξ (Laid K)
    | .paramList base =>
      ∃ slot, (slot = .part ∨ slot = .param) ∧ Over .part base Γ Ξ fun Γ => Laid K o (slot :: Γ) Ξ
    | .lambdaColon base =>
      o = .function ∧ Closing [] .param base Γ Ξ fun o Γ Ξ => Laid K o (.node :: Γ) Ξ
    | .lambdaEnd base =>
      o = .function ∧ Closing [.node] .param base Γ Ξ fun o Γ Ξ => Laid K o (.node :: Γ) Ξ
    | .negate _ | .parenEnd _ => ∃ Γ₀, Γ = .node :: Γ₀ ∧ Laid K o (.node :: Γ₀) Ξ
    | .binary ops =>
      Operators ops ∧ ∃ Γ₀, Γ = List.replicate (ops.length + 1) .node ++ Γ₀ ∧ Laid K o (.node :: Γ₀) Ξ
    | .listEnd base | .recordEnd base _ => Over .node base Γ Ξ fun Γ => Laid K o (.node :: Γ) Ξ
    | .bindingColon => Laid K o (.node :: Γ) Ξ
    | .bindingNext => ∃ Γ₀, Γ = .node :: .key :: Γ₀ ∧ Laid K o (.node :: Γ₀) Ξ
    | .caseClauses base _ =>
      ∃ n Γ₀, Γ = List.replicate n .clause ++ .node :: Γ₀ ∧ base = Γ₀.length + operandCount Ξ ∧
        Laid K o (.node :: Γ₀) Ξ
    | .ofColon => Laid K o (.node :: Γ) Ξ
    | .ofEnd => o = .clause ∧ ∃ slot o' Γ₀ Ξ₀, (slot = .node ∨ slot = .subject) ∧ Γ = [.node, slot] ∧
        Ξ = (o', Γ₀) :: Ξ₀ ∧ Laid K o' (.clause :: Γ₀) Ξ₀
    | .ifThen base _ =>
      ∃ Γ₀, Γ = .node :: Γ₀ ∧ base = Γ₀.length + operandCount Ξ ∧ Laid K o (.node :: Γ₀) Ξ
    | .ifElse base _ =>
      ∃ Γ₀, Γ = [.node, .node] ++ Γ₀ ∧ base = Γ₀.length + operandCount Ξ ∧ Laid K o (.node :: Γ₀) Ξ
    | .ifEnd base _ =>
      ∃ Γ₀, Γ = [.node, .node, .node] ++ Γ₀ ∧ base = Γ₀.length + operandCount Ξ ∧ Laid K o (.node :: Γ₀) Ξ

section

variable {K : List Cont} {o : Owner} {Γ : List Slot} {Ξ : List Row} {slot : Slot} {base : Nat}
  {next : List Slot → Prop} {brk : TokenKind}

/-! ### Operands that may be added -/

theorem Over.nil (hb : base = Γ.length + operandCount Ξ) (h : next Γ) : Over slot base Γ Ξ next := ⟨0, Γ, rfl, hb, h⟩

theorem Over.cons (h : Over slot base Γ Ξ next) : Over slot base (slot :: Γ) Ξ next := by
  obtain ⟨n, Γ₀, rfl, hb, h⟩ := h
  exact ⟨n + 1, Γ₀, rfl, hb, h⟩

theorem Closing.cons {next : Owner → List Slot → List Row → Prop} (h : Closing [] slot base Γ Ξ next) :
    Closing [] slot base (slot :: Γ) Ξ next := by
  obtain ⟨n, o, Γ₀, Ξ₀, rfl, hΞ, hb, h⟩ := h
  exact ⟨n + 1, o, Γ₀, Ξ₀, rfl, hΞ, hb, h⟩

/-- The body of a construct comes after its parameters. -/
theorem Closing.body {next : Owner → List Slot → List Row → Prop} (h : Closing [] slot base Γ Ξ next) :
    Closing [.node] slot base (.node :: Γ) Ξ next := by
  obtain ⟨n, o, Γ₀, Ξ₀, rfl, hΞ, hb, h⟩ := h
  exact ⟨n, o, Γ₀, Ξ₀, rfl, hΞ, hb, h⟩

/-- What a parameter is in parameters that a token of kind `brk` ends. -/
def paramSlot (brk : TokenKind) : Slot := if brk = .rightBracket then .part else .param

/-- Parameters may go on. -/
theorem Laid.cons_param (hK : Stacked (.params brk) K) (h : Laid K o Γ Ξ) :
    Laid K o (paramSlot brk :: Γ) Ξ := by
  rcases hK.params_cases with ⟨rfl, _, _, _, K, rfl⟩ | ⟨rfl, _, K, rfl⟩ | ⟨rfl, _, K, rfl⟩
  · obtain ⟨ho, hdepth, h⟩ := h
    exact ⟨ho, hdepth, h.cons⟩
  · obtain ⟨ho, h⟩ := h
    exact ⟨ho, h.cons⟩
  · obtain ⟨slot, hslot, h⟩ := h
    exact ⟨slot, hslot, h.cons⟩

/-- So may the elements of a list. -/
theorem Laid.cons_element (hK : Stacked .listEnd K) (h : Laid K o Γ Ξ) : Laid K o (.node :: Γ) Ξ := by
  match K with
  | .listEnd _ :: K => exact Over.cons h

/-- So may the bindings of a record. -/
theorem Laid.cons_binding (hK : Stacked .recordEnd K) (h : Laid K o Γ Ξ) : Laid K o (.node :: Γ) Ξ := by
  match K with
  | .recordEnd _ _ :: K => exact Over.cons h

/-! ### The innermost scope -/

/-- The innermost scope is thrown away when its construct ends, and what is defined in it with it. -/
def discards : List Cont → Bool
  | [] => false
  | c :: K =>
    match c with
    | .lambdaColon _ | .lambdaEnd _ | .ofEnd => true
    | .letEqual .. | .letBody .. => false
    | _ => discards K

theorem Laid.discards (h : Laid K o Γ Ξ) (ho : o.Discards) : discards K = true := by
  induction K generalizing Γ with
  | nil =>
    cases o with
    | globals => cases ho
    | _ => exact h.1.elim
  | cons c K ih =>
    cases c with
    | lambdaColon | lambdaEnd | ofEnd => rfl
    | letEqual | letBody =>
      obtain ⟨rfl, -⟩ := h
      cases ho
    | program => exact ih h.2
    | exprs | exprsNext | exprsAfterDot | listEnd | recordEnd =>
      obtain ⟨_, _, -, -, h⟩ := h
      exact ih h
    | expr | operand | primary | letName | params | elements | elementNext | bindings | bindingColon
    | ofColon =>
      obtain ⟨Γ, hK⟩ : ∃ Γ, Laid K o Γ Ξ := ⟨_, h⟩
      exact ih hK
    | pattern => exact ih h.1
    | paramList =>
      obtain ⟨_, -, _, _, -, -, h⟩ := h
      exact ih h
    | binary =>
      obtain ⟨-, _, -, h⟩ := h
      exact ih h
    | negate | parenEnd | bindingNext =>
      obtain ⟨_, -, h⟩ := h
      exact ih h
    | caseClauses =>
      obtain ⟨_, _, -, -, h⟩ := h
      exact ih h
    | ifThen | ifElse | ifEnd =>
      obtain ⟨_, -, -, h⟩ := h
      exact ih h

end

/-! ### Parse states -/

section

variable {M Op : String → Prop} {l : Level} {ls : List Level} {s : Parsed} {slot : Slot} {base n : Nat}
  {Γ : List Slot} {parts : List (Slot × NodeId)} {ids rest : List NodeId} {K : List Cont}

/-- The levels with their operands. -/
structure Leveled (M Op : String → Prop) (l : Level) (ls : List Level) (s : Parsed) : Prop
    extends Standing M Op (l :: ls) s where
  operands : s.operands = operandsOf (l :: ls)

/-- The positions find what they need on the levels that they take it from. -/
def InScope (M Op : String → Prop) (K : List Cont) (s : Parsed) : Prop :=
  ∃ l ls, Laid K l.owner (l.parts.map Prod.fst) (ls.map Level.row) ∧ Leveled M Op l ls s

theorem operandCount_eq : operandCount (ls.map Level.row) = (operandsOf ls).length := by
  induction ls with
  | nil => rfl
  | cons l ls ih =>
    have hcons : operandCount (l.row :: ls.map Level.row) = l.parts.length + operandCount (ls.map Level.row) := by
      simp [operandCount, Level.row]
    rw [List.map_cons, hcons, ih, operandsOf, List.length_append, List.length_map]

theorem length_operandsOf {owner : Owner} {scope : Scope} : (operandsOf (⟨owner, scope, parts⟩ :: ls)).length =
    (parts.map Prod.fst).length + operandCount (ls.map Level.row) := by
  rw [operandsOf, operandCount_eq]
  simp

theorem operandsOf_append {owner : Owner} {scope : Scope} {ids : List NodeId} :
    operandsOf (⟨owner, scope, ids.map (Prod.mk slot) ++ parts⟩ :: ls) =
      ids ++ operandsOf (⟨owner, scope, parts⟩ :: ls) := by
  rw [operandsOf, operandsOf, List.map_append, List.append_assoc, List.map_map]
  congr 1
  exact List.map_id ids

theorem parts_of_replicate (h : parts.map Prod.fst = List.replicate n slot ++ Γ) :
    ∃ (ids : List NodeId) (rest : _), parts = ids.map (Prod.mk slot) ++ rest ∧ rest.map Prod.fst = Γ ∧ ids.length = n := by
  induction n generalizing parts with
  | zero => exact ⟨[], parts, rfl, h, rfl⟩
  | succ n ih =>
    cases parts with
    | nil => cases h
    | cons q parts =>
      obtain ⟨hq, h⟩ := List.cons.inj h
      obtain ⟨ids, rest, rfl, hrest, rfl⟩ := ih h
      exact ⟨q.2 :: ids, rest, by rw [← hq]; rfl, hrest, rfl⟩

/-! ### Operands that are taken -/

namespace ParseM

variable {E : Error → Parsed → Prop} {id : NodeId}

theorem ensures_pop_cons {Q : NodeId → Parsed → Prop} (h : s.operands = id :: rest) :
    Ensures pop Q E s ↔ Q id { s with operands := rest } := by
  rw [ensures_pop, h]

theorem ensures_drainFrom_append {Q : List NodeId → Parsed → Prop} (h : s.operands = ids ++ rest)
    (hb : base = rest.length) :
    Ensures (drainFrom base) Q E s ↔ Q ids.reverse { s with operands := rest } := by
  rw [ensures_drainFrom, h, List.length_append, hb, Nat.add_sub_cancel, List.take_left, List.drop_left]

end ParseM

end

end Linefold
