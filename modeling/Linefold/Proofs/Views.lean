import Linefold.Folder.Pattern

/-!
# Views of a node

What the tree, the group, the pattern and the groundness of a node are, in terms of the node that is
found under its id.
-/

namespace Linefold.Pool

variable {p : Pool} {id c : NodeId} {n : Node} {t : Tag} {es : List NodeId} {name : String}

/-! ### Trees -/

theorem tree?_of_none (h : p.get? id = none) : p.tree? id = none := by
  unfold tree?
  split <;> simp_all

theorem tree?_of_branch (h : p.get? id = some (.branch t es)) :
    p.tree? id = (es.mapM p.tree?).map (Tree.node t) := by
  unfold tree?
  split <;> rename_i heq <;> rw [h] at heq <;> cases heq
  simp

/-- The tree of a leaf. -/
def leafTree? : Node → Option Tree
  | .num x => some (.num x)
  | .str s => some (.str s)
  | .ident s => some (.ident s)
  | .bool b => some (.bool b)
  | .null => some .null
  | .branch _ _ => none

theorem tree?_of_leaf (h : p.get? id = some n) (hn : ∀ t es, n ≠ .branch t es) :
    p.tree? id = leafTree? n := by
  unfold tree?
  split <;> rename_i heq <;> rw [h] at heq <;> cases heq
  any_goals rfl
  next t es => exact absurd rfl (hn t es)

/-! ### Groups -/

theorem unwrapGroup_of_group (h : p.get? id = some (.branch t [c])) (ht : t = .paren ∨ t = .exprs) :
    p.unwrapGroup id = p.unwrapGroup c := by
  rw [unwrapGroup]
  rcases ht with rfl | rfl
  all_goals split <;> rename_i heq <;> rw [h] at heq <;> simp_all

theorem unwrapGroup_eq_self
    (h : ∀ t c, p.get? id = some (.branch t [c]) → ¬(t = .paren ∨ t = .exprs)) :
    p.unwrapGroup id = id := by
  unfold unwrapGroup
  split
  · next c heq => exact absurd (.inl rfl) (h _ _ heq)
  · next c heq => exact absurd (.inr rfl) (h _ _ heq)
  · rfl

/-! ### Patterns -/

theorem pattern_of_none (h : p.get? id = none) : p.pattern id = .faulty (.missingNode id) := by
  unfold pattern
  split <;> simp_all

theorem pattern_of_ident (h : p.get? id = some (.ident name)) : p.pattern id = .name id name := by
  unfold pattern
  split <;> rename_i heq <;> rw [h] at heq <;> cases heq
  · rfl
  · next hne _ => exact absurd rfl (hne name)

theorem pattern_of_list (h : p.get? id = some (.branch .list es)) :
    p.pattern id = .list (es.map p.pattern) := by
  unfold pattern
  split <;> rename_i heq <;> rw [h] at heq <;> cases heq
  · exact congrArg Pattern.list (by simp)
  · next hne => exact absurd rfl (hne es)

theorem pattern_of_ne (h : p.get? id = some n) (hname : ∀ s, n ≠ .ident s)
    (hlist : ∀ es, n ≠ .branch .list es) : p.pattern id = .faulty .malformedPattern := by
  unfold pattern
  split <;> rename_i heq <;> rw [h] at heq <;> cases heq
  · next s => exact absurd rfl (hname s)
  · next es => exact absurd rfl (hlist es)

/-! ### Ground nodes -/

theorem isGround_of_none (h : p.get? id = none) : p.isGround id = false := by
  unfold isGround
  split <;> simp_all

theorem isGround_of_leaf (h : p.get? id = some n) (hn : ∀ t es, n ≠ .branch t es) :
    p.isGround id = n.isLiteral := by
  unfold isGround
  split <;> rename_i heq <;> rw [h] at heq <;> cases heq
  · next t es => exact absurd rfl (hn t es)
  · rfl

/-- The children that have to be ground for a node to be ground; none if it cannot be. -/
def groundParts? (t : Tag) (es : List NodeId) : Option (List NodeId) :=
  match t with
  | .list | .record | .paren | .exprs => some es
  | .binding =>
    match es with
    | [_, v] => some [v]
    | _ => none
  | _ => none

theorem isGround_of_branch (h : p.get? id = some (.branch t es)) :
    p.isGround id = (groundParts? t es).any (·.all p.isGround) := by
  rw [isGround]
  split <;> rename_i heq <;> rw [h] at heq <;> cases heq
  · cases t
    case binding =>
      rcases es with _ | ⟨k, _ | ⟨v, _ | ⟨w, es⟩⟩⟩
      all_goals simp [groundParts?]
    all_goals simp [groundParts?]
  · next hne => exact absurd rfl (hne t es)

end Linefold.Pool

/-! ### Results of operators -/

namespace Linefold.Node

variable {t : Tag} {n : Node}

theorem elts_of_isLiteral (h : n.isLiteral) : n.elts = [] := by
  cases n <;> first | rfl | cases h

theorem ne_of_isLiteral (h : n.isLiteral) : (∀ x, n ≠ .ident x) ∧ ∀ t es, n ≠ .branch t es := by
  cases n with
  | ident | branch => cases h
  | _ => simp

theorem isLiteral_of_arithmetic {x y : Option Number}
    (h : (do return Node.num (← Number.arithmetic? t (← x) (← y)) : Option Node) = some n) :
    n.isLiteral := by
  obtain ⟨a, -, h⟩ := Option.bind_eq_some_iff.1 h
  obtain ⟨b, -, h⟩ := Option.bind_eq_some_iff.1 h
  obtain ⟨z, -, h⟩ := Option.bind_eq_some_iff.1 h
  cases h
  rfl

theorem isLiteral_of_concat {x y : Option Literal}
    (h : (do return Node.str ((← x).toText ++ (← y).toText) : Option Node) = some n) : n.isLiteral := by
  obtain ⟨a, -, h⟩ := Option.bind_eq_some_iff.1 h
  obtain ⟨b, -, h⟩ := Option.bind_eq_some_iff.1 h
  cases h
  rfl

theorem isLiteral_of_compare {x y : Option Literal}
    (h : (do return Node.bool (← Literal.compare? t (← x) (← y)) : Option Node) = some n) :
    n.isLiteral := by
  obtain ⟨a, -, h⟩ := Option.bind_eq_some_iff.1 h
  obtain ⟨b, -, h⟩ := Option.bind_eq_some_iff.1 h
  obtain ⟨z, -, h⟩ := Option.bind_eq_some_iff.1 h
  cases h
  rfl

end Linefold.Node
