import Linefold.Proofs.Evaluation.Evaluator
import Linefold.Proofs.Repetition.Values

/-!
# Values seen through groups

`T.Seen x v w`: the values are the same in the two pools, exactly or else through groups. What a literal is, what a number is
and whether a value is ground does not depend on the groups around it. An operator that comes to a ground node comes to a
literal, and its operands are ground.
-/

namespace Linefold

namespace Pool

variable {p q : Pool} {i c : NodeId} {es : List NodeId} {t : Tag}

theorem isGround_of_group (h : p.get? i = some (.branch t [c])) (ht : t = .paren ∨ t = .exprs) :
    p.isGround i = p.isGround c := by
  rw [isGround_of_branch h]
  rcases ht with rfl | rfl <;> simp [groundParts?]

theorem isGround_unwrapGroup : p.isGround (p.unwrapGroup i) = p.isGround i := by
  induction i using Nat.strongRecOn with
  | ind i ih =>
    by_cases hgroup : ∃ t c, p.get? i = some (.branch t [c]) ∧ (t = .paren ∨ t = .exprs)
    · obtain ⟨t, c, hi, ht⟩ := hgroup
      rw [unwrapGroup_of_group hi ht, isGround_of_group hi ht]
      exact ih c (lt_of_get?_branch hi (.head _))
    · rw [unwrapGroup_eq_self fun t c hi ht => hgroup ⟨t, c, hi, ht⟩]

theorem le_size_of_unwrapGroup (h : p.unwrapGroup i ≤ p.size) : i ≤ p.size := by
  by_contra hlt
  have hnone : p.get? i = none := by
    rw [Option.eq_none_iff_forall_ne_some]
    exact fun n hn => hlt (le_size_of_get? hn)
  rw [unwrapGroup_eq_self (by simp [hnone])] at h
  exact hlt h

theorem unwrapGroup_eq_of_extends (hpq : p.Extends q) (h : i ≤ p.size) : q.unwrapGroup i = p.unwrapGroup i :=
  unwrapGroup_grown hpq (Twin.alike_of_le (.refl _) h)

theorem isGround_of_extends (hpq : p.Extends q) (h : p.isGround i) : q.isGround i := by
  have hi : i ≤ p.size := by
    by_contra hlt
    rw [isGround_of_none (Option.eq_none_iff_forall_ne_some.2 fun n hn => hlt (le_size_of_get? hn))] at h
    cases h
  have halike : Twin.Alike ⟨p, q⟩ i i := Twin.alike_of_le ⟨.refl _, hpq⟩ hi
  exact halike.isGround_eq ▸ h

theorem isGround_of_within {c : NodeId} (h : q.isGround (if c ≤ p.size then c else 0)) : q.isGround c := by
  split at h
  · exact h
  · rw [isGround_of_none rfl] at h
    cases h

/-- The children of a ground node are ground. -/
theorem isGround_of_intern (ht : t ∈ [.list, .record, .paren]) (hpq : (p.intern (.branch t es)).2.Extends q)
    (h : q.isGround (p.intern (.branch t es)).1) : ∀ e ∈ es, q.isGround e := by
  intro e he
  have hn : q.get? (p.intern (.branch t es)).1 = some (.branch t (es.map fun c => if c ≤ p.size then c else 0)) :=
    hpq _ _ (p.get?_intern_within _)
  have hall : (es.map fun c => if c ≤ p.size then c else 0).all q.isGround := by
    rw [isGround_of_branch hn] at h
    simp only [List.mem_cons, List.not_mem_nil, or_false] at ht
    rcases ht with rfl | rfl | rfl <;> simpa [groundParts?] using h
  exact isGround_of_within (List.all_eq_true.1 hall _ (List.mem_map_of_mem he))

theorem isGround_of_intern_binding {k v : NodeId} (hpq : (p.intern (.branch .binding [k, v])).2.Extends q)
    (h : q.isGround (p.intern (.branch .binding [k, v])).1) : q.isGround v := by
  have hn : q.get? (p.intern (.branch .binding [k, v])).1 = some (.branch .binding [_, if v ≤ p.size then v else 0]) :=
    hpq _ _ (p.get?_intern_within _)
  rw [isGround_of_branch hn] at h
  exact isGround_of_within (List.all_eq_true.1 h _ (.head _))

theorem isGround_of_number? {x : Number} (h : p.number? i = some x) : p.isGround i := by
  obtain ⟨n, hn, hx⟩ := Option.bind_eq_some_iff.1 h
  rw [← isGround_unwrapGroup]
  cases n <;> cases hx
  exact isGround_of_leaf hn nofun

theorem isGround_of_literal? {x : Literal} (h : p.literal? i = some x) : p.isGround i := by
  obtain ⟨n, hn, hx⟩ := Option.bind_eq_some_iff.1 h
  rw [← isGround_unwrapGroup]
  cases n <;> cases hx
  all_goals exact isGround_of_leaf hn nofun

/-- The outcome of an operator, by what its operands are. -/
def operatorResult? (t : Tag) (a b : Option Literal) (x y : Option Number) : Option Node :=
  match t with
  | .concat => do return .str ((← a).toText ++ (← b).toText)
  | .eq | .ne | .lt | .gt | .le | .ge => do return .bool (← Literal.compare? t (← a) (← b))
  | _ => do return .num (← Number.arithmetic? t (← x) (← y))

theorem operatorNode_eq {a b : NodeId} : p.operatorNode t a b =
    (operatorResult? t (p.literal? a) (p.literal? b) (p.number? a) (p.number? b)).getD (.branch t [a, b]) := by
  cases t <;> rfl

theorem isLiteral_of_operatorResult? {n : Node} {a b : Option Literal} {x y : Option Number}
    (h : operatorResult? t a b x y = some n) : n.isLiteral ∧ (a.isSome ∧ b.isSome ∨ x.isSome ∧ y.isSome) := by
  have hpair {α β : Type} {a b : Option α} {f : α → α → Option β} {z : β} (h : (do f (← a) (← b)) = some z) :
      a.isSome ∧ b.isSome := by
    cases a with
    | none => cases h
    | some a =>
      cases b with
      | none => cases h
      | some b => exact ⟨rfl, rfl⟩
  cases t with
  | concat => exact ⟨Node.isLiteral_of_concat h, .inl (hpair h)⟩
  | eq | ne | lt | gt | le | ge => exact ⟨Node.isLiteral_of_compare h, .inl (hpair h)⟩
  | _ => exact ⟨Node.isLiteral_of_arithmetic h, .inr (hpair h)⟩

theorem groundParts?_operator (ht : t.isOperator) : groundParts? t es = none := by
  cases t <;> first | rfl | cases ht

/-- An operator that comes to a ground node comes to a literal, and its operands are ground. -/
theorem isGround_of_operatorNode {a b : NodeId} (ht : t.isOperator) (hpq : (p.intern (p.operatorNode t a b)).2.Extends q)
    (h : q.isGround (p.intern (p.operatorNode t a b)).1) : ∃ n,
      operatorResult? t (p.literal? a) (p.literal? b) (p.number? a) (p.number? b) = some n ∧ p.isGround a ∧ p.isGround b := by
  rw [operatorNode_eq] at hpq h
  cases hresult : operatorResult? t (p.literal? a) (p.literal? b) (p.number? a) (p.number? b) with
  | none =>
    simp only [hresult, Option.getD_none] at hpq h
    have hn : q.get? (p.intern (.branch t [a, b])).1 = some (.branch t _) := hpq _ _ (p.get?_intern_within _)
    rw [isGround_of_branch hn, groundParts?_operator ht] at h
    cases h
  | some n =>
    refine ⟨n, rfl, ?_⟩
    rcases (isLiteral_of_operatorResult? hresult).2 with ⟨ha, hb⟩ | ⟨ha, hb⟩
    · obtain ⟨x, hx⟩ := Option.isSome_iff_exists.1 ha
      obtain ⟨y, hy⟩ := Option.isSome_iff_exists.1 hb
      exact ⟨isGround_of_literal? hx, isGround_of_literal? hy⟩
    · obtain ⟨x, hx⟩ := Option.isSome_iff_exists.1 ha
      obtain ⟨y, hy⟩ := Option.isSome_iff_exists.1 hb
      exact ⟨isGround_of_number? hx, isGround_of_number? hy⟩

/-- So it is with the negation. -/
theorem isGround_of_negationNode {a : NodeId} (hpq : (p.intern (p.negationNode a)).2.Extends q)
    (h : q.isGround (p.intern (p.negationNode a)).1) : ∃ x, p.number? a = some x := by
  cases hx : p.number? a with
  | none =>
    simp only [negationNode, hx] at hpq h
    have hn : q.get? (p.intern (.branch .neg [a])).1 = some (.branch .neg _) := hpq _ _ (p.get?_intern_within _)
    rw [isGround_of_branch hn] at h
    cases h
  | some x => exact ⟨x, rfl⟩

end Pool

namespace Twin

variable {T U : Twin} {v w : NodeId} {x : Bool} {t : Tag}

/-- The two values are the same, exactly or else through groups. -/
def Seen (T : Twin) : Bool → NodeId → NodeId → Prop
  | true, v, w => T.Alike v w
  | false, v, w => T.Alike (T.left.unwrapGroup v) (T.right.unwrapGroup w)

theorem Seen.groups (h : T.Seen x v w) : T.Alike (T.left.unwrapGroup v) (T.right.unwrapGroup w) := by
  cases x with
  | true => exact Alike.unwrapGroup h
  | false => exact h

theorem Alike.seen (h : T.Alike v w) : T.Seen x v w := by
  cases x with
  | true => exact h
  | false => exact h.unwrapGroup

theorem Seen.mono (h : T.Seen x v w) (hTU : T.Grows U) : U.Seen x v w := by
  cases x with
  | true => exact Alike.mono h hTU
  | false =>
    have hleft := Pool.unwrapGroup_eq_of_extends hTU.1 (Pool.le_size_of_unwrapGroup h.groups.le_left)
    have hright := Pool.unwrapGroup_eq_of_extends hTU.2 (Pool.le_size_of_unwrapGroup h.groups.le_right)
    rw [Seen, hleft, hright]
    exact Alike.mono h.groups hTU

theorem Seen.literal?_eq (h : T.Seen x v w) : T.left.literal? v = T.right.literal? w := by
  have hrel := h.groups.get?_rel
  rw [Pool.literal?, Pool.literal?]
  generalize T.left.get? _ = n, T.right.get? _ = n' at hrel
  cases hrel with
  | none => rfl
  | some h => exact h.literal?_eq

theorem Seen.number?_eq (h : T.Seen x v w) : T.left.number? v = T.right.number? w := by
  have hrel := h.groups.get?_rel
  rw [Pool.number?, Pool.number?]
  generalize T.left.get? _ = n, T.right.get? _ = n' at hrel
  cases hrel with
  | none => rfl
  | some h => exact h.number?_eq

theorem Seen.isGround_eq (h : T.Seen x v w) : T.left.isGround v = T.right.isGround w := by
  rw [← Pool.isGround_unwrapGroup, ← Pool.isGround_unwrapGroup (i := w)]
  exact h.groups.isGround_eq

theorem seen_intern_left (ht : t = .paren ∨ t = .exprs) (h : T.Seen false v w) :
    Seen ⟨(T.left.intern (.branch t [v])).2, T.right⟩ false (T.left.intern (.branch t [v])).1 w := by
  have hgrows : T.Grows ⟨(T.left.intern (.branch t [v])).2, T.right⟩ := ⟨T.left.extends_intern _, .refl _⟩
  have hv := Pool.le_size_of_unwrapGroup h.groups.le_left
  have hn := Pool.get?_intern (p := T.left) (n := .branch t [v]) (List.forall_mem_singleton.2 hv)
  rw [Seen, Pool.unwrapGroup_of_group hn ht]
  exact Seen.mono h hgrows

theorem seen_intern_right (ht : t = .paren ∨ t = .exprs) (h : T.Seen false v w) :
    Seen ⟨T.left, (T.right.intern (.branch t [w])).2⟩ false v (T.right.intern (.branch t [w])).1 := by
  have hgrows : T.Grows ⟨T.left, (T.right.intern (.branch t [w])).2⟩ := ⟨.refl _, T.right.extends_intern _⟩
  have hw := Pool.le_size_of_unwrapGroup h.groups.le_right
  have hn := Pool.get?_intern (p := T.right) (n := .branch t [w]) (List.forall_mem_singleton.2 hw)
  rw [Seen, Pool.unwrapGroup_of_group hn ht]
  exact Seen.mono h hgrows

end Twin

end Linefold
