import Linefold.Proofs.Arithmetic.Computed

/-!
# Numbers that a fold comes to

`Machine.Settles m t x`: carried out by `m`, the task does nothing but leave one more value, which is the
number `x` seen through groups of one. So it is with every tree in which arithmetic comes to a number
(`settles_of_denotes`): the fold finds the number that the parser would have left.
-/

namespace Linefold

attribute [local irreducible] Pool.intern

namespace OperandStack

variable {s : OperandStack} {v : NodeId}

theorem pop_push (h : s.Nested) : (s.push v).pop = (some v, s) := by
  have hlt : (s.push v).base < (s.push v).items.size := by
    have hbase : (s.push v).base ≤ s.items.size := h.base_le
    simp only [push, Array.size_push]
    exact Nat.lt_succ_of_le hbase
  unfold pop
  rw [if_pos hlt]
  simp [push]

theorem closeFrame_push : (s.openFrame.push v).closeFrame = ([v], s) := by
  simp [openFrame, push, closeFrame, base]

end OperandStack

namespace Machine

variable {m m' : Machine} {t u : Task} {p q : Pool} {s : OperandStack} {i e f v w : NodeId} {x y z : Number}
  {tag : Tag} {a b : Tree} {new : List Task}

/-! ### Tasks that leave a value -/

/-- The task ends with one value more, whatever waits behind it. -/
structure Leaves (m : Machine) (t : Task) (p : Pool) (v : NodeId) : Prop where
  grows : m.pool.Extends p
  run : ∀ ts, m.run (t :: ts) = Machine.run ⟨⟨p, m.values.stack.push v⟩, m.env, m.budget⟩ ts

/-- The value denotes the number that `b` denotes, and is this number itself if `b` is. -/
def Settles (m : Machine) (t : Task) (b : Tree) (x : Number) : Prop :=
  ∃ p v a, m.Leaves t p v ∧ p.tree? v = some a ∧ a.Denotes x ∧ (b = .num x → a = .num x)

/-- A machine with a new frame. -/
def opened (m : Machine) : Machine := ⟨⟨m.pool, m.values.stack.openFrame⟩, m.env, m.budget⟩

theorem settles_num (h : m.pool.get? i = some (.num x)) : m.Settles (.visit i) b x := by
  have hstep : m.resume (.visit i) = .ok [] ⟨⟨m.pool, m.values.stack.push i⟩, m.env, m.budget⟩ := by
    simp only [resume, visit, h]
    rfl
  exact ⟨m.pool, i, .num x, ⟨.refl _, run_of_resume hstep⟩, Pool.tree?_eq_num_iff.2 h, .num x, fun _ => rfl⟩

theorem settles_exprs (h : m.pool.get? i = some (.branch .exprs [e])) (he : m.Settles (.visit e) b x) :
    m.Settles (.visit i) (.node tag [b]) x := by
  obtain ⟨p, v, a, hv, ha, hx, -⟩ := he
  have hstep : m.resume (.visit i) = .ok [.visit e] m := by
    simp only [resume, visit, h]
    rfl
  exact ⟨p, v, a, ⟨hv.grows, fun ts => (run_of_resume hstep ts).trans (hv.run ts)⟩, ha, hx, fun h => by cases h⟩

theorem settles_paren (h : m.pool.get? i = some (.branch .paren [e])) (he : m.opened.Settles (.visit e) b x) :
    m.Settles (.visit i) (.node tag [b]) x := by
  obtain ⟨p, v, a, hv, ha, hx, -⟩ := he
  have hopen : m.resume (.visit i) = .ok [.visit e, .reduce (.close .paren)] m.opened := by
    simp only [resume, visit, h]
    rfl
  have hclose : resume ⟨⟨p, m.values.stack.openFrame.push v⟩, m.env, m.budget⟩ (.reduce (.close .paren)) =
      .ok [] ⟨⟨(p.intern (.branch .paren [v])).2, m.values.stack.push (p.intern (.branch .paren [v])).1⟩,
        m.env, m.budget⟩ := by
    simp only [resume, reducing, onValues, Reduction.run, bind, EStateM.bind, ValuesM.closeFrame,
      OperandStack.closeFrame_push, List.reverse_singleton]
    rfl
  have hpaths : p.Extends (p.intern (.branch .paren [v])).2 := p.extends_intern _
  have htree := Pool.tree?_intern_branch (t := .paren) (p := p) (.cons ha .nil)
  refine ⟨_, _, _, ⟨hv.grows.trans hpaths, fun ts => ?_⟩, htree, .group (.inl rfl) hx, fun h => by cases h⟩
  rw [run_of_resume hopen]
  exact (hv.run _).trans (run_of_resume hclose ts)

theorem settles_operand (h : m.opened.Settles (.visit i) b x) : m.Settles (.operand i) b x := by
  obtain ⟨p, v, a, hv, ha, hx, hb⟩ := h
  have hopen : m.resume (.operand i) = .ok [.visit i, .reduce .collect] m.opened := rfl
  have hcollect : resume ⟨⟨p, m.values.stack.openFrame.push v⟩, m.env, m.budget⟩ (.reduce .collect) =
      .ok [] ⟨⟨p, m.values.stack.push v⟩, m.env, m.budget⟩ := by
    simp only [resume, reducing, onValues, Reduction.run, bind, EStateM.bind, ValuesM.closeFrame,
      OperandStack.closeFrame_push, List.reverse_singleton]
    rfl
  refine ⟨p, v, a, ⟨hv.grows, fun ts => ?_⟩, ha, hx, hb⟩
  rw [run_of_resume hopen]
  exact (hv.run _).trans (run_of_resume hcollect ts)

/-! ### Arithmetic -/

theorem leaves_arithmetic (hs : m.values.stack.Nested) (h : m.pool.get? i = some (.branch tag [e, f]))
    (hz : Number.arithmetic? tag x y = some z) (he : m.Settles (.operand e) a x)
    (hf : ∀ n : Machine, n.values.stack.Nested → m.pool.Extends n.pool → n.Settles (.operand f) b y) :
    ∃ p v, m.Leaves (.visit i) p v ∧ p.get? v = some (.num z) := by
  obtain ⟨p, v, c, hv, hc, hx, -⟩ := he
  obtain ⟨q, w, d, hw, hd, hy, -⟩ := hf ⟨⟨p, m.values.stack.push v⟩, m.env, m.budget⟩ (hs.push v) hv.grows
  have hwq : p.Extends q := hw.grows
  have hplan : m.resume (.visit i) = .ok [.operand e, .operand f, .reduce (.arithmetic tag)] m := by
    simp only [resume, visit, h]
    cases tag <;> first | rfl | cases hz
  have hreduce : resume ⟨⟨q, (m.values.stack.push v).push w⟩, m.env, m.budget⟩ (.reduce (.arithmetic tag)) =
      .ok [] ⟨⟨(q.intern (.num z)).2, m.values.stack.push (q.intern (.num z)).1⟩, m.env, m.budget⟩ := by
    have hx : q.number? v = some x := Pool.number?_of_denotes (hwq.tree? hc) hx
    have hy : q.number? w = some y := Pool.number?_of_denotes hd hy
    simp only [resume, reducing, onValues, Reduction.run, ValuesM.popPair, ValuesM.pop, bind, EStateM.bind,
      OperandStack.pop_push (hs.push v), OperandStack.pop_push hs, ValuesM.ask, pure, EStateM.pure, hx, hy,
      Option.bind_some, hz]
    rfl
  refine ⟨_, _, ⟨hv.grows.trans (hwq.trans (q.extends_intern (.num z))), fun ts => ?_⟩,
    Pool.get?_intern (n := .num z) (by simp [Node.elts])⟩
  rw [run_of_resume hplan]
  refine (hv.run _).trans ((hw.run _).trans ?_)
  exact run_of_resume hreduce ts

theorem leaves_negation (hs : m.values.stack.Nested) (h : m.pool.get? i = some (.branch .neg [e]))
    (he : m.Settles (.operand e) a x) : ∃ p v, m.Leaves (.visit i) p v ∧ p.get? v = some (.num x.neg) := by
  obtain ⟨p, v, c, hv, hc, hx, -⟩ := he
  have hplan : m.resume (.visit i) = .ok [.operand e, .reduce .negate] m := by
    simp only [resume, visit, h]
    rfl
  have hreduce : resume ⟨⟨p, m.values.stack.push v⟩, m.env, m.budget⟩ (.reduce .negate) =
      .ok [] ⟨⟨(p.intern (.num x.neg)).2, m.values.stack.push (p.intern (.num x.neg)).1⟩, m.env, m.budget⟩ := by
    have hx : p.number? v = some x := Pool.number?_of_denotes hc hx
    simp only [resume, reducing, onValues, Reduction.run, ValuesM.pop, bind, EStateM.bind,
      OperandStack.pop_push hs, ValuesM.ask, hx]
    rfl
  refine ⟨_, _, ⟨hv.grows.trans (p.extends_intern (.num x.neg)), fun ts => ?_⟩,
    Pool.get?_intern (n := .num x.neg) (by simp [Node.elts])⟩
  rw [run_of_resume hplan]
  exact (hv.run _).trans (run_of_resume hreduce ts)

/-- A fold of a tree comes to the number that the tree denotes once its arithmetic is computed. The induction
is on the node. -/
theorem settles_of_denotes (hs : m.values.stack.Nested) (ha : m.pool.tree? i = some a) (h : a.Computed b)
    (hx : b.Denotes x) : m.Settles (.visit i) b x := by
  induction i using Nat.strongRecOn generalizing m a b x with
  | ind i ih =>
    have hopened {n : Machine} {e : NodeId} {c d : Tree} {x : Number} (he : e < i)
        (hn : n.values.stack.Nested) (hc : n.pool.tree? e = some c) (hcd : c.Computed d) (hd : d.Denotes x) :
        n.opened.Settles (.visit e) d x := ih e he hn.openFrame hc hcd hd
    have hgroup {t : Tag} {c d : Tree} (ht : t = .paren ∨ t = .exprs)
        (hc : m.pool.tree? i = some (.node t [c])) (hcd : c.Computed d) (hd : d.Denotes x) :
        m.Settles (.visit i) (.node t [d]) x := by
      obtain ⟨es, hn, hes⟩ := Pool.tree?_eq_node_iff.1 hc
      rcases hes with _ | ⟨he, _ | _⟩
      have hlt := Pool.lt_of_get?_branch hn (.head _)
      rcases ht with rfl | rfl
      · exact settles_paren hn (hopened hlt hs he hcd hd)
      · exact settles_exprs hn (ih _ hlt hs he hcd hd)
    cases h with
    | refl =>
      cases hx with
      | num x => exact settles_num (Pool.tree?_eq_num_iff.1 ha)
      | group ht hx => exact hgroup ht ha (.refl _) hx
    | node _ hes =>
      cases hx with
      | group ht hx =>
        rcases hes with _ | ⟨hcd, _ | _⟩
        exact hgroup ht ha hcd hx
    | arithmetic hc hd hx' hy hz =>
      cases hx
      obtain ⟨es, hn, hes⟩ := Pool.tree?_eq_node_iff.1 ha
      rcases hes with _ | ⟨he, _ | ⟨hf, _ | _⟩⟩
      have hlt := Pool.lt_of_get?_branch hn (.head _)
      have hlt' := Pool.lt_of_get?_branch hn (.tail _ (.head _))
      obtain ⟨p, v, hv, hz⟩ := leaves_arithmetic hs hn hz (settles_operand (hopened hlt hs he hc hx'))
        fun n hn hmn => settles_operand (hopened hlt' hn (hmn.tree? hf) hd hy)
      exact ⟨p, v, _, hv, Pool.tree?_eq_num_iff.2 hz, .num _, fun _ => rfl⟩
    | negation hc hx' =>
      cases hx
      obtain ⟨es, hn, hes⟩ := Pool.tree?_eq_node_iff.1 ha
      rcases hes with _ | ⟨he, _ | _⟩
      have hlt := Pool.lt_of_get?_branch hn (.head _)
      obtain ⟨p, v, hv, hz⟩ := leaves_negation hs hn (settles_operand (hopened hlt hs he hc hx'))
      exact ⟨p, v, _, hv, Pool.tree?_eq_num_iff.2 hz, .num _, fun _ => rfl⟩
    | _ => rcases hx with _ | ⟨ht | ht, _⟩ <;> cases ht

end Machine

end Linefold
