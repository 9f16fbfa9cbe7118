import Linefold.Proofs.Arithmetic.Values
import Linefold.Proofs.Twins.Folding
import Linefold.Proofs.Words

/-!
# Folding computed trees

A fold does not see whether arithmetic on numbers was computed before (`Machine.fold_computed`). Where one
tree has an operator and the other its value, the first fold takes some steps to the value that the second
one finds; everywhere else the two take the same steps.
-/

namespace Linefold

attribute [local irreducible] Pool.intern

/-! ### Visits -/

namespace Machine

variable {m n : Machine} {i j : NodeId} {a b : Tree}

theorem carried_of_num {z : Number} (h : m.Alike n) (hi : m.pool.tree? i = some a)
    (hj : n.pool.tree? j = some (.num z)) (hab : a.Computed (.num z)) :
    Carried Twin.Computed m n (.visit i) (.visit j) := by
  obtain ⟨p, v, c, hv, hc, -, hz⟩ := settles_of_denotes h.stack.nested hi hab (.num z)
  have hc := hz rfl ▸ hc
  have hj := Pool.tree?_eq_num_iff.1 hj
  have hstep : n.resume (.visit j) = .ok [] ⟨⟨n.pool, n.values.stack.push j⟩, n.env, n.budget⟩ := by
    simp only [resume, visit, hj]
    rfl
  have hgrows : (m.twin n).Grows ⟨p, n.pool⟩ := ⟨hv.grows, .refl _⟩
  have hvalue : Twin.Alike ⟨p, n.pool⟩ v j := .node (Pool.tree?_eq_num_iff.1 hc) hj (.num z)
  exact .done hv.run hstep hgrows ⟨(h.stack.mono hgrows).push hvalue, h.env.mono hgrows, h.budget⟩

theorem carried_of_trees (h : m.Alike n) (hi : m.pool.tree? i = some a) (hj : n.pool.tree? j = some b)
    (hab : a.Computed b) : Carried Twin.Computed m n (.visit i) (.visit j) := by
  have hi' : (m.twin n).left.tree? i = some a := hi
  have hj' : (m.twin n).right.tree? j = some b := hj
  cases hab with
  | refl => exact .steps (h.visit (Twin.alike_of_tree? hi' hj'))
  | arithmetic ha hb hx hy hz => exact carried_of_num h hi hj (.arithmetic ha hb hx hy hz)
  | negation ha hx => exact carried_of_num h hi hj (.negation ha hx)
  | node ht hes =>
    obtain ⟨es, hn, hes'⟩ := Pool.tree?_eq_node_iff.1 hi'
    obtain ⟨fs, hm, hfs'⟩ := Pool.tree?_eq_node_iff.1 hj'
    have hparts := Twin.forall₂_computed hes' hfs' hes
    exact .steps (h.visit_branch hn hm ht.2.1 (.all ⟨ht.1, ht.2.2.1⟩ hparts))
  | entry ha =>
    obtain ⟨es, hn, hes⟩ := Pool.tree?_eq_node_iff.1 hi'
    obtain ⟨fs, hm, hfs⟩ := Pool.tree?_eq_node_iff.1 hj'
    rcases hes with _ | ⟨hk, _ | ⟨hv, _ | _⟩⟩
    rcases hfs with _ | ⟨hk', _ | ⟨hv', _ | _⟩⟩
    exact .steps (h.visit_branch hn hm (by decide) (.entry (Twin.alike_of_tree? hk hk') (.trees hv hv' ha)))
  | lambda ha =>
    obtain ⟨es, hn, hes⟩ := Pool.tree?_eq_node_iff.1 hi'
    obtain ⟨fs, hm, hfs⟩ := Pool.tree?_eq_node_iff.1 hj'
    rcases hes with _ | ⟨hx, _ | ⟨hb, _ | ⟨hc, _ | _⟩⟩⟩
    rcases hfs with _ | ⟨hx', _ | ⟨hb', _ | ⟨hc', _ | _⟩⟩⟩
    exact .steps (h.visit_lambda hn hm (.trees hb hb' ha) (Twin.alike_of_tree? hc hc'))
  | case ha hof hcs =>
    obtain ⟨es, hn, hes⟩ := Pool.tree?_eq_node_iff.1 hi'
    obtain ⟨fs, hm, hfs⟩ := Pool.tree?_eq_node_iff.1 hj'
    rcases hes with _ | ⟨hs, hes⟩
    rcases hfs with _ | ⟨hs', hfs⟩
    have hclauses := Twin.forall₂_clauses_of_computed hes hfs hcs hof
    exact .steps (h.visit_branch hn hm (by decide) (.case (.trees hs hs' ha) hclauses))
  | clause ha hb =>
    obtain ⟨es, hn, hes⟩ := Pool.tree?_eq_node_iff.1 hi'
    obtain ⟨fs, hm, hfs⟩ := Pool.tree?_eq_node_iff.1 hj'
    have hparts := Twin.forall₂_computed hes hfs (.cons ha (.cons hb .nil))
    exact .steps (h.visit_branch hn hm (by decide) (.all (by decide) hparts))
  | binder ha hb =>
    obtain ⟨es, hn, hes⟩ := Pool.tree?_eq_node_iff.1 hi'
    obtain ⟨fs, hm, hfs⟩ := Pool.tree?_eq_node_iff.1 hj'
    have hparts := Twin.forall₂_computed hes hfs (.cons ha (.cons hb (.cons (.refl _) .nil)))
    exact .steps (h.visit_branch hn hm (by decide) (.all (by decide) hparts))

theorem visitsRelated_computed : VisitsRelated Twin.Computed := by
  intro m n i j h hij
  cases hij with
  | alike hij => exact .steps (h.visit hij)
  | trees hi hj hab => exact carried_of_trees h hi hj hab

end Machine

/-- The nodes that a word and the words that it carries with it refer to are in the pool, or absent. -/
inductive Word.Held (p : Pool) : Word → Prop where
  | intro {w : Word} (nid : w.nid ≤ p.size) (patterns : ∀ i ∈ w.patterns, i ≤ p.size)
      (pattern : ∀ c, w.closure = some c → ∀ i ∈ c.pattern, i ≤ p.size)
      (carried : ∀ c, w.closure = some c → ∀ nw ∈ c.lexicon, Held p nw.2) : Held p w

section

variable {p : Pool} {T : Twin} {i : NodeId} {is : List NodeId} {w : Word} {l : Lexicon} {e : Environment}

theorem Lexicon.alike_of_all (h : ∀ nw ∈ l, Word.Alike T nw.2 nw.2) : l.Alike T l := by
  induction l with
  | nil => exact .nil
  | cons nw l ih =>
    obtain ⟨hw, hl⟩ := List.forall_mem_cons.1 h
    exact .cons hw (ih hl)

theorem Word.Held.alike (h : w.Held p) (hT : Twin.Grows ⟨p, p⟩ T) : w.Alike T w := by
  induction h with
  | @intro w nid patterns pattern carried ih =>
    have hall {is : List NodeId} (his : ∀ i ∈ is, i ≤ p.size) : List.Forall₂ T.Alike is is :=
      List.forall₂_same.2 fun i hi => Twin.alike_of_le hT (his i hi)
    refine .intro ⟨rfl, rfl, rfl, Twin.alike_of_le hT nid, rfl, hall patterns⟩ ?_
    cases hc : w.closure with
    | none => exact .none
    | some c => exact .some (Lexicon.alike_of_all (ih c hc)) rfl (hall (pattern c hc))

theorem Environment.alike_of_held (h : e.All fun _ w => w.Held p) (hT : Twin.Grows ⟨p, p⟩ T) :
    e.Alike T e :=
  ⟨List.forall₂_same.2 fun sc hsc => ⟨rfl, Lexicon.alike_of_all fun nw hnw => (h.inner sc hsc nw hnw).alike hT⟩,
    ⟨rfl, Lexicon.alike_of_all fun nw hnw => (h.globals nw hnw).alike hT⟩, rfl⟩

end

/-! ### Folds -/

namespace Machine

/-- Whether arithmetic was computed in a tree before it is interned does not matter to its fold, in any pool
and any environment over it: the results denote one tree, or the errors are the same. -/
theorem fold_computed {p : Pool} {e : Environment} {a b : Tree} (he : e.All fun _ w => w.Held p)
    (h : a.Computed b) :
    match (ofPool (p.internTree a).2 e).fold (p.internTree a).1,
      (ofPool (p.internTree b).2 e).fold (p.internTree b).1 with
    | .ok i m, .ok j n => (m.twin n).Alike i j ∧ m.pool.tree? i = n.pool.tree? j
    | .error err _, .error err' _ => err.bare = err'.bare
    | _, _ => False := by
  have hT : Twin.Grows ⟨p, p⟩ ⟨(p.internTree a).2, (p.internTree b).2⟩ :=
    ⟨p.extends_internTree a, p.extends_internTree b⟩
  have hmachines : (ofPool (p.internTree a).2 e).Alike (ofPool (p.internTree b).2 e) :=
    ⟨.empty, Environment.alike_of_held he hT, rfl⟩
  have hfold := hmachines.fold_of visitsRelated_computed
    (.trees (p.tree?_internTree a) (p.tree?_internTree b) h)
  unfold Corresponds at hfold
  split at hfold
  · next hi hj =>
    rw [hi, hj]
    exact ⟨hfold.2.2, hfold.2.2.tree?_eq⟩
  · next hi hj =>
    rw [hi, hj]
    exact hfold.2.2
  · exact hfold.elim

theorem held_operator {p : Pool} {name : String} {t : Tag} : (Word.operator name t).Held p :=
  .intro (Nat.zero_le _) nofun nofun nofun

/-- The list of `1 + 2` and `x` folds as the list of the sum and `x`. -/
theorem fold_sumInList :
    let one : Number := .ofInt 1
    let two : Number := .ofInt 2
    let a : Tree := .node .list [.node .add [.num one, .num two], .ident "x"]
    let b : Tree := .node .list [.num (one.add two), .ident "x"]
    match (ofPool (Pool.empty.internTree a).2 .initial).fold (Pool.empty.internTree a).1,
      (ofPool (Pool.empty.internTree b).2 .initial).fold (Pool.empty.internTree b).1 with
    | .ok i m, .ok j n => (m.twin n).Alike i j ∧ m.pool.tree? i = n.pool.tree? j
    | .error err _, .error err' _ => err.bare = err'.bare
    | _, _ => False := by
  intro one two a b
  have hsum : Tree.Computed (.node .add [.num one, .num two]) (.num (one.add two)) :=
    .arithmetic (.refl _) (.refl _) (.num one) (.num two) rfl
  exact fold_computed (Environment.all_initial fun _ _ => held_operator)
    (.node (by decide) (.cons hsum (.cons (.refl _) .nil)))

end Machine

end Linefold
