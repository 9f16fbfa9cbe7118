import Linefold.Proofs.Twins.Tasks

/-!
# Trees with arithmetic computed

`a.Computed b`: the tree `b` is `a` with the value in the place of some operators whose operands are
numbers, innermost first. The value is the one that the parser leaves for such an operator, and that a fold
comes to. Names and patterns of functions and keys of records stay as they are.
-/

namespace Linefold

namespace Tree

/-- The tree is a number, seen through groups of one. -/
inductive Denotes : Tree → Number → Prop where
  | num (x : Number) : Denotes (.num x) x
  | group {t : Tag} {a : Tree} {x : Number} (ht : t = .paren ∨ t = .exprs) (h : Denotes a x) :
      Denotes (.node t [a]) x

inductive Computed : Tree → Tree → Prop where
  | refl (a : Tree) : Computed a a
  | arithmetic {t : Tag} {a b a' b' : Tree} {x y z : Number} (ha : Computed a a') (hb : Computed b b')
      (hx : a'.Denotes x) (hy : b'.Denotes y) (hz : Number.arithmetic? t x y = some z) :
      Computed (.node t [a, b]) (.num z)
  | negation {a a' : Tree} {x : Number} (ha : Computed a a') (hx : a'.Denotes x) :
      Computed (.node .neg [a]) (.num x.neg)
  | node {t : Tag} {as bs : List Tree} (ht : t ≠ .binding ∧ t ≠ .lambda ∧ t ≠ .case ∧ t ≠ .of)
      (h : List.Forall₂ Computed as bs) : Computed (.node t as) (.node t bs)
  | entry {key a a' : Tree} (ha : Computed a a') : Computed (.node .binding [key, a]) (.node .binding [key, a'])
  | lambda {names a a' pattern : Tree} (ha : Computed a a') :
      Computed (.node .lambda [names, a, pattern]) (.node .lambda [names, a', pattern])
  | case {a a' : Tree} {cs ds : List Tree} (ha : Computed a a') (hof : ∀ c ∈ cs, c.tag = .of)
      (hcs : List.Forall₂ Computed cs ds) : Computed (.node .case (a :: cs)) (.node .case (a' :: ds))
  | clause {a a' b b' : Tree} (ha : Computed a a') (hb : Computed b b') :
      Computed (.node .of [a, b]) (.node .of [a', b'])
  | binder {a a' b b' names : Tree} (ha : Computed a a') (hb : Computed b b') :
      Computed (.node .of [a, b, names]) (.node .of [a', b', names])

/-- A name is computed from itself only. -/
theorem Computed.ident_iff {a b : Tree} {s : String} (h : a.Computed b) : a = .ident s ↔ b = .ident s := by
  cases h with
  | refl => exact Iff.rfl
  | _ => simp

end Tree

/-! ### Trees in a pool -/

namespace Pool

variable {p q : Pool} {id : NodeId} {es : List NodeId} {t : Tag} {a : Tree} {ts : List Tree} {n : Node} {x : Number}

/-- The nodes have the trees. -/
abbrev HasTrees (p : Pool) : List NodeId → List Tree → Prop := List.Forall₂ fun e a => p.tree? e = some a

theorem mapM_tree?_iff : es.mapM p.tree? = some ts ↔ p.HasTrees es ts := by
  constructor
  · intro h
    induction es generalizing ts with
    | nil =>
      cases h
      exact .nil
    | cons e es ih =>
      rw [List.mapM_cons] at h
      obtain ⟨a, ha, h⟩ := Option.bind_eq_some_iff.1 h
      obtain ⟨as, has, h⟩ := Option.bind_eq_some_iff.1 h
      cases h
      exact .cons ha (ih has)
  · intro h
    induction h with
    | nil => rfl
    | cons ha _ ih =>
      rw [List.mapM_cons, ha, ih]
      rfl

theorem tree?_eq_node_iff : p.tree? id = some (.node t ts) ↔
    ∃ es, p.get? id = some (.branch t es) ∧ p.HasTrees es ts := by
  constructor
  · intro h
    cases hn : p.get? id with
    | none => rw [tree?_of_none hn] at h; cases h
    | some n =>
      cases n with
      | branch t' es =>
        rw [tree?_of_branch hn] at h
        obtain ⟨as, has, h⟩ := Option.map_eq_some_iff.1 h
        cases h
        exact ⟨es, rfl, mapM_tree?_iff.1 has⟩
      | _ => rw [tree?_of_leaf hn (by simp)] at h; cases h
  · rintro ⟨es, hn, hes⟩
    rw [tree?_of_branch hn, mapM_tree?_iff.2 hes]
    rfl

theorem leafTree?_injective {m : Node} (hn : leafTree? n = some a) (hm : leafTree? m = some a) : n = m := by
  cases n <;> cases m <;> grind [leafTree?]

theorem not_node_of_leafTree? (hn : leafTree? n = some a) : a ≠ .node t ts := by
  cases n <;> grind [leafTree?]

theorem tree?_eq_leaf_iff (hn : leafTree? n = some a) : p.tree? id = some a ↔ p.get? id = some n := by
  constructor
  · intro h
    cases hm : p.get? id with
    | none => rw [tree?_of_none hm] at h; cases h
    | some m =>
      by_cases hbranch : ∃ t es, m = .branch t es
      · obtain ⟨t, es, rfl⟩ := hbranch
        rw [tree?_of_branch hm] at h
        obtain ⟨as, -, h⟩ := Option.map_eq_some_iff.1 h
        exact absurd h.symm (not_node_of_leafTree? hn)
      · rw [tree?_of_leaf hm fun t es h => hbranch ⟨t, es, h⟩] at h
        rw [leafTree?_injective h hn]
  · intro h
    rw [tree?_of_leaf h (by rintro t es rfl; cases hn)]
    exact hn

theorem tree?_eq_num_iff : p.tree? id = some (.num x) ↔ p.get? id = some (.num x) := tree?_eq_leaf_iff rfl

theorem Extends.tree? (hpq : p.Extends q) (h : p.tree? id = some a) : q.tree? id = some a := by
  induction id using Nat.strongRecOn generalizing a with
  | ind id ih =>
    cases a with
    | node t ts =>
      obtain ⟨es, hn, hes⟩ := tree?_eq_node_iff.1 h
      refine tree?_eq_node_iff.2 ⟨es, hpq _ _ hn, ?_⟩
      exact forall₂_imp_mem hes fun e he a ha => ih e (lt_of_get?_branch hn he) ha
    | num x => exact tree?_eq_num_iff.2 (hpq _ _ (tree?_eq_num_iff.1 h))
    | str s => exact (tree?_eq_leaf_iff (n := .str s) rfl).2 (hpq _ _ ((tree?_eq_leaf_iff rfl).1 h))
    | ident s => exact (tree?_eq_leaf_iff (n := .ident s) rfl).2 (hpq _ _ ((tree?_eq_leaf_iff rfl).1 h))
    | bool b => exact (tree?_eq_leaf_iff (n := .bool b) rfl).2 (hpq _ _ ((tree?_eq_leaf_iff rfl).1 h))
    | null => exact (tree?_eq_leaf_iff (n := .null) rfl).2 (hpq _ _ ((tree?_eq_leaf_iff rfl).1 h))

theorem le_size_of_tree? (h : p.tree? id = some a) : id ≤ p.size := by
  cases hn : p.get? id with
  | none => rw [tree?_of_none hn] at h; cases h
  | some n => exact le_size_of_get? hn

theorem tree?_intern_branch (h : p.HasTrees es ts) :
    (p.intern (.branch t es)).2.tree? (p.intern (.branch t es)).1 = some (.node t ts) := by
  have hle : ∀ e ∈ es, e ≤ p.size := forall_mem_left h fun _ _ => le_size_of_tree?
  exact tree?_eq_node_iff.2 ⟨es, get?_intern hle, h.imp fun _ _ => (p.extends_intern _).tree?⟩

mutual

theorem extends_internTree (p : Pool) : ∀ a : Tree, p.Extends (p.internTree a).2
  | .num _ | .str _ | .ident _ | .bool _ | .null => p.extends_intern _
  | .node _ ts => (extends_internTrees p ts).trans (extends_intern _ _)

theorem extends_internTrees (p : Pool) : ∀ ts : List Tree, p.Extends (p.internTrees ts).2
  | [] => .refl p
  | a :: ts => (extends_internTree p a).trans (extends_internTrees _ ts)

end

mutual

/-- A tree that is interned is the tree of its node. -/
theorem tree?_internTree (p : Pool) : ∀ a : Tree, (p.internTree a).2.tree? (p.internTree a).1 = some a
  | .num _ | .str _ | .ident _ | .bool _ | .null =>
    (tree?_eq_leaf_iff rfl).2 (get?_intern (by simp [Node.elts]))
  | .node _ ts => tree?_intern_branch (hasTrees_internTrees p ts)

theorem hasTrees_internTrees (p : Pool) :
    ∀ ts : List Tree, (p.internTrees ts).2.HasTrees (p.internTrees ts).1 ts
  | [] => .nil
  | a :: ts => .cons ((extends_internTrees _ ts).tree? (tree?_internTree p a)) (hasTrees_internTrees _ ts)

end

/-- A tree that denotes a number is read as that number. -/
theorem number?_of_denotes (h : p.tree? id = some a) (hx : a.Denotes x) : p.number? id = some x := by
  unfold number?
  induction hx generalizing id with
  | num x =>
    have hn := tree?_eq_num_iff.1 h
    rw [unwrapGroup_eq_self (by simp [hn]), hn]
    rfl
  | group ht _ ih =>
    obtain ⟨es, hn, hes⟩ := tree?_eq_node_iff.1 h
    rcases hes with _ | ⟨hc, _ | _⟩
    rw [unwrapGroup_of_group hn ht]
    exact ih hc

end Pool

/-! ### What the parser leaves -/

section

variable {p : Pool} {e : Environment} {errors : Array Diagnostic} {i j : NodeId} {ids : List NodeId} {a b : Tree}
  {t : Tag} {x y z : Number} {span : Span}

/-- For operands that denote numbers the parser leaves the value, as in `Tree.Computed.arithmetic`. -/
theorem ParseM.reduce_of_denotes (hi : p.tree? i = some a) (hj : p.tree? j = some b) (hx : a.Denotes x)
    (hy : b.Denotes y) (hz : Number.arithmetic? t x y = some z) :
    ParseM.reduce (t, span) ⟨p, j :: i :: ids, e, errors⟩ = leaveAt (.num z) span ⟨p, ids, e, errors⟩ := by
  simp only [reduce, pop, ask, bind, EStateM.bind, Pool.number?_of_denotes hi hx,
    Pool.number?_of_denotes hj hy, Option.bind_some, hz]
  rfl

theorem ParseM.negate_of_denotes (hi : p.tree? i = some a) (hx : a.Denotes x) :
    ParseM.negate span ⟨p, i :: ids, e, errors⟩ = leaveAt (.num x.neg) span ⟨p, ids, e, errors⟩ := by
  simp only [negate, pop, ask, bind, EStateM.bind, Pool.number?_of_denotes hi hx]

end

/-! ### Nodes of two pools -/

namespace Twin

variable {T : Twin} {i j : NodeId} {es fs : List NodeId} {a b : Tree} {as bs : List Tree}

theorem forall₂_of_hasTrees {p q : Pool} {R : NodeId → NodeId → Prop} {V : Tree → Tree → Prop}
    (hes : p.HasTrees es as) (hfs : q.HasTrees fs bs) (h : List.Forall₂ V as bs)
    (hR : ∀ e ∈ es, ∀ f a b, p.tree? e = some a → q.tree? f = some b → V a b → R e f) :
    List.Forall₂ R es fs := by
  induction h generalizing es fs with
  | nil =>
    cases hes
    cases hfs
    exact .nil
  | cons hab _ ih =>
    rcases hes with _ | ⟨hi, hes⟩
    rcases hfs with _ | ⟨hj, hfs⟩
    obtain ⟨hhead, hR⟩ := List.forall_mem_cons.1 hR
    exact .cons (hhead _ _ _ hi hj hab) (ih hes hfs hR)

theorem alike_of_tree? (hi : T.left.tree? i = some a) (hj : T.right.tree? j = some a) : T.Alike i j := by
  induction i using Nat.strongRecOn generalizing j a with
  | ind i ih =>
    have hleaf {n : Node} (hn : n.Matches T.Alike n) (ha : Pool.leafTree? n = some a) : T.Alike i j :=
      .node ((Pool.tree?_eq_leaf_iff ha).1 hi) ((Pool.tree?_eq_leaf_iff ha).1 hj) hn
    cases a with
    | node t ts =>
      obtain ⟨es, hn, hes⟩ := Pool.tree?_eq_node_iff.1 hi
      obtain ⟨fs, hm, hfs⟩ := Pool.tree?_eq_node_iff.1 hj
      refine .node hn hm (.branch t ?_)
      have hts : List.Forall₂ Eq ts ts := List.forall₂_refl ts
      refine forall₂_of_hasTrees hes hfs hts fun c hc d a b ha hb hab => ?_
      exact ih c (Pool.lt_of_get?_branch hn hc) ha (hab ▸ hb)
    | num x => exact hleaf (.num x) rfl
    | str s => exact hleaf (.str s) rfl
    | ident s => exact hleaf (.ident s) rfl
    | bool b => exact hleaf (.bool b) rfl
    | null => exact hleaf .null rfl

/-- The ids denote one tree, or the second denotes the tree of the first with some arithmetic computed. -/
inductive Computed (T : Twin) (i j : NodeId) : Prop where
  | alike (h : T.Alike i j) : Computed T i j
  | trees {a b : Tree} (hi : T.left.tree? i = some a) (hj : T.right.tree? j = some b) (h : a.Computed b) :
      Computed T i j

theorem forall₂_computed (hes : T.left.HasTrees es as) (hfs : T.right.HasTrees fs bs)
    (h : List.Forall₂ Tree.Computed as bs) : List.Forall₂ T.Computed es fs :=
  forall₂_of_hasTrees hes hfs h fun _ _ _ _ _ hi hj hab => .trees hi hj hab

instance : Widens Computed where
  mono h hTU := by
    cases h with
    | alike h => exact .alike (h.mono hTU)
    | trees hi hj h => exact .trees (hTU.1.tree? hi) (hTU.2.tree? hj) h
  of_alike := .alike
  name h hs := by
    cases h with
    | alike h => exact h
    | @trees a b hi hj h =>
      rcases hs with hs | hs
      · obtain rfl : a = .ident _ := Option.some.inj (hi.symm.trans ((Pool.tree?_eq_leaf_iff rfl).2 hs))
        obtain rfl := h.ident_iff.1 rfl
        exact alike_of_tree? hi hj
      · obtain rfl : b = .ident _ := Option.some.inj (hj.symm.trans ((Pool.tree?_eq_leaf_iff rfl).2 hs))
        obtain rfl := h.ident_iff.2 rfl
        exact alike_of_tree? hi hj

/-- Clauses with computed parts. -/
theorem clauses_of_computed (hi : T.left.tree? i = some a) (hj : T.right.tree? j = some b)
    (h : a.Computed b) (hof : a.tag = .of) : Twin.Clauses Computed T i j := by
  cases h with
  | refl => exact .alike (alike_of_tree? hi hj)
  | arithmetic _ _ _ _ hz =>
    cases hof
    cases hz
  | node ht _ => exact absurd hof ht.2.2.2
  | clause ha hb =>
    obtain ⟨es, hn, hes⟩ := Pool.tree?_eq_node_iff.1 hi
    obtain ⟨fs, hm, hfs⟩ := Pool.tree?_eq_node_iff.1 hj
    rcases hes with _ | ⟨hp, _ | ⟨hq, _ | _⟩⟩
    rcases hfs with _ | ⟨hp', _ | ⟨hq', _ | _⟩⟩
    exact .plain hn hm (.trees hp hp' ha) (.trees hq hq' hb)
  | binder ha hb =>
    obtain ⟨es, hn, hes⟩ := Pool.tree?_eq_node_iff.1 hi
    obtain ⟨fs, hm, hfs⟩ := Pool.tree?_eq_node_iff.1 hj
    rcases hes with _ | ⟨hp, _ | ⟨hq, _ | ⟨hr, _ | _⟩⟩⟩
    rcases hfs with _ | ⟨hp', _ | ⟨hq', _ | ⟨hr', _ | _⟩⟩⟩
    exact .binder hn hm (.trees hp hp' ha) (.trees hq hq' hb) (alike_of_tree? hr hr')
  | _ => cases hof

theorem forall₂_clauses_of_computed {cs ds : List Tree} (hes : T.left.HasTrees es cs)
    (hfs : T.right.HasTrees fs ds) (h : List.Forall₂ Tree.Computed cs ds) (hof : ∀ c ∈ cs, c.tag = .of) :
    List.Forall₂ (Twin.Clauses Computed T) es fs := by
  have htags : List.Forall₂ (fun c d => c.tag = .of ∧ Tree.Computed c d) cs ds :=
    forall₂_imp_mem h fun c hc d hcd => ⟨hof c hc, hcd⟩
  exact forall₂_of_hasTrees hes hfs htags fun _ _ _ _ _ hi hj hcd => clauses_of_computed hi hj hcd.2 hcd.1

end Twin

end Linefold
