import Linefold.Proofs.Arithmetic.Folding
import Linefold.Proofs.Folding.Limited
import Linefold.Proofs.Selection.Cases
import Linefold.Proofs.Staging.Applications

/-!
# Groups in a case

A case sees its scrutinee and its patterns through groups, and so do the operators their operands. What an operator comes
to is therefore the same if groups are left out or put in below it (`Machine.follows_of_regrouped`), and so is the clause that
a case selects (`Machine.run_case_regrouped`). The elements of a list and the values of a record are compared as they are:
there a group tells two values apart (`Machine.run_case_groupedElement`).
-/

namespace Linefold

open List (Forall₂)

/-! ### Trees -/

namespace Tree

/-- The visit to the tree puts one value on the frame and takes none from it, in the environment. -/
inductive Lone (e : Environment) : Tree → Prop where
  | literal {a : Tree} (h : a.isLiteral) : Lone e a
  | name {s : String} (h : ∀ w, e.lookup? s = some w → w.cls = .value) : Lone e (.ident s)
  | frame {t : Tag} {as : List Tree} (ht : t = .paren ∨ t = .list) : Lone e (.node t as)
  | record {as : List Tree} : Lone e (.node .record as)
  | negation {a : Tree} : Lone e (.node .neg [a])
  | operator {t : Tag} {a b : Tree} (ht : t.isOperator) (hlogical : t ≠ .or ∧ t ≠ .and) : Lone e (.node t [a, b])

/-- Wherever the tree folds in the environment of the machine, it folds to ground data. -/
def Grounds (m : Machine) (a : Tree) : Prop :=
  ∀ k i v k', m.pool.Extends (Machine.pool k) → k.env = m.env → k.pool.tree? i = some a → k.FoldsTo i v k' →
    k'.pool.isGround v

mutual

/-- Trees that differ by groups of one only. A group is left out or put in at the root, below groups, in the operands of
operators, and in the scrutinee, the patterns and the bodies of a case. Where a value is compared, bound or applied as it
is, in a list, a record, an application or a case with a variable, an operator stands above the group, of which the result
is the same. -/
inductive Regrouped (m : Machine) : Bool → Tree → Tree → Prop where
  | refl (x : Bool) (a : Tree) : Regrouped m x a a
  | left {t : Tag} {a b : Tree} (ht : t = .paren ∨ t = .exprs) (h : Regrouped m false a b) :
      Regrouped m false (.node t [a]) b
  | right {t : Tag} {a b : Tree} (ht : t = .paren ∨ t = .exprs) (h : Regrouped m false a b) :
      Regrouped m false a (.node t [b])
  | group {t : Tag} {a b : Tree} (ht : t = .paren ∨ t = .exprs) (h : Regrouped m true a b) :
      Regrouped m true (.node t [a]) (.node t [b])
  | operator {x : Bool} {t : Tag} {a b c d : Tree} (ht : t.isOperator) (hlogical : t ≠ .or ∧ t ≠ .and)
      (h : Regrouped m false a b) (h' : Regrouped m false c d) : Regrouped m x (.node t [a, c]) (.node t [b, d])
  | negation {x : Bool} {a b : Tree} (h : Regrouped m false a b) : Regrouped m x (.node .neg [a]) (.node .neg [b])
  | list {x : Bool} {as bs : List Tree} (has : ∀ a ∈ as, a.Lone m.env) (hbs : ∀ b ∈ bs, b.Lone m.env)
      (h : Forall₂ (Regrouped m true) as bs) : Regrouped m x (.node .list as) (.node .list bs)
  | record {x : Bool} {as bs : List Tree} (h : Forall₂ (Regrouped m true) as bs) :
      Regrouped m x (.node .record as) (.node .record bs)
  | binding {x : Bool} {key a b : Tree} (h : Regrouped m true a b) :
      Regrouped m x (.node .binding [key, a]) (.node .binding [key, b])
  | parts {x : Bool} {t : Tag} {as bs : List Tree} (ht : t ∈ [.exprs, .paren, .list]) (h : Forall₂ (Kept m) as bs) :
      Regrouped m x (.node t as) (.node t bs)
  | case {x y : Bool} {a b : Tree} {as bs : List Tree} (hground : a.Grounds m) (h : Regrouped m y a b)
      (hclauses : RegroupedAll m x y as bs) : Regrouped m x (.node .case (a :: as)) (.node .case (b :: bs))

/-- The parts of an application or of a list, or what is among them: they are the same, or expressions of one value, which
is ground data. -/
inductive Kept (m : Machine) : Tree → Tree → Prop where
  | refl (a : Tree) : Kept m a a
  | value {a b : Tree} (ha : a.Lone m.env) (hb : b.Lone m.env) (hground : a.Grounds m) (h : Regrouped m true a b) :
      Kept m a b
  | parts {t : Tag} {as bs : List Tree} (ht : t ∈ [.exprs, .paren, .list]) (h : Forall₂ (Kept m) as bs) :
      Kept m (.node t as) (.node t bs)

/-- The clauses of a case inside an expression. A variable is bound to a scrutinee that is exactly the same. -/
inductive RegroupedAll (m : Machine) : Bool → Bool → List Tree → List Tree → Prop where
  | nil {x y : Bool} : RegroupedAll m x y [] []
  | binds {x : Bool} {s : String} {u names : Tree} {as bs : List Tree} (h : RegroupedAll m x true as bs) :
      RegroupedAll m x true (.node .of [.ident s, u, names] :: as) (.node .of [.ident s, u, names] :: bs)
  | pattern {x y : Bool} {a b u v : Tree} {as bs : List Tree} (hground : a.Grounds m) (hab : Regrouped m false a b)
      (huv : Regrouped m x u v) (h : RegroupedAll m x y as bs) :
      RegroupedAll m x y (.node .of [a, u] :: as) (.node .of [b, v] :: bs)

end

end Tree

namespace Machine

variable {m m' n n' m₀ m₁ : Machine} {v w i j : NodeId} {vs es fs ids ids' : List NodeId} {x y : Bool} {e : Environment}
  {T : Twin} {a b : Tree} {as bs : List Tree} {tag : Tag} {cs ds : List Clause} {c d : Clause} {o : Choice} {p : Pool}

/-! ### Visits to nodes that put one value on the frame -/

theorem single_of_lone {a : Tree} (hi : m.pool.tree? i = some a) (ha : a.Lone m.env) : m.Single (.visit i) := by
  have hpush (id : NodeId) (hvisit : ∀ s, (m.onStack s).visit i = (m.onStack s).reducing (ValuesM.push id) []) :
      m.Single (.visit i) := by
    refine .inl ⟨id, m, .refl _, rfl, fun s vs fs ts => ?_⟩
    have hstep : (m.onStack (s.stacked (vs :: fs))).resume (.visit i) = .ok [] (m.onStack (s.stacked ((id :: vs) :: fs))) := by
      rw [resume, hvisit]
      exact onValues_of_ok ValuesM.push_stacked
    exact run_of_resume hstep ts
  cases ha with
  | literal h =>
    have hleaf {n : Node} (hn : Pool.leafTree? n = some a) (hlit : n.isLiteral) : m.Single (.visit i) := by
      refine hpush i fun s => ?_
      have hget : (m.onStack s).pool.get? i = some n := (Pool.tree?_eq_leaf_iff hn).1 hi
      rw [visit, hget]
      cases n <;> first | rfl | cases hlit
    cases a with
    | num x => exact hleaf (n := .num x) rfl rfl
    | str x => exact hleaf (n := .str x) rfl rfl
    | bool x => exact hleaf (n := .bool x) rfl rfl
    | null => exact hleaf (n := .null) rfl rfl
    | ident x => cases h
    | node t as => cases h
  | @name s h =>
    have hget : m.pool.get? i = some (.ident s) := (Pool.tree?_eq_leaf_iff rfl).1 hi
    cases hw : m.env.lookup? s with
    | none =>
      refine hpush i fun st => ?_
      have hget : (m.onStack st).pool.get? i = some (.ident s) := hget
      have hw : (m.onStack st).env.lookup? s = none := hw
      simp only [visit, hget, visitName, hw]
    | some w =>
      refine hpush (if w.nid = 0 then i else w.nid) fun st => ?_
      have hget : (m.onStack st).pool.get? i = some (.ident s) := hget
      have hw' : (m.onStack st).env.lookup? s = some w := hw
      simp only [visit, hget, visitName, hw', h w hw]
  | frame ht =>
    obtain ⟨es, hn, -⟩ := Pool.tree?_eq_node_iff.1 hi
    refine single_of_isolated (isolated_visit ?_ hn) trivial
    rcases ht with rfl | rfl <;> decide
  | record =>
    obtain ⟨es, hn, -⟩ := Pool.tree?_eq_node_iff.1 hi
    exact (composes_record hn).single_visit
  | negation =>
    obtain ⟨es, hn, _ | ⟨_, _ | _⟩⟩ := Pool.tree?_eq_node_iff.1 hi
    exact (composes_negation hn).single_visit
  | operator ht hlogical =>
    obtain ⟨es, hn, _ | ⟨_, _ | ⟨_, _ | _⟩⟩⟩ := Pool.tree?_eq_node_iff.1 hi
    exact (composes_operator ht hlogical hn).single_visit

theorem Abreast.lone {a : Tree} (h : Abreast e T m n) (ha : a.Lone e) : a.Lone n.env := by
  cases ha with
  | literal h => exact .literal h
  | @name s hs =>
    refine .name fun w hw => ?_
    have hrel : Option.Rel (Word.Alike (m.twin n)) (m.env.lookup? s) (n.env.lookup? s) := h.alike.env.lookup?
    rw [hw, h.env] at hrel
    cases hfound : e.lookup? s with
    | none =>
      rw [hfound] at hrel
      cases hrel
    | some w' =>
      rw [hfound] at hrel
      exact (Option.rel_some_some.1 hrel).head.cls.symm.trans (hs w' hfound)
  | frame ht => exact .frame ht
  | record => exact .record
  | negation => exact .negation
  | operator ht hlogical => exact .operator ht hlogical

theorem single_of_hasTrees {es : List NodeId} {as : List Tree} (hes : m.pool.HasTrees es as) (has : ∀ a ∈ as, a.Lone m.env) :
    ∀ c ∈ es, m.Single (.visit c) := by
  induction hes with
  | nil => exact List.forall_mem_nil _
  | cons ha _ ih =>
    obtain ⟨hlone, has⟩ := List.forall_mem_cons.1 has
    exact List.forall_mem_cons.2 ⟨single_of_lone ha hlone, ih has⟩

/-! ### Folding -/

theorem keeps_parts (htag : tag ∈ [.exprs, .paren, .list]) (hi : T.left.get? i = some (.branch tag es))
    (hj : T.right.get? j = some (.branch tag fs)) (h : Forall₂ (fun c d => Keeps e T [c] [d]) es fs) : Keeps e T [i] [j] := by
  have hall := keeps_all (List.rel_reverse h)
  simp only [List.mem_cons, List.not_mem_nil, or_false] at htag
  rcases htag with rfl | htag
  · exact keeps_exprs hi hj hall
  · exact keeps_frame htag hi hj hall

theorem Tree.Grounds.isGround (h : a.Grounds m₀) (hi : T.left.tree? i = some a) (hT : m₀.pool.Extends T.left) (k : Machine)
    (hk : T.left.Extends k.pool) (henv : k.env = m₀.env) (v : NodeId) (k' : Machine) (hv : k.FoldsTo i v k') :
    k'.pool.isGround v := h k i v k' (hT.trans hk) henv (hk.tree? hi) hv

/-- The nodes of trees that differ by groups only follow each other. -/
def FollowsTrees (m₀ : Machine) (T : Twin) (i j : NodeId) : Prop :=
  ∀ x a b, Tree.Regrouped m₀ x a b → T.left.tree? i = some a → T.right.tree? j = some b →
    Follows m₀.env T x (.operand i) (.operand j)

theorem clause_of_get? (h : p.get? i = some (.branch .of [v, w])) : clause p i = .ok ⟨v, w, none⟩ := by
  rw [clause, h]
  rfl

theorem clause_of_get?_names {u : NodeId} (h : p.get? i = some (.branch .of [v, w, u])) : clause p i = .ok ⟨v, w, some u⟩ := by
  rw [clause, h]
  rfl

theorem mapM_clause_cons (hc : clause p i = .ok c) (hcs : ids.mapM (clause p) = .ok cs) :
    (i :: ids).mapM (clause p) = .ok (c :: cs) := by
  rw [List.mapM_cons, hc, hcs]
  rfl

/-- A clause that binds the scrutinee of a case inside an expression. -/
theorem leads_binds {s : String} {u names : Tree} (hi : T.left.tree? i = some (.node .of [.ident s, u, names]))
    (hj : T.right.tree? j = some (.node .of [.ident s, u, names])) :
    ∃ c d, clause T.left i = .ok c ∧ clause T.right j = .ok d ∧ Clause.Leads e T x true c d := by
  obtain ⟨es, hn, _ | @⟨v, _, _, _, hs, _ | @⟨b, _, _, _, hu, _ | @⟨l, _, _, _, hl, _ | _⟩⟩⟩⟩ := Pool.tree?_eq_node_iff.1 hi
  obtain ⟨fs, hm, _ | @⟨v', _, _, _, hs', _ | @⟨b', _, _, _, hu', _ | @⟨l', _, _, _, hl', _ | _⟩⟩⟩⟩ :=
    Pool.tree?_eq_node_iff.1 hj
  have hvar {k : Machine} (hk : T.left.Extends k.pool) : Clause.variable? ⟨v, b, some l⟩ k.pool = some (s, l) := by
    rw [ Clause.variable?, (Pool.tree?_eq_leaf_iff (n := .ident s) rfl).1 (hk.tree? hs)]
  have hvar' {k : Machine} (hk : T.right.Extends k.pool) : Clause.variable? ⟨v', b', some l'⟩ k.pool = some (s, l') := by
    rw [ Clause.variable?, (Pool.tree?_eq_leaf_iff (n := .ident s) rfl).1 (hk.tree? hs')]
  refine ⟨_, _, clause_of_get?_names hn, clause_of_get?_names hm, ⟨fun m n hmn => ?_, ?_⟩, fun k hk _ hnone => ?_,
    .inl ⟨rfl, Twin.alike_of_tree? hu hu'⟩⟩
  · rw [hvar hmn.grows.1, hvar' hmn.grows.2]
    rfl
  · exact (repeats_operand (Twin.alike_of_tree? hs hs')).follows
  · cases (hvar hk).symm.trans hnone

/-- A clause of which the pattern is ground. -/
theorem leads_pattern {a b u v : Tree} (hT : m₀.pool.Extends T.left) (hi : T.left.tree? i = some (.node .of [a, u]))
    (hj : T.right.tree? j = some (.node .of [b, v])) (hground : a.Grounds m₀) (hab : a.Regrouped m₀ false b)
    (huv : u.Regrouped m₀ x v) (ih : ∀ c < i, ∀ d, FollowsTrees m₀ T c d) :
    ∃ c d, clause T.left i = .ok c ∧ clause T.right j = .ok d ∧ Clause.Leads m₀.env T x y c d := by
  obtain ⟨es, hn, _ | ⟨ha, _ | ⟨hu, _ | _⟩⟩⟩ := Pool.tree?_eq_node_iff.1 hi
  obtain ⟨fs, hm, _ | ⟨hb, _ | ⟨hv, _ | _⟩⟩⟩ := Pool.tree?_eq_node_iff.1 hj
  refine ⟨_, _, clause_of_get? hn, clause_of_get? hm, ⟨fun m n hmn => rfl, ?_⟩, fun k hk henv _ w k' hw => ?_,
    .inr ⟨fun m n hmn => rfl, ?_⟩⟩
  · exact ih _ (Pool.lt_of_get?_branch hn (.head _)) _ false a b hab ha hb
  · exact Tree.Grounds.isGround hground ha hT k hk henv w k' hw
  · exact ih _ (Pool.lt_of_get?_branch hn (.tail _ (.head _))) _ x u v huv hu hv

/-- The clauses of a case inside an expression, if the nodes before it follow those of the other tree. -/
theorem exists_clauses (hT : m₀.pool.Extends T.left) (h : Tree.RegroupedAll m₀ x y as bs) (hids : T.left.HasTrees ids as)
    (hids' : T.right.HasTrees ids' bs) (ih : ∀ id ∈ ids, ∀ c < id, ∀ d, FollowsTrees m₀ T c d) :
    ∃ cs ds, ids.mapM (clause T.left) = .ok cs ∧ ids'.mapM (clause T.right) = .ok ds ∧
      Forall₂ (Clause.Leads m₀.env T x y) cs ds := by
  induction as generalizing ids ids' bs with
  | nil =>
    cases h
    cases hids
    cases hids'
    exact ⟨[], [], rfl, rfl, .nil⟩
  | cons a as ihs =>
    obtain _ | @⟨id, _, ids, _, hid, hids⟩ := hids
    obtain ⟨hidih, ih⟩ := List.forall_mem_cons.1 ih
    cases h with
    | binds h =>
      obtain _ | @⟨id', _, ids', _, hid', hids'⟩ := hids'
      obtain ⟨cs, ds, hcs, hds, hleads⟩ := ihs h hids hids' ih
      obtain ⟨c, d, hc, hd, hcd⟩ := leads_binds hid hid'
      exact ⟨c :: cs, d :: ds, mapM_clause_cons hc hcs, mapM_clause_cons hd hds, .cons hcd hleads⟩
    | pattern hground hab huv h =>
      obtain _ | @⟨id', _, ids', _, hid', hids'⟩ := hids'
      obtain ⟨cs, ds, hcs, hds, hleads⟩ := ihs h hids hids' ih
      obtain ⟨c, d, hc, hd, hcd⟩ := leads_pattern hT hid hid' hground hab huv hidih
      exact ⟨c :: cs, d :: ds, mapM_clause_cons hc hcs, mapM_clause_cons hd hds, .cons hcd hleads⟩

/-- The nodes of parts that are kept keep to each other. -/
def KeepsTrees (m₀ : Machine) (T : Twin) (i j : NodeId) : Prop :=
  ∀ a b, Tree.Kept m₀ a b → T.left.tree? i = some a → T.right.tree? j = some b → Keeps m₀.env T [i] [j]

theorem forall₂_keeps (hes : T.left.HasTrees es as) (hfs : T.right.HasTrees fs bs) (h : Forall₂ (Tree.Kept m₀) as bs)
    (ih : ∀ c ∈ es, ∀ d, KeepsTrees m₀ T c d) : Forall₂ (fun c d => Keeps m₀.env T [c] [d]) es fs :=
  Twin.forall₂_of_hasTrees hes hfs h fun c hc d a b ha hb hab => ih c hc d a b hab ha hb

/-- The nodes below the first one, if they follow and keep to those of the other tree. The induction is on the second tree: a
group is left out of it, or the first tree gets smaller. -/
theorem followsTrees_of_forall_lt (hT : m₀.pool.Extends T.left) (ih : ∀ c < i, ∀ d, FollowsTrees m₀ T c d)
    (ihk : ∀ c < i, ∀ d, KeepsTrees m₀ T c d) (j : NodeId) : FollowsTrees m₀ T i j := by
  induction j using Nat.strongRecOn with
  | ind j ihj =>
    intro x a b h hi hj
    have below {t : Tag} {es : List NodeId} (hn : T.left.get? i = some (.branch t es)) (c : NodeId) (hc : c ∈ es) : c < i :=
      Pool.lt_of_get?_branch hn hc
    cases h with
    | refl => exact (repeats_operand (Twin.alike_of_tree? hi hj)).follows
    | left ht h =>
      obtain ⟨es, hn, _ | ⟨ha, _ | _⟩⟩ := Pool.tree?_eq_node_iff.1 hi
      have hfollows := ih _ (below hn _ (.head _)) j _ _ _ h ha hj
      rcases ht with rfl | rfl
      · exact follows_paren_left hn hfollows
      · exact follows_exprs_left hn hfollows
    | right ht h =>
      obtain ⟨fs, hm, _ | ⟨hb, _ | _⟩⟩ := Pool.tree?_eq_node_iff.1 hj
      have hfollows := ihj _ (Pool.lt_of_get?_branch hm (.head _)) _ _ _ h hi hb
      rcases ht with rfl | rfl
      · exact follows_paren_right hm hfollows
      · exact follows_exprs_right hm hfollows
    | group ht h =>
      obtain ⟨es, hn, _ | ⟨ha, _ | _⟩⟩ := Pool.tree?_eq_node_iff.1 hi
      obtain ⟨fs, hm, _ | ⟨hb, _ | _⟩⟩ := Pool.tree?_eq_node_iff.1 hj
      have hfollows := ih _ (below hn _ (.head _)) _ _ _ _ h ha hb
      rcases ht with rfl | rfl
      · exact follows_paren hn hm hfollows
      · exact follows_exprs_left hn (follows_exprs_right hm hfollows)
    | operator ht hlogical h h' =>
      obtain ⟨es, hn, _ | ⟨ha, _ | ⟨hc, _ | _⟩⟩⟩ := Pool.tree?_eq_node_iff.1 hi
      obtain ⟨fs, hm, _ | ⟨hb, _ | ⟨hd, _ | _⟩⟩⟩ := Pool.tree?_eq_node_iff.1 hj
      exact follows_operator ht hlogical hn hm (ih _ (below hn _ (.head _)) _ _ _ _ h ha hb)
        (ih _ (below hn _ (.tail _ (.head _))) _ _ _ _ h' hc hd)
    | negation h =>
      obtain ⟨es, hn, _ | ⟨ha, _ | _⟩⟩ := Pool.tree?_eq_node_iff.1 hi
      obtain ⟨fs, hm, _ | ⟨hb, _ | _⟩⟩ := Pool.tree?_eq_node_iff.1 hj
      exact follows_negation hn hm (ih _ (below hn _ (.head _)) _ _ _ _ h ha hb)
    | list has hbs h =>
      obtain ⟨es, hn, hes⟩ := Pool.tree?_eq_node_iff.1 hi
      obtain ⟨fs, hm, hfs⟩ := Pool.tree?_eq_node_iff.1 hj
      refine follows_list hn hm (fun k hk henv => ?_) (fun m n hmn k hk henv => ?_)
        (Twin.forall₂_of_hasTrees hes hfs h fun c hc d a b ha hb hab => ih c (below hn c hc) d true a b hab ha hb)
      · exact single_of_hasTrees (Pool.HasTrees.mono hes hk) fun a ha => henv ▸ has a ha
      · refine single_of_hasTrees (Pool.HasTrees.mono hfs (hmn.grows.2.trans hk)) fun b hb => ?_
        exact henv ▸ hmn.lone (hbs b hb)
    | record h =>
      obtain ⟨es, hn, hes⟩ := Pool.tree?_eq_node_iff.1 hi
      obtain ⟨fs, hm, hfs⟩ := Pool.tree?_eq_node_iff.1 hj
      exact follows_record hn hm
        (Twin.forall₂_of_hasTrees hes hfs h fun c hc d a b ha hb hab => ih c (below hn c hc) d true a b hab ha hb)
    | binding h =>
      obtain ⟨es, hn, _ | ⟨hk, _ | ⟨ha, _ | _⟩⟩⟩ := Pool.tree?_eq_node_iff.1 hi
      obtain ⟨fs, hm, _ | ⟨hl, _ | ⟨hb, _ | _⟩⟩⟩ := Pool.tree?_eq_node_iff.1 hj
      exact follows_binding hn hm (Twin.alike_of_tree? hk hl) (ih _ (below hn _ (.tail _ (.head _))) _ _ _ _ h ha hb)
    | parts ht h =>
      obtain ⟨es, hn, hes⟩ := Pool.tree?_eq_node_iff.1 hi
      obtain ⟨fs, hm, hfs⟩ := Pool.tree?_eq_node_iff.1 hj
      have hparts := forall₂_keeps hes hfs h fun c hc d => ihk c (below hn c hc) d
      exact (repeats_operand_of_keeps (keeps_parts ht hn hm hparts)).follows
    | case hground h hclauses =>
      obtain ⟨es, hn, _ | ⟨hscr, hids⟩⟩ := Pool.tree?_eq_node_iff.1 hi
      obtain ⟨fs, hm, _ | ⟨hscr', hids'⟩⟩ := Pool.tree?_eq_node_iff.1 hj
      obtain ⟨cs, ds, hcs, hds, hleads⟩ := exists_clauses hT hclauses hids hids' fun id hid c hc d =>
        ih c (Nat.lt_trans hc (below hn id (.tail _ hid))) d
      exact follows_case hn hm hcs hds (ih _ (below hn _ (.head _)) _ _ _ _ h hscr hscr')
        (Tree.Grounds.isGround hground hscr hT) hleads

theorem keepsTrees_of_forall_lt (hT : m₀.pool.Extends T.left) (hfollows : FollowsTrees m₀ T i j)
    (ih : ∀ c < i, ∀ d, KeepsTrees m₀ T c d) : KeepsTrees m₀ T i j := by
  intro a b h hi hj
  cases h with
  | refl => exact keeps_of_alike (Twin.alike_of_tree? hi hj)
  | value ha hb hground h =>
    have hsingle (m n : Machine) (hmn : Abreast m₀.env T m n) : m.Single (.visit i) :=
      single_of_lone (hmn.grows.1.tree? hi) (hmn.env ▸ ha)
    have hvisit := (hfollows true a b h hi hj).visit fun m n hmn =>
      single_of_lone (hmn.grows.2.tree? hj) (hmn.lone hb)
    refine keeps_of_repeats (hvisit.repeats fun m n hmn v m' hv => ?_) hsingle
    exact Tree.Grounds.isGround hground hi hT m hmn.grows.1 hmn.env v m' hv.operand.foldsTo
  | parts ht h =>
    obtain ⟨es, hn, hes⟩ := Pool.tree?_eq_node_iff.1 hi
    obtain ⟨fs, hm, hfs⟩ := Pool.tree?_eq_node_iff.1 hj
    exact keeps_parts ht hn hm (forall₂_keeps hes hfs h fun c hc d => ih c (Pool.lt_of_get?_branch hn hc) d)

/-- What trees come to that differ by groups only. The induction is on the first tree. -/
theorem followsTrees (hT : m₀.pool.Extends T.left) (i : NodeId) :
    (∀ j, FollowsTrees m₀ T i j) ∧ ∀ j, KeepsTrees m₀ T i j := by
  induction i using Nat.strongRecOn with
  | ind i ih =>
    have hfollows (j : NodeId) : FollowsTrees m₀ T i j :=
      followsTrees_of_forall_lt hT (fun c hc => (ih c hc).1) (fun c hc => (ih c hc).2) j
    exact ⟨hfollows, fun j => keepsTrees_of_forall_lt hT (hfollows j) fun c hc => (ih c hc).2⟩

theorem follows_of_regrouped {a b : Tree} (hT : m₀.pool.Extends T.left) (h : a.Regrouped m₀ x b)
    (hi : T.left.tree? i = some a) (hj : T.right.tree? j = some b) :
    Follows m₀.env T x (.operand i) (.operand j) := (followsTrees hT i).1 j x a b h hi hj

/-! ### Clauses -/

/-- The clauses have the same body and the same variable, and patterns that differ by groups only. -/
structure Clause.Regrouped (m : Machine) (c d : Clause) : Prop where
  name : c.variable? m.pool = d.variable? m.pool
  body : c.body = d.body
  pattern : ∃ a b : Tree, m.pool.tree? c.pattern = some a ∧ m.pool.tree? d.pattern = some b ∧ a.Regrouped m false b

theorem Clause.Regrouped.follows (h : c.Regrouped m d) : Clause.Follows m.env ⟨m.pool, m.pool⟩ c d := by
  obtain ⟨a, b, ha, hb, hab⟩ := h.pattern
  have hvariable {c : Clause} {a : Tree} (ha : m.pool.tree? c.pattern = some a) {q : Pool} (hq : m.pool.Extends q) :
      c.variable? q = c.variable? m.pool := by
    rw [ Clause.variable?, Clause.variable?, hq.get?_eq (Pool.le_size_of_tree? ha)]
  refine ⟨fun k l hkl => ?_, follows_of_regrouped (.refl _) hab ha hb⟩
  have hc : c.variable? k.pool = c.variable? m.pool := hvariable ha hkl.grows.1
  have hd : d.variable? l.pool = d.variable? m.pool := hvariable hb hkl.grows.2
  rw [hc, hd, h.name]

theorem Choice.Takes₂.eq (h : Choice.Takes₂ p c d o o') (hbody : c.body = d.body) : o' = o := by
  cases h <;> rw [hbody]

theorem SelectsAt.le_size {k : Nat} {body : NodeId} {ids : List NodeId} (h : SelectsAt v m cs k (.equal body) m')
    (hids : ids.mapM (clause p) = .ok cs) : body ≤ p.size := by
  obtain ⟨c, -, hc, -, -, htakes⟩ := h
  cases htakes
  induction cs generalizing ids k with
  | nil => cases hc
  | cons d ds ih =>
    obtain ⟨id, ids, rfl, hd, hds⟩ := exists_of_mapM_cons hids
    cases k with
    | zero =>
      cases hc
      exact Nat.le_trans (Nat.le_of_lt (lt_of_clause hd).2) (le_size_of_clause hd)
    | succ k => exact ih hds hc

/-! ### Cases -/

theorem Choice.Leads.exists_of_exhausted (h : Choice.exhausted.Leads m i v cs m') (hv : m'.pool.isGround v) :
    ∃ text place, ∀ ts, m.run (.visit i :: ts) = .error (.nonExhaustiveCase text place) m' := by
  refine ⟨((m'.pool.tree? v).map Tree.text).getD "", m'.pool.coord? i, fun ts => ?_⟩
  simpa only [Choice.Leads, if_pos hv] using h ts

/-- Groups do not change which clause a case selects: two cases of which the scrutinees and the patterns differ by groups
only, where the first scrutinee is ground and the clauses are tried to an end, as they are over ground patterns. The same
clause is selected, over machines that are alike, so that its body comes to the same if it has no variable; or both
cases are not exhaustive. -/
theorem run_case_regrouped {scr scr' : NodeId} {ids ids' : List NodeId} {a b : Tree} (hs : m.values.stack.Nested)
    (hstack : ∀ u ∈ m.values.stack.items.toList, u ≤ m.pool.size) (henv : m.env.All fun _ w => w.Held m.pool)
    (hi : m.pool.get? i = some (.branch .case (scr :: ids))) (hj : m.pool.get? j = some (.branch .case (scr' :: ids')))
    (hids : ids.mapM (clause m.pool) = .ok cs) (hids' : ids'.mapM (clause m.pool) = .ok ds)
    (ha : m.pool.tree? scr = some a) (hb : m.pool.tree? scr' = some b) (hab : a.Regrouped m false b)
    (hcs : Forall₂ (Clause.Regrouped m) cs ds) (hscr : m.FoldsTo scr v m₁) (hv : m₁.pool.isGround v)
    (hchooses : Chooses v m₁ cs o m') (hundecided : o ≠ .undecided) (hfailed : ∀ err, o ≠ .failed err) :
    ∃ w n₁ n', m.FoldsTo scr' w n₁ ∧ Chooses w n₁ ds o n' ∧ m'.Alike n' ∧
      ((∃ k, SelectsAt v m₁ cs k o m' ∧ SelectsAt w n₁ ds k o n' ∧ o.Leads m i v cs m' ∧ o.Leads m j w ds n' ∧
          ∀ body, o = .equal body → Corresponds (m'.twin n') (fun _ => Eq) (m.run [.visit i]) (m.run [.visit j])) ∨
        o = .exhausted ∧ ∃ text text' place place', ∀ ts, m.run (.visit i :: ts) = .error (.nonExhaustiveCase text place) m' ∧
          m.run (.visit j :: ts) = .error (.nonExhaustiveCase text' place') n') := by
  have hT : Twin.Grows ⟨m.pool, m.pool⟩ (m.twin m) := .refl _
  have hself : Abreast m.env ⟨m.pool, m.pool⟩ m m := by
    refine ⟨.refl _, ⟨⟨List.forall₂_same.2 fun u hu => ?_, rfl, hs⟩, Environment.alike_of_held henv hT, rfl⟩, rfl⟩
    exact Twin.alike_of_le hT (hstack u hu)
  obtain ⟨w, n₁, hscr', hmn₁, hvw₁⟩ := follows_of_regrouped (.refl _) hab ha hb m m hself v m₁ hscr.pushes
    ⟨_, .refl _, hv⟩
  obtain ⟨o', n', hchooses', hmn', hvw, hselects⟩ :=
    chooses_follows (fun _ _ => Clause.Regrouped.follows) hchooses hundecided hfailed hcs hmn₁ hvw₁ hv
  obtain rfl : o' = o := by
    rcases hselects with ⟨-, c, d, hcd, htakes, -⟩ | ⟨rfl, rfl⟩
    · exact htakes.eq hcd.body
    · rfl
  have hleads := leads_of_chooses hs hi hids hscr hchooses
  have hleads' := leads_of_chooses hs hj hids' hscr'.foldsTo hchooses'
  refine ⟨w, n₁, n', hscr'.foldsTo, hchooses', hmn'.alike, ?_⟩
  rcases hselects with ⟨k, -, -, -, -, hk, hk'⟩ | ⟨rfl, -⟩
  · refine .inl ⟨k, hk, hk', hleads, hleads', fun body ho => ?_⟩
    subst ho
    rw [hleads [], hleads' []]
    have hbody := Twin.alike_of_le hmn'.grows (hk.le_size hids)
    exact hmn'.alike.run_of (fun h hij => .steps (h.visit hij)) (.cons (.visit hbody) .nil)
  · have hv' := Pool.isGround_of_extends hchooses.accrues.keeps hv
    have hw' : n'.pool.isGround w := hvw.isGround_eq ▸ hv'
    obtain ⟨text, place, hfails⟩ := hleads.exists_of_exhausted hv'
    obtain ⟨text', place', hfails'⟩ := hleads'.exists_of_exhausted hw'
    exact .inr ⟨rfl, text, text', place, place', fun ts => ⟨hfails ts, hfails' ts⟩⟩

/-- The nodes of `case true of false: "no"; of true: "yes" end` and `case (true) of (false): "no"; of true: "yes" end`. -/
def twoCases : Machine := ofPool (.ofNodes [
  .bool true, .bool false, .str "no", .str "yes", .branch .of [2, 3], .branch .of [1, 4], .branch .case [1, 5, 6],
  .branch .exprs [1], .branch .paren [8], .branch .exprs [2], .branch .paren [10], .branch .of [11, 3],
  .branch .case [9, 12, 6]]) .initial

/-- Both cases select the second clause. -/
theorem run_case_regrouped_twoCases : twoCases.values.stack.Nested ∧ twoCases.values.stack.items = #[] ∧
    twoCases.env.All (fun _ w => w.Held twoCases.pool) ∧
    twoCases.pool.get? 7 = some (.branch .case [1, 5, 6]) ∧ twoCases.pool.get? 13 = some (.branch .case [9, 12, 6]) ∧
    [5, 6].mapM (clause twoCases.pool) = .ok [⟨2, 3, none⟩, ⟨1, 4, none⟩] ∧
    [12, 6].mapM (clause twoCases.pool) = .ok [⟨11, 3, none⟩, ⟨1, 4, none⟩] ∧
    twoCases.pool.tree? 1 = some (.bool true) ∧
    twoCases.pool.tree? 9 = some (.node .paren [.node .exprs [.bool true]]) ∧
    Tree.Regrouped twoCases false (.bool true) (.node .paren [.node .exprs [.bool true]]) ∧
    Forall₂ (Clause.Regrouped twoCases) [⟨2, 3, none⟩, ⟨1, 4, none⟩] [⟨11, 3, none⟩, ⟨1, 4, none⟩] ∧
    twoCases.FoldsTo 1 1 twoCases ∧ twoCases.pool.isGround 1 ∧
    Chooses 1 twoCases [⟨2, 3, none⟩, ⟨1, 4, none⟩] (.equal 4) twoCases ∧
    ∃ w n₁ n', twoCases.FoldsTo 9 w n₁ ∧ Chooses w n₁ [⟨11, 3, none⟩, ⟨1, 4, none⟩] (.equal 4) n' ∧
      twoCases.run [.visit 7] = twoCases.run [.visit 4] ∧ twoCases.run [.visit 13] = n'.run [.visit 4] ∧
      Corresponds (twoCases.twin n') (fun _ => Eq) (twoCases.run [.visit 7]) (twoCases.run [.visit 13]) := by
  have hs : twoCases.values.stack.Nested := List.pairwise_singleton _ _
  have henv : twoCases.env.All fun _ w => w.Held twoCases.pool := Environment.all_initial fun _ _ => held_operator
  have hi : twoCases.pool.get? 7 = some (.branch .case [1, 5, 6]) := by decide +kernel
  have hj : twoCases.pool.get? 13 = some (.branch .case [9, 12, 6]) := by decide +kernel
  have hids : [5, 6].mapM (clause twoCases.pool) = .ok [⟨2, 3, none⟩, ⟨1, 4, none⟩] := by decide +kernel
  have hids' : [12, 6].mapM (clause twoCases.pool) = .ok [⟨11, 3, none⟩, ⟨1, 4, none⟩] := by decide +kernel
  have ha : twoCases.pool.tree? 1 = some (.bool true) := by decide +kernel
  have hb : twoCases.pool.tree? 9 = some (.node .paren [.node .exprs [.bool true]]) := by decide +kernel
  have hgroup (m : Machine) (a : Tree) : Tree.Regrouped m false a (.node .paren [.node .exprs [a]]) :=
    .right (.inl rfl) (.right (.inr rfl) (.refl false a))
  have hpattern : twoCases.pool.tree? 2 = some (.bool false) := by decide +kernel
  have hpattern' : twoCases.pool.tree? 11 = some (.node .paren [.node .exprs [.bool false]]) := by decide +kernel
  have hcs : Forall₂ (Clause.Regrouped twoCases) [⟨2, 3, none⟩, ⟨1, 4, none⟩]
      [⟨11, 3, none⟩, ⟨1, 4, none⟩] := by
    refine .cons ⟨rfl, rfl, _, _, hpattern, hpattern', hgroup _ _⟩ (.cons ?_ .nil)
    exact ⟨rfl, rfl, _, _, ha, ha, .refl false _⟩
  have hliteral {c : NodeId} {x : Bool} (h : twoCases.pool.get? c = some (.bool x)) : twoCases.FoldsTo c c twoCases :=
    foldsTo_literal h nofun nofun
  have hscr : twoCases.FoldsTo 1 1 twoCases := hliteral (x := true) (by decide +kernel)
  have hv : twoCases.pool.isGround 1 := by decide +kernel
  have hchooses : Chooses 1 twoCases [⟨2, 3, none⟩, ⟨1, 4, none⟩] (.equal 4) twoCases :=
    .refuted rfl (hliteral (x := false) (by decide +kernel)) (by decide +kernel) (by decide +kernel) (.equal rfl hscr rfl)
  obtain ⟨w, n₁, n', hscr', hchooses', -, hselects⟩ := run_case_regrouped hs nofun henv hi hj hids hids' ha hb
    (hgroup _ _) hcs hscr hv hchooses nofun nofun
  refine ⟨hs, rfl, henv, hi, hj, hids, hids', ha, hb, hgroup _ _, hcs, hscr, hv, hchooses, w, n₁, n', hscr', hchooses', ?_⟩
  obtain ⟨k, -, -, hleads, hleads', hsame⟩ | ⟨ho, -⟩ := hselects
  · exact ⟨hleads [], hleads' [], hsame 4 rfl⟩
  · cases ho

/-- Groups of elements are seen: `case [1] of [1]: 2 end` is `2`, and `case [(1)] of [1]: 2 end` is not exhaustive. So is the
group of a function that is applied to what follows: `case (<x: x> 1) of 1: 2 end` is `2`, and `case ((<x: x>) 1) of 1: 2 end`
stays a case. So are groups in a function that is compared itself:
`case (case <x: x + 1> of <x: x + 1>: 1 end) of 1: 2 end` is `2`, and stays a case with `(x)` in the first function. -/
theorem run_case_groupedElement :
    let one : Tree := .num (.ofInt 1)
    let two : Tree := .num (.ofInt 2)
    let selection (a b : Tree) : Tree := .node .case [a, .node .of [b, .node .exprs [two]]]
    let group (as : List Tree) : Tree := .node .paren [.node .exprs as]
    let identity : Tree := .function ["x"] (.ident "x")
    let next (a : Tree) : Tree := .function ["x"] (.node .add [a, one])
    let compared (a : Tree) : Tree := .node .case [next a, .node .of [next (.ident "x"), one]]
    (∃ i m, foldTree (selection (.node .list [one]) (.node .list [one])) = .ok i m ∧ m.pool.tree? i = some two) ∧
      (∃ m, foldTree (selection (.node .list [group [one]]) (.node .list [one])) =
        .error (.nonExhaustiveCase "(LIST (PAREN 1))" none) m) ∧
      (∃ i m, foldTree (selection (group [identity, one]) one) = .ok i m ∧ m.pool.tree? i = some two) ∧
      (∃ i m, foldTree (selection (group [group [identity], one]) one) = .ok i m ∧
        m.pool.tree? i = some (.node .case [group [.node .paren [identity], one], .node .of [one, two]])) ∧
      (∃ i m, foldTree (selection (compared (.ident "x")) one) = .ok i m ∧ m.pool.tree? i = some two) ∧
      ∃ i m, foldTree (selection (compared (group [.ident "x"])) one) = .ok i m ∧
        m.pool.tree? i = some (.node .case [compared (.node .paren [.ident "x"]), .node .of [one, two]]) := by
  intro one two selection group identity next compared
  refine ⟨exists_tree_of_left? (n := 60) ?_, exists_of_failure? (n := 60) ?_, exists_tree_of_left? (n := 60) ?_,
    exists_tree_of_left? (n := 60) ?_, exists_tree_of_left? (n := 99) ?_, exists_tree_of_left? (n := 99) ?_⟩
  all_goals decide +kernel

end Machine

end Linefold
