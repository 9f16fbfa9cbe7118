import Linefold.Proofs.Staging.Calls

/-!
# Functions applied in two stages

A function of plain parameters whose body is an expression, applied to some literals, leaves a function of the other
parameters. Applied to the other literals, this one comes to what the first function comes to when it is applied to all of
them at once (`Machine.fold_staged`). Where the body has a case with cases both in its scrutinee and in a pattern, it may do
so although the first function fails (`Machine.fold_undecided`).
-/

namespace Linefold

attribute [local irreducible] Pool.intern

/-! ### Functions and their arguments -/

namespace Tree

variable {xs : List String} {as bs : List Tree} {x : String} {body v : Tree}

/-- The function of some plain parameters. -/
def function (xs : List String) (body : Tree) : Tree :=
  node .lambda [node .list (xs.map ident), body, node .list (xs.map ident)]

/-- A function before its arguments. -/
def application (f : Tree) (args : List Tree) : Tree := node .exprs (f :: args)

/-- The arguments of the first parameters. -/
def assigned (xs : List String) (as : List Tree) : String → Option Tree := fun x => (xs.zip as).lookup x

/-- What a function comes to when it is applied to arguments: its value, or a function of the parameters left. -/
def applied? (n : Nat) (xs : List String) (body : Tree) (as : List Tree) : Option Tree :=
  if n = 0 then none else do return applied (xs.map ident) (← value? (n - 1) (assigned xs as) body) as

theorem assigned_cons {y : String} {a : Tree} :
    assigned (y :: xs) (a :: as) x = if x = y then some a else assigned xs as x := by
  rw [assigned, List.zip_cons_cons, List.lookup_cons]
  by_cases h : x = y
  · simp [h]
  · simp [h, assigned, beq_eq_false_iff_ne.2 h]

theorem assigned_nil : assigned xs [] x = none := by
  rw [assigned, List.zip_nil_right, List.lookup_nil]

theorem isLiteral_of_assigned (h : ∀ a ∈ as, a.isLiteral) (hx : assigned xs as x = some v) : v.isLiteral := by
  induction xs generalizing as with
  | nil => cases hx
  | cons y xs ih =>
    cases as with
    | nil => cases hx
    | cons a as =>
      obtain ⟨ha, has⟩ := List.forall_mem_cons.1 h
      rw [assigned_cons] at hx
      split at hx
      · cases hx
        exact ha
      · exact ih has hx

/-- Plain parameters are bound to the arguments. -/
theorem bound_map_ident : bound (xs.map ident) as (fun _ => none) = assigned xs as := by
  funext x
  unfold bound
  generalize 0 = i
  induction xs generalizing as i with
  | nil => rfl
  | cons y xs ih =>
    have hhead : as.head?.map (referred i (ident y)) = as.head? := by
      cases as with
      | nil => rfl
      | cons a as => rfl
    rw [List.map_cons, parameters, hhead, bindings, List.singleton_append, List.lookup_cons]
    by_cases h : x = y
    · subst h
      cases as with
      | nil => simp [assigned]
      | cons a as => simp [assigned_cons]
    · rw [beq_eq_false_iff_ne.2 h]
      cases as with
      | nil =>
        rw [List.tail_nil]
        exact (ih (i + 1)).trans (by rw [assigned_nil, assigned_nil])
      | cons a as =>
        rw [assigned_cons, if_neg h, List.tail_cons]
        exact ih (i + 1)

theorem applied_map_ident :
    applied (xs.map ident) v as = if as.length = xs.length then v else function (xs.drop as.length) v := by
  rw [applied, isLate_map_ident, if_neg (by decide), List.length_map]
  split
  · rfl
  · rw [← List.map_drop, lambda, identsAll_map_ident]
    rfl

/-- A name without an argument is one of the parameters left. -/
theorem mem_drop_of_assigned (hx : x ∈ xs) (h : assigned xs as x = none) : x ∈ xs.drop as.length := by
  induction xs generalizing as with
  | nil => cases hx
  | cons y xs ih =>
    cases as with
    | nil => exact hx
    | cons a as =>
      rw [assigned_cons] at h
      split at h
      · cases h
      · next hne => exact ih ((List.mem_cons.1 hx).resolve_left hne) h

/-- The arguments of two stages. -/
theorem assigned_append (h : as.length ≤ xs.length) :
    assigned xs (as ++ bs) x = (assigned xs as x).or (assigned (xs.drop as.length) bs x) := by
  induction as generalizing xs with
  | nil => rw [assigned_nil, Option.none_or, List.nil_append, List.length_nil, List.drop_zero]
  | cons a as ih =>
    cases xs with
    | nil => cases h
    | cons y xs =>
      rw [List.cons_append, assigned_cons, assigned_cons]
      split
      · rfl
      · exact ih (Nat.le_of_succ_le_succ h)

/-- What is left of a function is read as it is. -/
def second (xs : List String) (n : Nat) (bs : List Tree) : Second where
  names := xs
  room := n
  known := assigned xs bs
  read := id
  read_of_isLiteral _ _ := rfl
  read_node _ _ _ := by rw [List.map_id]; rfl
  read_binding _ _ := rfl
  read_clause _ _ := rfl

theorem reads_assigned {n : Nat} (h : ∀ a ∈ as, a.isLiteral) (hx : x ∈ xs) :
    (second (xs.drop as.length) n bs).Reads ((assigned xs as x).getD (ident x)) := by
  cases hv : assigned xs as x with
  | none => exact ⟨.name (mem_drop_of_assigned hx hv), nofun⟩
  | some v => exact reads_of_isLiteral (isLiteral_of_assigned h hv)

theorem value?_assigned {n : Nat} (h : ∀ a ∈ as, a.isLiteral) (hlength : as.length ≤ xs.length) :
    (second (xs.drop as.length) n bs).value? ((assigned xs as x).getD (ident x)) =
      some ((assigned xs (as ++ bs) x).getD (ident x)) := by
  have hboth : assigned xs (as ++ bs) x = (assigned xs as x).or (assigned (xs.drop as.length) bs x) :=
    assigned_append hlength
  rw [hboth]
  cases hv : assigned xs as x with
  | none => rfl
  | some v =>
    exact value?_of_isLiteral (isLiteral_of_assigned h hv)

end Tree

/-! ### Applications -/

namespace Machine

open Linefold.Tree

variable {s : OperandStack} {b : Nat} {e : Environment} {p q : Pool} {us ps es : List NodeId} {fs : List (List NodeId)}
  {i c : NodeId} {as bs : List Tree} {xs : List String} {body t v : Tree} {α β : Type} {work : Work} {r : Option α}
  {R : Pool → α → β → Prop} {after : β → List (List NodeId)} {m : Machine}

/-- A function before literals, in a frame of its own. -/
theorem brings_application (hxs : xs.Nodup) (hbody : body.IsExpression xs) (hliterals : ∀ a ∈ as, a.isLiteral)
    (has : as.length ≤ xs.length) (hc : p.tree? c = some (application (function xs body) as)) :
    BringsTree s b e (doing ⟨⟨p, s.stacked ([] :: fs)⟩, e, b⟩ [.visit c]) (applied? e.room xs body as) [] fs p := by
  obtain ⟨es, hn, hes⟩ := Pool.tree?_eq_node_iff.1 hc
  rcases hes with _ | @⟨i, _, es, _, hi, hes⟩
  have hassigns : e.Assigns p (fun _ => False) (fun _ => none) fun _ => none := fun _ => False.elim
  have hargs : BringsTrees s b e (doing ⟨⟨p, s.stacked ([] :: fs)⟩, e, b⟩ (es.reverse.map .visit)) (some as)
      (fun us => (us ++ []) :: fs) p := by
    have hfun : ∀ a ∈ as, a.isFunction = false := fun a ha => isFunction_eq_false_of_isLiteral (hliterals a ha)
    have hvalues : values? e.room (fun _ => none) as = some as :=
      (values?_eq_some hfun).2 (List.forall₂_same.2 fun a ha => value?_of_isLiteral (hliterals a ha))
    rw [← hvalues]
    refine realizesAll_of_forall hfun (fun a ha => realizes_literal (hliterals a ha)) s b p [] fs es hassigns ?_
    rwa [← replaceAll_eq_map, replaceAll_none]
  have hvisits : doing ⟨⟨p, s.stacked ([] :: fs)⟩, e, b⟩ [.visit c] =
      doing ⟨⟨p, s.stacked ([] :: fs)⟩, e, b⟩ (es.reverse.map .visit ++ [.visit i]) := by
    rw [doing_visit hn (by decide) rfl]
    show doing ⟨⟨p, s.stacked ([] :: fs)⟩, e, b⟩ ((i :: es).reverse.map .visit) = _
    rw [List.reverse_cons, List.map_append]
    rfl
  rw [hvisits]
  refine hargs.bind (k := fun _ => applied? _ _ _ _) fun as' us q has' hpq hus => ?_
  cases has'
  have hi : q.tree? i = some ((function xs body).replace fun _ => none) := by
    rw [replace_none]
    exact hpq.tree? hi
  have htake : as.take (xs.map ident).length = as := List.take_of_length_le (by rwa [List.length_map])
  have hdrop : us.drop (xs.map ident).length = [] :=
    List.drop_eq_nil_of_le (by rwa [List.length_map, hus.length_eq])
  have hcall := brings_call s b [] fs hi (by simp [isPattern])
    (by rwa [identsAll_map_ident]) (hassigns.mono hpq) hus (.inr rfl) (fun x hx => .inl (by rwa [identsAll_map_ident]))
    fun e' => realizes_of_isExpression hbody
  rw [htake, hdrop, bound_map_ident] at hcall
  exact hcall

/-! ### Folds -/

/-- What a fold comes to: a node for the tree, or an error if there is none. -/
def Comes (o : EStateM.Result Error Machine NodeId) (r : Option Tree) : Prop :=
  match o with
  | .ok i m => m.pool.tree? i = r ∧ r.isSome
  | .error _ _ => r = none

theorem comes_concluded {r : Option Tree} (h : BringsTree s b e work r [] [] p) : Comes (concluded e (work [])) r := by
  cases r with
  | none =>
    obtain ⟨err, m, hwork⟩ := h.failure rfl []
    rw [hwork]
    rfl
  | some v =>
    obtain ⟨i, q, -, hi, hwork⟩ := h.value v rfl
    have hclose : (s.stacked [[i]]).closeFrame = ([i], s) := OperandStack.closeFrame_stacked
    rw [hwork, run_nil, concluded, finish, hclose]
    exact ⟨hi, rfl⟩

/-- A fold comes to what the visit brings. -/
theorem comes_fold {r : Option Tree}
    (h : BringsTree s operatorBudget e (doing ⟨⟨p, s.stacked [[], []]⟩, e, operatorBudget⟩ [.visit c]) r [] [[]] p) :
    Comes (fold ⟨⟨p, s⟩, e, b⟩ c) r := by
  rw [fold_eq_concluded]
  exact comes_concluded (brings_operand h)

/-- A function of plain parameters before literals comes to its value, or to what is left of it. -/
theorem fold_application (hxs : xs.Nodup) (hbody : body.IsExpression xs) (hliterals : ∀ a ∈ as, a.isLiteral)
    (has : as.length ≤ xs.length) (hc : m.pool.tree? c = some (application (function xs body) as)) :
    Comes (m.fold c) (applied? m.env.room xs body as) := by
  obtain ⟨⟨p, s⟩, e, b⟩ := m
  exact comes_fold (brings_application hxs hbody hliterals has hc)

/-- The second outcome comes of one stage and the first one of two: the same tree, or an error in both. Only where `P` does
not hold, two stages may come to a tree against an error. -/
def Staged (P : Prop) : EStateM.Result Error Machine NodeId → EStateM.Result Error Machine NodeId → Prop
  | .ok i n, .ok j o => ∃ v, n.pool.tree? i = some v ∧ o.pool.tree? j = some v
  | .ok _ _, .error _ _ => ¬ P
  | .error _ _, .ok _ _ => False
  | .error _ _, .error _ _ => True

theorem staged_of_lags {P : Prop} {o o' : EStateM.Result Error Machine NodeId} {r r' : Option Tree} (h : Comes o r)
    (h' : Comes o' r') (hlags : Lags P r' r) : Staged P o o' := by
  cases o with
  | ok i n =>
    obtain ⟨hi, hr⟩ := h
    cases o' with
    | ok j n' =>
      obtain ⟨hj, hr'⟩ := h'
      obtain ⟨v, hv⟩ := Option.isSome_iff_exists.1 hr'
      have heq : r' = r := hlags.resolve_right fun hnone => by simp [hnone.1] at hv
      exact ⟨v, hi.trans (heq ▸ hv), hj.trans hv⟩
    | error err n' =>
      cases h'
      exact (hlags.resolve_left fun heq => by simp [← heq] at hr).2
  | error err n =>
    cases h
    cases o' with
    | ok j n' =>
      obtain ⟨-, hr'⟩ := h'
      rcases hlags with rfl | ⟨rfl, -⟩ <;> cases hr'
    | error => trivial

/-- What a function of plain parameters leaves when it is applied to some literals is a function of the parameters left.
Wherever this is applied to further literals, it comes to what the function comes to that is applied to all of them. -/
theorem fold_staged {m' : Machine} (hxs : xs.Nodup) (hbody : body.IsExpression xs)
    (hliterals : ∀ a ∈ as ++ bs, a.isLiteral) (hlength : (as ++ bs).length = xs.length) (hbs : bs ≠ [])
    (hc : m.pool.tree? c = some (application (function xs body) as)) (hfirst : m.fold c = .ok i m') :
    ∃ v, m'.pool.tree? i = some (function (xs.drop as.length) v) ∧
      ∀ n o : Machine, n.env = m.env → o.env = m.env → ∀ d f,
        n.pool.tree? d = some (application (function (xs.drop as.length) v) bs) →
        o.pool.tree? f = some (application (function xs body) (as ++ bs)) → Staged body.isApart (n.fold d) (o.fold f) := by
  obtain ⟨has, hbs'⟩ := List.forall_mem_append.1 hliterals
  have hpos : 0 < bs.length := List.length_pos_iff.2 hbs
  rw [List.length_append] at hlength
  have hfold := fold_application hxs hbody has (by omega) hc
  rw [hfirst] at hfold
  obtain ⟨htree, hsome⟩ := hfold
  have hroom : m.env.room ≠ 0 := fun h => by simp [applied?, h] at hsome
  obtain ⟨r, hr⟩ := Option.isSome_iff_exists.1 hsome
  rw [hr] at htree
  rw [applied?, if_neg hroom] at hr
  obtain ⟨v, hv, hr⟩ := Option.bind_eq_some_iff.1 hr
  rw [applied_map_ident, if_neg (by omega)] at hr
  cases hr
  refine ⟨v, htree, fun n o hn ho d f hd hf => ?_⟩
  have hnames (x : String) (hx : x ∈ xs) :
      (second (xs.drop as.length) (m.env.room - 1) bs).Reads ((assigned xs as x).getD (ident x)) := reads_assigned has hx
  have hleft : v.IsExpression (xs.drop as.length) := (hbody.leaves hnames v hv).expression
  have hrest := fold_application (hxs.sublist (List.drop_sublist _ _)) hleft hbs' (by rw [List.length_drop]; omega) hd
  have hall := fold_application hxs hbody hliterals (by rw [List.length_append]; omega) hf
  have hstages := hbody.stages hnames (fun x _ => value?_assigned has (by omega)) id v hv
  refine staged_of_lags hrest hall ?_
  have hboth {n : Nat} {xs : List String} {body : Tree} {as : List Tree} (hn : n ≠ 0) (h : as.length = xs.length) :
      applied? n xs body as = value? (n - 1) (assigned xs as) body := by
    rw [applied?, if_neg hn]
    cases value? (n - 1) (assigned xs as) body with
    | none => rfl
    | some v => exact congrArg some (applied_map_ident.trans (if_pos h))
  rw [hn, ho, hboth hroom (by rw [List.length_append]; omega), hboth hroom (by rw [List.length_drop]; omega)]
  exact hstages

/-- A machine whose pool holds one tree. -/
def ofTree (t : Tree) : Machine := ofPool (Pool.empty.internTree t).2 .initial

def foldTree (t : Tree) : EStateM.Result Error Machine NodeId := (ofTree t).fold (Pool.empty.internTree t).1

theorem tree?_ofTree (t : Tree) : (ofTree t).pool.tree? (Pool.empty.internTree t).1 = some t := Pool.tree?_internTree _ _

theorem comes_foldTree (hxs : xs.Nodup) (hbody : body.IsExpression xs) (hliterals : ∀ a ∈ as, a.isLiteral)
    (has : as.length ≤ xs.length) :
    Comes (foldTree (application (function xs body) as)) (applied? Environment.initial.room xs body as) :=
  fold_application hxs hbody hliterals has (tree?_ofTree _)

theorem isExpression_case {pattern result : Tree} (ht : t.IsExpression xs) (hp : pattern.IsExpression xs)
    (hr : result.IsExpression xs) : (node .case [t, node .of [pattern, result]]).IsExpression xs := by
  refine .case ht (fun c hc => ⟨pattern, result, List.mem_singleton.1 hc⟩) (fun p u hc => ?_) fun p u hc => ?_ <;>
    cases List.mem_singleton.1 hc
  · exact hp
  · exact hr

/-- `<x y: case y of x: x - y end> 1`, and then what is left before `2`. -/
theorem fold_staged_difference :
    let body : Tree := .node .case [.ident "y", .node .of [.ident "x", .node .sub [.ident "x", .ident "y"]]]
    let one : Tree := .num (.ofInt 1)
    let two : Tree := .num (.ofInt 2)
    ∃ i m, foldTree (application (function ["x", "y"] body) [one]) = .ok i m ∧ ∃ v, m.pool.tree? i = some (function ["y"] v) ∧
      Staged True (foldTree (application (function ["y"] v) [two]))
        (foldTree (application (function ["x", "y"] body) [one, two])) := by
  intro body one two
  have hx : (Tree.ident "x").IsExpression ["x", "y"] := .name (by decide)
  have hy : (Tree.ident "y").IsExpression ["x", "y"] := .name (by decide)
  have hbody : body.IsExpression ["x", "y"] := isExpression_case hy hx (.operator rfl (by decide) hx hy)
  have hfirst : Comes (foldTree (application (function ["x", "y"] body) [one]))
      (applied? Environment.initial.room ["x", "y"] body [one]) :=
    comes_foldTree (by decide) hbody (by decide) (by decide)
  have happlied : applied? Environment.initial.room ["x", "y"] body [one] ≠ none := by decide +kernel
  have hapart : body.isApart = True := eq_true rfl
  cases hfold : foldTree (application (function ["x", "y"] body) [one]) with
  | error err m =>
    rw [hfold] at hfirst
    exact absurd hfirst happlied
  | ok i m =>
    have hliterals : ∀ a ∈ [one] ++ [two], a.isLiteral := by decide
    obtain ⟨v, hv, hstaged⟩ := fold_staged (by decide) hbody hliterals rfl (by decide) (tree?_ofTree _) hfold
    have hboth := hstaged (ofTree (application (function ["y"] v) [two]))
      (ofTree (application (function ["x", "y"] body) [one, two])) rfl rfl _ _ (tree?_ofTree _) (tree?_ofTree _)
    rw [hapart] at hboth
    exact ⟨i, m, rfl, v, hv, hboth⟩

/-- Where the first of two stages decides a case, the second one does not look at its scrutinee: in
`<x y: case case y of true: 1 end of case y of true: 1 end: 2 end>`, applied to `0`, scrutinee and pattern are one node, and
`<y: 2>` is left. Applied to `0` and `false`, no case matches. -/
theorem fold_staged_undecided :
    let inner : Tree := .node .case [.ident "y", .node .of [.bool true, .num (.ofInt 1)]]
    let body : Tree := .node .case [inner, .node .of [inner, .num (.ofInt 2)]]
    let zero : Tree := .num (.ofInt 0)
    let left : Tree := function ["y"] (.num (.ofInt 2))
    body.IsExpression ["x", "y"] ∧ Comes (foldTree (application (function ["x", "y"] body) [zero])) (some left) ∧
      Comes (foldTree (application left [.bool false])) (some (.num (.ofInt 2))) ∧
      Comes (foldTree (application (function ["x", "y"] body) [zero, .bool false])) none := by
  intro inner body zero left
  have hinner : inner.IsExpression ["x", "y"] := isExpression_case (.name (by decide)) (.literal rfl) (.literal rfl)
  have hbody : body.IsExpression ["x", "y"] := isExpression_case hinner hinner (.literal rfl)
  have hfirst : applied? Environment.initial.room ["x", "y"] body [zero] = some left := by decide +kernel
  have hsecond : applied? Environment.initial.room ["y"] (.num (.ofInt 2)) [.bool false] = some (.num (.ofInt 2)) := by
    decide +kernel
  have hboth : applied? Environment.initial.room ["x", "y"] body [zero, .bool false] = none := by decide +kernel
  refine ⟨hbody, ?_, ?_, ?_⟩
  · rw [← hfirst]
    exact comes_foldTree (by decide) hbody (by decide) (by decide)
  · rw [← hsecond]
    exact comes_foldTree (by decide) (.literal rfl) (by decide) (by decide)
  · rw [← hboth]
    exact comes_foldTree (by decide) hbody (by decide) (by decide)

end Machine

end Linefold
