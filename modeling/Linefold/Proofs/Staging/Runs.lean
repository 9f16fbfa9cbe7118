import Linefold.Proofs.Evaluation.Agreement
import Linefold.Proofs.Staging.Expressions

/-!
# Runs that come to values

`Brings s b e work r R after p`: from the pool `p`, the work fails if there is no `r`, and otherwise comes to the tasks that
wait behind it with values on the stack that are related to `r`. The visit to a node that is an expression brings the value
of its tree (`brings_visit`). Which operator words the environment has does not matter, since all names are parameters.
-/

namespace Linefold

open Pattern (PoolM)

attribute [local irreducible] Pool.intern

/-! ### Nodes and their trees -/

namespace Pool

variable {p q : Pool} {i j : NodeId} {t u : Tree} {es : List NodeId} {ts : List Tree} {tag : Tag}

theorem HasTrees.mono (h : p.HasTrees es ts) (hpq : p.Extends q) : q.HasTrees es ts := h.imp fun _ _ => hpq.tree?

theorem tree?_unwrapGroup (h : p.tree? i = some t) : p.tree? (p.unwrapGroup i) = some t.ungroup := by
  fun_induction Tree.ungroup t generalizing i with
  | case1 t ih =>
    obtain ⟨es, hn, _ | ⟨ht, _ | _⟩⟩ := tree?_eq_node_iff.1 h
    rw [unwrapGroup_of_group hn (.inl rfl)]
    exact ih ht
  | case2 t ih =>
    obtain ⟨es, hn, _ | ⟨ht, _ | _⟩⟩ := tree?_eq_node_iff.1 h
    rw [unwrapGroup_of_group hn (.inr rfl)]
    exact ih ht
  | case3 t hparen hexprs =>
    rw [unwrapGroup_eq_self, h]
    rintro tag c hn htag
    obtain ⟨u, hu, rfl⟩ := Option.map_eq_some_iff.1 ((tree?_of_branch hn).symm.trans h)
    obtain _ | ⟨_, _ | _⟩ := mapM_tree?_iff.1 hu
    rcases htag with rfl | rfl
    · exact hparen _ rfl
    · exact hexprs _ rfl

/-- Nodes are one, seen through groups, if their trees are. -/
theorem unwrapGroup_eq_iff (hi : p.tree? i = some t) (hj : p.tree? j = some u) :
    p.unwrapGroup i = p.unwrapGroup j ↔ t.ungroup = u.ungroup := by
  have hi := tree?_unwrapGroup hi
  have hj := tree?_unwrapGroup hj
  constructor
  · intro h
    rw [h, hj] at hi
    exact (Option.some.inj hi).symm
  · intro h
    rw [h] at hi
    exact eq_of_tree? hi hj

theorem leafTree?_of_tree? (h : p.tree? i = some t) : (∃ n, p.get? i = some n ∧ leafTree? n = some t) ∨
    ∃ tag es ts, p.get? i = some (.branch tag es) ∧ t = .node tag ts ∧ p.HasTrees es ts := by
  cases t with
  | node tag ts =>
    obtain ⟨es, hn, hes⟩ := tree?_eq_node_iff.1 h
    exact .inr ⟨tag, es, ts, hn, rfl, hes⟩
  | num x => exact .inl ⟨.num x, (tree?_eq_leaf_iff rfl).1 h, rfl⟩
  | str x => exact .inl ⟨.str x, (tree?_eq_leaf_iff rfl).1 h, rfl⟩
  | ident x => exact .inl ⟨.ident x, (tree?_eq_leaf_iff rfl).1 h, rfl⟩
  | bool x => exact .inl ⟨.bool x, (tree?_eq_leaf_iff rfl).1 h, rfl⟩
  | null => exact .inl ⟨.null, (tree?_eq_leaf_iff rfl).1 h, rfl⟩

theorem literal?_of_tree? (h : p.tree? i = some t) : p.literal? i = t.literal? := by
  have h := tree?_unwrapGroup h
  rw [literal?, Tree.literal?]
  generalize t.ungroup = u at h
  rcases leafTree?_of_tree? h with ⟨n, hn, hleaf⟩ | ⟨tag, es, ts, hn, rfl, -⟩
  · rw [hn]
    cases n <;> cases hleaf <;> rfl
  · rw [hn]
    rfl

theorem number?_of_tree? (h : p.tree? i = some t) : p.number? i = t.number? := by
  have h := tree?_unwrapGroup h
  rw [number?, Tree.number?]
  generalize t.ungroup = u at h
  rcases leafTree?_of_tree? h with ⟨n, hn, hleaf⟩ | ⟨tag, es, ts, hn, rfl, -⟩
  · rw [hn]
    cases n <;> cases hleaf <;> rfl
  · rw [hn]
    rfl

theorem isGround_of_tree? (h : p.tree? i = some t) : p.isGround i = t.isGround := by
  induction i using Nat.strongRecOn generalizing t with
  | ind i ih =>
    rcases leafTree?_of_tree? h with ⟨n, hn, hleaf⟩ | ⟨tag, es, ts, hn, rfl, hes⟩
    · rw [isGround_of_leaf hn (by rintro _ _ rfl; cases hleaf)]
      cases n <;> cases hleaf <;> rfl
    · have hall : es.all p.isGround = Tree.allGround ts := by
        have hlt : ∀ e ∈ es, e < i := fun e he => lt_of_get?_branch hn he
        clear hn h
        induction hes with
        | nil => rfl
        | cons he _ ihes =>
          obtain ⟨hlt, hlts⟩ := List.forall_mem_cons.1 hlt
          rw [List.all_cons, Tree.allGround, ih _ hlt he, ihes hlts]
      rw [isGround_of_branch hn]
      cases tag with
      | binding =>
        rcases hes with _ | ⟨_, _ | ⟨hv, _ | _⟩⟩
        · rfl
        · rfl
        · simp [groundParts?, Tree.isGround, ih _ (lt_of_get?_branch hn (.tail _ (.head _))) hv]
        · rfl
      | list | record | paren | exprs => simpa [groundParts?, Tree.isGround] using hall
      | _ => simp [groundParts?, Tree.isGround]

theorem tree?_intern_leaf {n : Node} (h : leafTree? n = some t) : (p.intern n).2.tree? (p.intern n).1 = some t := by
  have helts : n.elts = [] := by cases n <;> first | rfl | cases h
  exact (tree?_eq_leaf_iff h).2 (get?_intern (by simp [helts]))

/-- A result is a leaf, and without one there is the operator over its operands. -/
theorem tree?_intern_getD {n? : Option Node} {t? : Option Tree} (h : n?.map leafTree? = t?.map some)
    (hi : p.tree? i = some t) (hj : p.tree? j = some u) :
    (p.intern (n?.getD (.branch tag [i, j]))).2.tree? (p.intern (n?.getD (.branch tag [i, j]))).1 =
      some (t?.getD (.node tag [t, u])) := by
  cases n? with
  | none =>
    cases t? with
    | none => exact tree?_intern_branch (.cons hi (.cons hj .nil))
    | some v => cases h
  | some n =>
    cases t? with
    | none => cases h
    | some v => exact tree?_intern_leaf (Option.some.inj h)

/-- The value of arithmetic on two numbers is a leaf. -/
theorem map_leafTree?_arithmetic (tag : Tag) (x y : Option Number) :
    (do return Node.num (← Number.arithmetic? tag (← x) (← y)) : Option Node).map leafTree? =
      (do return Tree.num (← Number.arithmetic? tag (← x) (← y)) : Option Tree).map some := by
  cases x <;> cases y <;> try rfl
  next x y => cases hxy : Number.arithmetic? tag x y <;> simp [hxy, leafTree?]

/-- The outcome of an operator denotes the outcome for trees. -/
theorem tree?_intern_operatorNode (hi : p.tree? i = some t) (hj : p.tree? j = some u) :
    (p.intern (p.operatorNode tag i j)).2.tree? (p.intern (p.operatorNode tag i j)).1 = some (Tree.outcome tag t u) := by
  refine tree?_intern_getD ?_ hi hj
  rw [literal?_of_tree? hi, literal?_of_tree? hj, number?_of_tree? hi, number?_of_tree? hj]
  have htexts : (do return Node.str ((← t.literal?).toText ++ (← u.literal?).toText) : Option Node).map leafTree? =
      (do return Tree.str ((← t.literal?).toText ++ (← u.literal?).toText) : Option Tree).map some := by
    cases t.literal? <;> cases u.literal? <;> rfl
  have hcompare : (do return Node.bool (← Literal.compare? tag (← t.literal?) (← u.literal?)) : Option Node).map leafTree? =
      (do return Tree.bool (← Literal.compare? tag (← t.literal?) (← u.literal?)) : Option Tree).map some := by
    cases t.literal? <;> cases u.literal? <;> try rfl
    next x y => cases hxy : Literal.compare? tag x y <;> simp [hxy, leafTree?]
  have hnumbers := map_leafTree?_arithmetic tag t.number? u.number?
  cases tag <;> first | exact htexts | exact hcompare | exact hnumbers

theorem tree?_intern_negationNode (hi : p.tree? i = some t) :
    (p.intern (p.negationNode i)).2.tree? (p.intern (p.negationNode i)).1 = some t.negated := by
  rw [negationNode, number?_of_tree? hi, Tree.negated]
  cases t.number? with
  | none => exact tree?_intern_branch (.cons hi .nil)
  | some x => exact tree?_intern_leaf rfl

end Pool

/-! ### Work that brings values -/

namespace Machine

variable {α β γ δ : Type} {s : OperandStack} {b : Nat} {e e' : Environment} {p q : Pool} {vs es : List NodeId}
  {fs fs' : List (List NodeId)} {tasks tasks' : List Task} {work : Work} {r : Option α} {k : α → Option γ}
  {R : Pool → α → β → Prop} {R' : Pool → γ → δ → Prop} {after : β → List (List NodeId)} {after' : δ → List (List NodeId)}
  {f : PoolM β} {v : α} {a : β} {i : NodeId} {t u : Tree} {ts : List Tree} {tag : Tag} {σ : String → Option Tree}
  {xs : List String}

structure Brings (s : OperandStack) (b : Nat) (e : Environment) (work : Work) (r : Option α) (R : Pool → α → β → Prop)
    (after : β → List (List NodeId)) (p : Pool) : Prop where
  value : ∀ v, r = some v → ∃ a q, p.Extends q ∧ R q v a ∧ ∀ ts, work ts = run ⟨⟨q, s.stacked (after a)⟩, e, b⟩ ts
  failure : r = none → ∀ ts, ∃ err m, work ts = .error err m

/-- One more value, for a tree. -/
abbrev BringsTree (s : OperandStack) (b : Nat) (e : Environment) (work : Work) (r : Option Tree) (vs : List NodeId)
    (fs : List (List NodeId)) (p : Pool) : Prop :=
  Brings s b e work r (fun q v i => q.tree? i = some v) (fun i => (i :: vs) :: fs) p

/-- Values for trees. -/
abbrev BringsTrees (s : OperandStack) (b : Nat) (e : Environment) (work : Work) (r : Option (List Tree))
    (after : List NodeId → List (List NodeId)) (p : Pool) : Prop :=
  Brings s b e work r (fun q vs is => q.HasTrees is vs) after p

theorem brings_nil (after : List NodeId → List (List NodeId)) :
    BringsTrees s b e (doing ⟨⟨p, s.stacked (after [])⟩, e, b⟩ []) (some []) after p where
  value _ h := by
    cases h
    exact ⟨[], p, .refl p, .nil, fun _ => rfl⟩
  failure := nofun

theorem brings_error {err : Error} {m : Machine} : Brings s b e (Step.work (.error err m)) none R after p :=
  ⟨nofun, fun _ _ => ⟨err, m, rfl⟩⟩

/-- The rest of the work starts where other work leads. -/
theorem Brings.followed (h : Brings s b e work r R after p)
    (hk : ∀ v a q, r = some v → p.Extends q → R q v a →
      Brings s b e (doing ⟨⟨q, s.stacked (after a)⟩, e, b⟩ tasks') (k v) R' after' q) :
    Brings s b e (fun ts => work (tasks' ++ ts)) (r >>= k) R' after' p := by
  cases r with
  | none =>
    refine ⟨nofun, fun _ ts => h.failure rfl _⟩
  | some v =>
    obtain ⟨a, q, hpq, hR, hwork⟩ := h.value v rfl
    have hk := hk v a q rfl hpq hR
    refine ⟨fun w hw => ?_, fun hnone ts => ?_⟩
    · obtain ⟨c, q', hqq', hR', hwork'⟩ := hk.value w hw
      exact ⟨c, q', hpq.trans hqq', hR', fun ts => (hwork _).trans (hwork' ts)⟩
    · obtain ⟨err, m, hm⟩ := hk.failure hnone ts
      exact ⟨err, m, (hwork _).trans hm⟩

theorem Brings.bind (h : Brings s b e (doing ⟨⟨p, s.stacked fs⟩, e, b⟩ tasks) r R after p)
    (hk : ∀ v a q, r = some v → p.Extends q → R q v a →
      Brings s b e (doing ⟨⟨q, s.stacked (after a)⟩, e, b⟩ tasks') (k v) R' after' q) :
    Brings s b e (doing ⟨⟨p, s.stacked fs⟩, e, b⟩ (tasks ++ tasks')) (r >>= k) R' after' p := by
  have hwork : doing ⟨⟨p, s.stacked fs⟩, e, b⟩ (tasks ++ tasks') =
      fun ts => doing ⟨⟨p, s.stacked fs⟩, e, b⟩ tasks (tasks' ++ ts) := by
    funext ts
    simp only [doing, List.append_assoc]
  rw [hwork]
  exact h.followed hk

/-- A frame is opened for the work. -/
theorem Brings.framed (h : Brings s b e (doing ⟨⟨p, s.stacked ([] :: fs)⟩, e, b⟩ tasks) r R after p) :
    Brings s b e (Step.work (reducing ⟨⟨p, s.stacked fs⟩, e, b⟩ openFrame tasks)) r R after p := by
  rw [reducing, onValues_of_ok openFrame_stacked]
  exact h

/-- Work in an inner scope, which is left when the work is done. -/
theorem Brings.inside {sc : Scope} (he' : e' = { e with inner := sc :: e.inner })
    (h : Brings s b e' (doing ⟨⟨p, s.stacked fs⟩, e', b⟩ tasks) r R after p) :
    Brings s b e (doing ⟨⟨p, s.stacked fs⟩, e', b⟩ (tasks ++ [.exit])) r R after p := by
  have hwork (ts : List Task) : doing ⟨⟨p, s.stacked fs⟩, e', b⟩ (tasks ++ [.exit]) ts =
      doing ⟨⟨p, s.stacked fs⟩, e', b⟩ tasks (.exit :: ts) := by
    simp [doing]
  refine ⟨fun v hv => ?_, fun hnone ts => ?_⟩
  · obtain ⟨a, q, hpq, hR, hrun⟩ := h.value v hv
    refine ⟨a, q, hpq, hR, fun ts => ?_⟩
    rw [hwork, hrun, run_cons, he']
    rfl
  · rw [hwork]
    exact h.failure hnone _

/-- Work that computes a value. -/
theorem Computes.brings {f : PoolM δ} {c : δ} (h : Computes s b e work f after' p) (hf : f p = .ok c q)
    (hafter : after' c = after a) (hR : R q v a) : Brings s b e work (some v) R after p := by
  have hrun (ts : List Task) : p.Grows q ∧ work ts = run ⟨⟨q, s.stacked (after' c)⟩, e, b⟩ ts := (h ts).of_eq_ok hf
  refine ⟨fun w hw => ?_, nofun⟩
  cases hw
  exact ⟨a, q, (hrun []).1.keeps, hR, fun ts => hafter ▸ (hrun ts).2⟩

/-- The values are put together. -/
theorem Brings.map {g : α → γ} (g' : β → δ) (h : Brings s b e work r R after p)
    (hR : ∀ q v a, p.Extends q → R q v a → R' q (g v) (g' a)) (hafter : ∀ a, after a = after' (g' a)) :
    Brings s b e work (do return g (← r)) R' after' p := by
  refine ⟨fun w hw => ?_, fun hnone => ?_⟩
  · obtain ⟨v, hv, hw⟩ := Option.bind_eq_some_iff.1 hw
    cases hw
    obtain ⟨a, q, hpq, hva, hrun⟩ := h.value v hv
    exact ⟨g' a, q, hpq, hR q v a hpq hva, fun ts => hafter a ▸ hrun ts⟩
  · cases r with
    | none => exact h.failure rfl
    | some v => cases hnone

end Machine

/-! ### Names -/

namespace Environment

variable {e : Environment} {p q : Pool} {X Y : String → Prop} {ρ σ : String → Option Tree}

theorem room_eq_zero_iff : e.room = 0 ↔ e.limit < e.depth := by
  unfold room
  omega

/-- The names have the trees of `σ`: those with a tree in `ρ` stand for it in the text itself, and of the others each is free or
bound to its tree. -/
def Assigns (e : Environment) (p : Pool) (X : String → Prop) (ρ σ : String → Option Tree) : Prop :=
  ∀ x, X x → (∃ c, ρ x = some c ∧ σ x = some c ∧ c.isConstant) ∨ ρ x = none ∧
    (e.lookup? x = none ∧ σ x = none ∨
      ∃ w, e.lookup? x = some w ∧ w.cls = .value ∧ p.tree? w.nid = σ x ∧ (σ x = none → w.nid = 0))

theorem Assigns.mono (h : e.Assigns p X ρ σ) (hpq : p.Extends q) : e.Assigns q X ρ σ := by
  intro x hx
  refine (h x hx).imp_right fun h => ⟨h.1, h.2.imp_right ?_⟩
  rintro ⟨w, hw, hcls, htree, hnone⟩
  refine ⟨w, hw, hcls, ?_, hnone⟩
  cases hσ : σ x with
  | none => rw [hnone hσ, Pool.tree?_of_none rfl]
  | some v => exact hpq.tree? (htree.trans hσ)

theorem Assigns.restrict (h : e.Assigns p Y ρ σ) (hXY : ∀ x, X x → Y x) : e.Assigns p X ρ σ := fun x hx => h x (hXY x hx)

end Environment

/-! ### Parts -/

namespace Machine

open Linefold.Tree

variable {s : OperandStack} {b : Nat} {e : Environment} {p q : Pool} {vs es clauses left : List NodeId}
  {fs : List (List NodeId)} {i j scrutinee first : NodeId} {t u v : Tree} {ts cs ds : List Tree} {tag : Tag}
  {X Y : String → Prop} {ρ σ : String → Option Tree} {xs : List String}

/-- The visit to a node for the tree, with what `ρ` has for its names, brings the value of the tree. -/
def Realizes (e : Environment) (X : String → Prop) (ρ σ : String → Option Tree) (t : Tree) : Prop :=
  ∀ s b p vs fs i, e.Assigns p X ρ σ → p.tree? i = some (t.replace ρ) →
    BringsTree s b e (doing ⟨⟨p, s.stacked (vs :: fs)⟩, e, b⟩ [.visit i]) (t.value? e.room σ) vs fs p

/-- Visited from the last one to the first, nodes for the trees bring their values in order. -/
def RealizesAll (e : Environment) (X : String → Prop) (ρ σ : String → Option Tree) (ts : List Tree) : Prop :=
  ∀ s b p vs fs es, e.Assigns p X ρ σ → p.HasTrees es (ts.map (replace ρ)) →
    BringsTrees s b e (doing ⟨⟨p, s.stacked (vs :: fs)⟩, e, b⟩ (es.reverse.map .visit)) (values? e.room σ ts)
      (fun us => (us ++ vs) :: fs) p

theorem Realizes.restrict (h : Realizes e X ρ σ t) (hXY : ∀ x, X x → Y x) : Realizes e Y ρ σ t :=
  fun s b p vs fs i he => h s b p vs fs i (he.restrict hXY)

/-- An operand is visited in a frame of its own. -/
theorem brings_operand {r : Option Tree}
    (h : BringsTree s b e (doing ⟨⟨p, s.stacked ([] :: vs :: fs)⟩, e, b⟩ [.visit i]) r [] (vs :: fs) p) :
    BringsTree s b e (doing ⟨⟨p, s.stacked (vs :: fs)⟩, e, b⟩ [.operand i]) r vs fs p := by
  rw [doing_singleton, ← bind_pure r]
  exact Brings.framed (h.bind fun v a q _ _ hv => computes_collect.brings rfl rfl hv)

theorem Realizes.operand (h : Realizes e X ρ σ t) (he : e.Assigns p X ρ σ) (hi : p.tree? i = some (t.replace ρ)) :
    BringsTree s b e (doing ⟨⟨p, s.stacked (vs :: fs)⟩, e, b⟩ [.operand i]) (t.value? e.room σ) vs fs p :=
  brings_operand (h s b p [] (vs :: fs) i he hi)

theorem realizesAll_nil : RealizesAll e X ρ σ [] := by
  intro s b p vs fs es _ hes
  cases hes
  exact brings_nil fun us => (us ++ vs) :: fs

theorem RealizesAll.cons (hfun : t.isFunction = false) (ht : Realizes e X ρ σ t) (hts : RealizesAll e X ρ σ ts) :
    RealizesAll e X ρ σ (t :: ts) := by
  intro s b p vs fs es he hes
  rcases hes with _ | @⟨c, _, es, _, hc, hes⟩
  have hvalues : values? e.room σ (t :: ts) = (do
      let ws ← values? e.room σ ts
      return (← value? e.room σ t) :: ws) := by
    rw [values?_cons hfun]
    cases value? e.room σ t <;> cases values? e.room σ ts <;> rfl
  rw [hvalues, List.reverse_cons, List.map_append]
  refine (hts s b p vs fs es he hes).bind fun ws us q _ hpq hus => ?_
  refine (ht s b q (us ++ vs) fs c (he.mono hpq) (hpq.tree? hc)).map (· :: us) (fun q' w a hqq' ha => ?_) fun _ => rfl
  exact .cons ha (Pool.HasTrees.mono hus hqq')

theorem realizesAll_of_forall (hfun : ∀ t ∈ ts, t.isFunction = false) (h : ∀ t ∈ ts, Realizes e X ρ σ t) :
    RealizesAll e X ρ σ ts := by
  induction ts with
  | nil => exact realizesAll_nil
  | cons t ts ih =>
    obtain ⟨ht, hts⟩ := List.forall_mem_cons.1 h
    obtain ⟨hfun, hfuns⟩ := List.forall_mem_cons.1 hfun
    exact (ih hfuns hts).cons hfun ht

theorem brings_operands (hfun : ∀ t ∈ ts, t.isFunction = false) (h : ∀ t ∈ ts, Realizes e X ρ σ t) (he : e.Assigns p X ρ σ)
    (hes : p.HasTrees es (ts.map (replace ρ))) :
    BringsTrees s b e (doing ⟨⟨p, s.stacked (vs :: fs)⟩, e, b⟩ (es.map .operand)) (values? e.room σ ts)
      (fun us => (us.reverse ++ vs) :: fs) p := by
  induction ts generalizing p vs es with
  | nil =>
    cases hes
    exact brings_nil fun us => (us.reverse ++ vs) :: fs
  | cons t ts ih =>
    obtain ⟨ht, hts⟩ := List.forall_mem_cons.1 h
    obtain ⟨hfun, hfuns⟩ := List.forall_mem_cons.1 hfun
    rcases hes with _ | ⟨hc, hcs⟩
    rw [values?_cons hfun]
    refine (ht.operand he hc).bind fun w a q _ hpq ha => ?_
    refine (ih hfuns hts (he.mono hpq) (Pool.HasTrees.mono hcs hpq)).map (a :: ·) (fun q' ws us hqq' hus => ?_) fun us => by simp
    exact .cons (hqq'.tree? ha) hus

/-! ### Nodes of expressions -/

theorem doing_visit {plan : Plan} (hi : p.get? i = some (.branch tag es)) (htag : tag ≠ .lambda)
    (hplan : Machine.plan i tag es = .ok plan) : doing ⟨⟨p, s.stacked (vs :: fs)⟩, e, b⟩ [.visit i] =
      Step.work (plan.step ⟨⟨p, s.stacked (vs :: fs)⟩, e, b⟩) :=
  doing_singleton.trans (congrArg Step.work (visit_of_plan hi htag hplan))

/-- A node that stands for itself, or a value in its place. -/
theorem brings_push (hj : p.tree? j = some t) (hstep : visit ⟨⟨p, s.stacked (vs :: fs)⟩, e, b⟩ i =
      reducing ⟨⟨p, s.stacked (vs :: fs)⟩, e, b⟩ (ValuesM.push j) []) :
    BringsTree s b e (doing ⟨⟨p, s.stacked (vs :: fs)⟩, e, b⟩ [.visit i]) (some t) vs fs p := by
  have hwork : doing ⟨⟨p, s.stacked (vs :: fs)⟩, e, b⟩ [.visit i] =
      Step.work (reducing ⟨⟨p, s.stacked (vs :: fs)⟩, e, b⟩ (ValuesM.push j) []) :=
    doing_singleton.trans (congrArg Step.work hstep)
  rw [hwork, reducing, onValues_of_ok ValuesM.push_stacked]
  exact ⟨fun w hw => ⟨j, p, .refl p, hj.trans hw, fun _ => rfl⟩, fun h => absurd h (Option.some_ne_none t)⟩

theorem realizes_literal (h : t.isLiteral) : Realizes e X ρ σ t := by
  intro s b p vs fs i he hi
  rw [replace_of_isLiteral h] at hi
  rw [value?_of_isLiteral h]
  refine brings_push hi ?_
  rcases Pool.leafTree?_of_tree? hi with ⟨n, hn, hleaf⟩ | ⟨_, _, _, _, rfl, _⟩
  · simp only [visit, pool, hn]
    cases n <;> cases hleaf <;> first | rfl | cases h
  · cases h

theorem realizes_paren (h : Realizes e X ρ σ t) : Realizes e X ρ σ (node .paren [t]) := by
  intro s b p vs fs i he hi
  obtain ⟨es, hn, _ | ⟨hc, _ | _⟩⟩ := Pool.tree?_eq_node_iff.1 hi
  rw [doing_visit hn (by decide) rfl]
  refine Brings.framed ((h s b p [] (vs :: fs) _ he hc).bind fun v a q _ hpq ha => ?_)
  exact computes_close_paren.brings rfl rfl (Pool.tree?_intern_branch (.cons ha .nil))

/-- The values of a group without a frame of its own are those of its parts, of which there is one. -/
theorem RealizesAll.exprs (h : RealizesAll e X ρ σ ts) (hone : ∀ us, values? e.room σ ts = some us → us.length = 1) :
    Realizes e X ρ σ (node .exprs ts) := by
  intro s b p vs fs i he hi
  rw [replace_node (by decide)] at hi
  obtain ⟨es, hn, hes⟩ := Pool.tree?_eq_node_iff.1 hi
  have h := h s b p vs fs es he hes
  rw [doing_visit hn (by decide) rfl, value?]
  refine ⟨fun v hv => ?_, fun hnone => ?_⟩
  · obtain ⟨us, hus, hv⟩ := Option.bind_eq_some_iff.1 hv
    obtain ⟨u, rfl⟩ := List.length_eq_one_iff.1 (hone us hus)
    cases hv
    obtain ⟨is, q, hpq, htrees, hrun⟩ := h.value _ hus
    rcases htrees with _ | ⟨hj, _ | _⟩
    exact ⟨_, q, hpq, hj, hrun⟩
  · refine h.failure (Option.eq_none_iff_forall_ne_some.2 fun us hus => ?_)
    obtain ⟨u, rfl⟩ := List.length_eq_one_iff.1 (hone us hus)
    rw [hus] at hnone
    cases hnone

theorem RealizesAll.list (h : RealizesAll e X ρ σ ts) : Realizes e X ρ σ (node .list ts) := by
  intro s b p vs fs i he hi
  rw [replace_node (by decide)] at hi
  obtain ⟨es, hn, hes⟩ := Pool.tree?_eq_node_iff.1 hi
  rw [doing_visit hn (by decide) rfl]
  refine Brings.framed ((h s b p [] (vs :: fs) es he hes).bind fun ws us q _ hpq hus => ?_)
  rw [List.append_nil]
  exact computes_close_list.brings rfl rfl (Pool.tree?_intern_branch hus)

mutual

/-- A literal list is its own value, whatever stands for names. -/
theorem realizes_constant : ∀ c : Tree, c.isConstant → Realizes e X (fun _ => none) σ c ∧ c.value? e.room σ = some c
  | node .list ts, h => by
    obtain ⟨hts, hvalues⟩ := realizesAll_constant ts h
    exact ⟨hts.list, by rw [value?, hvalues]; rfl⟩
  | .num _, h | .str _, h | .bool _, h | .null, h => ⟨realizes_literal h, value?_of_isLiteral h⟩

theorem realizesAll_constant : ∀ cs : List Tree, allConstant cs →
    RealizesAll e X (fun _ => none) σ cs ∧ values? e.room σ cs = some cs
  | [], _ => ⟨realizesAll_nil, rfl⟩
  | c :: cs, h => by
    obtain ⟨hc, hcs⟩ := Bool.and_eq_true_iff.1 h
    obtain ⟨hreal, hvalue⟩ := realizes_constant c hc
    obtain ⟨hreals, hvalues⟩ := realizesAll_constant cs hcs
    have hfun := isFunction_eq_false_of_isConstant hc
    exact ⟨hreals.cons hfun hreal, by rw [values?_cons hfun, hvalue, hvalues]; rfl⟩

end

/-- A name stands for itself, for the tree that it is bound to, or for one in its place. -/
theorem realizes_name {x : String} (hx : X x) : Realizes e X ρ σ (ident x) := by
  intro s b p vs fs i he hi
  have hi : p.tree? i = some ((ρ x).getD (ident x)) := hi
  rw [value?]
  rcases he x hx with ⟨c, hρ, hσ, hc⟩ | ⟨hρ, hx⟩
  · obtain ⟨hreal, hvalue⟩ := realizes_constant (e := e) (X := fun _ => False) (σ := σ) c hc
    rw [hρ, Option.getD_some, ← replace_none c] at hi
    rw [hσ, Option.getD_some, ← hvalue]
    exact hreal s b p vs fs i (fun _ => False.elim) hi
  rw [hρ, Option.getD_none] at hi
  have hn : p.get? i = some (.ident x) := (Pool.tree?_eq_leaf_iff rfl).1 hi
  rcases hx with ⟨hx, hσ⟩ | ⟨w, hw, hcls, htree, hnone⟩
  · have hvisit : visit ⟨⟨p, s.stacked (vs :: fs)⟩, e, b⟩ i =
        reducing ⟨⟨p, s.stacked (vs :: fs)⟩, e, b⟩ (ValuesM.push i) [] := by
      simp only [visit, pool, hn, visitName, hx]
    rw [hσ, Option.getD_none]
    exact brings_push hi hvisit
  · have hvisit : visit ⟨⟨p, s.stacked (vs :: fs)⟩, e, b⟩ i =
        reducing ⟨⟨p, s.stacked (vs :: fs)⟩, e, b⟩ (ValuesM.push (if w.nid = 0 then i else w.nid)) [] := by
      simp only [visit, pool, hn, visitName, hw, hcls]
    refine brings_push ?_ hvisit
    cases hσ : σ x with
    | none => rw [if_pos (hnone hσ), hi, Option.getD_none]
    | some v =>
      have hne : w.nid ≠ 0 := by
        intro h0
        rw [hσ, h0, Pool.tree?_of_none rfl] at htree
        cases htree
      rw [if_neg hne, htree, hσ, Option.getD_some]

/-- Values on the stack are taken by a node over them. -/
theorem brings_build {n : Nat} (es : List NodeId) (htag : tag ≠ .ident) (hes : p.HasTrees es ts) (hn : n = es.length) :
    BringsTree s b e (doing ⟨⟨p, s.stacked ((es.reverse ++ vs) :: fs)⟩, e, b⟩ [.reduce (.build tag n)]) (some (node tag ts))
      vs fs p := by
  subst hn
  exact (computes_build htag es vs).brings rfl rfl (Pool.tree?_intern_branch hes)

theorem realizes_record (hfun : ∀ t ∈ ts, t.isFunction = false) (h : ∀ t ∈ ts, Realizes e X ρ σ t) :
    Realizes e X ρ σ (node .record ts) := by
  intro s b p vs fs i he hi
  rw [replace_node (by decide)] at hi
  obtain ⟨es, hn, hes⟩ := Pool.tree?_eq_node_iff.1 hi
  rw [doing_visit hn (by decide) rfl]
  refine (brings_operands hfun h he hes).bind fun ws us q hws hpq hus => ?_
  have hlength : es.length = us.length := by
    rw [hes.length_eq, List.length_map, ((values?_eq_some hfun).1 hws).length_eq, hus.length_eq]
  exact brings_build us (by decide) hus hlength

theorem realizes_binding {key : Tree} (h : Realizes e X ρ σ t) : Realizes e X ρ σ (node .binding [key, t]) := by
  intro s b p vs fs i he hi
  obtain ⟨es, hn, hes⟩ := Pool.tree?_eq_node_iff.1 hi
  rcases hes with _ | @⟨k, _, _, _, hk, _ | @⟨c, _, _, _, hc, _ | _⟩⟩
  rw [doing_visit hn (by decide) rfl]
  show BringsTree s b e (doing ⟨⟨p, s.stacked (vs :: fs)⟩, e, b⟩
    (.reduce (.push k) :: ([.operand c] ++ [.reduce (.build .binding 2)]))) _ vs fs p
  rw [doing_push]
  refine (h.operand he hc).bind fun v a q _ hpq ha => ?_
  exact brings_build [k, a] (by decide) (.cons (hpq.tree? hk) (.cons ha .nil)) rfl

theorem realizes_negation (h : Realizes e X ρ σ t) : Realizes e X ρ σ (node .neg [t]) := by
  intro s b p vs fs i he hi
  obtain ⟨es, hn, _ | ⟨hc, _ | _⟩⟩ := Pool.tree?_eq_node_iff.1 hi
  rw [doing_visit hn (by decide) rfl]
  refine (h.operand he hc).bind fun v a q _ hpq ha => ?_
  exact computes_negate.brings rfl rfl (Pool.tree?_intern_negationNode ha)

theorem realizes_operator (htag : tag.isOperator) (hlogical : tag ≠ .or ∧ tag ≠ .and) (ht : Realizes e X ρ σ t)
    (hu : Realizes e X ρ σ u) : Realizes e X ρ σ (node tag [t, u]) := by
  intro s b p vs fs i he hi
  rw [replace_node (by cases tag <;> first | decide | cases htag)] at hi
  obtain ⟨es, hn, hes⟩ := Pool.tree?_eq_node_iff.1 hi
  obtain _ | ⟨hc, _ | ⟨hd, _ | _⟩⟩ := hes
  obtain ⟨r, hr, hplan⟩ := exists_operates htag hlogical
  have hident : tag ≠ .ident := by rintro rfl; cases htag
  rw [doing_visit hn (by rintro rfl; cases htag) (hplan i _), value?_operator htag]
  refine (ht.operand he hc).bind fun v a q _ hpq ha => ?_
  refine (hu.operand (he.mono hpq) (hpq.tree? hd)).bind fun w c q' _ hqq' hw => ?_
  obtain ⟨result, hliteral, hnode, hrun⟩ := hr q' a c
  have hoperator := computes_operator (b := b) (e := e) hident hliteral hnode (hrun s vs fs)
  exact hoperator.brings rfl rfl (Pool.tree?_intern_operatorNode (hqq'.tree? ha) hw)

/-! ### Cases -/

/-- The clause has a pattern and a body for those of the tree, and binds no name. -/
def Clause.For (p : Pool) (ρ : String → Option Tree) (k : Clause) (c : Tree) : Prop :=
  ∃ t u, c = node .of [t, u] ∧ k.names = none ∧ p.tree? k.pattern = some (t.replace ρ) ∧ p.tree? k.body = some (u.replace ρ)

theorem variable_of_names {k : Clause} (h : k.names = none) : k.variable? p = none := by
  unfold Clause.variable?
  rw [h]

theorem exists_clause_of_tree? (hof : ∃ t u, v = node .of [t, u]) (hi : p.tree? i = some (v.replace ρ)) :
    ∃ k, clause p i = .ok k ∧ Clause.For p ρ k v := by
  obtain ⟨t, u, rfl⟩ := hof
  rw [replace_clause] at hi
  obtain ⟨es, hn, hes⟩ := Pool.tree?_eq_node_iff.1 hi
  rcases hes with _ | @⟨a, _, _, _, ha, _ | @⟨c, _, _, _, hc, _ | _⟩⟩
  exact ⟨⟨a, c, none⟩, by simp only [clause, hn, Node.elts], t, u, rfl, rfl, ha, hc⟩

theorem exists_clauses_of_hasTrees (hof : ∀ c ∈ cs, ∃ t u, c = node .of [t, u]) (hcs : p.HasTrees es (cs.map (replace ρ))) :
    ∃ ks, es.mapM (clause p) = .ok ks ∧ List.Forall₂ (Clause.For p ρ) ks cs := by
  induction cs generalizing es with
  | nil =>
    cases hcs
    exact ⟨[], rfl, .nil⟩
  | cons c cs ih =>
    rcases hcs with _ | ⟨hc, hcs⟩
    obtain ⟨hof, hofs⟩ := List.forall_mem_cons.1 hof
    obtain ⟨k, hk, hkc⟩ := exists_clause_of_tree? hof hc
    obtain ⟨ks, hks, hkcs⟩ := ih hofs hcs
    refine ⟨k :: ks, ?_, .cons hkc hkcs⟩
    rw [List.mapM_cons, hk, hks]
    rfl

theorem brings_residualClauses {ks : List Clause} (h : Clauses (Realizes e X ρ σ) cs)
    (hks : List.Forall₂ (Clause.For p ρ) ks cs) (hpq : p.Extends q) (he : e.Assigns q X ρ σ) :
    BringsTrees s b e (doing ⟨⟨q, s.stacked (vs :: fs)⟩, e, b⟩ (ks.map (Clause.tasks p)).flatten) (values? e.room σ cs)
      (fun us => (us.reverse ++ vs) :: fs) q := by
  induction hks generalizing q vs with
  | nil => exact brings_nil fun us => (us.reverse ++ vs) :: fs
  | @cons k c ks cs hk _ ih =>
    obtain ⟨t, u, rfl, ht, hu⟩ := h c (.head _)
    obtain ⟨_, _, ⟨⟩, hnames, hpattern, hbody⟩ := hk
    have htasks : Clause.tasks p k = [.operand k.pattern] ++ ([.operand k.body] ++ [.reduce (.build .of 2)]) := by
      unfold Clause.tasks
      rw [variable_of_names hnames]
      rfl
    have hclause : BringsTree s b e (doing ⟨⟨q, s.stacked (vs :: fs)⟩, e, b⟩ (Clause.tasks p k))
        (value? e.room σ (node .of [t, u])) vs fs q := by
      rw [htasks]
      refine (ht.operand he (hpq.tree? hpattern)).bind fun v a q' _ hqq' ha => ?_
      refine (hu.operand (he.mono hqq') ((hpq.trans hqq').tree? hbody)).bind fun w c q'' _ hq'' hc => ?_
      exact brings_build [a, c] (by decide) (.cons (hq''.tree? ha) (.cons hc .nil)) rfl
    rw [values?_cons rfl]
    refine hclause.bind fun v a q' _ hqq' ha => ?_
    refine (ih h.tail (hpq.trans hqq') (he.mono hqq')).map (a :: ·) (fun q'' ws us hq'' hus => ?_) fun us => by simp
    exact .cons (hq''.tree? ha) hus

theorem brings_residual (h : Clauses (Realizes e X ρ σ) cs) (he : e.Assigns p X ρ σ)
    (hi : p.get? i = some (.branch .case (first :: clauses))) (hcs : p.HasTrees clauses (cs.map (replace ρ)))
    (hj : p.tree? j = some v) :
    BringsTree s b e (Step.work (residualCase ⟨⟨p, s.stacked (vs :: fs)⟩, e, b⟩ i j)) (selected? e.room σ v cs (some none)) vs
      fs p := by
  obtain ⟨ks, hks, hfor⟩ := exists_clauses_of_hasTrees (fun c hc => by
    obtain ⟨t, u, rfl, -⟩ := h c hc
    exact ⟨t, u, rfl⟩) hcs
  have hresidual : residualCase ⟨⟨p, s.stacked (vs :: fs)⟩, e, b⟩ i j = .ok (.reduce (.push j) ::
      ((ks.map (Clause.tasks p)).flatten ++ [.reduce (.build .case (first :: clauses).length)]))
        ⟨⟨p, s.stacked (vs :: fs)⟩, e, b⟩ := by
    simp only [residualCase, pool, hi, Node.elts, List.drop_one, List.tail_cons, mapM_residualClause, hks]
    rfl
  rw [hresidual, work_ok, doing_push]
  refine (brings_residualClauses h hfor (.refl p) he).bind fun ws us q hws hpq hus => ?_
  have hlength : (first :: clauses).length = (j :: us).length := by
    rw [List.length_cons, List.length_cons, hcs.length_eq, List.length_map,
      ((values?_eq_some h.isFunction_eq_false).1 hws).length_eq, hus.length_eq]
  have hbuild : BringsTree s b e (doing ⟨⟨q, s.stacked (((j :: us).reverse ++ vs) :: fs)⟩, e, b⟩
      [.reduce (.build .case (first :: clauses).length)]) (some (node .case (v :: ws))) vs fs q :=
    brings_build (j :: us) (by decide) (.cons (hpq.tree? hj) hus) hlength
  rw [List.reverse_cons, List.append_assoc] at hbuild
  exact hbuild

theorem brings_select (h : Clauses (Realizes e X ρ σ) cs) (he : e.Assigns p X ρ σ)
    (hi : p.get? i = some (.branch .case (first :: clauses))) (hcs : p.HasTrees clauses (cs.map (replace ρ)))
    (hj : p.tree? j = some v) (hleft : p.HasTrees left (ds.map (replace ρ))) (hds : ∀ c ∈ ds, c ∈ cs) :
    BringsTree s b e (Step.work (select ⟨⟨p, s.stacked (vs :: fs)⟩, e, b⟩ i j left))
      (selected? e.room σ v cs (choice? e.room σ v ds)) vs fs p := by
  induction ds generalizing p left with
  | nil =>
    cases hleft
    simp only [select, exhausted, pool, Pool.isGround_of_tree? hj]
    rw [choice?]
    · split
      · exact brings_error
      · exact brings_residual h he hi hcs hj
    · rintro _ _ _ ⟨⟩
  | cons d ds ih =>
    rcases hleft with _ | @⟨l, _, left, _, hl, hleft⟩
    obtain ⟨hd, hds⟩ := List.forall_mem_cons.1 hds
    obtain ⟨t, u, rfl, ht, hu⟩ := h d hd
    obtain ⟨k, hk, _, _, ⟨⟩, hnames, hpattern, hbody⟩ := exists_clause_of_tree? ⟨t, u, rfl⟩ hl
    have hvariable : k.variable? p = none := variable_of_names hnames
    rw [selected?_choice?_cons]
    simp only [select, pool, hk, hvariable]
    refine (ht.operand he hpattern).bind fun w a q _ hpq ha => ?_
    have hkq : clause q l = .ok k := (clause_eq_of_le hpq (le_size_of_clause hk)).trans hk
    have hjq := hpq.tree? hj
    rw [doing_singleton]
    simp only [resume, onValues_of_ok ValuesM.pop_stacked, tryClause, pool, hkq]
    by_cases hsame : w.ungroup = v.ungroup
    · rw [if_pos ((Pool.unwrapGroup_eq_iff ha hjq).2 hsame), if_pos hsame]
      exact hu s b q vs fs _ (he.mono hpq) (hpq.tree? hbody)
    · have hground : (q.isGround j && q.isGround a) = (v.isGround && w.isGround) := by
        rw [Pool.isGround_of_tree? ha, Pool.isGround_of_tree? hjq]
      rw [if_neg (mt (Pool.unwrapGroup_eq_iff ha hjq).1 hsame), if_neg hsame]
      by_cases hboth : v.isGround && w.isGround
      · simp only [hground, hboth, ↓reduceIte]
        exact ih (he.mono hpq) (hpq _ _ hi) (Pool.HasTrees.mono hcs hpq) hjq (Pool.HasTrees.mono hleft hpq) ‹_›
      · simp only [hground, hboth, Bool.false_eq_true, ↓reduceIte]
        exact brings_residual h (he.mono hpq) (hpq _ _ hi) (Pool.HasTrees.mono hcs hpq) hjq

theorem realizes_case (ht : Realizes e X ρ σ t) (hcs : Clauses (Realizes e X ρ σ) cs) :
    Realizes e X ρ σ (node .case (t :: cs)) := by
  intro s b p vs fs i he hi
  rw [replace_node (by decide)] at hi
  obtain ⟨es, hn, hes⟩ := Pool.tree?_eq_node_iff.1 hi
  rcases hes with _ | @⟨c, _, clauses, _, hc, hclauses⟩
  rw [doing_visit hn (by decide) rfl, value?_case]
  refine (ht.operand he hc).bind fun v a q _ hpq ha => ?_
  rw [doing_singleton]
  simp only [resume, onValues_of_ok ValuesM.pop_stacked, pool, hpq _ _ hn, Node.elts, List.drop_one, List.tail_cons]
  have hclauses := Pool.HasTrees.mono hclauses hpq
  exact brings_select hcs (he.mono hpq) (hpq _ _ hn) hclauses ha hclauses fun _ h => h

/-! ### Expressions -/

/-- An expression over parameters folds to its value, or fails if it has none. -/
theorem realizes_of_isExpression (h : t.IsExpression xs) : Realizes e (· ∈ xs) ρ σ t := by
  induction h with
  | literal h => exact realizes_literal h
  | name h => exact realizes_name h
  | group htag h ih =>
    rcases htag with rfl | rfl
    · exact realizes_paren ih
    · refine RealizesAll.exprs (realizesAll_nil.cons h.isFunction_eq_false ih) fun us hus => ?_
      rw [values?_eq_some (List.forall_mem_singleton.2 h.isFunction_eq_false)] at hus
      exact hus.length_eq.symm
  | items htag h ih =>
    have hfun := fun t ht => (h t ht).isFunction_eq_false
    rcases htag with rfl | rfl
    · exact (realizesAll_of_forall hfun ih).list
    · exact realizes_record hfun ih
  | binding _ ih => exact realizes_binding ih
  | negation _ ih => exact realizes_negation ih
  | operator htag hlogical _ _ iht ihu => exact realizes_operator htag hlogical iht ihu
  | case _ hof _ _ iht ihp ihu =>
    refine realizes_case iht fun c hc => ?_
    obtain ⟨p, u, rfl⟩ := hof c hc
    exact ⟨p, u, rfl, ihp p u hc, ihu p u hc⟩

end Machine

end Linefold
