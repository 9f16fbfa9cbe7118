import Linefold.Folder
import Linefold.Proofs.Folding.Frames
import Linefold.Proofs.Respacing.InStep

/-!
# Folding in step

A fold looks up nodes and never their places, but for one: the error for a case that no clause matches says
where the case stands. Two machines over pools with the same nodes therefore take the same steps
(`Machine.Respaced.resume`) and give the same value, or the same error but for its place
(`Machine.Respaced.fold`).
-/

namespace Linefold

attribute [local irreducible] Pool.intern

variable {α : Type} {R : α → α → Prop}

/-! ### Patterns -/

namespace Pattern

/-- Computations on the pool that do the same in pools with the same nodes. -/
abbrev Steady (f : PoolM α) : Prop := InStep Pool.SameNodes f f Eq

theorem steady_intern (n : Node) : Steady (PoolM.intern n) := fun _ _ h => .ok (h.intern n).2 (h.intern n).1

theorem steady_listItems? (value : NodeId) : Steady (PoolM.listItems? value) :=
  fun _ _ h => .ok h (h.listItems?_eq value)

theorem steady_projection (i : Nat) (value : NodeId) : Steady (projection i value) :=
  (steady_intern _).bind_eq fun _ => steady_intern _

theorem steady_append {f g : PoolM (List Word)} (hf : Steady f) (hg : Steady g) :
    Steady (do return (← f) ++ (← g)) :=
  hf.bind_eq fun _ => hg.bind_eq fun _ => .pure rfl

mutual

theorem steady_words (value : NodeId) (offset : Nat) : ∀ x : Pattern, Steady (words value offset x)
  | .name _ _ => .pure rfl
  | .list ps => (steady_listItems? value).bind_eq fun items =>
      match items with
      | some items => steady_wordsOfItems items 0 ps
      | none => steady_wordsOfParts value 0 ps
  | .faulty _ => .throw rfl

theorem steady_wordsOfItems (items : List NodeId) (i : Nat) :
    ∀ ps : List Pattern, Steady (wordsOfItems items i ps)
  | [] => .pure rfl
  | p :: ps => steady_append (steady_words _ i p) (steady_wordsOfItems items.tail (i + 1) ps)

theorem steady_wordsOfParts (value : NodeId) (i : Nat) :
    ∀ ps : List Pattern, Steady (wordsOfParts value i ps)
  | [] => .pure rfl
  | p :: ps => (steady_projection i value).bind_eq fun part =>
      steady_append (steady_words part i p) (steady_wordsOfParts value (i + 1) ps)

end

/-- What is read off the pool is the same on both sides. -/
theorem inStep_get {k k' : Pool → PoolM α} (h : ∀ p q, p.SameNodes q → InStep Pool.SameNodes (k p) (k' q) R) :
    InStep Pool.SameNodes (do k (← get)) (do k' (← get)) R :=
  fun p q hpq => h p q hpq p q hpq

theorem steady_bindAll (args : List NodeId) (i : Nat) (patterns : List NodeId) :
    Steady (bindAll args i patterns) := by
  induction patterns generalizing args i with
  | nil => exact .pure rfl
  | cons pattern patterns ih =>
    refine inStep_get fun p q hpq => ?_
    rw [hpq.tag?_eq, funext hpq.listItems?_eq, hpq.pattern_eq]
    extract_lets arg late shape jp
    have hrest (source : NodeId) : Steady (jp source) :=
      (steady_words source i shape).bind_eq fun ws => (ih args.tail (i + 1)).bind_eq fun rest => .pure rfl
    refine .ite (fun _ => ?_) fun _ => hrest arg
    exact (steady_intern _).bind_eq fun index => (steady_intern _).bind_eq hrest

theorem steady_lambdaParts (patterns : List NodeId) : Steady (lambdaParts patterns) := by
  refine inStep_get fun p q hpq => ?_
  rw [List.map_congr_left fun id _ => hpq.pattern_eq id]
  cases namesOfAll (patterns.map q.pattern) with
  | error fault => exact .throw rfl
  | ok names => exact (steady_intern _).bind_eq fun names => (steady_intern _).bind_eq fun _ => .pure rfl

end Pattern

/-! ### Values -/

structure Values.Respaced (v w : Values) : Prop where
  pool : v.pool.SameNodes w.pool
  stack : v.stack = w.stack

namespace ValuesM

/-- Computations on values that do the same over pools with the same nodes. -/
abbrev Steady (f : ValuesM α) : Prop := InStep Values.Respaced f f Eq

theorem steady_intern (n : Node) : Steady (intern n) := by
  rintro ⟨p, stack⟩ ⟨q, _⟩ ⟨hpool, rfl⟩
  exact .ok ⟨(hpool.intern n).2, rfl⟩ (hpool.intern n).1

theorem steady_push (id : NodeId) : Steady (push id) := by
  rintro ⟨p, stack⟩ ⟨q, _⟩ ⟨hpool, rfl⟩
  exact .ok ⟨hpool, rfl⟩ rfl

theorem steady_pop : Steady pop := by
  rintro ⟨p, stack⟩ ⟨q, _⟩ ⟨hpool, rfl⟩
  simp only [pop]
  rcases stack.pop with ⟨_ | id, stack⟩
  · exact .error ⟨hpool, rfl⟩ rfl
  · exact .ok ⟨hpool, rfl⟩ rfl

theorem steady_popPair : Steady popPair :=
  steady_pop.bind_eq fun _ => steady_pop.bind_eq fun _ => .pure rfl

theorem steady_popMany (n : Nat) : Steady (popMany n) := by
  induction n with
  | zero => exact .pure rfl
  | succ n ih => exact steady_pop.bind_eq fun _ => ih.bind_eq fun _ => .pure rfl

theorem steady_closeFrame : Steady closeFrame := by
  rintro ⟨p, stack⟩ ⟨q, _⟩ ⟨hpool, rfl⟩
  exact .ok ⟨hpool, rfl⟩ rfl

theorem steady_ask {f : Pool → α} (h : ∀ p q : Pool, p.SameNodes q → f p = f q) : Steady (ask f) :=
  fun v w hvw => .ok hvw (h v.pool w.pool hvw.pool)

theorem steady_single (ids : List NodeId) : Steady (single ids) := by
  unfold single
  split
  · exact .pure rfl
  · exact steady_intern _

theorem steady_leave (n : Node) : Steady (leave n) := (steady_intern n).bind_eq steady_push

end ValuesM

open ValuesM in
/-- An operator reads its operands from the pool. -/
theorem Reduction.steady_operator {β : Type} {t : Tag} {read : Pool → NodeId → Option β}
    (hread : ∀ (p q : Pool), p.SameNodes q → ∀ id, read p id = read q id)
    (f : Option β → Option β → Option Node) : Steady (do
      let (a, b) ← popPair
      let x ← ask (read · a)
      let y ← ask (read · b)
      leaveResult t a b (f x y)) :=
  steady_popPair.bind_eq fun _ => (steady_ask fun p q h => hread p q h _).bind_eq fun _ =>
    (steady_ask fun p q h => hread p q h _).bind_eq fun _ => steady_leave _

open ValuesM in
theorem Reduction.steady_run (r : Reduction) : Steady r.run := by
  cases r with
  | collect => exact steady_closeFrame.bind_eq fun ids => (steady_single ids).bind_eq steady_push
  | close t =>
    have hplain : Steady (do ValuesM.leave (.branch t (← closeFrame))) :=
      steady_closeFrame.bind_eq fun _ => steady_leave _
    cases t
    case prog =>
      exact steady_closeFrame.bind_eq fun _ => (steady_intern _).bind_eq fun _ => steady_leave _
    case paren =>
      exact steady_closeFrame.bind_eq fun ids => (steady_single ids).bind_eq fun _ => steady_leave _
    all_goals exact hplain
  | push id => exact steady_push id
  | build t arity => exact (steady_popMany arity).bind_eq fun _ => steady_leave _
  | arithmetic t => exact steady_operator (fun _ _ h => h.number?_eq) _
  | concat => exact steady_operator (fun _ _ h => h.literal?_eq) _
  | compare t => exact steady_operator (fun _ _ h => h.literal?_eq) _
  | negate =>
    refine steady_pop.bind_eq fun a => (steady_ask fun p q h => h.number?_eq a).bind_eq fun x => ?_
    cases x <;> exact steady_leave _
  | lambda names pattern => exact steady_pop.bind_eq fun _ => steady_leave _

/-! ### Machines -/

namespace Machine

/-- The machines differ in places at most. -/
structure Respaced (m n : Machine) : Prop where
  pool : m.pool.SameNodes n.pool
  stack : m.values.stack = n.values.stack
  env : m.env = n.env
  budget : m.budget = n.budget

variable {m n : Machine}

/-- The steps leave the same tasks, or fail with the same error but for its place. -/
abbrev SameStep (r r' : Step) : Prop := SameEnd Respaced Eq r r'

theorem steady_openFrame : ValuesM.Steady openFrame := by
  rintro ⟨p, stack⟩ ⟨q, _⟩ ⟨hpool, rfl⟩
  exact .ok ⟨hpool, rfl⟩ rfl

theorem steady_takeArgs (k : Nat) : ValuesM.Steady (takeArgs k) := by
  rintro ⟨p, stack⟩ ⟨q, _⟩ ⟨hpool, rfl⟩
  exact .ok ⟨hpool, rfl⟩ rfl

theorem steady_onPool {f : Pattern.PoolM α} (hf : Pattern.Steady f) : ValuesM.Steady (onPool f) := by
  rintro ⟨p, stack⟩ ⟨q, _⟩ ⟨hpool, rfl⟩
  have hend := hf p q hpool
  simp only [onPool]
  generalize f p = left, f q = right at hend ⊢
  cases hend with
  | ok hpool h => exact .ok ⟨hpool, rfl⟩ h
  | error hpool h => exact .error ⟨hpool, rfl⟩ h

theorem steady_bindCallee (callee : Callee) (args : List NodeId) :
    Pattern.Steady (bindCallee callee args) := by
  refine (Pattern.steady_bindAll _ _ _).bind_eq fun bound => .ite (fun _ => ?_) fun _ => ?_
  · exact (Pattern.steady_lambdaParts _).bind_eq fun _ => .pure rfl
  · refine .ite (fun _ => .pure rfl) fun _ => ?_
    exact (Pattern.steady_lambdaParts _).bind_eq fun _ => .pure rfl

namespace Respaced

theorem fail (h : m.Respaced n) (fault : InternalFault) : SameStep (m.fail fault) (n.fail fault) :=
  .error h rfl

theorem onValues {f : ValuesM α} {k k' : α → Machine → Step} (h : m.Respaced n)
    (hf : ValuesM.Steady f) (hk : ∀ a m' n', Respaced m' n' → SameStep (k a m') (k' a n')) :
    SameStep (m.onValues f k) (n.onValues f k') := by
  obtain ⟨v, env, budget⟩ := m
  obtain ⟨w, _, _⟩ := n
  obtain ⟨hpool, hstack, rfl, rfl⟩ := h
  have hend := hf v w ⟨hpool, hstack⟩
  simp only [Machine.onValues]
  generalize f v = left, f w = right at hend ⊢
  cases hend with
  | ok hvw ha =>
    cases ha
    exact hk _ _ _ ⟨hvw.pool, hvw.stack, rfl, rfl⟩
  | error hvw he => exact .error ⟨hvw.pool, hvw.stack, rfl, rfl⟩ he

theorem reducing {f : ValuesM Unit} {tasks : List Task} (h : m.Respaced n) (hf : ValuesM.Steady f) :
    SameStep (m.reducing f tasks) (n.reducing f tasks) :=
  h.onValues hf fun _ _ _ h => .ok h rfl

theorem push (h : m.Respaced n) (id : NodeId) :
    SameStep (m.reducing (ValuesM.push id) []) (n.reducing (ValuesM.push id) []) :=
  h.reducing (ValuesM.steady_push id)

theorem entering {name : String} {lexicon : Lexicon} {words : List Word} {tasks : List Task}
    (h : m.Respaced n) :
    SameStep (m.entering name lexicon words tasks) (n.entering name lexicon words tasks) := by
  obtain ⟨v, env, budget⟩ := m
  obtain ⟨w, _, _⟩ := n
  obtain ⟨hpool, hstack, rfl, rfl⟩ := h
  simp only [Machine.entering]
  cases env.enter name with
  | error e => exact .error ⟨hpool, hstack, rfl, rfl⟩ rfl
  | ok env => exact .ok ⟨hpool, hstack, rfl, rfl⟩ rfl

theorem apply (h : m.Respaced n) (callee : Callee) : SameStep (m.apply callee) (n.apply callee) := by
  refine h.onValues (steady_takeArgs _) fun args m' n' h => ?_
  rw [h.env]
  split
  · exact .error h rfl
  · exact h.onValues (steady_onPool (steady_bindCallee callee args)) fun _ _ _ h => h.entering

theorem visitName (h : m.Respaced n) (nid : NodeId) (name : String) :
    SameStep (m.visitName nid name) (n.visitName nid name) := by
  unfold Machine.visitName
  rw [h.env]
  split
  · exact h.push nid
  · split
    · exact h.push _
    · split
      · exact h.push nid
      · split
        · exact h.push nid
        · exact h.apply _
    · next tag _ =>
      refine h.onValues (steady_takeArgs _) fun args m n h => ?_
      refine h.onValues (ValuesM.steady_intern (.branch tag args)) fun id m n h => ?_
      split
      · obtain ⟨v, env, budget⟩ := m
        obtain ⟨w, _, _⟩ := n
        obtain ⟨hpool, hstack, rfl, rfl⟩ := h
        cases budget with
        | zero => exact .error ⟨hpool, hstack, rfl, rfl⟩ rfl
        | succ budget => exact .ok ⟨hpool, hstack, rfl, rfl⟩ rfl
      · exact h.push id

/-! ### Cases -/

theorem clause_eq (h : m.Respaced n) (id : NodeId) : clause m.pool id = clause n.pool id := by
  unfold clause
  rw [h.pool.get?_eq]

theorem variable?_eq (h : m.Respaced n) (c : Clause) : Clause.variable? c m.pool = Clause.variable? c n.pool := by
  unfold Clause.variable?
  rw [h.pool.get?_eq]

theorem residualClause_eq (h : m.Respaced n) (id : NodeId) :
    residualClause m.pool id = residualClause n.pool id := by
  unfold residualClause
  rw [h.clause_eq]
  refine congrArg _ (funext fun c => ?_)
  rw [h.variable?_eq]

theorem residualCase (h : m.Respaced n) (nid scrutinee : NodeId) :
    SameStep (m.residualCase nid scrutinee) (n.residualCase nid scrutinee) := by
  unfold Machine.residualCase
  rw [h.pool.get?_eq, funext h.residualClause_eq]
  cases n.pool.get? nid with
  | none => exact h.fail _
  | some node =>
    dsimp only
    cases (node.elts.drop 1).mapM (Machine.residualClause n.pool) with
    | error fault => exact h.fail fault
    | ok tasks => exact .ok h rfl

/-- The one place that a fold reads goes into an error. -/
theorem exhausted (h : m.Respaced n) (nid scrutinee : NodeId) :
    SameStep (m.exhausted nid scrutinee) (n.exhausted nid scrutinee) := by
  unfold Machine.exhausted
  rw [h.pool.isGround_eq, h.pool.tree?_eq]
  split
  · exact .error h rfl
  · exact h.residualCase nid scrutinee

theorem select (h : m.Respaced n) (nid scrutinee : NodeId) (clauses : List NodeId) :
    SameStep (m.select nid scrutinee clauses) (n.select nid scrutinee clauses) := by
  unfold Machine.select
  cases clauses with
  | nil => exact h.exhausted nid scrutinee
  | cons id clauses =>
    dsimp only
    rw [h.clause_eq]
    cases clause n.pool id with
    | error fault => exact h.fail fault
    | ok c =>
      dsimp only
      rw [h.variable?_eq]
      cases Clause.variable? c n.pool with
      | none => exact .ok h rfl
      | some binder => exact h.entering

theorem tryClause (h : m.Respaced n) (nid scrutinee pattern : NodeId) (clauses : List NodeId) :
    SameStep (m.tryClause nid scrutinee pattern clauses) (n.tryClause nid scrutinee pattern clauses) := by
  cases clauses with
  | nil => exact h.fail _
  | cons id clauses =>
    unfold Machine.tryClause
    dsimp only
    rw [h.pool.unwrapGroup_eq, h.pool.unwrapGroup_eq, h.pool.isGround_eq, h.pool.isGround_eq, h.clause_eq]
    split
    · cases clause n.pool id with
      | error fault => exact h.fail fault
      | ok c => exact .ok h rfl
    · split
      · exact h.select nid scrutinee clauses
      · exact h.residualCase nid scrutinee

/-! ### Nodes -/

theorem visit (h : m.Respaced n) (nid : NodeId) : SameStep (m.visit nid) (n.visit nid) := by
  have hlambda (elts : List NodeId) : lambda m.pool elts = lambda n.pool elts := by
    unfold lambda
    simp only [h.pool.get?_eq]
  unfold Machine.visit
  rw [h.pool.get?_eq]
  split
  · exact h.fail _
  · exact h.visitName nid _
  · next elts _ =>
    rw [hlambda]
    cases lambda n.pool elts with
    | error fault => exact h.fail fault
    | ok callee => exact h.apply callee
  · next tag elts _ _ =>
    cases plan nid tag elts with
    | error e => exact .error h rfl
    | ok plan =>
      dsimp only
      split
      · exact h.reducing steady_openFrame
      · exact .ok h rfl
  · exact h.push nid

/-- A step reads no places. -/
theorem resume (h : m.Respaced n) (t : Task) : SameStep (m.resume t) (n.resume t) := by
  cases t with
  | visit nid => exact h.visit nid
  | operand nid => exact h.reducing steady_openFrame
  | reduce r => exact h.reducing r.steady_run
  | select nid =>
    unfold Machine.resume
    refine h.onValues ValuesM.steady_pop fun scrutinee m n h => ?_
    rw [h.pool.get?_eq]
    cases n.pool.get? nid with
    | none => exact h.fail _
    | some node => exact h.select nid scrutinee _
  | clause nid clauses scrutinee =>
    exact h.onValues ValuesM.steady_pop fun pattern m n h => h.tryClause nid scrutinee pattern clauses
  | enter name => exact h.entering
  | exit =>
    obtain ⟨v, env, budget⟩ := m
    obtain ⟨w, _, _⟩ := n
    obtain ⟨hpool, hstack, rfl, rfl⟩ := h
    exact .ok ⟨hpool, hstack, rfl, rfl⟩ rfl

/-- By induction on the run of the first machine. -/
theorem run (h : m.Respaced n) (tasks : List Task) :
    SameEnd Respaced Eq (m.run tasks) (n.run tasks) := by
  fun_induction Machine.run m tasks generalizing n with
  | case1 m =>
    rw [run_nil]
    exact .ok h rfl
  | case2 m t tasks new m' hresume _ ih =>
    have hstep := h.resume t
    rw [run_cons]
    rw [hresume] at hstep
    generalize n.resume t = right at hstep ⊢
    cases hstep with
    | ok h hnew => exact hnew ▸ ih h
  | case3 m t tasks e m' hresume =>
    have hstep := h.resume t
    rw [run_cons]
    rw [hresume] at hstep
    generalize n.resume t = right at hstep ⊢
    cases hstep with
    | error h he => exact .error h he

theorem finish (h : m.Respaced n) : SameEnd Respaced Eq m.finish n.finish := by
  obtain ⟨⟨p, stack⟩, env, budget⟩ := m
  obtain ⟨⟨q, _⟩, _, _⟩ := n
  obtain ⟨hpool, rfl, rfl, rfl⟩ := h
  simp only [Machine.finish]
  rcases stack.closeFrame with ⟨_ | ⟨id, _ | ⟨id', ids⟩⟩, stack⟩
  · exact .error ⟨hpool, rfl, rfl, rfl⟩ rfl
  · exact .ok ⟨hpool, rfl, rfl, rfl⟩ rfl
  · exact .error ⟨hpool, rfl, rfl, rfl⟩ rfl

/-- Folds of one id over pools with the same nodes give one id. -/
theorem fold (h : m.Respaced n) (nid : NodeId) : SameEnd Respaced Eq (m.fold nid) (n.fold nid) := by
  obtain ⟨⟨p, stack⟩, env, budget⟩ := m
  obtain ⟨⟨q, _⟩, _, _⟩ := n
  obtain ⟨hpool, rfl, rfl, rfl⟩ := h
  have hopen : Respaced ⟨⟨p, stack.openFrame⟩, env, operatorBudget⟩
      ⟨⟨q, stack.openFrame⟩, env, operatorBudget⟩ := ⟨hpool, rfl, rfl, rfl⟩
  have hrun := hopen.run [.operand nid]
  simp only [Machine.fold]
  generalize Machine.run ⟨⟨p, _⟩, _, _⟩ _ = left, Machine.run ⟨⟨q, _⟩, _, _⟩ _ = right at hrun ⊢
  cases hrun with
  | ok h => exact h.finish
  | error h he =>
    obtain ⟨hpool, -, henv, hbudget⟩ := h
    exact .error ⟨hpool, rfl, congrArg (·.exitTo env.depth) henv, hbudget⟩ he

end Respaced

end Machine

end Linefold
