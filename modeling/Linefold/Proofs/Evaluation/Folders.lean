import Linefold.Proofs.Evaluation.Agreement
import Linefold.Proofs.Folding.Additions
import Linefold.Proofs.Twins.Restoring

/-!
# One folder for many nodes

A `Folder` is a machine with the tasks that wait on it, and is what the nodes of one program are folded with,
one after another. A fold leaves nothing behind but nodes in the pool (`fold_new`), however it ends, and those make
no difference to what other nodes fold to (`shown_fold`). So each node of a list folds to what it would fold to
by itself, with a folder of its own (`foldEach_fresh`).
-/

namespace Linefold

attribute [local irreducible] Pool.intern

/-- A machine, and the tasks that wait on it. -/
structure Folder where
  machine : Machine
  tasks : List Task

namespace Folder

open Machine (operatorBudget)

variable {p q : Pool} {e : Environment} {nid : NodeId} {ids : List NodeId}

/-! ### Folds that follow one another -/

def new (p : Pool) (e : Environment) : Folder := ⟨.ofPool p e, []⟩

/-- Carries out tasks until none waits or one fails. -/
def run (f : Folder) : EStateM.Result Error Folder Unit :=
  match f with
  | ⟨m, []⟩ => .ok () ⟨m, []⟩
  | ⟨m, t :: tasks⟩ =>
    match h : m.resume t with
    | .ok new m' =>
      have := Machine.workLeft_resume_lt h tasks
      run ⟨m', new ++ tasks⟩
    | .error e m' => .error e ⟨m', tasks⟩
termination_by f.machine.workLeft f.tasks
decreasing_by assumption

/-- Folds a node before the tasks that wait. If it fails then no task is left, no value and no further scope. -/
def fold (f : Folder) (nid : NodeId) : Except Error NodeId × Folder :=
  match f with
  | ⟨⟨⟨pool, stack⟩, env, _⟩, tasks⟩ =>
    match run ⟨⟨⟨pool, stack.openFrame⟩, env, operatorBudget⟩, .operand nid :: tasks⟩ with
    | .ok () ⟨m, tasks⟩ =>
      match m.finish with
      | .ok id m => (.ok id, ⟨m, tasks⟩)
      | .error e m => (.error e, ⟨m, tasks⟩)
    | .error e ⟨⟨⟨pool, _⟩, env', budget⟩, _⟩ => (.error e, ⟨⟨⟨pool, {}⟩, env'.exitTo env.depth, budget⟩, []⟩)

/-- The tree that a node folds to, or the error without a place. -/
def shown (r : Except Error NodeId × Folder) : Except Error (Option Tree) :=
  match r with
  | (.ok id, f) => .ok (f.machine.pool.tree? id)
  | (.error e, _) => .error e.bare

/-- Folds nodes one after another, whether those before fail or not. -/
def foldEach (f : Folder) : List NodeId → List (Except Error (Option Tree)) × Folder
  | [] => ([], f)
  | nid :: ids =>
    let r := f.fold nid
    let (results, f) := r.2.foldEach ids
    (shown r :: results, f)

/-! ### Folders and machines -/

/-- A folder runs as its machine does, and no task waits on it after a run that succeeds. -/
theorem run_eq (m : Machine) (tasks : List Task) : match run ⟨m, tasks⟩, m.run tasks with
    | .ok () f, .ok () m' => f = ⟨m', []⟩
    | .error e f, .error e' m' => e = e' ∧ f.machine = m'
    | _, _ => False := by
  fun_induction Machine.run m tasks with
  | case1 m =>
    rw [run]
  | case2 m t ts new m' hstep _ ih =>
    have hrun : run ⟨m, t :: ts⟩ = run ⟨m', new ++ ts⟩ := by
      rw [run]
      split
      · next hstep' =>
        cases hstep.symm.trans hstep'
        rfl
      · next hstep' => cases hstep.symm.trans hstep'
    rw [hrun]
    exact ih
  | case3 m t ts err m' hstep =>
    have hrun : run ⟨m, t :: ts⟩ = .error err ⟨m', ts⟩ := by
      rw [run]
      split
      · next hstep' => cases hstep.symm.trans hstep'
      · next hstep' =>
        cases hstep.symm.trans hstep'
        rfl
    rw [hrun]
    exact ⟨rfl, rfl⟩

theorem fold_eq (m : Machine) (nid : NodeId) : fold ⟨m, []⟩ nid = match m.fold nid with
    | .ok id m' => (.ok id, ⟨m', []⟩)
    | .error err m' => (.error err, ⟨m', []⟩) := by
  obtain ⟨⟨p, s⟩, e, b⟩ := m
  have hrun := run_eq ⟨⟨p, s.openFrame⟩, e, operatorBudget⟩ [.operand nid]
  unfold fold Machine.fold
  simp only
  generalize run ⟨⟨⟨p, s.openFrame⟩, e, operatorBudget⟩, [.operand nid]⟩ = left,
    Machine.run ⟨⟨p, s.openFrame⟩, e, operatorBudget⟩ [.operand nid] = right at hrun ⊢
  obtain ⟨_, f⟩ | ⟨err, f⟩ := left <;> obtain ⟨_, m'⟩ | ⟨err', m'⟩ := right
  · obtain rfl : f = ⟨m', []⟩ := hrun
    simp only
  · exact hrun.elim
  · exact hrun.elim
  · obtain ⟨rfl, rfl⟩ := hrun
    obtain ⟨⟨⟨q, t⟩, env, b'⟩, tasks⟩ := f
    rfl

/-! ### What a fold leaves behind -/

/-- Where operator words name no nodes, a fold adds nodes to the pool and leaves the folder as new otherwise. -/
theorem fold_new (he : e.Unnamed p) (nid : NodeId) : ∃ q, p.Accrues q ∧ ((new p e).fold nid).2 = new q e := by
  have hcomputes : Machine.Computes {} operatorBudget e
      (Machine.doing ⟨⟨p, OperandStack.stacked {} [[]]⟩, e, operatorBudget⟩ [.operand nid])
      (Evaluator.operand e nid) (fun id => [[id]]) p := Machine.computes_operand (Machine.evaluates e nid) he
  have hfold : (Machine.ofPool p e).fold nid = _ :=
    Machine.fold_eq_concluded.trans (Machine.concluded_of_computes hcomputes)
  have haccrues := (Machine.ofPool p e).fold_accrues nid
  rw [new, fold_eq]
  rw [hfold] at haccrues ⊢
  generalize Evaluator.operand e nid p = r at haccrues ⊢
  cases r with
  | ok id q => exact ⟨q, haccrues, rfl⟩
  | error err q => exact ⟨q, haccrues.1, rfl⟩

/-- The nodes that other folds have added make no difference to what a node folds to. -/
theorem shown_fold (hself : e.Alike ⟨p, p⟩ e) (hpq : p.Extends q) (hnid : nid ≤ p.size) :
    shown ((new q e).fold nid) = shown ((new p e).fold nid) := by
  have hgrows : Twin.Grows ⟨p, p⟩ ⟨q, p⟩ := ⟨hpq, .refl p⟩
  have halike : (Machine.ofPool q e).Alike (.ofPool p e) := ⟨.empty, hself.mono hgrows, rfl⟩
  have hnode : Twin.Alike ⟨q, p⟩ nid nid := Twin.alike_of_le hgrows hnid
  have hfolds := halike.fold hnode
  rw [new, new, fold_eq, fold_eq]
  generalize (Machine.ofPool q e).fold nid = left, (Machine.ofPool p e).fold nid = right at hfolds ⊢
  cases left <;> cases right <;> first | exact hfolds.elim | skip
  · exact congrArg Except.ok hfolds.2.2.tree?_eq
  · exact congrArg Except.error hfolds.2.2

theorem foldEach_new (he : e.Unnamed p) (hself : e.Alike ⟨p, p⟩ e) (hids : ∀ id ∈ ids, id ≤ p.size)
    (hpq : p.Accrues q) : ((new q e).foldEach ids).1 = ids.map (fun nid => shown ((new p e).fold nid)) ∧
      ∃ r, q.Accrues r ∧ ((new q e).foldEach ids).2 = new r e := by
  induction ids generalizing q with
  | nil => exact ⟨rfl, q, .refl q, rfl⟩
  | cons nid ids ih =>
    obtain ⟨hnid, hids⟩ := List.forall_mem_cons.1 hids
    obtain ⟨r, hqr, hnext⟩ := fold_new (he.mono hpq.grows) nid
    obtain ⟨hresults, u, hru, hlast⟩ := ih hids (hpq.trans hqr)
    simp only [foldEach, hnext, hresults, shown_fold hself hpq.keeps hnid]
    exact ⟨rfl, u, hqr.trans hru, hlast⟩

/-- A fold leaves no trace outside the pool. However it ends, the folder has no value and no task afterwards and the
scopes are those from before, word by word; nodes that are no names were added to the pool. So each node of a list
that is folded with one folder shows the tree or the error, kind and message, that it shows with a folder of its own in
the pool and the scopes from the start. Operator words name no nodes, and words refer to nodes of the pool. -/
theorem foldEach_fresh (he : e.Unnamed p) (hself : e.Alike ⟨p, p⟩ e) :
    (∀ nid, ∃ q, p.Accrues q ∧ ((new p e).fold nid).2 = new q e) ∧
      ∀ ids : List NodeId, (∀ id ∈ ids, id ≤ p.size) →
        ((new p e).foldEach ids).1 = ids.map (fun nid => shown ((new p e).fold nid)) ∧
          ∃ q, p.Accrues q ∧ ((new p e).foldEach ids).2 = new q e :=
  ⟨fold_new he, fun _ hids => foldEach_new he hself hids (.refl p)⟩

/-- A value, and a disjunction over it that is not implemented. -/
def disjunction : Pool := .ofNodes [.null, .branch .or [1, 1]]

/-- The value folds to itself after the disjunction has failed. -/
theorem foldEach_disjunction :
    (∀ nid, ∃ q, disjunction.Accrues q ∧ ((new disjunction .initial).fold nid).2 = new q .initial) ∧
      ((new disjunction .initial).foldEach [2, 1]).1 =
        [shown ((new disjunction .initial).fold 2), shown ((new disjunction .initial).fold 1)] := by
  have hnodes : disjunction.nodes = #[.null, .branch .or [1, 1]] := Pool.nodes_ofNodes (by decide) (by decide)
  have hnames (id : NodeId) (s : String) : disjunction.get? id ≠ some (.ident s) := by
    rcases id with _ | _ | _ | id <;> simp [Pool.get?, hnodes]
  have hsize : ∀ id ∈ [2, 1], id ≤ disjunction.size := by simp [Pool.size, hnodes]
  have hfresh := foldEach_fresh (p := disjunction) (e := .initial)
    (Environment.all_initial fun w _ => .of_ne (by simp [Word.operator]) fun _ _ id => hnames id w.1)
    (Environment.alike_self (Environment.all_initial fun _ _ => ⟨rfl, rfl, rfl⟩))
  exact ⟨hfresh.1, (hfresh.2 [2, 1] hsize).1⟩

end Folder

end Linefold
