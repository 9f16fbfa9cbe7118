import Linefold.Proofs.Folding.Frames
import Linefold.Session

/-!
# Folding within a number of steps

`Machine.run` ends because the work left decreases, which no evaluation of a closed term can go through. A run
that is cut off after a given number of steps is a structural recursion; where it ends, it ends as the other does.
-/

namespace Linefold

namespace Machine

variable {n : Nat} {m : Machine} {tasks : List Task} {nid : NodeId}

/-- Carries out tasks until none is left, and gives up after a number of steps. -/
def runWithin : Nat → Machine → List Task → Option (EStateM.Result Error Machine Unit)
  | _, m, [] => some (.ok () m)
  | 0, _, _ :: _ => none
  | n + 1, m, t :: tasks =>
    match m.resume t with
    | .ok new m' => runWithin n m' (new ++ tasks)
    | .error e m' => some (.error e m')

theorem run_of_runWithin {r : EStateM.Result Error Machine Unit} (h : runWithin n m tasks = some r) :
    m.run tasks = r := by
  fun_induction runWithin n m tasks with
  | case1 n m =>
    rw [run_nil]
    exact Option.some.inj h
  | case2 m t tasks => cases h
  | case3 n m t tasks new m' hstep ih =>
    rw [run_cons, hstep]
    exact ih h
  | case4 n m t tasks e m' hstep =>
    rw [run_cons, hstep]
    exact Option.some.inj h

/-- How many values a run leaves in the current frame. -/
def frameSize? : EStateM.Result Error Machine Unit → Option Nat
  | .ok _ m => some m.values.stack.frameSize
  | .error _ _ => none

theorem exists_of_frameSize? {k : Nat} (h : (runWithin n m tasks).bind frameSize? = some k) :
    ∃ m', m.run tasks = .ok () m' ∧ m'.values.stack.frameSize = k := by
  obtain ⟨r, hrun, hr⟩ := Option.bind_eq_some_iff.1 h
  cases r with
  | ok _ m' =>
    cases hr
    exact ⟨m', run_of_runWithin hrun, rfl⟩
  | error => cases hr

/-- Folds a node, and gives up after a number of steps. -/
def foldWithin (n : Nat) (m : Machine) (nid : NodeId) : Option (EStateM.Result Error Machine NodeId) :=
  match m with
  | ⟨⟨pool, stack⟩, env, _⟩ =>
    (runWithin n ⟨⟨pool, stack.openFrame⟩, env, operatorBudget⟩ [.operand nid]).map fun
      | .ok () m => m.finish
      | .error e ⟨⟨pool, _⟩, env', budget⟩ => .error e ⟨⟨pool, {}⟩, env'.exitTo env.depth, budget⟩

theorem fold_of_foldWithin {r : EStateM.Result Error Machine NodeId} (h : foldWithin n m nid = some r) :
    m.fold nid = r := by
  obtain ⟨⟨pool, stack⟩, env, _⟩ := m
  obtain ⟨r', hrun, rfl⟩ := Option.map_eq_some_iff.1 h
  cases r' <;> simp only [fold, run_of_runWithin hrun]

/-- What a fold leaves, with the pool that it leaves it in. -/
def left? : EStateM.Result Error Machine NodeId → Option (NodeId × Pool)
  | .ok id m => some (id, m.pool)
  | .error _ _ => none

theorem exists_tree_of_left? {t : Tree}
    (h : ((foldWithin n m nid).bind left?).bind (fun r => r.2.tree? r.1) = some t) :
    ∃ id r, m.fold nid = .ok id r ∧ r.pool.tree? id = some t := by
  obtain ⟨⟨id, q⟩, hleft, htree⟩ := Option.bind_eq_some_iff.1 h
  obtain ⟨r, hfold, hr⟩ := Option.bind_eq_some_iff.1 hleft
  cases r with
  | error => cases hr
  | ok =>
    cases hr
    exact ⟨id, _, fold_of_foldWithin hfold, htree⟩

/-- The error that a fold ends with. -/
def failure? : EStateM.Result Error Machine NodeId → Option Error
  | .ok _ _ => none
  | .error e _ => some e

theorem exists_of_failure? {e : Error} (h : (foldWithin n m nid).bind failure? = some e) : ∃ k, m.fold nid = .error e k := by
  obtain ⟨r, hfold, hr⟩ := Option.bind_eq_some_iff.1 h
  cases r with
  | ok => cases hr
  | error e k =>
    cases hr
    exact ⟨k, fold_of_foldWithin hfold⟩

end Machine

namespace Session

/-- Parses and folds a whole text that is not refused, and gives up after a number of steps of the fold. -/
def compileWithin (n : Nat) (config : Config) (source : String) : Option (Session × Outcome) :=
  match ofConfig config with
  | .error _ => none
  | .ok s =>
    let c := (s.parseLines (linesOf source)).close
    match c.state.status with
    | .complete _ =>
      match Machine.foldWithin n (.ofPool c.pool c.state.env) c.state.root with
      | some (.ok root m) =>
        some ({ c with pool := m.values.pool },
          ⟨c.state.root, root, topValues m.values.pool root, c.state.errors⟩)
      | _ => none
    | _ => none

theorem compile_of_compileWithin {n : Nat} {config : Config} {source : String} {r : Session × Outcome}
    (h : compileWithin n config source = some r) : compile config source = .ok r := by
  unfold compileWithin at h
  split at h
  · cases h
  · next s hs =>
    dsimp only at h
    split at h
    · next root hstatus =>
      have hnot : ∀ e, (s.parseLines (linesOf source)).close.state.status ≠ .failed e := by
        rw [hstatus]
        nofun
      split at h
      · next root' m hfold =>
        cases h
        simp only [compile, hs, finish_of_ne_failed hnot, Machine.fold_of_foldWithin hfold, bind, Except.bind, pure,
          Except.pure]
      · cases h
    · cases h

end Session

end Linefold
