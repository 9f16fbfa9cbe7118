import Linefold.Folder.Descent

/-!
# Folding

`Machine.fold` reduces a node as far as what is known allows. It carries out tasks until none is
left; `lower_of_resume` is why there is an end to them. A fold that fails leaves the nodes that it
made in the pool and everything else as it was.
-/

namespace Linefold.Machine

/-- The work left: what the operator words may still draw on, then the ranks of the tasks. -/
def workLeft (m : Machine) (tasks : List Task) : Nat × Rank.Agenda :=
  (m.budget, ⟨Task.ranks m.env.limit m.level tasks⟩)

theorem workLeft_resume_lt {m m' : Machine} {t : Task} {new : List Task} (h : m.resume t = .ok new m')
    (tasks : List Task) :
    WellFoundedRelation.rel (m'.workLeft (new ++ tasks)) (m.workLeft (t :: tasks)) := by
  rcases lower_of_resume t new m' h with hb | ⟨hb, hlimit, hlevel, hlow⟩
  · exact .left _ _ hb
  · unfold workLeft
    rw [hb, hlimit, Task.ranks_append, hlevel]
    exact .right _ (.intro hlow)

/-- Carries out tasks until none is left. -/
def run (m : Machine) (tasks : List Task) : EStateM.Result Error Machine Unit :=
  match tasks with
  | [] => .ok () m
  | t :: tasks =>
    match h : m.resume t with
    | .ok new m' =>
      have := workLeft_resume_lt h tasks
      m'.run (new ++ tasks)
    | .error e m' => .error e m'
termination_by m.workLeft tasks
decreasing_by assumption

/-- How often operator words may be applied in one fold. -/
def operatorBudget : Nat := Nat.pow 2 62

/-- A machine that is ready to fold. -/
def ofPool (pool : Pool) (env : Environment) : Machine := ⟨⟨pool, {}⟩, env, operatorBudget⟩

/-- Takes the one value of the frame that the fold opened. -/
def finish (m : Machine) : EStateM.Result Error Machine NodeId :=
  match m with
  | ⟨⟨pool, stack⟩, env, budget⟩ =>
    match stack.closeFrame with
    | ([id], stack) => .ok id ⟨⟨pool, stack⟩, env, budget⟩
    | (_, stack) => .error (.internal .unbalancedStack) ⟨⟨pool, stack⟩, env, budget⟩

/-- Folds a node and gives the id of its reduced form. -/
def fold (m : Machine) (nid : NodeId) : EStateM.Result Error Machine NodeId :=
  match m with
  | ⟨⟨pool, stack⟩, env, _⟩ =>
    match run ⟨⟨pool, stack.openFrame⟩, env, operatorBudget⟩ [.operand nid] with
    | .ok () m => m.finish
    | .error e ⟨⟨pool, _⟩, env', budget⟩ => .error e ⟨⟨pool, {}⟩, env'.exitTo env.depth, budget⟩

end Linefold.Machine
