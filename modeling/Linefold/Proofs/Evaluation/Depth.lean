import Linefold.Proofs.Evaluation.Agreement
import Linefold.Proofs.Folding.Limited

/-!
# How deep a fold goes

A fold ends after finitely many tasks, and the machines that it passes through (`Machine.Passes`) have no
fewer scopes open than it started with and at most one more than the limit (`fold_terminates`). That there are
not too many is a matter of single steps (`climbs_resume`); that there are not too few is one of the tasks that
wait, each of which is lower than the fold as a whole and so runs in the scopes of the fold or in further ones
(`Passes.deep`). Steps that draw on the budget are no part of this, so operator words may not name nodes.
-/

namespace Linefold.Machine

attribute [local irreducible] Pool.intern

variable {α : Type} {m m' : Machine} {r : Step} {t : Task} {ts new : List Task} {nid scrutinee : NodeId}
  {clauses : List NodeId} {limit base : Nat} {o : Order}

/-! ### Single steps -/

/-- No more scopes are open than before or than the limit allows, and the budget has not grown. -/
structure Climbs (m m' : Machine) : Prop where
  limit : m'.env.limit = m.env.limit
  level : m'.level ≤ max m.level m.env.limit
  budget : m'.budget ≤ m.budget

theorem Climbs.refl (m : Machine) : m.Climbs m := ⟨rfl, Nat.le_max_left _ _, Nat.le_refl _⟩

theorem Climbs.trans {m₁ : Machine} (h : m.Climbs m₁) (h' : m₁.Climbs m') : m.Climbs m' := by
  refine ⟨h'.limit.trans h.limit, ?_, Nat.le_trans h'.budget h.budget⟩
  have hlevel := h'.level
  rw [h.limit] at hlevel
  exact Nat.le_trans hlevel (Nat.max_le.2 ⟨h.level, Nat.le_max_right _ _⟩)

/-- A step that succeeds climbs, and one that fails leaves scopes and budget alone. -/
def StepClimbs (m : Machine) : Step → Prop
  | .ok _ m' => m.Climbs m'
  | .error _ m' => m'.env = m.env ∧ m'.budget = m.budget

theorem stepClimbs_ok : m.StepClimbs (.ok ts m) := .refl m

theorem stepClimbs_error {e : Error} : m.StepClimbs (.error e m) := ⟨rfl, rfl⟩

/-- Work on values has no part in it. -/
theorem stepClimbs_onValues {f : ValuesM α} {k : α → Machine → Step}
    (hk : ∀ a v, StepClimbs ⟨v, m.env, m.budget⟩ (k a ⟨v, m.env, m.budget⟩)) :
    m.StepClimbs (m.onValues f k) := by
  unfold onValues
  simp only
  split
  · next a v _ =>
    have h := hk a v
    generalize k a ⟨v, m.env, m.budget⟩ = r at h ⊢
    cases r with
    | ok ts m' => exact ⟨h.limit, h.level, h.budget⟩
    | error e m' => exact h
  · exact ⟨rfl, rfl⟩

theorem stepClimbs_reducing {f : ValuesM Unit} : m.StepClimbs (m.reducing f ts) :=
  stepClimbs_onValues fun _ _ => stepClimbs_ok

theorem stepClimbs_entering {name : String} {lexicon : Lexicon} {words : List Word} :
    m.StepClimbs (m.entering name lexicon words ts) := by
  obtain ⟨v, e, b⟩ := m
  by_cases hlimit : e.limit < e.depth
  · rw [entering_of_lt hlimit]
    exact stepClimbs_error
  · rw [entering_of_not_lt hlimit]
    obtain ⟨hlength, hsame⟩ := e.opened_length_limit name lexicon words
    refine ⟨hsame, ?_, Nat.le_refl _⟩
    have hroom : e.inner.length + 1 ≤ e.limit := Nat.not_lt.1 hlimit
    simp only [level, hlength]
    exact Nat.le_trans hroom (Nat.le_max_right _ _)

theorem stepClimbs_apply {callee : Callee} : m.StepClimbs (m.apply callee) := by
  refine stepClimbs_onValues fun args v => ?_
  split
  · exact stepClimbs_error
  · exact stepClimbs_onValues fun _ _ => stepClimbs_entering

theorem stepClimbs_visitName {name : String} : m.StepClimbs (m.visitName nid name) := by
  unfold visitName
  split
  · exact stepClimbs_reducing
  · split
    · exact stepClimbs_reducing
    · split
      · exact stepClimbs_reducing
      · split
        · exact stepClimbs_reducing
        · exact stepClimbs_apply
    · refine stepClimbs_onValues fun args v => stepClimbs_onValues fun id v' => ?_
      obtain ⟨-, e, b⟩ := m
      split
      · cases b with
        | zero => exact ⟨rfl, rfl⟩
        | succ b => exact ⟨rfl, Nat.le_max_left _ _, Nat.le_succ _⟩
      · exact stepClimbs_reducing

theorem stepClimbs_residualCase : m.StepClimbs (m.residualCase nid scrutinee) := by
  unfold residualCase
  split
  · exact stepClimbs_error
  · split
    · exact stepClimbs_error
    · exact stepClimbs_ok

theorem stepClimbs_select : m.StepClimbs (m.select nid scrutinee clauses) := by
  unfold select
  split
  · unfold exhausted
    split
    · exact stepClimbs_error
    · exact stepClimbs_residualCase
  · split
    · exact stepClimbs_error
    · split
      · exact stepClimbs_entering
      · exact stepClimbs_ok

theorem stepClimbs_visit : m.StepClimbs (m.visit nid) := by
  unfold visit
  split
  · exact stepClimbs_error
  · exact stepClimbs_visitName
  · split
    · exact stepClimbs_error
    · exact stepClimbs_apply
  · split
    · exact stepClimbs_error
    · split
      · exact stepClimbs_reducing
      · exact stepClimbs_ok
  · exact stepClimbs_reducing

theorem climbs_resume (m : Machine) (t : Task) : m.StepClimbs (m.resume t) := by
  cases t with
  | visit nid => exact stepClimbs_visit
  | operand nid => exact stepClimbs_reducing
  | reduce r => exact stepClimbs_reducing
  | select nid =>
    unfold resume
    refine stepClimbs_onValues fun scrutinee v => ?_
    split
    · exact stepClimbs_error
    · exact stepClimbs_select
  | clause nid clauses scrutinee =>
    unfold resume
    refine stepClimbs_onValues fun pattern v => ?_
    cases clauses with
    | nil => exact stepClimbs_error
    | cons id clauses =>
      simp only [tryClause]
      split
      · split
        · exact stepClimbs_error
        · exact stepClimbs_ok
      · split
        · exact stepClimbs_select
        · exact stepClimbs_residualCase
  | enter name => exact stepClimbs_entering
  | exit =>
    refine ⟨?_, ?_, Nat.le_refl _⟩
    · simp only [Environment.exit]
      split <;> rfl
    · refine Nat.le_trans ?_ (Nat.le_max_left _ _)
      simp only [level, Environment.exit]
      split
      · exact Nat.le_refl _
      · next hinner => simp [hinner]

/-! ### Runs -/

/-- The machines that a run passes through, that which a failing step leaves included. -/
inductive Passes : Machine → List Task → Machine → Prop where
  | here {m : Machine} {ts : List Task} : Passes m ts m
  | next {m m₁ m' : Machine} {t : Task} {ts new : List Task} (hstep : m.resume t = .ok new m₁)
      (h : Passes m₁ (new ++ ts) m') : Passes m (t :: ts) m'
  | failed {m m' : Machine} {t : Task} {ts : List Task} {e : Error} (hstep : m.resume t = .error e m') :
      Passes m (t :: ts) m'

theorem climbs_of_ok (h : m.resume t = .ok new m') : m.Climbs m' := by
  have hstep := m.climbs_resume t
  rw [h] at hstep
  exact hstep

theorem same_of_error {e : Error} (h : m.resume t = .error e m') : m'.env = m.env ∧ m'.budget = m.budget := by
  have hstep := m.climbs_resume t
  rw [h] at hstep
  exact hstep

theorem Passes.climbs (h : m.Passes ts m') : m.Climbs m' := by
  induction h with
  | here => exact .refl _
  | next hstep _ ih => exact (climbs_of_ok hstep).trans ih
  | failed hstep =>
    obtain ⟨henv, hbudget⟩ := same_of_error hstep
    refine ⟨by rw [henv], ?_, Nat.le_of_eq hbudget⟩
    rw [level, henv]
    exact Nat.le_max_left _ _

/-- The machine that a run ends with. -/
def final : EStateM.Result Error Machine α → Machine
  | .ok _ m | .error _ m => m

/-- The end of a run is reached from every machine on the way. -/
theorem Passes.exists_run (h : m.Passes ts m') : ∃ ts', m'.Passes ts' (final (m.run ts)) := by
  have hend {m : Machine} {ts : List Task} : m.Passes ts (final (m.run ts)) := by
    fun_induction Machine.run m ts with
    | case1 m => exact .here
    | case2 m t ts new m₁ hstep _ ih => exact .next hstep ih
    | case3 m t ts e m₁ hstep => exact .failed hstep
  induction h with
  | @here m ts => exact ⟨ts, hend⟩
  | next hstep _ ih =>
    rw [run_cons, hstep]
    exact ih
  | failed hstep =>
    rw [run_cons, hstep]
    exact ⟨[], .here⟩

/-- The tasks that wait are lower than the work that they are part of, and so are those that take the place of
the first one. -/
theorem falls_of_resume (hstep : m.resume t = .ok new m') (hbudget : m'.budget = m.budget)
    (h : Task.Falls m.env.limit base o m.level base (t :: ts)) :
    Task.Falls m'.env.limit base o m'.level base (new ++ ts) := by
  obtain ⟨hstop, hranks⟩ := h
  obtain ⟨ht, hts⟩ := List.forall_mem_cons.1 hranks
  rcases lower_of_resume t new m' hstep with hless | ⟨-, hlimit, hfalls, hnew⟩
  · exact absurd hbudget (Nat.ne_of_lt hless)
  · rw [hlimit]
    refine Task.Falls.append ⟨hfalls, fun r hr => ?_⟩ ⟨hstop, hts⟩
    have hlow := hnew r hr
    simp only [Rank.lower_iff, Order.lower_iff, Task.rank] at hlow ht ⊢
    omega

/-- While work goes on, no scope is left that was open when it began. -/
theorem le_level_of_falls (hbase : base ≤ limit) (h : Task.Falls limit base o m.level base ts) :
    base ≤ m.level := by
  obtain ⟨hstop, hranks⟩ := h
  cases ts with
  | nil => exact Nat.le_of_eq hstop.symm
  | cons t ts =>
    have hlow := hranks _ List.mem_cons_self
    simp only [Rank.lower_iff, Task.rank] at hlow
    omega

theorem Passes.deep (h : m.Passes ts m') (hbase : base ≤ m.env.limit) (hbudget : m'.budget = m.budget)
    (hfalls : Task.Falls m.env.limit base o m.level base ts) : base ≤ m'.level := by
  induction h with
  | here => exact le_level_of_falls hbase hfalls
  | next hstep hrest ih =>
    have hclimbs := climbs_of_ok hstep
    have hsame := Nat.le_antisymm hclimbs.budget (hbudget ▸ hrest.climbs.budget)
    exact ih (hclimbs.limit ▸ hbase) (hbudget.trans hsame.symm) (falls_of_resume hstep hsame hfalls)
  | failed hstep =>
    rw [level, (same_of_error hstep).1]
    exact le_level_of_falls hbase hfalls

/-- Every run ends after some number of steps. -/
theorem exists_runWithin (m : Machine) (ts : List Task) : ∃ n r, runWithin n m ts = some r := by
  fun_induction Machine.run m ts with
  | case1 m => exact ⟨0, _, rfl⟩
  | case2 m t ts new m₁ hstep _ ih =>
    obtain ⟨n, r, h⟩ := ih
    exact ⟨n + 1, r, by simp only [runWithin, hstep, h]⟩
  | case3 m t ts e m₁ hstep => exact ⟨1, .error e m₁, by simp only [runWithin, hstep]⟩

/-! ### Folds -/

/-- The machine that a fold starts to run on. -/
def started (m : Machine) : Machine := ⟨⟨m.pool, m.values.stack.openFrame⟩, m.env, operatorBudget⟩

/-- Where operator words name no nodes, the run of a fold draws nothing from the budget. -/
theorem budget_final_started (he : m.env.Unnamed m.pool) (nid : NodeId) :
    (final (m.started.run [.operand nid])).budget = operatorBudget := by
  obtain ⟨⟨p, s⟩, e, b⟩ := m
  have hopen : (s.stacked []).openFrame = s.stacked [[]] := OperandStack.openFrame_stacked
  have hopen : s.openFrame = s.stacked [[]] := hopen
  have hcomputes : Computes s operatorBudget e
      (doing ⟨⟨p, s.stacked [[]]⟩, e, operatorBudget⟩ [.operand nid]) (Evaluator.operand e nid)
      (fun id => [[id]]) p := computes_operand (evaluates e nid) he
  have hrun : started ⟨⟨p, s⟩, e, b⟩ = ⟨⟨p, s.stacked [[]]⟩, e, operatorBudget⟩ := by
    rw [← hopen]
    rfl
  rw [hrun]
  have hend := hcomputes []
  simp only [doing, List.append_nil] at hend
  unfold Ensures at hend
  split at hend
  · rw [hend.2, run_nil]
    rfl
  · obtain ⟨st, inner, herror⟩ := hend
    rw [herror]
    rfl

/-- A fold comes to an empty list of tasks or to an error after some number of tasks, whatever the limit is. On the
way there are never fewer scopes open than at the start, and never more than the limit and one; the budget for
operator words is not touched, so it is not what ends the fold. -/
theorem fold_terminates (he : m.env.Unnamed m.pool) (hdepth : m.env.depth ≤ m.env.limit + 1) (nid : NodeId) :
    (∃ n r, runWithin n m.started [.operand nid] = some r) ∧
      ∀ m', m.started.Passes [.operand nid] m' →
        m.env.depth ≤ m'.env.depth ∧ m'.env.depth ≤ m.env.limit + 1 ∧ m'.budget = operatorBudget := by
  refine ⟨exists_runWithin _ _, fun m' h => ?_⟩
  have hclimbs : m.started.Climbs m' := h.climbs
  have hbudget : m'.budget = m.started.budget := by
    obtain ⟨ts', hend⟩ := h.exists_run
    have hspent := hend.climbs.budget
    rw [budget_final_started he nid] at hspent
    exact Nat.le_antisymm hclimbs.budget hspent
  have hbase : m.level ≤ m.env.limit := Nat.le_of_succ_le_succ hdepth
  have hfalls : Task.Falls m.env.limit m.level (nid + 1, 0, 0) m.level m.level [.operand nid] :=
    .cons_of_order (Nat.le_refl _) (Task.operand_lower (Nat.lt_succ_self nid)) .nil
  have hdeep : m.level ≤ m'.level := h.deep hbase hbudget hfalls
  have hlevel : m'.level ≤ max m.level m.env.limit := hclimbs.level
  refine ⟨Nat.succ_le_succ hdeep, Nat.succ_le_succ ?_, hbudget⟩
  exact Nat.le_trans hlevel (Nat.max_le.2 ⟨hbase, Nat.le_refl _⟩)

/-- A function without parameters that calls itself, below the limit of three. -/
def runaway : Machine :=
  ofPool (Pool.empty.intern (.ident "f")).2 { Environment.initial with
    inner := [⟨"scope", [("f", { Word.function "f" with nid := 1, closure := some ⟨[], [], []⟩ })]⟩]
    limit := 3 }

theorem runaway_terminates : (∃ n r, runWithin n runaway.started [.operand 1] = some r) ∧
    ∀ m', runaway.started.Passes [.operand 1] m' →
      2 ≤ m'.env.depth ∧ m'.env.depth ≤ 4 ∧ m'.budget = operatorBudget := by
  refine fold_terminates ?_ (by decide) 1
  have hnames : ∀ w ∈ Environment.operatorWords, w.1 ≠ "f" := by decide
  have hoperators : Environment.initial.Unnamed runaway.pool := by
    refine Environment.all_initial fun w hw => .of_ne (by simp [Word.operator]) fun _ _ id hid => ?_
    obtain h | ⟨id, hid⟩ := name_of_get?_intern hid
    · exact hnames w hw (Node.ident.inj h).symm
    · cases id <;> cases hid
  refine ⟨hoperators.globals, List.forall_mem_singleton.2 (List.forall_mem_singleton.2 ?_)⟩
  refine .intro (by rintro _ ⟨⟩) fun _ c hc => ?_
  cases hc
  exact Lexicon.all_nil

end Linefold.Machine
