import Linefold.Proofs.Arithmetic.Values
import Linefold.Proofs.Evaluation.Clauses
import Linefold.Proofs.Folding.Additions
import Linefold.Proofs.Isolation.Runs
import Linefold.Proofs.Scoping.Free
import Mathlib.Data.List.Induction

/-!
# Which clause a case selects

The clauses of a case are tried in turn. `Machine.Chooses` says what comes of it: a pattern variable matches, and so does a
pattern that folds to the node that the scrutinee is, seen through groups; a pattern that folds to another node refutes its
clause if both are their own values. The first clause that is not refuted decides, and nothing after it is folded
(`Machine.run_case`): its body is what the case comes to, or all clauses are rebuilt with their parts folded
(`Machine.RebuildsAll`).
-/

namespace Linefold

namespace OperandStack

variable {s t : OperandStack} {v w : NodeId} {ids : List NodeId}

theorem push_inj (h : s.push v = t.push w) : s = t ∧ v = w := by
  obtain ⟨hitems, hframes⟩ := OperandStack.mk.inj h
  obtain ⟨hvalue, hitems⟩ := Array.push_eq_push.1 hitems
  exact ⟨congrArg₂ OperandStack.mk hitems hframes, hvalue⟩

theorem nested_pushAll (h : s.Nested) : (ids.foldl push s).Nested := by
  induction ids generalizing s with
  | nil => exact h
  | cons id ids ih => exact ih (h.push id)

end OperandStack

theorem ValuesM.popMany_pushAll {s : OperandStack} {p : Pool} (h : s.Nested) (ids : List NodeId) :
    ValuesM.popMany ids.length ⟨p, ids.foldl OperandStack.push s⟩ = .ok ids ⟨p, s⟩ := by
  induction ids using List.reverseRecOn with
  | nil => rfl
  | append_singleton ids id ih =>
    have hpop : ValuesM.pop ⟨p, (ids.foldl OperandStack.push s).push id⟩ = .ok id ⟨p, ids.foldl OperandStack.push s⟩ := by
      simp only [ValuesM.pop, OperandStack.pop_push (OperandStack.nested_pushAll h)]
    rw [List.foldl_concat, List.length_append]
    simp only [List.length_singleton, ValuesM.popMany, bind, EStateM.bind, hpop, ih]
    rfl

namespace Machine

variable {m m' m₁ m₂ k k' : Machine} {id nid v w u : NodeId} {s : OperandStack} {ts : List Task} {ids es rs : List NodeId}
  {cs : List Clause} {c : Clause} {name : String} {n : Node} {e : Error} {p : Pool}

/-! ### Folding as an operand -/

/-- The machine with one more value in its frame. -/
def pushed (m : Machine) (v : NodeId) : Machine := ⟨⟨m.pool, m.values.stack.push v⟩, m.env, m.budget⟩

theorem pushed_inj (h : m.pushed v = k.pushed w) : m = k ∧ v = w := by
  obtain ⟨⟨p, s⟩, e, b⟩ := m
  obtain ⟨⟨q, t⟩, f, d⟩ := k
  simp only [pushed, pool, Machine.mk.injEq, Values.mk.injEq] at h
  obtain ⟨⟨rfl, hstack⟩, rfl, rfl⟩ := h
  obtain ⟨rfl, rfl⟩ := OperandStack.push_inj hstack
  exact ⟨rfl, rfl⟩

/-- The machine on another operand stack. -/
def onStack (m : Machine) (s : OperandStack) : Machine := ⟨⟨m.pool, s⟩, m.env, m.budget⟩

/-- The machine with another pool and another budget. -/
def after (m : Machine) (q : Pool) (b : Nat) : Machine := ⟨⟨q, m.values.stack⟩, m.env, b⟩

/-- The machine with the node in its pool. -/
def interned (m : Machine) (n : Node) : Machine := m.after (m.pool.intern n).2 m.budget

/-- Folded in a frame of its own, the node comes to the value `v`. -/
def FoldsTo (m : Machine) (nid v : NodeId) (m' : Machine) : Prop := m.run [.operand nid] = .ok () (m'.pushed v)

theorem exists_foldsTo (m : Machine) (nid : NodeId) :
    (∃ v q b, m.FoldsTo nid v (m.after q b) ∧
        ∀ s ts, (m.onStack s).run (.operand nid :: ts) = ((m.after q b).onStack (s.push v)).run ts) ∨
      ∀ s ts, ∃ err k, (m.onStack s).run (.operand nid :: ts) = .error err k := by
  have hisolated : Isolated m.pool m.env m.budget (.operand nid) := isolated_operand
  rcases hisolated with ⟨v, q, b, h⟩ | ⟨err, y, h⟩
  · exact .inl ⟨v, q, b, (h m.values.stack []).trans run_nil, h⟩
  · exact .inr fun s ts => ⟨err, _, h s ts⟩

namespace FoldsTo

theorem spec (h : m.FoldsTo nid v m') : m' = m.after m'.pool m'.budget ∧
    ∀ s ts, (m.onStack s).run (.operand nid :: ts) = (m'.onStack (s.push v)).run ts := by
  rcases m.exists_foldsTo nid with ⟨w, q, b, hw, hrun⟩ | herror
  · obtain ⟨rfl, rfl⟩ := pushed_inj (EStateM.Result.ok.inj (h.symm.trans hw)).2
    exact ⟨rfl, hrun⟩
  · obtain ⟨err, k, herror⟩ := herror m.values.stack []
    exact nomatch h.symm.trans herror

theorem env_eq (h : m.FoldsTo nid v m') : m'.env = m.env := by rw [h.spec.1]; rfl

theorem stack_eq (h : m.FoldsTo nid v m') : m'.values.stack = m.values.stack := by rw [h.spec.1]; rfl

theorem run_eq (h : m.FoldsTo nid v m') (ts : List Task) : m.run (.operand nid :: ts) = (m'.pushed v).run ts := by
  have hrun : m.run (.operand nid :: ts) = (m'.onStack (m.values.stack.push v)).run ts := h.spec.2 m.values.stack ts
  rw [hrun, ← h.stack_eq]
  rfl

theorem accrues (h : m.FoldsTo nid v m') : m.pool.Accrues m'.pool := by
  have haccrued : Accrued m.pool (m.run [.operand nid]) := run_accrues (.cons trivial .nil)
  rw [FoldsTo] at h
  rw [h] at haccrued
  exact haccrued

theorem unique (h : m.FoldsTo nid v m') (h' : m.FoldsTo nid w k) : m' = k ∧ v = w :=
  pushed_inj (EStateM.Result.ok.inj (h.symm.trans h')).2

end FoldsTo

/-- A literal is its own value. -/
theorem foldsTo_literal (h : m.pool.get? id = some n) (hident : ∀ x, n ≠ .ident x) (hbranch : ∀ t es, n ≠ .branch t es) :
    m.FoldsTo id id m := by
  have hvisit : m.opened.resume (.visit id) = .ok [] (m.opened.pushed id) := by
    have h' : m.opened.pool.get? id = some n := h
    simp only [resume, visit, h']
    cases n with
    | ident x => exact absurd rfl (hident x)
    | branch t es => exact absurd rfl (hbranch t es)
    | _ => rfl
  have hcollect : (m.opened.pushed id).resume (.reduce .collect) = .ok [] (m.pushed id) := by
    simp only [opened, pushed, resume, reducing, onValues, Reduction.run, bind, EStateM.bind, ValuesM.closeFrame,
      OperandStack.closeFrame_push]
    rfl
  have hopen : m.resume (.operand id) = .ok [.visit id, .reduce .collect] m.opened := rfl
  rw [FoldsTo, run_of_resume hopen]
  exact (run_of_resume hvisit _).trans ((run_of_resume hcollect _).trans run_nil)

/-! ### Choosing a clause -/

/-- The machine with a scope open for the variable of a clause, which is absent while its value is not known. -/
def binding (m : Machine) (name : String) (v : NodeId) : Machine :=
  ⟨m.values, m.env.opened "case" [] [{ Word.value name 0 with nid := v }], m.budget⟩

/-- What trying the clauses of a case comes to. -/
inductive Choice where
  /-- A pattern is a variable. -/
  | binds (name : String) (body : NodeId)
  /-- A pattern folds to the node that the scrutinee is. -/
  | equal (body : NodeId)
  /-- A pattern neither matches nor refutes its clause. -/
  | undecided
  /-- No clause is left. -/
  | exhausted
  /-- A pattern fails to fold. -/
  | failed (e : Error)

/-- The clauses are tried on the scrutinee `v`, from the first one to one that is not refuted. -/
inductive Chooses (v : NodeId) : Machine → List Clause → Choice → Machine → Prop where
  | exhausted {m : Machine} : Chooses v m [] .exhausted m
  | binds {m : Machine} {c : Clause} {cs : List Clause} {name : String} {names : NodeId}
      (hvar : c.variable? m.pool = some (name, names)) : Chooses v m (c :: cs) (.binds name c.body) m
  | equal {m m' : Machine} {c : Clause} {cs : List Clause} {w : NodeId} (hvar : c.variable? m.pool = none)
      (hfold : m.FoldsTo c.pattern w m') (heq : m'.pool.unwrapGroup w = m'.pool.unwrapGroup v) :
      Chooses v m (c :: cs) (.equal c.body) m'
  | refuted {m m' m'' : Machine} {c : Clause} {cs : List Clause} {w : NodeId} {o : Choice}
      (hvar : c.variable? m.pool = none) (hfold : m.FoldsTo c.pattern w m')
      (hne : m'.pool.unwrapGroup w ≠ m'.pool.unwrapGroup v) (hground : m'.pool.isGround v ∧ m'.pool.isGround w)
      (hrest : Chooses v m' cs o m'') : Chooses v m (c :: cs) o m''
  | undecided {m m' : Machine} {c : Clause} {cs : List Clause} {w : NodeId} (hvar : c.variable? m.pool = none)
      (hfold : m.FoldsTo c.pattern w m') (hne : m'.pool.unwrapGroup w ≠ m'.pool.unwrapGroup v)
      (hopen : ¬ (m'.pool.isGround v ∧ m'.pool.isGround w)) : Chooses v m (c :: cs) .undecided m'
  | failed {m m' : Machine} {c : Clause} {cs : List Clause} {e : Error} (hvar : c.variable? m.pool = none)
      (hfold : m.run [.operand c.pattern] = .error e m') : Chooses v m (c :: cs) (.failed e) m'

theorem exists_chooses (v : NodeId) (m : Machine) (cs : List Clause) : ∃ o m', Chooses v m cs o m' := by
  induction cs generalizing m with
  | nil => exact ⟨_, _, .exhausted⟩
  | cons c cs ih =>
    cases hvar : c.variable? m.pool with
    | some found => exact ⟨_, _, .binds hvar⟩
    | none =>
      rcases m.exists_foldsTo c.pattern with ⟨w, q, b, hfold, -⟩ | herror
      · by_cases heq : (m.after q b).pool.unwrapGroup w = (m.after q b).pool.unwrapGroup v
        · exact ⟨_, _, .equal hvar hfold heq⟩
        · by_cases hground : (m.after q b).pool.isGround v ∧ (m.after q b).pool.isGround w
          · obtain ⟨o, m', hrest⟩ := ih (m.after q b)
            exact ⟨o, m', .refuted hvar hfold heq hground hrest⟩
          · exact ⟨_, _, .undecided hvar hfold heq hground⟩
      · obtain ⟨err, m', herror⟩ := herror m.values.stack []
        exact ⟨_, _, .failed hvar herror⟩

theorem run_of_error {t : Task} (h : m.run [t] = .error e m') (ts : List Task) : m.run (t :: ts) = .error e m' := by
  have happend : m.run ([t] ++ ts) = _ := run_append
  rw [h] at happend
  exact happend

/-- What is done once a choice is made. -/
def Choice.work (o : Choice) (m : Machine) (nid v : NodeId) : Work :=
  match o with
  | .binds name body => Step.work (m.entering "case" [] [{ Word.value name 0 with nid := v }] [.visit body, .exit])
  | .equal body => m.doing [.visit body]
  | .undecided => Step.work (m.residualCase nid v)
  | .exhausted => Step.work (m.exhausted nid v)
  | .failed e => fun _ => .error e m

theorem work_select_cons {r : Step} (hid : clause m.pool id = .ok c) (hvar : c.variable? m.pool = none)
    (hfold : m.FoldsTo c.pattern w m') (hs : m.values.stack.Nested)
    (htry : m'.tryClause nid v w (id :: ids) = r) : Step.work (m.select nid v (id :: ids)) = Step.work r := by
  have hselect : m.select nid v (id :: ids) = .ok [.operand c.pattern, .clause nid (id :: ids) v] m := by
    simp only [select, hid, hvar]
  have hpop : ValuesM.pop ⟨m'.pool, m'.values.stack.push w⟩ = .ok w m'.values := by
    have hnested : m'.values.stack.Nested := hfold.stack_eq ▸ hs
    simp only [ValuesM.pop, OperandStack.pop_push hnested]
    rfl
  have hclause : (m'.pushed w).resume (.clause nid (id :: ids) v) = r := by
    subst htry
    unfold resume
    exact onValues_of_ok hpop
  funext ts
  rw [hselect]
  show m.run (.operand c.pattern :: .clause nid (id :: ids) v :: ts) = _
  rw [hfold.run_eq, run_cons, hclause]
  rfl

theorem exists_of_mapM_cons (h : ids.mapM (clause p) = .ok (c :: cs)) :
    ∃ id ids', ids = id :: ids' ∧ clause p id = .ok c ∧ ids'.mapM (clause p) = .ok cs := by
  cases ids with
  | nil => cases h
  | cons id ids =>
    rw [List.mapM_cons] at h
    obtain ⟨c', hc, h⟩ := Pattern.exists_of_bind_eq_ok h
    obtain ⟨cs', hcs, h⟩ := Pattern.exists_of_bind_eq_ok h
    cases h
    exact ⟨id, ids, rfl, hc, hcs⟩

theorem mapM_clause_mono {q : Pool} (h : ids.mapM (clause p) = .ok cs) (hpq : p.Extends q) :
    ids.mapM (clause q) = .ok cs := by
  induction cs generalizing ids with
  | nil =>
    obtain rfl : ids = [] := List.eq_nil_of_length_eq_zero (length_of_mapM h).symm
    rfl
  | cons c cs ih =>
    obtain ⟨id, ids, rfl, hid, hids⟩ := exists_of_mapM_cons h
    rw [List.mapM_cons, clause_eq_of_le hpq (le_size_of_clause hid), hid, ih hids]
    rfl

/-- The clauses are tried as it is said. The induction is on the clauses that are tried. -/
theorem work_select {o : Choice} (h : Chooses v m cs o m') (hs : m.values.stack.Nested)
    (hids : ids.mapM (clause m.pool) = .ok cs) : Step.work (m.select nid v ids) = o.work m' nid v := by
  induction h generalizing ids with
  | exhausted =>
    obtain rfl : ids = [] := List.eq_nil_of_length_eq_zero (length_of_mapM hids).symm
    rfl
  | binds hvar =>
    obtain ⟨id, ids, rfl, hid, -⟩ := exists_of_mapM_cons hids
    simp only [select, hid, hvar]
    rfl
  | equal hvar hfold heq =>
    obtain ⟨id, ids, rfl, hid, -⟩ := exists_of_mapM_cons hids
    have hid' := (clause_eq_of_le hfold.accrues.keeps (le_size_of_clause hid)).trans hid
    refine (work_select_cons hid hvar hfold hs ?_).trans work_ok
    simp only [tryClause, if_pos heq, hid']
  | @refuted m m' m'' c cs w o hvar hfold hne hground hrest ih =>
    obtain ⟨id, ids, rfl, hid, hids⟩ := exists_of_mapM_cons hids
    have hselect := ih (hfold.stack_eq ▸ hs) (mapM_clause_mono hids hfold.accrues.keeps)
    refine (work_select_cons hid hvar hfold hs ?_).trans hselect
    simp only [tryClause, if_neg hne, hground, Bool.and_self, ↓reduceIte]
  | @undecided m m' c cs w hvar hfold hne hopen =>
    obtain ⟨id, ids, rfl, hid, -⟩ := exists_of_mapM_cons hids
    refine work_select_cons hid hvar hfold hs ?_
    have hfalse : ¬ (m'.pool.isGround v && m'.pool.isGround w) := by rwa [Bool.and_eq_true]
    simp only [tryClause, if_neg hne, if_neg hfalse]
  | failed hvar hfold =>
    obtain ⟨id, ids, rfl, hid, -⟩ := exists_of_mapM_cons hids
    simp only [select, hid, hvar]
    funext ts
    exact run_of_error hfold _

/-! ### Rebuilding a case -/

/-- The clause is rebuilt, with its parts folded. The variable of a clause has no value in its own body. -/
inductive Rebuilds (m : Machine) (c : Clause) : NodeId → Machine → Prop where
  | plain {m₁ m₂ : Machine} {w u : NodeId} (hvar : c.variable? m.pool = none) (hpattern : m.FoldsTo c.pattern w m₁)
      (hbody : m₁.FoldsTo c.body u m₂) :
      Rebuilds m c (m₂.pool.intern (.branch .of [w, u])).1 (m₂.interned (.branch .of [w, u]))
  | binds {m₁ : Machine} {u : NodeId} {name : String} {names : NodeId} (hvar : c.variable? m.pool = some (name, names))
      (hroom : ¬ m.env.limit < m.env.depth) (hbody : (m.binding name 0).FoldsTo c.body u m₁) :
      Rebuilds m c (m₁.pool.intern (.branch .of [c.pattern, u, names])).1
        ((m.after m₁.pool m₁.budget).interned (.branch .of [c.pattern, u, names]))

/-- The clauses are rebuilt, one after the other. -/
inductive RebuildsAll : Machine → List Clause → List NodeId → Machine → Prop where
  | nil {m : Machine} : RebuildsAll m [] [] m
  | cons {m m₁ m₂ : Machine} {c : Clause} {cs : List Clause} {r : NodeId} {rs : List NodeId} (h : m.Rebuilds c r m₁)
      (hrest : RebuildsAll m₁ cs rs m₂) : RebuildsAll m (c :: cs) (r :: rs) m₂

theorem run_reduce {r : Reduction} {a : Values} (h : r.run m.values = .ok () a) (ts : List Task) :
    m.run (.reduce r :: ts) = run ⟨a, m.env, m.budget⟩ ts := by
  have hstep : m.resume (.reduce r) = .ok [] ⟨a, m.env, m.budget⟩ := onValues_of_ok h
  exact run_of_resume hstep ts

theorem run_build (hs : s.Nested) (t : Tag) (ids : List NodeId) (ts : List Task) :
    (m.onStack (ids.foldl OperandStack.push s)).run (.reduce (.build t ids.length) :: ts) =
      ((m.interned (.branch t ids)).onStack (s.push (m.pool.intern (.branch t ids)).1)).run ts := by
  refine run_reduce ?_ ts
  simp only [onStack, Reduction.run, bind, EStateM.bind, ValuesM.popMany_pushAll hs]
  rfl

theorem Rebuilds.run_tasks {r : NodeId} (h : m.Rebuilds c r m') (hs : s.Nested) (ts : List Task) :
    (m.onStack s).run (c.tasks m.pool ++ ts) = (m'.onStack (s.push r)).run ts := by
  cases h with
  | @plain m₁ m₂ w u hvar hpattern hbody =>
    have htasks : c.tasks m.pool = [.operand c.pattern, .operand c.body, .reduce (.build .of 2)] := by
      simp only [Clause.tasks, hvar]
    rw [htasks]
    exact (hpattern.spec.2 _ _).trans ((hbody.spec.2 _ _).trans (run_build hs .of [w, u] ts))
  | @binds m₁ u name names hvar hroom hbody =>
    have htasks : c.tasks m.pool = [.reduce (.push c.pattern), .enter name, .operand c.body, .exit, .reduce (.push names),
        .reduce (.build .of 3)] := by
      simp only [Clause.tasks, hvar]
    have hpush (id : NodeId) (k : Machine) (t : OperandStack) (us : List Task) :
        (k.onStack t).run (.reduce (.push id) :: us) = (k.onStack (t.push id)).run us := run_reduce rfl us
    have henter : (m.onStack (s.push c.pattern)).resume (.enter name) =
        .ok [] ((m.binding name 0).onStack (s.push c.pattern)) := entering_of_not_lt hroom
    have hexit : (m₁.onStack ((s.push c.pattern).push u)).resume .exit =
        .ok [] ((m.after m₁.pool m₁.budget).onStack ((s.push c.pattern).push u)) := by
      have hinner := hbody.env_eq.trans (m.env.opened_eq "case" [] [{ Word.value name 0 with nid := 0 }])
      simp only [resume, onStack, hinner]
      rfl
    rw [htasks]
    refine (hpush _ m s _).trans ((run_of_resume henter _).trans ((hbody.spec.2 _ _).trans ((run_of_resume hexit _).trans ?_)))
    exact (hpush _ _ _ _).trans (run_build hs .of [c.pattern, u, names] ts)

theorem Rebuilds.accrues {r : NodeId} (h : m.Rebuilds c r m') : m.pool.Accrues m'.pool := by
  cases h with
  | plain hvar hpattern hbody => exact (hpattern.accrues.trans hbody.accrues).trans (Pool.accrues_intern trivial)
  | binds hvar hroom hbody => exact hbody.accrues.trans (Pool.accrues_intern trivial)

theorem Rebuilds.stack_eq {r : NodeId} (h : m.Rebuilds c r m') : m'.values.stack = m.values.stack := by
  cases h with
  | plain hvar hpattern hbody => exact hbody.stack_eq.trans hpattern.stack_eq
  | binds => rfl

theorem tasks_eq_of_clause {q : Pool} (h : clause p id = .ok c) (hpq : p.Extends q) : c.tasks q = c.tasks p := by
  unfold Clause.tasks
  rw [variable_eq_of_clause h hpq]

theorem RebuildsAll.run_tasks (h : RebuildsAll m cs rs m') (hs : s.Nested) (hids : ids.mapM (clause p) = .ok cs)
    (hp : p.Extends m.pool) (ts : List Task) :
    (m.onStack s).run ((cs.map (Clause.tasks p)).flatten ++ ts) = (m'.onStack (rs.foldl OperandStack.push s)).run ts := by
  induction h generalizing ids s with
  | nil => rfl
  | cons h hrest ih =>
    obtain ⟨id, ids, rfl, hid, hids⟩ := exists_of_mapM_cons hids
    rw [List.map_cons, List.flatten_cons, List.append_assoc, ← tasks_eq_of_clause hid hp, h.run_tasks hs]
    exact ih (hs.push _) hids (hp.trans h.accrues.keeps)

theorem RebuildsAll.length_eq (h : RebuildsAll m cs rs m') : rs.length = cs.length := by
  induction h with
  | nil => rfl
  | cons _ _ ih => exact congrArg (· + 1) ih

theorem RebuildsAll.stack_eq (h : RebuildsAll m cs rs m') : m'.values.stack = m.values.stack := by
  induction h with
  | nil => rfl
  | cons h _ ih => exact ih.trans h.stack_eq

/-- The clauses are rebuilt as it is said, under the scrutinee. -/
theorem work_residualCase {scr : NodeId} (hs : m.values.stack.Nested)
    (hnid : m.pool.get? nid = some (.branch .case (scr :: ids))) (hids : ids.mapM (clause m.pool) = .ok cs)
    (h : RebuildsAll m cs rs m') (ts : List Task) : Step.work (m.residualCase nid v) ts =
      ((m'.interned (.branch .case (v :: rs))).pushed (m'.pool.intern (.branch .case (v :: rs))).1).run ts := by
  have htasks : ids.mapM (residualClause m.pool) = .ok (cs.map (Clause.tasks m.pool)) := by
    rw [mapM_residualClause, hids]
    rfl
  have hcount : (scr :: ids).length = (v :: rs).length :=
    congrArg (· + 1) ((length_of_mapM hids).symm.trans h.length_eq.symm)
  have hresidual : m.residualCase nid v =
      .ok (.reduce (.push v) :: ((cs.map (Clause.tasks m.pool)).flatten ++ [.reduce (.build .case (v :: rs).length)])) m := by
    simp only [residualCase, hnid, Node.elts, List.drop_one, List.tail_cons, htasks, hcount]
  have hpush : m.run (.reduce (.push v) :: ((cs.map (Clause.tasks m.pool)).flatten ++
        (.reduce (.build .case (v :: rs).length) :: ts))) =
      (m.onStack (m.values.stack.push v)).run ((cs.map (Clause.tasks m.pool)).flatten ++
        (.reduce (.build .case (v :: rs).length) :: ts)) := run_reduce rfl _
  rw [hresidual, work_ok, doing, List.cons_append, List.append_assoc]
  refine hpush.trans ((h.run_tasks (hs.push v) hids (.refl _) _).trans ((run_build hs .case (v :: rs) ts).trans ?_))
  rw [← h.stack_eq]
  rfl

/-! ### Cases -/

/-- There is one choice at most. -/
theorem Chooses.unique {o o' : Choice} (h : Chooses v m cs o m') (h' : Chooses v m cs o' k) : o' = o ∧ k = m' := by
  induction h generalizing o' k with
  | exhausted =>
    cases h'
    exact ⟨rfl, rfl⟩
  | binds hvar =>
    cases h' with
    | binds hvar' =>
      obtain ⟨rfl, -⟩ := Prod.mk.inj (Option.some.inj (hvar.symm.trans hvar'))
      exact ⟨rfl, rfl⟩
    | equal hvar' | refuted hvar' | undecided hvar' | failed hvar' => exact nomatch hvar.symm.trans hvar'
  | equal hvar hfold heq =>
    cases h' with
    | binds hvar' => exact nomatch hvar.symm.trans hvar'
    | equal _ hfold' =>
      obtain ⟨rfl, rfl⟩ := hfold.unique hfold'
      exact ⟨rfl, rfl⟩
    | refuted _ hfold' hne | undecided _ hfold' hne =>
      obtain ⟨rfl, rfl⟩ := hfold.unique hfold'
      exact absurd heq hne
    | failed _ hfold' => exact nomatch hfold.symm.trans hfold'
  | refuted hvar hfold hne hground hrest ih =>
    cases h' with
    | binds hvar' => exact nomatch hvar.symm.trans hvar'
    | equal _ hfold' heq =>
      obtain ⟨rfl, rfl⟩ := hfold.unique hfold'
      exact absurd heq hne
    | refuted _ hfold' _ _ hrest' =>
      obtain ⟨rfl, rfl⟩ := hfold.unique hfold'
      exact ih hrest'
    | undecided _ hfold' _ hopen =>
      obtain ⟨rfl, rfl⟩ := hfold.unique hfold'
      exact absurd hground hopen
    | failed _ hfold' => exact nomatch hfold.symm.trans hfold'
  | undecided hvar hfold hne hopen =>
    cases h' with
    | binds hvar' => exact nomatch hvar.symm.trans hvar'
    | equal _ hfold' heq =>
      obtain ⟨rfl, rfl⟩ := hfold.unique hfold'
      exact absurd heq hne
    | refuted _ hfold' _ hground =>
      obtain ⟨rfl, rfl⟩ := hfold.unique hfold'
      exact absurd hground hopen
    | undecided _ hfold' =>
      obtain ⟨rfl, rfl⟩ := hfold.unique hfold'
      exact ⟨rfl, rfl⟩
    | failed _ hfold' => exact nomatch hfold.symm.trans hfold'
  | failed hvar hfold =>
    cases h' with
    | binds hvar' => exact nomatch hvar.symm.trans hvar'
    | equal _ hfold' | refuted _ hfold' | undecided _ hfold' => exact nomatch hfold.symm.trans hfold'
    | failed _ hfold' =>
      obtain ⟨rfl, rfl⟩ := EStateM.Result.error.inj (hfold.symm.trans hfold')
      exact ⟨rfl, rfl⟩

theorem Chooses.accrues {o : Choice} (h : Chooses v m cs o m') : m.pool.Accrues m'.pool := by
  induction h with
  | exhausted | binds => exact .refl _
  | equal _ hfold | undecided _ hfold => exact hfold.accrues
  | refuted _ hfold _ _ _ ih => exact hfold.accrues.trans ih
  | @failed m m' c cs e hvar hfold =>
    have haccrued : Accrued m.pool (m.run [.operand c.pattern]) := run_accrues (.cons trivial .nil)
    rw [hfold] at haccrued
    exact haccrued.1

theorem Chooses.env_eq {o : Choice} (h : Chooses v m cs o m') (ho : ∀ e, o ≠ .failed e) : m'.env = m.env := by
  induction h with
  | exhausted | binds => rfl
  | equal _ hfold | undecided _ hfold => exact hfold.env_eq
  | refuted _ hfold _ _ _ ih => exact (ih ho).trans hfold.env_eq
  | failed => exact absurd rfl (ho _)

theorem Chooses.stack_eq {o : Choice} (h : Chooses v m cs o m') (ho : ∀ e, o ≠ .failed e) :
    m'.values.stack = m.values.stack := by
  induction h with
  | exhausted | binds => rfl
  | equal _ hfold | undecided _ hfold => exact hfold.stack_eq
  | refuted _ hfold _ _ _ ih => exact (ih ho).trans hfold.stack_eq
  | failed => exact absurd rfl (ho _)

/-- The choice is to take the clause. -/
inductive Choice.Takes : Choice → Clause → Prop where
  | binds {name : String} {c : Clause} : Takes (.binds name c.body) c
  | equal {c : Clause} : Takes (.equal c.body) c

/-- What is read of a clause that is refuted. -/
def Clause.head (c : Clause) : NodeId × Option NodeId := (c.pattern, c.names)

theorem Clause.variable_eq_of_head {d : Clause} (h : d.head = c.head) (p : Pool) : d.variable? p = c.variable? p := by
  obtain ⟨hpattern, hnames⟩ := Prod.mk.inj h
  simp only [ Clause.variable?, hpattern, hnames]

/-- Where a clause is taken, no other body has been read, and nothing of a later clause. -/
theorem Chooses.exists_of_takes {o : Choice} (h : Chooses v m cs o m') (ho : ∃ c, o.Takes c) :
    ∃ ds c ds', cs = ds ++ c :: ds' ∧ o.Takes c ∧
      ∀ es es', es.map Clause.head = ds.map Clause.head → Chooses v m (es ++ c :: es') o m' := by
  have hnil {es : List Clause} (hes : es.map Clause.head = [].map Clause.head) : es = [] := List.map_eq_nil_iff.1 hes
  induction h with
  | exhausted | undecided | failed =>
    obtain ⟨c, ho⟩ := ho
    cases ho
  | @binds m c cs name names hvar =>
    refine ⟨[], c, cs, rfl, .binds, fun es es' hes => ?_⟩
    rw [hnil hes]
    exact .binds hvar
  | @equal m m' c cs w hvar hfold heq =>
    refine ⟨[], c, cs, rfl, .equal, fun es es' hes => ?_⟩
    rw [hnil hes]
    exact .equal hvar hfold heq
  | @refuted m m' m'' c cs w o hvar hfold hne hground hrest ih =>
    obtain ⟨ds, d, ds', rfl, hd, hrest⟩ := ih ho
    refine ⟨c :: ds, d, ds', rfl, hd, fun es es' hes => ?_⟩
    obtain ⟨e, es, rfl, he, hes⟩ := List.map_eq_cons_iff.1 hes
    have hpattern : e.pattern = c.pattern := congrArg Prod.fst he
    exact .refuted ((Clause.variable_eq_of_head he _).trans hvar) (hpattern ▸ hfold) hne hground (hrest es es' hes)

/-- A ground scrutinee leaves the choice open only where a pattern is not ground. -/
theorem Chooses.exists_of_undecided {o : Choice} (h : Chooses v m cs o m') (ho : o = .undecided)
    (hv : m'.pool.isGround v) : ∃ c ∈ cs, ∃ k w, k.env = m.env ∧ k.values.stack = m.values.stack ∧
      FoldsTo k c.pattern w m' ∧ m'.pool.isGround w = false := by
  induction h with
  | @undecided m m' c cs w hvar hfold hne hopen =>
    exact ⟨c, .head _, m, w, rfl, rfl, hfold, by simpa [hv] using hopen⟩
  | refuted _ hfold _ _ _ ih =>
    obtain ⟨c, hc, k, w, henv, hstack, h⟩ := ih ho hv
    exact ⟨c, .tail _ hc, k, w, henv.trans hfold.env_eq, hstack.trans hfold.stack_eq, h⟩
  | _ => cases ho

theorem Clause.get?_pattern {names : NodeId} (h : c.variable? p = some (name, names)) :
    p.get? c.pattern = some (.ident name) := by
  unfold Clause.variable? at h
  split at h
  · next hident =>
    obtain ⟨rfl, -⟩ := Prod.mk.inj (Option.some.inj h)
    exact hident
  · cases h

/-- The variable of a clause stays as it is in the scope where it has no value. -/
theorem run_free {names : NodeId} (h : c.variable? m.pool = some (name, names)) (ts : List Task) :
    (m.binding name 0).run (.visit c.pattern :: ts) = ((m.binding name 0).pushed c.pattern).run ts := by
  have hi : (m.binding name 0).pool.get? c.pattern = some (.ident name) := Clause.get?_pattern h
  have hlookup : (m.binding name 0).env.lookup? name = some { Word.value name 0 with nid := 0 } := by
    have hword : (Scope.opening "case" [] [{ Word.value name 0 with nid := 0 }]).get? name = _ :=
      Lexicon.find?_insert [] name _ name
    rw [binding, Environment.lookup?_opened, hword, if_pos rfl]
    rfl
  have hstep : (m.binding name 0).resume (.visit c.pattern) = .ok [] ((m.binding name 0).pushed c.pattern) := by
    simp only [resume, visit, hi, visitName, hlookup]
    rfl
  exact run_of_resume hstep ts

/-- The run of a case, in terms of the choice. -/
theorem run_select {scr : NodeId} {o : Choice} (hs : m.values.stack.Nested)
    (hnid : m.pool.get? nid = some (.branch .case (scr :: ids))) (hids : ids.mapM (clause m.pool) = .ok cs)
    (hscr : m.FoldsTo scr v m₁) (h : Chooses v m₁ cs o m') (ts : List Task) :
    m.run (.visit nid :: ts) = o.work m' nid v ts := by
  have hnid₁ := hscr.accrues.keeps _ _ hnid
  have hpop : ValuesM.pop ⟨m₁.pool, m₁.values.stack.push v⟩ = .ok v m₁.values := by
    simp only [ValuesM.pop, OperandStack.pop_push (hscr.stack_eq ▸ hs)]
    rfl
  have hselect : (m₁.pushed v).resume (.select nid) = m₁.select nid v ids := by
    unfold resume
    refine (onValues_of_ok hpop).trans ?_
    have hget : m₁.values.pool.get? nid = some (.branch .case (scr :: ids)) := hnid₁
    simp only [pool, hget]
    rfl
  have hvisit : m.resume (.visit nid) = .ok [.operand scr, .select nid] m := visit_of_plan hnid (by decide) rfl
  rw [run_of_resume hvisit]
  show m.run (.operand scr :: .select nid :: ts) = _
  rw [hscr.run_eq, run_cons, hselect]
  exact congrFun (work_select h (hscr.stack_eq ▸ hs) (mapM_clause_mono hids hscr.accrues.keeps)) ts

/-- The case at `nid` on the scrutinee `v`, folded on the machine `m`, comes to what the choice says; the clauses have been
tried with the outcome `m'`. -/
def Choice.Leads (o : Choice) (m : Machine) (nid v : NodeId) (cs : List Clause) (m' : Machine) : Prop :=
  ∀ ts, match o with
  | .binds name body => m.run (.visit nid :: ts) =
      if m.env.limit < m.env.depth then .error (.recursion m.env.limit) m'
      else (m'.binding name v).run (.visit body :: .exit :: ts)
  | .equal body => m.run (.visit nid :: ts) = m'.run (.visit body :: ts)
  | .undecided => ∀ rs m₂, RebuildsAll m' cs rs m₂ → m.run (.visit nid :: ts) =
      ((m₂.interned (.branch .case (v :: rs))).pushed (m₂.pool.intern (.branch .case (v :: rs))).1).run ts
  | .exhausted =>
    if m'.pool.isGround v then m.run (.visit nid :: ts) =
      .error (.nonExhaustiveCase (((m'.pool.tree? v).map Tree.text).getD "") (m'.pool.coord? nid)) m'
    else ∀ rs m₂, RebuildsAll m' cs rs m₂ → m.run (.visit nid :: ts) =
      ((m₂.interned (.branch .case (v :: rs))).pushed (m₂.pool.intern (.branch .case (v :: rs))).1).run ts
  | .failed e => m.run (.visit nid :: ts) = .error e m'

theorem leads_of_chooses {scr : NodeId} {o : Choice} (hs : m.values.stack.Nested)
    (hnid : m.pool.get? nid = some (.branch .case (scr :: ids))) (hids : ids.mapM (clause m.pool) = .ok cs)
    (hscr : m.FoldsTo scr v m₁) (h : Chooses v m₁ cs o m') : o.Leads m nid v cs m' := by
  intro ts
  have hrun := run_select hs hnid hids hscr h ts
  have hgrows : m.pool.Extends m'.pool := (hscr.accrues.trans h.accrues).keeps
  have hresidual (ho : ∀ e, o ≠ .failed e) (rs : List NodeId) (m₂ : Machine) (hrs : RebuildsAll m' cs rs m₂) :
      Step.work (m'.residualCase nid v) ts =
        ((m₂.interned (.branch .case (v :: rs))).pushed (m₂.pool.intern (.branch .case (v :: rs))).1).run ts := by
    have hstack := (h.stack_eq ho).trans hscr.stack_eq
    exact work_residualCase (hstack ▸ hs) (hgrows _ _ hnid) (mapM_clause_mono hids hgrows) hrs ts
  cases o with
  | binds name body =>
    have henv : m'.env = m.env := (h.env_eq (by simp)).trans hscr.env_eq
    simp only [hrun, Choice.work, entering_eq, henv]
    split
    · rfl
    · simp only [binding, henv]
      rfl
  | equal body => exact hrun
  | undecided => exact fun rs m₂ hrs => hrun.trans (hresidual (by simp) rs m₂ hrs)
  | exhausted =>
    simp only [hrun, Choice.work, exhausted]
    split
    · rfl
    · exact hresidual (by simp)
  | failed e => exact hrun

/-- A case whose scrutinee folds to `v`, with any clauses: the first clause that is not refuted decides, and until then only
nodes are added. It is the same clause whatever the other bodies and the later clauses are, for these are not folded. A
ground scrutinee leaves the choice open only where a pattern is not ground, and where the clauses are rebuilt, their
variables stay free. -/
theorem run_case {scr : NodeId} (hs : m.values.stack.Nested) (hnid : m.pool.get? nid = some (.branch .case (scr :: ids)))
    (hids : ids.mapM (clause m.pool) = .ok cs) (hscr : m.FoldsTo scr v m₁) :
    ∃ o m', Chooses v m₁ cs o m' ∧ (∀ o' k, Chooses v m₁ cs o' k → o' = o ∧ k = m') ∧
      ((∀ e, o ≠ .failed e) → m' = m.after m'.pool m'.budget) ∧ o.Leads m nid v cs m' ∧
      (∀ c, o.Takes c → ∃ ds d ds', cs = ds ++ d :: ds' ∧ o.Takes d ∧
        ∀ es es', es.map Clause.head = ds.map Clause.head → Chooses v m₁ (es ++ d :: es') o m') ∧
      (o = .undecided → m'.pool.isGround v → ∃ c ∈ cs, ∃ k w, k.env = m.env ∧ k.values.stack = m.values.stack ∧
        FoldsTo k c.pattern w m' ∧ m'.pool.isGround w = false) ∧
      ∀ c ∈ cs, ∀ k name names, c.variable? (pool k) = some (name, names) → ∀ ts,
        (k.binding name 0).run (.visit c.pattern :: ts) = ((k.binding name 0).pushed c.pattern).run ts := by
  obtain ⟨o, m', h⟩ := exists_chooses v m₁ cs
  refine ⟨o, m', h, fun _ _ => h.unique, fun ho => ?_, leads_of_chooses hs hnid hids hscr h,
    fun c hc => h.exists_of_takes ⟨c, hc⟩, fun ho hv => ?_, fun c _ k name names => run_free⟩
  · rw [after, ← hscr.stack_eq, ← hscr.env_eq, ← h.stack_eq ho, ← h.env_eq ho]
    rfl
  rw [← hscr.env_eq, ← hscr.stack_eq]
  exact h.exists_of_undecided ho hv

/-- The nodes of `case true of false: "no"; of x: x end`. -/
def twoClauses : Machine := ofPool (.ofNodes [
  .bool true, .bool false, .str "no", .branch .of [2, 3],
  .ident "x", .branch .list [5], .branch .of [5, 5, 6], .branch .case [1, 4, 7]]) .initial

/-- The first clause is refuted, and the variable of the second one is bound. -/
theorem run_case_twoClauses : twoClauses.values.stack.Nested ∧
    twoClauses.pool.get? 8 = some (.branch .case [1, 4, 7]) ∧
    [4, 7].mapM (clause twoClauses.pool) = .ok [⟨2, 3, none⟩, ⟨5, 5, some 6⟩] ∧ twoClauses.FoldsTo 1 1 twoClauses ∧
    ∀ ts, twoClauses.run (.visit 8 :: ts) = (twoClauses.binding "x" 1).run (.visit 5 :: .exit :: ts) := by
  have hs : twoClauses.values.stack.Nested := List.pairwise_singleton _ _
  have hnid : twoClauses.pool.get? 8 = some (.branch .case [1, 4, 7]) := by decide +kernel
  have hids : [4, 7].mapM (clause twoClauses.pool) = .ok [⟨2, 3, none⟩, ⟨5, 5, some 6⟩] := by decide +kernel
  have hliteral {i : NodeId} {b : Bool} (h : twoClauses.pool.get? i = some (.bool b)) : twoClauses.FoldsTo i i twoClauses :=
    foldsTo_literal h nofun nofun
  have hscr : twoClauses.FoldsTo 1 1 twoClauses := hliteral (b := true) (by decide +kernel)
  have hchooses : Chooses 1 twoClauses [⟨2, 3, none⟩, ⟨5, 5, some 6⟩] (.binds "x" 5) twoClauses := by
    have hvar : Clause.variable? ⟨5, 5, some 6⟩ twoClauses.pool = some ("x", 6) := by decide +kernel
    exact .refuted rfl (hliteral (b := false) (by decide +kernel)) (by decide +kernel) (by decide +kernel) (.binds hvar)
  obtain ⟨o, m', -, hunique, -, hleads, -⟩ := run_case hs hnid hids hscr
  obtain ⟨rfl, rfl⟩ := hunique _ _ hchooses
  refine ⟨hs, hnid, hids, hscr, fun ts => (hleads ts).trans (if_neg ?_)⟩
  decide +kernel

end Machine

end Linefold
