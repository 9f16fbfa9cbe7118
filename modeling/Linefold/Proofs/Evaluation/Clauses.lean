import Linefold.Proofs.Evaluation.Functions

/-!
# Clauses, by tasks and by recursion

The clauses of a case are tried in turn, and rebuilt with their parts folded where the scrutinee is not
known well enough (`computes_select`).
-/

namespace Linefold.Machine

open Pattern (PoolM)

attribute [local irreducible] Pool.intern

variable {s : OperandStack} {b : Nat} {e : Environment} {p q : Pool} {vs ids clauses : List NodeId}
  {fs : List (List NodeId)} {nid id scrutinee first : NodeId}

/-! ### Clauses -/

theorem clause_eq_of_le (hpq : p.Extends q) (hid : id ≤ p.size) : clause q id = clause p id := by
  unfold clause
  rw [hpq.get?_eq hid]

theorem le_size_of_clause {c : Clause} (h : clause p id = .ok c) : id ≤ p.size := by
  unfold clause at h
  split at h
  · cases h
  · next n hn => exact Pool.le_size_of_get? hn

theorem variable_eq_of_clause {c : Clause} (h : clause p id = .ok c) (hpq : p.Extends q) :
    c.variable? q = c.variable? p := by
  have hle := Nat.le_trans (Nat.le_of_lt (lt_of_clause h).1) (le_size_of_clause h)
  unfold Clause.variable?
  rw [hpq.get?_eq hle]

/-- The tasks that rebuild a clause. -/
def Clause.tasks (p : Pool) (c : Clause) : List Task :=
  match c.variable? p with
  | some (name, names) =>
    [.reduce (.push c.pattern), .enter name, .operand c.body, .exit, .reduce (.push names),
      .reduce (.build .of 3)]
  | none => [.operand c.pattern, .operand c.body, .reduce (.build .of 2)]

theorem residualClause_eq : residualClause p id = (do return Clause.tasks p (← clause p id)) := by
  unfold residualClause Clause.tasks
  refine bind_congr fun c => ?_
  rcases c.variable? p with _ | ⟨name, names⟩ <;> rfl

theorem mapM_residualClause : ids.mapM (residualClause p) =
    (do return (← ids.mapM (clause p)).map (Clause.tasks p)) := by
  induction ids with
  | nil => rfl
  | cons id ids ih =>
    rw [List.mapM_cons, List.mapM_cons, ih, residualClause_eq]
    cases clause p id <;> cases ids.mapM (clause p) <;> rfl

/-- What is below a node in the scopes of `e`, and everything where fewer scopes may still be opened, is
evaluated. -/
structure EvaluatesBelow (e : Environment) (nid : NodeId) : Prop where
  nodes : ∀ c < nid, Evaluates e c
  scopes : EvaluatesWithin e

theorem computes_residualClause {c : Clause} {hlt : c.pattern < nid ∧ c.body < nid}
    (hbelow : EvaluatesBelow e nid) (hc : clause p id = .ok c) (hpq : p.Grows q) (he : e.Unnamed q) :
    Computes s b e (doing ⟨⟨q, s.stacked (vs :: fs)⟩, e, b⟩ (c.tasks p))
      (Evaluator.residualClause e nid c hlt) (fun id => (id :: vs) :: fs) q := by
  have hvariable := variable_eq_of_clause hc hpq.keeps
  unfold Clause.tasks
  cases hvar : c.variable? p with
  | none =>
    refine Computes.congr ?_ (Evaluator.residualClause_of_none hlt (hvariable.trans hvar))
    refine (computes_operand (hbelow.nodes _ hlt.1) he).bind fun pattern r hqr => ?_
    refine (computes_operand (hbelow.nodes _ hlt.2) (he.mono hqr)).bind fun body u hru => ?_
    exact computes_build (t := .of) (by decide) [pattern, body] vs
  | some names =>
    obtain ⟨name, names⟩ := names
    simp only [doing_push]
    by_cases hlimit : e.limit < e.depth
    · have hstep : resume ⟨⟨q, s.stacked ((c.pattern :: vs) :: fs)⟩, e, b⟩ (.enter name) =
          .error (.recursion e.limit) ⟨⟨q, s.stacked ((c.pattern :: vs) :: fs)⟩, e, b⟩ :=
        entering_of_lt hlimit
      rw [doing_cons, hstep]
      exact computes_error (by rw [Evaluator.residualClause_of_some hlt (hvariable.trans hvar), if_pos hlimit])
    · refine Computes.congr ?_ ((Evaluator.residualClause_of_some hlt (hvariable.trans hvar)).trans (if_neg hlimit))
      have hstep : resume ⟨⟨q, s.stacked ((c.pattern :: vs) :: fs)⟩, e, b⟩ (.enter name) =
          .ok [] ⟨⟨q, s.stacked ((c.pattern :: vs) :: fs)⟩, e.opened "case" [] [.value name 0], b⟩ :=
        entering_of_not_lt hlimit
      have hopened : (e.opened "case" [] [.value name 0]).Unnamed q :=
        he.opened "case" Lexicon.all_nil (by simp [Pattern.AllValues, Word.value])
      have hroom := Environment.room_opened_lt hlimit "case" [] [.value name 0]
      have hsc := e.opened_eq "case" [] [.value name 0]
      have hwork : doing ⟨⟨q, s.stacked ((c.pattern :: vs) :: fs)⟩, e, b⟩ [.enter name, .operand c.body, .exit] =
          doing ⟨⟨q, s.stacked ((c.pattern :: vs) :: fs)⟩, e.opened "case" [] [.value name 0], b⟩
            ([.operand c.body] ++ [.exit]) := by
        rw [doing_cons, hstep]
        rfl
      have henter := ((computes_operand (hbelow.scopes _ hroom c.body) hopened).inside hsc).of_eq
        hwork rfl (.refl q)
      show Computes s b e (doing ⟨⟨q, s.stacked ((c.pattern :: vs) :: fs)⟩, e, b⟩
        ([.enter name, .operand c.body, .exit] ++ [.reduce (.push names), .reduce (.build .of 3)])) _ _ q
      refine henter.bind fun body u _ => ?_
      rw [doing_push]
      exact computes_build (t := .of) (by decide) [c.pattern, body, names] vs

theorem computes_residualClauses {cs : List Clause} {hlt : ∀ c ∈ cs, c.pattern < nid ∧ c.body < nid}
    (hbelow : EvaluatesBelow e nid) (hcs : ∀ c ∈ cs, ∃ id, clause p id = .ok c) (hpq : p.Grows q)
    (he : e.Unnamed q) :
    Computes s b e (doing ⟨⟨q, s.stacked (vs :: fs)⟩, e, b⟩ (cs.map (Clause.tasks p)).flatten)
      (Evaluator.residualClauses e nid cs hlt) (fun us => (us.reverse ++ vs) :: fs) q := by
  induction cs generalizing vs q with
  | nil =>
    rw [Evaluator.residualClauses]
    exact computes_pure fun us : List NodeId => (us.reverse ++ vs) :: fs
  | cons c cs ih =>
    obtain ⟨⟨id, hc⟩, hcs⟩ := List.forall_mem_cons.1 hcs
    rw [Evaluator.residualClauses]
    refine (computes_residualClause hbelow hc hpq he).bind fun id' r hqr => ?_
    exact (ih hcs (hpq.trans hqr) (he.mono hqr)).map fun us => by simp

theorem length_residualClauses {cs : List Clause} {hlt : ∀ c ∈ cs, c.pattern < nid ∧ c.body < nid} :
    Ensures (Evaluator.residualClauses e nid cs hlt) (fun us _ => us.length = cs.length)
      (fun _ _ => True) p := by
  induction cs generalizing p with
  | nil =>
    rw [Evaluator.residualClauses]
    exact rfl
  | cons c cs ih =>
    rw [Evaluator.residualClauses]
    refine Ensures.bind_iff.2 (ensures_trivial.mono (fun v q _ => ?_) fun _ _ h => h)
    exact Ensures.bind_iff.2 (ih.mono (fun us _ h => congrArg (· + 1) h) fun _ _ h => h)

theorem length_of_mapM {α β ε : Type} {f : α → Except ε β} {l : List α} {l' : List β}
    (h : l.mapM f = .ok l') : l'.length = l.length := by
  induction l generalizing l' with
  | nil =>
    cases h
    rfl
  | cons a l ih =>
    rw [List.mapM_cons] at h
    cases hf : f a with
    | error e => simp [hf, bind, Except.bind] at h
    | ok x =>
      cases hl : l.mapM f with
      | error e => simp [hf, hl, bind, Except.bind] at h
      | ok xs =>
        simp [hf, hl, bind, Except.bind, pure, Except.pure] at h
        rw [← h, List.length_cons, List.length_cons, ih hl]

theorem computes_residual {hlt : ∀ c ∈ clauses, c < nid} (hbelow : EvaluatesBelow e nid)
    (hnid : p.get? nid = some (.branch .case (first :: clauses))) (he : e.Unnamed p) :
    Computes s b e (Step.work (residualCase ⟨⟨p, s.stacked (vs :: fs)⟩, e, b⟩ nid scrutinee))
      (Evaluator.residual e nid clauses hlt scrutinee vs) (· :: fs) p := by
  simp only [residualCase, pool, hnid, Node.elts, List.drop_one, List.tail_cons, mapM_residualClause]
  cases hcs : clauses.mapM (clause p) with
  | error fault => exact computes_error (Evaluator.residual_of_error hcs)
  | ok cs =>
    have hclause : ∀ c ∈ cs, ∃ id, clause p id = .ok c := forall_of_mapM hcs fun id _ c hc => ⟨id, hc⟩
    have hlength := length_of_mapM hcs
    refine Computes.congr ?_ (Evaluator.residual_of_ok hcs)
    show Computes s b e (doing ⟨⟨p, s.stacked (vs :: fs)⟩, e, b⟩ (.reduce (.push scrutinee) :: _)) _ _ _
    rw [doing_push]
    refine (computes_residualClauses hbelow hclause (.refl p) he).bind_of length_residualClauses
      fun ids q hpq hids => ?_
    have hbuild : Computes s b e (doing ⟨⟨q, s.stacked (((scrutinee :: ids).reverse ++ vs) :: fs)⟩, e, b⟩
        [.reduce (.build .case (scrutinee :: ids).length)]) _ _ q :=
      computes_build (by decide) (scrutinee :: ids) vs
    rw [List.reverse_cons, List.append_assoc, List.length_cons, hids, hlength] at hbuild
    exact hbuild.map fun _ => rfl

/-! ### Selection -/

theorem computes_select {left : List NodeId} {hclauses : ∀ c ∈ clauses, c < nid}
    {hleft : ∀ c ∈ left, c < nid} (hbelow : EvaluatesBelow e nid)
    (hnid : p.get? nid = some (.branch .case (first :: clauses))) (he : e.Unnamed p) :
    Computes s b e (Step.work (select ⟨⟨p, s.stacked (vs :: fs)⟩, e, b⟩ nid scrutinee left))
      (Evaluator.select e nid clauses hclauses scrutinee left hleft vs) (· :: fs) p := by
  induction left generalizing p with
  | nil =>
    simp only [select, exhausted, pool]
    by_cases hground : p.isGround scrutinee
    · simp only [hground, ↓reduceIte]
      exact computes_error (by rw [Evaluator.select_nil, if_pos hground])
    · simp only [hground, Bool.false_eq_true, ↓reduceIte]
      exact (computes_residual hbelow hnid he).congr (by rw [Evaluator.select_nil, if_neg hground])
  | cons id left ih =>
    simp only [select, pool]
    cases hc : clause p id with
    | error fault => exact computes_error (Evaluator.select_of_error hc)
    | ok c =>
      have hid := hleft id (.head _)
      obtain ⟨hpattern, hbody⟩ := lt_of_clause hc
      cases hvar : c.variable? p with
      | some found =>
        obtain ⟨name, names⟩ := found
        by_cases hlimit : e.limit < e.depth
        · simp only [hvar, entering_of_lt hlimit]
          exact computes_error (by rw [Evaluator.select_of_some hc hvar, if_pos hlimit])
        · have hroom := Environment.room_opened_lt hlimit "case" [] [.bound name scrutinee]
          have hopened : (e.opened "case" [] [.bound name scrutinee]).Unnamed p :=
            he.opened "case" Lexicon.all_nil (by simp [Pattern.AllValues, Word.bound, Word.value])
          have hvisit := hbelow.scopes _ hroom c.body s b p vs fs hopened
          simp only [hvar]
          refine (Computes.enter [.visit c.body] hlimit hvisit).congr ?_
          rw [Evaluator.select_of_some hc hvar, if_neg hlimit]
      | none =>
        simp only [hvar]
        refine Computes.congr ?_ (Evaluator.select_of_none hc hvar)
        refine (computes_operand (hbelow.nodes _ (Nat.lt_trans hpattern hid)) he).bind fun pattern q hpq => ?_
        have hcq : clause q id = .ok c := (clause_eq_of_le hpq.keeps (le_size_of_clause hc)).trans hc
        have hnidq := hpq.keeps _ _ hnid
        rw [doing_singleton]
        simp only [resume, onValues_of_ok ValuesM.pop_stacked, tryClause, pool, hcq]
        suffices h : Computes s b e _ (if q.unwrapGroup pattern = q.unwrapGroup scrutinee then
            Evaluator.visit e c.body vs else if q.isGround scrutinee && q.isGround pattern then
            Evaluator.select e nid clauses hclauses scrutinee left (fun c hc => hleft c (.tail _ hc)) vs
            else Evaluator.residual e nid clauses hclauses scrutinee vs) (· :: fs) q from h.congr rfl
        by_cases hsame : q.unwrapGroup pattern = q.unwrapGroup scrutinee
        · rw [if_pos hsame, if_pos hsame]
          exact hbelow.nodes _ (Nat.lt_trans hbody hid) s b q vs fs (he.mono hpq)
        · rw [if_neg hsame, if_neg hsame]
          by_cases hground : q.isGround scrutinee && q.isGround pattern
          · simp only [hground, ↓reduceIte]
            exact ih hnidq (he.mono hpq)
          · simp only [hground, Bool.false_eq_true, ↓reduceIte]
            exact computes_residual hbelow hnidq (he.mono hpq)

end Linefold.Machine
