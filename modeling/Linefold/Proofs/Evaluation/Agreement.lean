import Linefold.Proofs.Evaluation.Clauses

/-!
# Tasks and recursion agree

All nodes are computed as the evaluator says (`evaluates`), by induction on the scopes that may still be
opened and then on the node. So a fold gives what the evaluator gives (`fold_eq_operand`).
-/

namespace Linefold.Machine

open Pattern (PoolM)

attribute [local irreducible] Pool.intern

variable {s : OperandStack} {b : Nat} {e : Environment} {p q : Pool} {vs es : List NodeId}
  {fs : List (List NodeId)} {nid id : NodeId} {t : Tag} {name : String} {n : Node}

/-! ### Nodes -/

/-- Parts that are worked out in turn and then taken by a node over them. -/
theorem computes_parts {hlt : ∀ c ∈ es, c < nid} (ht : t ≠ .ident) (h : ∀ c ∈ es, Evaluates e c)
    (he : e.Unnamed p) :
    Computes s b e (doing ⟨⟨p, s.stacked (vs :: fs)⟩, e, b⟩
      (es.map .operand ++ [.reduce (.build t es.length)]))
      (do
        let values ← Evaluator.operands e nid es hlt
        return (← PoolM.intern (.branch t values)) :: vs) (· :: fs) p := by
  refine (computes_operands h he).bind_of length_operands fun us q _ hus => ?_
  rw [← hus]
  exact (computes_build ht us vs).map fun _ => rfl

/-- The reduction leaves the node of an operator over two values. -/
def Operates (t : Tag) (r : Reduction) : Prop :=
  ∀ p x y, ∃ result : Option Node, (∀ n, result = some n → n.isLiteral) ∧
    Pool.operatorNode p t x y = result.getD (.branch t [x, y]) ∧
    ∀ s vs fs, r.run ⟨p, OperandStack.stacked s ((y :: x :: vs) :: fs)⟩ =
      ValuesM.leaveResult t x y result ⟨p, s.stacked (vs :: fs)⟩

/-- Each operator that can be folded is planned with the reduction that operates so. -/
theorem exists_operates (ht : t.isOperator) (hlogical : t ≠ .or ∧ t ≠ .and) :
    ∃ r, Operates t r ∧ ∀ nid es, plan nid t es = operatorPlan es r := by
  cases t with
  | add | sub | div | mod | pow =>
    refine ⟨.arithmetic _, fun p x y => ⟨_, fun _ => Node.isLiteral_of_arithmetic, rfl, fun s vs fs => ?_⟩,
      fun _ _ => rfl⟩
    simp only [Reduction.run, bind, EStateM.bind, ValuesM.popPair_stacked, ValuesM.ask]
  | concat =>
    refine ⟨.concat, fun p x y => ⟨_, fun _ => Node.isLiteral_of_concat, rfl, fun s vs fs => ?_⟩,
      fun _ _ => rfl⟩
    simp only [Reduction.run, bind, EStateM.bind, ValuesM.popPair_stacked, ValuesM.ask]
  | eq | ne | lt | gt | le | ge =>
    refine ⟨.compare _, fun p x y => ⟨_, fun _ => Node.isLiteral_of_compare, rfl, fun s vs fs => ?_⟩,
      fun _ _ => rfl⟩
    simp only [Reduction.run, bind, EStateM.bind, ValuesM.popPair_stacked, ValuesM.ask]
  | or => exact absurd rfl hlogical.1
  | and => exact absurd rfl hlogical.2
  | _ => cases ht

theorem computes_binary {r : Reduction} {x y : NodeId} (ht : t ≠ .ident) (hr : Operates t r)
    (hx : Evaluates e x) (hy : Evaluates e y) (he : e.Unnamed p) :
    Computes s b e (doing ⟨⟨p, s.stacked (vs :: fs)⟩, e, b⟩ [.operand x, .operand y, .reduce r])
      (do
        let a ← Evaluator.operand e x
        let c ← Evaluator.operand e y
        let q ← get
        return (← PoolM.intern (q.operatorNode t a c)) :: vs) (· :: fs) p := by
  refine (computes_operand hx he).bind fun a q hpq => ?_
  refine (computes_operand hy (he.mono hpq)).bind fun c q' _ => ?_
  obtain ⟨result, hliteral, hnode, hrun⟩ := hr q' a c
  exact ((computes_operator ht hliteral hnode (hrun s vs fs)).map fun _ => rfl).congr rfl

theorem computes_visitBranch {hlt : ∀ c ∈ es, c < nid} (hbelow : EvaluatesBelow e nid)
    (hnid : p.get? nid = some (.branch t es)) (ht : t ≠ .lambda) (he : e.Unnamed p) :
    Computes s b e (Step.work (visit ⟨⟨p, s.stacked (vs :: fs)⟩, e, b⟩ nid))
      (Evaluator.visitBranch e nid t es hlt vs) (· :: fs) p := by
  have hes : ∀ c ∈ es, Evaluates e c := fun c hc => hbelow.nodes c (hlt c hc)
  have hreverse : ∀ c ∈ es.reverse, Evaluates e c := fun c hc => hes c (List.mem_reverse.1 hc)
  have hplanned {plan : Plan} (hplan : Machine.plan nid t es = .ok plan) :
      visit ⟨⟨p, s.stacked (vs :: fs)⟩, e, b⟩ nid = plan.step ⟨⟨p, s.stacked (vs :: fs)⟩, e, b⟩ :=
    visit_of_plan hnid ht hplan
  have hfails {err : Error} (hplan : Machine.plan nid t es = .error err) {f : PoolM (List NodeId)}
      (hf : f p = .error err p) :
      Computes s b e (Step.work (visit ⟨⟨p, s.stacked (vs :: fs)⟩, e, b⟩ nid)) f (· :: fs) p := by
    rw [visit_of_error (m := ⟨⟨p, s.stacked (vs :: fs)⟩, e, b⟩) hnid ht hplan]
    exact computes_error hf
  have hoperates := exists_operates (t := t)
  rw [Evaluator.visitBranch.eq_def]
  cases t with
  | prog =>
    rw [hplanned rfl]
    refine Computes.framed ?_
    refine (computes_visitAll (fun c hc => hes c (List.mem_of_mem_take hc)) he).bind fun us q _ => ?_
    exact computes_close_prog
  | exprs =>
    rw [hplanned rfl]
    exact computes_visitAll hreverse he
  | paren =>
    rw [hplanned rfl]
    refine Computes.framed ((computes_visitAll hreverse he).bind fun us q _ => ?_)
    exact computes_close_paren
  | list =>
    rw [hplanned rfl]
    refine Computes.framed ((computes_visitAll hreverse he).bind fun us q _ => ?_)
    exact computes_close_list.map fun _ => rfl
  | record | apply | val | arg | of =>
    rw [hplanned rfl]
    exact computes_parts (by decide) hes he
  | binding =>
    rcases es with _ | ⟨key, _ | ⟨value, _ | ⟨x, es⟩⟩⟩
    · exact hfails rfl rfl
    · exact hfails rfl rfl
    · rw [hplanned rfl]
      show Computes s b e (doing ⟨⟨p, s.stacked (vs :: fs)⟩, e, b⟩
        (.reduce (.push key) :: [.operand value, .reduce (.build .binding 2)])) _ _ _
      rw [doing_push]
      refine (computes_operand (hes value (.tail _ (.head _))) he).bind fun v q _ => ?_
      exact (computes_build (t := .binding) (by decide) [key, v] vs).map fun _ => rfl
    · exact hfails rfl rfl
  | case =>
    cases es with
    | nil => exact hfails rfl rfl
    | cons first clauses =>
      rw [hplanned rfl]
      refine (computes_operand (hes first (.head _)) he).bind fun scrutinee q hpq => ?_
      have hnidq := hpq.keeps _ _ hnid
      rw [doing_singleton]
      simp only [resume, onValues_of_ok ValuesM.pop_stacked, pool, hnidq, Node.elts, List.drop_one,
        List.tail_cons]
      exact computes_select hbelow hnidq (he.mono hpq)
  | add | sub | div | mod | pow | concat | eq | ne | lt | gt | le | ge =>
    obtain ⟨r, hr, hplan⟩ := hoperates rfl (by decide)
    rcases es with _ | ⟨x, _ | ⟨y, _ | ⟨z, es⟩⟩⟩
    · exact hfails (hplan nid _) rfl
    · exact hfails (hplan nid _) rfl
    · rw [hplanned (hplan nid _)]
      exact computes_binary (by decide) hr (hes x (.head _)) (hes y (.tail _ (.head _))) he
    · exact hfails (hplan nid _) rfl
  | or | and => exact hfails rfl rfl
  | neg =>
    cases es with
    | nil => exact hfails rfl rfl
    | cons x es =>
      rw [hplanned rfl]
      refine (computes_operand (hes x (.head _)) he).bind fun v q _ => ?_
      exact (computes_negate.map fun _ => rfl).congr rfl
  | lambda => exact absurd rfl ht
  | num | str | ident | bool | null => exact hfails rfl rfl

/-! ### All nodes -/

theorem evaluates_of_below (h : EvaluatesBelow e nid) : Evaluates e nid := by
  intro s b p vs fs he
  rw [doing_singleton]
  show Computes s b e (Step.work (visit ⟨⟨p, s.stacked (vs :: fs)⟩, e, b⟩ nid)) _ _ p
  cases hn : p.get? nid with
  | none =>
    simp only [visit, pool, hn]
    exact computes_error (Evaluator.visit_of_none hn)
  | some n =>
    cases n with
    | ident name =>
      simp only [visit, pool, hn]
      exact (computes_visitName h.scopes he hn).congr (Evaluator.visit_of_ident hn)
    | branch t es =>
      by_cases ht : t = .lambda
      · subst ht
        simp only [visit, pool, hn]
        cases hcallee : lambda p es with
        | error fault => exact computes_error (by rw [Evaluator.visit_of_lambda hn, hcallee])
        | ok callee =>
          have hlexicon : callee.lexicon = [] := lexicon_of_lambda hcallee
          refine (computes_apply h.scopes he ?_).congr (by rw [Evaluator.visit_of_lambda hn, hcallee])
          rw [hlexicon]
          exact Lexicon.all_nil
      · exact (computes_visitBranch h hn ht he).congr (Evaluator.visit_of_branch hn ht)
    | _ =>
      simp only [visit, pool, hn]
      exact computes_value.congr (Evaluator.visit_of_leaf hn (by simp) (by simp))

theorem evaluates (e : Environment) (nid : NodeId) : Evaluates e nid := by
  induction hroom : e.room using Nat.strongRecOn generalizing e nid with
  | ind room ihroom =>
    induction nid using Nat.strongRecOn with
    | ind nid ihnid =>
      exact evaluates_of_below ⟨ihnid, fun e' hlt c => ihroom e'.room (hroom ▸ hlt) e' c rfl⟩

/-! ### Folds -/

theorem exitTo_append {inner : List Scope} :
    Environment.exitTo { e with inner := inner ++ e.inner } e.depth = e := by
  have hdepth : Environment.depth { e with inner := inner ++ e.inner } - e.depth = inner.length := by
    simp only [Environment.depth, List.length_append]
    omega
  simp only [Environment.exitTo, hdepth, List.drop_left]

/-- What a run that started in the scopes of `e` comes to: the one value that it leaves, or its error. -/
def concluded (e : Environment) (r : EStateM.Result Error Machine Unit) : EStateM.Result Error Machine NodeId :=
  match r with
  | .ok () m => m.finish
  | .error err ⟨⟨pool, _⟩, e', budget⟩ => .error err ⟨⟨pool, {}⟩, e'.exitTo e.depth, budget⟩

theorem concluded_of_computes {work : Work} {f : PoolM NodeId}
    (h : Computes s b e work f (fun id => [[id]]) p) :
    concluded e (work []) = match f p with
      | .ok root q => .ok root ⟨⟨q, s⟩, e, b⟩
      | .error err q => .error err ⟨⟨q, {}⟩, e, b⟩ := by
  have h := h []
  unfold Ensures at h
  split at h
  · next root q hf =>
    rw [h.2, run_nil]
    simp only [concluded, finish, OperandStack.closeFrame_stacked, List.reverse_singleton, hf]
    rfl
  · next err q hf =>
    obtain ⟨st, inner, hwork⟩ := h
    rw [hwork]
    simp only [concluded, exitTo_append, hf]

/-- A fold works on the node in a frame of its own. -/
theorem fold_eq_concluded : fold ⟨⟨p, s⟩, e, b⟩ nid =
    concluded e (doing ⟨⟨p, s.stacked [[]]⟩, e, operatorBudget⟩ [.operand nid] []) := by
  have hopen : (s.stacked []).openFrame = s.stacked [[]] := OperandStack.openFrame_stacked
  have hopen : s.openFrame = s.stacked [[]] := hopen
  rw [← hopen]
  rfl

/-- A fold gives the node or the error of the evaluator, with the pool that the evaluator leaves, and has the
scopes as they were. All it takes is that operator words name no node, as in a well-formed pool and
environment (`WellFormed.unnamed`). -/
theorem fold_eq_operand {m : Machine} (he : m.env.Unnamed m.pool) :
    m.fold nid = match Evaluator.operand m.env nid m.pool with
      | .ok root p => .ok root ⟨⟨p, m.values.stack⟩, m.env, operatorBudget⟩
      | .error err p => .error err ⟨⟨p, {}⟩, m.env, operatorBudget⟩ := by
  obtain ⟨⟨p, s⟩, e, b⟩ := m
  have hoperand : Computes s operatorBudget e (doing ⟨⟨p, s.stacked [[]]⟩, e, operatorBudget⟩ [.operand nid])
      (Evaluator.operand e nid) (fun id => [[id]]) p := computes_operand (evaluates e nid) he
  exact fold_eq_concluded.trans (concluded_of_computes hoperand)

theorem name_of_get?_intern (h : (p.intern n).2.get? id = some (.ident name)) :
    n = .ident name ∨ ∃ id, p.get? id = some (.ident name) := by
  rcases Pool.of_get?_intern h with h | ⟨-, h⟩
  · exact .inr ⟨id, h⟩
  · cases n with
    | ident s =>
      cases h
      exact .inl rfl
    | _ => cases h

/-- The identity function before a string, which is its argument. -/
def identityCall : NodeId × Pool :=
  let (x, p) := Pool.empty.intern (.ident "x")
  let (xs, p) := p.intern (.branch .list [x])
  let (f, p) := p.intern (.branch .lambda [xs, x, xs])
  let (a, p) := p.intern (.str "a")
  p.intern (.branch .exprs [f, a])

theorem fold_identityCall : (ofPool identityCall.2 .initial).fold identityCall.1 =
    match Evaluator.operand .initial identityCall.1 identityCall.2 with
      | .ok root p => .ok root ⟨⟨p, {}⟩, .initial, operatorBudget⟩
      | .error err p => .error err ⟨⟨p, {}⟩, .initial, operatorBudget⟩ := by
  refine fold_eq_operand (m := ofPool identityCall.2 .initial) ?_
  have hnames : ∀ w ∈ Environment.operatorWords, w.1 ≠ "x" := by decide
  refine Environment.all_initial fun w hw => .of_ne (by simp [Word.operator]) fun _ _ id hid => ?_
  obtain h | ⟨id, hid⟩ := name_of_get?_intern hid
  · cases h
  obtain h | ⟨id, hid⟩ := name_of_get?_intern hid
  · cases h
  obtain h | ⟨id, hid⟩ := name_of_get?_intern hid
  · cases h
  obtain h | ⟨id, hid⟩ := name_of_get?_intern hid
  · cases h
  obtain h | ⟨id, hid⟩ := name_of_get?_intern hid
  · exact hnames w hw (Node.ident.inj h).symm
  · cases id <;> cases hid

end Linefold.Machine
