import Linefold.Proofs.Evaluation.Agreement
import Linefold.Proofs.Selection.Choices

/-!
# Nodes that push one value

`m.Pushes t v m'`: in an open frame, the task puts one value on it and does nothing else but add nodes. An operand does so or
fails, and so does the visit to a node that is made of such parts (`Machine.Composes`): an operator, a negation, a group, a
list or a record.
-/

namespace Linefold

namespace Machine

variable {m m' m₁ k k' : Machine} {t : Task} {ts us : List Task} {i j v w : NodeId} {vs ws es : List NodeId} {tag : Tag}
  {p q : Pool} {r : Reduction} {s : OperandStack} {fs : List (List NodeId)}

/-- The machine with one frame, in which it has the values. -/
def framed (m : Machine) (vs : List NodeId) : Machine := m.onStack (OperandStack.stacked {} [vs])

theorem framed_inj (h : k.framed vs = k'.framed ws) : k.pool = k'.pool ∧ k.budget = k'.budget ∧ vs = ws := by
  obtain ⟨hvalues, -, hbudget⟩ := Machine.mk.inj h
  obtain ⟨hpool, hstack⟩ := Values.mk.inj hvalues
  exact ⟨hpool, hbudget, by simpa using OperandStack.stacked_injective hstack⟩

theorem eq_of_framed (hk : k = m.after k.pool k.budget) (hk' : k' = m.after k'.pool k'.budget)
    (h : k.framed vs = k'.framed ws) : k = k' ∧ vs = ws := by
  obtain ⟨hpool, hbudget, hvalues⟩ := framed_inj h
  exact ⟨by rw [hk, hk', hpool, hbudget], hvalues⟩

/-- In an open frame, the task puts the value `v` on it. -/
structure Pushes (m : Machine) (t : Task) (v : NodeId) (m' : Machine) : Prop where
  grows : m.pool.Extends m'.pool
  after_eq : m' = m.after m'.pool m'.budget
  run : ∀ s vs fs ts, (m.onStack (OperandStack.stacked s (vs :: fs))).run (t :: ts) =
    (m'.onStack (s.stacked ((v :: vs) :: fs))).run ts

/-- In an open frame, the task fails. -/
def Fails (m : Machine) (t : Task) : Prop :=
  ∀ s vs fs ts, ∃ err k, (m.onStack (OperandStack.stacked s (vs :: fs))).run (t :: ts) = .error err k

/-- In an open frame, the task puts one value on it or fails. -/
def Single (m : Machine) (t : Task) : Prop := (∃ v m', m.Pushes t v m') ∨ m.Fails t

namespace Pushes

theorem env_eq (h : m.Pushes t v m') : m'.env = m.env := by rw [h.after_eq]; rfl

theorem stack_eq (h : m.Pushes t v m') : m'.values.stack = m.values.stack := by rw [h.after_eq]; rfl

theorem run_framed_nil (h : m.Pushes t v m') : (m.framed []).run [t] = .ok () (m'.framed [v]) :=
  (h.run {} [] [] []).trans run_nil

theorem not_fails (h : m.Pushes t v m') : ¬ m.Fails t := by
  intro hfails
  obtain ⟨err, k, hrun⟩ := hfails {} [] [] []
  exact nomatch h.run_framed_nil.symm.trans hrun

theorem unique (h : m.Pushes t v m') (h' : m.Pushes t w k) : m' = k ∧ v = w := by
  have hrun := EStateM.Result.ok.inj (h.run_framed_nil.symm.trans h'.run_framed_nil)
  simpa using eq_of_framed h.after_eq h'.after_eq hrun.2

end Pushes

/-- What such a task does is seen from one run. -/
theorem Single.pushes_of_run (h : m.Single t) (hrun : (m.framed []).run [t] = .ok () (k.framed [v])) :
    m.Pushes t v (m.after k.pool k.budget) := by
  rcases h with ⟨w, m', hw⟩ | hfails
  · obtain ⟨hpool, hbudget, hvalues⟩ := framed_inj (EStateM.Result.ok.inj (hw.run_framed_nil.symm.trans hrun)).2
    cases hvalues
    rw [← hpool, ← hbudget, ← hw.after_eq]
    exact hw
  · obtain ⟨err, k, herror⟩ := hfails {} [] [] []
    exact nomatch hrun.symm.trans herror

theorem FoldsTo.pushes (h : m.FoldsTo i v m') : m.Pushes (.operand i) v m' :=
  ⟨h.accrues.keeps, h.spec.1, fun s vs fs ts => (h.spec.2 _ ts).trans (by rw [OperandStack.push_stacked])⟩

theorem single_operand : m.Single (.operand i) := by
  rcases m.exists_foldsTo i with ⟨v, q, b, hfold, -⟩ | herror
  · exact .inl ⟨v, _, hfold.pushes⟩
  · exact .inr fun s vs fs => herror _

theorem pushes_push : m.Pushes (.reduce (.push i)) i m :=
  ⟨.refl _, rfl, fun s vs fs ts => run_reduce (by rw [Reduction.run, onStack, ValuesM.push_stacked]) ts⟩

/-! ### Visits in a frame of their own -/

theorem run_operand : (m.onStack (OperandStack.stacked s fs)).run (.operand i :: ts) =
    (m.onStack (s.stacked ([] :: fs))).run (.visit i :: .reduce .collect :: ts) := by
  have hopen : (m.onStack (OperandStack.stacked s fs)).resume (.operand i) =
      .ok [.visit i, .reduce .collect] (m.onStack (s.stacked ([] :: fs))) := by
    unfold resume
    exact onValues_of_ok openFrame_stacked
  exact run_of_resume hopen ts

theorem Pushes.operand (h : m.Pushes (.visit i) v m') : m.Pushes (.operand i) v m' := by
  refine ⟨h.grows, h.after_eq, fun s vs fs ts => ?_⟩
  have hcollect : Reduction.run .collect ⟨m'.pool, s.stacked ([v] :: vs :: fs)⟩ =
      .ok () ⟨m'.pool, s.stacked ((v :: vs) :: fs)⟩ := by
    simp only [Reduction.run, bind, EStateM.bind, ValuesM.closeFrame_stacked]
    exact ValuesM.push_stacked
  rw [run_operand, h.run]
  exact run_reduce hcollect ts

theorem Fails.operand (h : m.Fails (.visit i)) : m.Fails (.operand i) := by
  intro s vs fs ts
  rw [run_operand]
  exact h s [] (vs :: fs) _

/-- Where a visit puts one value on the frame, it does not matter whether it is carried out in a frame of its own. -/
theorem Single.pushes_operand_iff (h : m.Single (.visit i)) : m.Pushes (.operand i) v m' ↔ m.Pushes (.visit i) v m' := by
  refine ⟨fun hv => ?_, Pushes.operand⟩
  rcases h with ⟨w, k, hw⟩ | hfails
  · obtain ⟨rfl, rfl⟩ := hv.unique hw.operand
    exact hw
  · exact absurd hfails.operand hv.not_fails

theorem Pushes.foldsTo (h : m.Pushes (.operand i) v m') : m.FoldsTo i v m' := by
  rcases m.exists_foldsTo i with ⟨w, q, b, hfold, -⟩ | herror
  · obtain ⟨rfl, rfl⟩ := h.unique hfold.pushes
    exact hfold
  · exact absurd (fun s vs fs => herror _) h.not_fails

/-! ### Tasks in turn -/

/-- The tasks put the values on a frame, one after the other. -/
inductive PushesAll : Machine → List Task → List NodeId → Machine → Prop where
  | nil {m : Machine} : PushesAll m [] [] m
  | cons {m m₁ m₂ : Machine} {t : Task} {ts : List Task} {v : NodeId} {vs : List NodeId} (h : m.Pushes t v m₁)
      (hrest : PushesAll m₁ ts vs m₂) : PushesAll m (t :: ts) (v :: vs) m₂

def FailsAll (m : Machine) (ts : List Task) : Prop :=
  ∀ s vs fs us, ∃ err k, (m.onStack (OperandStack.stacked s (vs :: fs))).run (ts ++ us) = .error err k

namespace PushesAll

theorem grows (h : PushesAll m ts vs m') : m.pool.Extends m'.pool := by
  induction h with
  | nil => exact .refl _
  | cons h _ ih => exact h.grows.trans ih

theorem after_eq (h : PushesAll m ts vs m') : m' = m.after m'.pool m'.budget := by
  induction h with
  | nil => rfl
  | cons h _ ih => rw [ih, after, h.env_eq, h.stack_eq]; rfl

theorem env_eq (h : PushesAll m ts vs m') : m'.env = m.env := by rw [h.after_eq]; rfl

theorem length_eq (h : PushesAll m ts vs m') : vs.length = ts.length := by
  induction h with
  | nil => rfl
  | cons _ _ ih => exact congrArg (· + 1) ih

theorem run (h : PushesAll m ts vs m') (s : OperandStack) (ws : List NodeId) (fs : List (List NodeId)) (us : List Task) :
    (m.onStack (s.stacked (ws :: fs))).run (ts ++ us) = (m'.onStack (s.stacked ((vs.reverse ++ ws) :: fs))).run us := by
  induction h generalizing ws with
  | nil => rfl
  | @cons _ _ _ _ _ v vs h _ ih =>
    rw [List.cons_append, h.run, ih, List.reverse_cons, List.append_assoc]
    rfl

theorem not_fails (h : PushesAll m ts vs m') : ¬ m.FailsAll ts := by
  intro hfails
  obtain ⟨err, k, hrun⟩ := hfails {} [] [] []
  exact nomatch ((h.run {} [] [] []).trans run_nil).symm.trans hrun

end PushesAll

/-- Tasks of which each puts one value on the frame or fails do so together. The induction is on the tasks. -/
theorem exists_pushesAll (h : ∀ t ∈ ts, ∀ k, m.pool.Extends (pool k) → k.env = m.env → k.Single t) :
    (∃ vs m', PushesAll m ts vs m') ∨ m.FailsAll ts := by
  induction ts generalizing m with
  | nil => exact .inl ⟨[], m, .nil⟩
  | cons t ts ih =>
    obtain ⟨ht, hts⟩ := List.forall_mem_cons.1 h
    rcases ht m (.refl _) rfl with ⟨v, m₁, hv⟩ | hfails
    · have hrest := ih (m := m₁) fun u hu k hk henv => hts u hu k (hv.grows.trans hk) (henv.trans hv.env_eq)
      rcases hrest with ⟨vs, m', hvs⟩ | hfails
      · exact .inl ⟨v :: vs, m', .cons hv hvs⟩
      · refine .inr fun s vs fs us => ?_
        rw [List.cons_append, hv.run]
        exact hfails _ _ _ _
    · exact .inr fun s vs fs us => hfails _ _ _ _

/-! ### Visits in a frame -/

/-- In an open frame with the values `vs`, the visits to the nodes leave the values `ws` in it. -/
structure Moves (m : Machine) (es vs ws : List NodeId) (m' : Machine) : Prop where
  grows : m.pool.Extends m'.pool
  after_eq : m' = m.after m'.pool m'.budget
  run : ∀ s fs us, (m.onStack (OperandStack.stacked s (vs :: fs))).run (es.map .visit ++ us) =
    (m'.onStack (s.stacked (ws :: fs))).run us

/-- In an open frame with the values `vs`, the visits to the nodes fail. -/
def Halts (m : Machine) (es vs : List NodeId) : Prop :=
  ∀ s fs us, ∃ err k, (m.onStack (OperandStack.stacked s (vs :: fs))).run (es.map .visit ++ us) = .error err k

theorem exists_moves (m : Machine) (es vs : List NodeId) : (∃ ws m', m.Moves es vs ws m') ∨ m.Halts es vs := by
  let x : Layer := ⟨m.pool, [vs], [], m.budget⟩
  have hshifts : Task.ShiftsAll (es.map .visit) x.size (1, 0) := .map fun _ => rfl
  rcases run_on_stacks m.env hshifts with ⟨⟨q, gs, scs, b⟩, hy, hok⟩ | ⟨err, y, herror⟩
  · obtain ⟨hframes, hscopes⟩ := Prod.mk.inj hy
    obtain ⟨ws, rfl⟩ := List.length_eq_one_iff.1 hframes
    obtain rfl := List.eq_nil_of_length_eq_zero hscopes
    have haccrued : Accrued m.pool ((x.on ⟨{}, m.env⟩).run (es.map .visit)) :=
      run_accrues (List.forall_mem_map.2 fun _ _ => trivial)
    rw [hok] at haccrued
    refine .inl ⟨ws, m.after q b, haccrued.keeps, rfl, fun s fs us => ?_⟩
    have hrun : (m.onStack (s.stacked (vs :: fs))).run (es.map .visit) = _ := hok (s.stacked fs)
    rw [run_append, hrun]
    rfl
  · refine .inr fun s fs us => ⟨err, y.on ⟨s.stacked fs, m.env⟩, ?_⟩
    have hrun : (m.onStack (s.stacked (vs :: fs))).run (es.map .visit) = _ := herror (s.stacked fs)
    rw [run_append, hrun]

theorem Pushes.moves (h : m.Pushes (.visit i) v m') : m.Moves [i] vs (v :: vs) m' :=
  ⟨h.grows, h.after_eq, fun s fs us => h.run s vs fs us⟩

namespace Moves

variable {es' us : List NodeId}

theorem env_eq (h : m.Moves es vs ws m') : m'.env = m.env := by rw [h.after_eq]; rfl

theorem stack_eq (h : m.Moves es vs ws m') : m'.values.stack = m.values.stack := by rw [h.after_eq]; rfl

theorem not_halts (h : m.Moves es vs ws m') : ¬ m.Halts es vs := by
  intro hhalts
  obtain ⟨err, k, hrun⟩ := hhalts {} [] []
  exact nomatch ((h.run {} [] []).trans run_nil).symm.trans hrun

theorem unique (h : m.Moves es vs ws m') (h' : m.Moves es vs us k) : m' = k ∧ ws = us := by
  have hrun := EStateM.Result.ok.inj (((h.run {} [] []).trans run_nil).symm.trans ((h'.run {} [] []).trans run_nil))
  exact eq_of_framed h.after_eq h'.after_eq hrun.2

theorem cons (h : m.Moves [i] vs us m₁) (h' : m₁.Moves es us ws m') : m.Moves (i :: es) vs ws m' := by
  refine ⟨h.grows.trans h'.grows, ?_, fun s fs rest => (h.run s fs _).trans (h'.run s fs rest)⟩
  rw [h'.after_eq, after, h.env_eq, h.stack_eq]
  rfl

theorem exists_of_cons (h : m.Moves (i :: es) vs ws m') : ∃ us m₁, m.Moves [i] vs us m₁ ∧ m₁.Moves es us ws m' := by
  rcases m.exists_moves [i] vs with ⟨us, m₁, h₁⟩ | hhalts
  · rcases m₁.exists_moves es us with ⟨ws', k, h₂⟩ | hhalts
    · obtain ⟨rfl, rfl⟩ := h.unique (h₁.cons h₂)
      exact ⟨us, m₁, h₁, h₂⟩
    · obtain ⟨err, k, herror⟩ := hhalts {} [] []
      exact absurd ((h.run {} [] []).symm.trans ((h₁.run {} [] _).trans herror)) (by rw [run_nil]; nofun)
  · obtain ⟨err, k, herror⟩ := hhalts {} [] (es.map .visit)
    exact absurd ((h.run {} [] []).symm.trans (by simpa using herror)) (by rw [run_nil]; nofun)

end Moves

/-! ### Nodes made of parts -/

/-- The visit to the node carries the tasks out, and puts the node `f` of their values on the frame. -/
structure Composes (m : Machine) (i : NodeId) (ts : List Task) (f : Pool → List NodeId → Node) : Prop where
  single : ∀ t ∈ ts, ∀ k, m.pool.Extends (pool k) → k.env = m.env → k.Single t
  pushes : ∀ vs m', PushesAll m ts vs m' → m.Pushes (.visit i) (m'.pool.intern (f m'.pool vs)).1 (m'.interned (f m'.pool vs))
  fails : m.FailsAll ts → m.Fails (.visit i)

theorem Composes.single_visit {f : Pool → List NodeId → Node} (h : m.Composes i ts f) : m.Single (.visit i) := by
  rcases exists_pushesAll h.single with ⟨vs, m', hvs⟩ | hfails
  · exact .inl ⟨_, _, h.pushes vs m' hvs⟩
  · exact .inr (h.fails hfails)

/-- What a node made of parts folds to is made of the values of its parts. -/
theorem Composes.exists_of_pushes {f : Pool → List NodeId → Node} (h : m.Composes i ts f) (hv : m.Pushes (.operand i) v m') :
    ∃ vs k, PushesAll m ts vs k ∧ v = (k.pool.intern (f k.pool vs)).1 ∧ m' = k.interned (f k.pool vs) := by
  have hv := h.single_visit.pushes_operand_iff.1 hv
  rcases exists_pushesAll h.single with ⟨vs, k, hvs⟩ | hfails
  · obtain ⟨rfl, rfl⟩ := hv.unique (h.pushes vs k hvs)
    exact ⟨vs, k, hvs, rfl, rfl⟩
  · exact absurd (h.fails hfails) hv.not_fails

/-- A node whose tasks are carried out in the current frame, and then a reduction that takes their values. -/
theorem composes_of_reduce {f : Pool → List NodeId → Node} (r : Reduction)
    (hsingle : ∀ t ∈ ts, ∀ k, m.pool.Extends (pool k) → k.env = m.env → k.Single t)
    (hvisit : ∀ s vs fs us, (m.onStack (OperandStack.stacked s (vs :: fs))).run (.visit i :: us) =
      (m.onStack (s.stacked (vs :: fs))).run (ts ++ .reduce r :: us))
    (hreduce : ∀ q us s vs fs, us.length = ts.length → r.run ⟨q, OperandStack.stacked s ((us.reverse ++ vs) :: fs)⟩ =
      ValuesM.leave (f q us) ⟨q, s.stacked (vs :: fs)⟩) : m.Composes i ts f := by
  refine ⟨hsingle, fun us m' hus => ⟨?_, ?_, fun s vs fs rest => ?_⟩, fun hfails s vs fs rest => ?_⟩
  · exact hus.grows.trans (m'.pool.extends_intern _)
  · rw [interned, hus.after_eq]
    rfl
  · rw [hvisit, hus.run]
    exact run_reduce ((hreduce _ us s vs fs hus.length_eq).trans ValuesM.leave_stacked) rest
  · rw [hvisit]
    exact hfails s vs fs _

theorem run_visit {plan : Plan} (h : m.pool.get? i = some (.branch tag es)) (htag : tag ≠ .lambda)
    (hplan : Machine.plan i tag es = .ok plan) (hframe : plan.frame = false) (us : List Task) :
    (m.onStack s).run (.visit i :: us) = (m.onStack s).run (plan.tasks ++ us) := by
  have hstep : (m.onStack s).resume (.visit i) = .ok plan.tasks (m.onStack s) := by
    have hvisit : (m.onStack s).visit i = plan.step (m.onStack s) := visit_of_plan h htag hplan
    rw [resume, hvisit, Plan.step, hframe]
    rfl
  exact run_of_resume hstep us

theorem run_visit_framed {plan : Plan} (h : m.pool.get? i = some (.branch tag es)) (htag : tag ≠ .lambda)
    (hplan : Machine.plan i tag es = .ok plan) (hframe : plan.frame) (us : List Task) :
    (m.onStack (s.stacked fs)).run (.visit i :: us) = (m.onStack (s.stacked ([] :: fs))).run (plan.tasks ++ us) := by
  have hstep : (m.onStack (s.stacked fs)).resume (.visit i) = .ok plan.tasks (m.onStack (s.stacked ([] :: fs))) := by
    have hvisit : (m.onStack (s.stacked fs)).visit i = plan.step (m.onStack (s.stacked fs)) := visit_of_plan h htag hplan
    rw [resume, hvisit, Plan.step, if_pos hframe]
    exact onValues_of_ok openFrame_stacked
  exact run_of_resume hstep us

theorem single_operands (as : List NodeId) :
    ∀ t ∈ as.map Task.operand, ∀ k, m.pool.Extends (pool k) → k.env = m.env → k.Single t :=
  List.forall_mem_map.2 fun _ _ _ _ _ => single_operand

/-- An operator, of its operands. -/
theorem composes_operator {a b : NodeId} (htag : tag.isOperator) (hlogical : tag ≠ .or ∧ tag ≠ .and)
    (h : m.pool.get? i = some (.branch tag [a, b])) :
    m.Composes i [.operand a, .operand b] fun p us => p.operatorNode tag (us.headD 0) (us.getLastD 0) := by
  obtain ⟨r, hr, hplan⟩ := exists_operates htag hlogical
  refine composes_of_reduce r (single_operands [a, b]) (fun s vs fs us => ?_) fun q us s vs fs hus => ?_
  · exact run_visit h (by rintro rfl; cases htag) (hplan i [a, b]) rfl us
  · obtain ⟨x, y, rfl⟩ := List.length_eq_two.1 hus
    obtain ⟨result, -, hnode, hrun⟩ := hr q x y
    exact (hrun s vs fs).trans (congrArg (ValuesM.leave · _) hnode.symm)

theorem composes_negation {a : NodeId} (h : m.pool.get? i = some (.branch .neg [a])) :
    m.Composes i [.operand a] fun p us => p.negationNode (us.headD 0) := by
  refine composes_of_reduce .negate (single_operands [a]) (fun s vs fs us => ?_) fun q us s vs fs hus => ?_
  · exact run_visit h (by decide) rfl rfl us
  · obtain ⟨x, rfl⟩ := List.length_eq_one_iff.1 hus
    show Reduction.run .negate ⟨q, s.stacked ((x :: vs) :: fs)⟩ = _
    simp only [Reduction.run, bind, EStateM.bind, ValuesM.pop_stacked, ValuesM.ask, Pool.negationNode, List.headD_cons]
    cases q.number? x <;> rfl

theorem run_build_stacked (us : List NodeId) : Reduction.run (.build tag us.length)
    ⟨q, s.stacked ((us.reverse ++ vs) :: fs)⟩ = ValuesM.leave (.branch tag us) ⟨q, s.stacked (vs :: fs)⟩ := by
  have hpop : ValuesM.popMany us.reverse.length ⟨q, s.stacked ((us.reverse ++ vs) :: fs)⟩ =
      .ok us.reverse.reverse ⟨q, s.stacked (vs :: fs)⟩ := ValuesM.popMany_stacked
  rw [List.length_reverse, List.reverse_reverse] at hpop
  simp only [Reduction.run, bind, EStateM.bind, hpop]

theorem composes_record (h : m.pool.get? i = some (.branch .record es)) :
    m.Composes i (es.map .operand) fun _ us => .branch .record us := by
  refine composes_of_reduce (.build .record es.length) (single_operands es) (fun s vs fs us => ?_) fun q us s vs fs hus => ?_
  · rw [run_visit h (by decide) rfl rfl us, List.append_assoc]
    rfl
  · rw [List.length_map] at hus
    rw [← hus]
    exact run_build_stacked us

theorem composes_binding {key a : NodeId} (h : m.pool.get? i = some (.branch .binding [key, a])) :
    m.Composes i [.operand a] fun _ us => .branch .binding (key :: us) := by
  have hpush (vs : List NodeId) (s : OperandStack) (fs : List (List NodeId)) (rest : List Task) :
      (m.onStack (s.stacked (vs :: fs))).run (.visit i :: rest) =
        (m.onStack (s.stacked ((key :: vs) :: fs))).run ([.operand a] ++ .reduce (.build .binding 2) :: rest) :=
    (run_visit h (by decide) rfl rfl rest).trans (pushes_push.run s vs fs _)
  refine ⟨single_operands [a], fun us m' hus => ⟨?_, ?_, fun s vs fs rest => ?_⟩, fun hfails s vs fs rest => ?_⟩
  · exact hus.grows.trans (m'.pool.extends_intern _)
  · rw [interned, hus.after_eq]
    rfl
  · have hbuild : Reduction.run (.build .binding (us.length + 1)) ⟨m'.pool, s.stacked (((key :: us).reverse ++ vs) :: fs)⟩ = _ :=
      run_build_stacked (key :: us)
    rw [List.reverse_cons, List.append_assoc, hus.length_eq, ValuesM.leave_stacked] at hbuild
    rw [hpush, hus.run]
    exact run_reduce hbuild rest
  · rw [hpush]
    exact hfails s (key :: vs) fs _

/-- A group is closed as an operand is, and built over it. -/
theorem run_close_paren (m : Machine) (us : List Task) :
    (m.onStack (s.stacked (ws :: vs :: fs))).run (.reduce (.close .paren) :: us) =
      (m.onStack (s.stacked (ws :: vs :: fs))).run (.reduce .collect :: .reduce (.build .paren 1) :: us) := by
  obtain ⟨id, q, -, -, hsingle⟩ := run_single ws m.pool (s.stacked (vs :: fs))
  have hclose : Reduction.run (.close .paren) (m.onStack (s.stacked (ws :: vs :: fs))).values =
      ValuesM.leave (.branch .paren [id]) ⟨q, s.stacked (vs :: fs)⟩ := by
    simp only [onStack, Reduction.run, bind, EStateM.bind, ValuesM.closeFrame_stacked, hsingle]
  have hcollect : Reduction.run .collect (m.onStack (s.stacked (ws :: vs :: fs))).values =
      .ok () ⟨q, s.stacked ((id :: vs) :: fs)⟩ := by
    simp only [onStack, Reduction.run, bind, EStateM.bind, ValuesM.closeFrame_stacked, hsingle, ValuesM.push_stacked]
  have hbuild : Reduction.run (.build .paren 1) (Machine.mk ⟨q, s.stacked ((id :: vs) :: fs)⟩ m.env m.budget).values =
      ValuesM.leave (.branch .paren [id]) ⟨q, s.stacked (vs :: fs)⟩ := run_build_stacked [id]
  rw [ValuesM.leave_stacked] at hclose hbuild
  rw [run_reduce hclose, run_reduce hcollect]
  exact (run_reduce hbuild us).symm

/-- The operand of a group is folded in the frame of the group. -/
theorem composes_paren {a : NodeId} (h : m.pool.get? i = some (.branch .paren [a])) :
    m.Composes i [.operand a] fun _ us => .branch .paren us := by
  refine composes_of_reduce (.build .paren 1) (single_operands [a]) (fun s vs fs us => ?_) fun q us s vs fs hus => ?_
  · have hstays : Task.ShiftsAll [.visit a] (Layer.size ⟨m.pool, [[]], [], m.budget⟩) (1, 0) :=
      .of_stays (List.forall_mem_singleton.2 rfl)
    have hframe : m.onStack (s.stacked ([] :: vs :: fs)) =
        Layer.on ⟨m.pool, [[]], [], m.budget⟩ ⟨s.stacked (vs :: fs), m.env⟩ := rfl
    have hgroup : (m.onStack (s.stacked (vs :: fs))).run (.visit i :: us) = _ := run_visit_framed h (by decide) rfl rfl us
    have hoperand : (m.onStack (s.stacked (vs :: fs))).run (.operand a :: .reduce (.build .paren 1) :: us) =
        (m.onStack (s.stacked ([] :: vs :: fs))).run ([.visit a] ++ (.reduce .collect :: .reduce (.build .paren 1) :: us)) :=
      run_operand
    refine hgroup.trans (Eq.trans ?_ hoperand.symm)
    show run _ ([.visit a] ++ (.reduce (.close .paren) :: us)) = _
    rw [run_append, run_append, hframe]
    rcases run_on_stacks m.env hstays with ⟨⟨q, gs, scs, b⟩, hy, hok⟩ | ⟨err, y, herror⟩
    · rw [hok]
      obtain ⟨hframes, hscopes⟩ := Prod.mk.inj hy
      obtain ⟨ws, rfl⟩ := List.length_eq_one_iff.1 hframes
      obtain rfl := List.eq_nil_of_length_eq_zero hscopes
      exact run_close_paren (m.after q b) us
    · rw [herror]
  · rw [show 1 = us.length from hus.symm]
    exact run_build_stacked us

/-- A list of which each element puts one value on its frame. -/
theorem composes_list (h : m.pool.get? i = some (.branch .list es))
    (hes : ∀ e ∈ es, ∀ k, m.pool.Extends (pool k) → k.env = m.env → k.Single (.visit e)) :
    m.Composes i (es.reverse.map .visit) fun _ us => .branch .list us.reverse := by
  refine ⟨List.forall_mem_map.2 fun e he => hes e (List.mem_reverse.1 he), fun us m' hus => ⟨?_, ?_, fun s vs fs rest => ?_⟩,
    fun hfails s vs fs rest => ?_⟩
  · exact hus.grows.trans (m'.pool.extends_intern _)
  · rw [interned, hus.after_eq]
    rfl
  · have hclose : Reduction.run (.close .list) (m'.onStack (s.stacked ((us.reverse ++ []) :: vs :: fs))).values =
        ValuesM.leave (.branch .list us.reverse) ⟨m'.pool, s.stacked (vs :: fs)⟩ := by
      simp only [onStack, Reduction.run, bind, EStateM.bind, ValuesM.closeFrame_stacked, List.append_nil]
    rw [run_visit_framed h (by decide) rfl rfl, List.append_assoc, hus.run]
    exact run_reduce (hclose.trans ValuesM.leave_stacked) rest
  · rw [run_visit_framed h (by decide) rfl rfl, List.append_assoc]
    exact hfails s [] (vs :: fs) _

end Machine

end Linefold
