import Linefold.Proofs.Evaluation.Evaluator
import Linefold.Proofs.Folding.Frames
import Linefold.Proofs.Folding.Layout
import Linefold.Proofs.Outcome

/-!
# Runs that compute

A piece of work is what a machine does before it comes to the tasks that wait behind it. `Computes s b e
work f after p`: from the pool `p`, the work does to the pool what `f` does. If `f` succeeds then the
machine comes to the tasks that wait, in the scopes of `e` and with the frames on `s` that `after` says; if
`f` fails then the whole run fails in the same way, in scopes on those of `e`.
-/

namespace Linefold.Machine

open Pattern (PoolM)

attribute [local irreducible] Pool.intern

variable {α β : Type} {s : OperandStack} {b : Nat} {e e' : Environment} {p q : Pool}
  {fs fs' : List (List NodeId)} {t : Task} {tasks tasks' new ts : List Task} {f : PoolM α} {g : α → PoolM β}
  {after : α → List (List NodeId)} {after' : β → List (List NodeId)} {m : Machine} {err : Error}
  {vs us ids : List NodeId} {id : NodeId} {n : Node}

/-! ### Work -/

/-- The outcome of a run, by the tasks that wait. -/
abbrev Work := List Task → EStateM.Result Error Machine Unit

/-- The tasks of a run that come first. -/
def doing (m : Machine) (tasks : List Task) : Work := fun ts => m.run (tasks ++ ts)

/-- What a step leaves to be done. -/
def Step.work (r : Step) : Work := fun ts =>
  match r with
  | .ok new m => m.run (new ++ ts)
  | .error e m => .error e m

theorem doing_cons : m.doing (t :: tasks) = fun ts => Step.work (m.resume t) (tasks ++ ts) := by
  funext ts
  exact run_cons

theorem doing_singleton : m.doing [t] = Step.work (m.resume t) := doing_cons

theorem work_ok : Step.work (.ok tasks m) = m.doing tasks := rfl

/-! ### What work computes -/

def Computes (s : OperandStack) (b : Nat) (e : Environment) (work : Work) (f : PoolM α)
    (after : α → List (List NodeId)) (p : Pool) : Prop :=
  ∀ ts, Ensures f
    (fun a q => p.Grows q ∧ work ts = run ⟨⟨q, s.stacked (after a)⟩, e, b⟩ ts)
    (fun err q => ∃ st inner,
      work ts = .error err ⟨⟨q, st⟩, { e with inner := inner ++ e.inner }, b⟩) p

theorem computes_pure (after : α → List (List NodeId)) {a : α} :
    Computes s b e (doing ⟨⟨p, s.stacked (after a)⟩, e, b⟩ []) (pure a) after p :=
  fun _ => ⟨.refl p, rfl⟩

/-- Work that computes `f` is followed by tasks for what comes after it. -/
theorem Computes.followed {P : α → Prop} {work : Work} (hf : Computes s b e work f after p)
    (hP : Ensures f (fun a _ => P a) (fun _ _ => True) p)
    (hg : ∀ a q, p.Grows q → P a →
      Computes s b e (doing ⟨⟨q, s.stacked (after a)⟩, e, b⟩ tasks') (g a) after' q) :
    Computes s b e (fun ts => work (tasks' ++ ts)) (f >>= g) after' p := by
  intro ts
  rw [Ensures.bind_iff]
  refine ((hf (tasks' ++ ts)).and hP).mono ?_ fun err q h => h.1
  rintro a q ⟨⟨hpq, hrun⟩, ha⟩
  simp only [hrun]
  exact (hg a q hpq ha ts).mono (fun c r h => ⟨hpq.trans h.1, h.2⟩) fun _ _ h => h

/-- The first of some tasks computes `f`, the others what comes after it. -/
theorem Computes.bind_of {P : α → Prop}
    (hf : Computes s b e (doing ⟨⟨p, s.stacked fs⟩, e, b⟩ tasks) f after p)
    (hP : Ensures f (fun a _ => P a) (fun _ _ => True) p)
    (hg : ∀ a q, p.Grows q → P a →
      Computes s b e (doing ⟨⟨q, s.stacked (after a)⟩, e, b⟩ tasks') (g a) after' q) :
    Computes s b e (doing ⟨⟨p, s.stacked fs⟩, e, b⟩ (tasks ++ tasks')) (f >>= g) after' p := by
  have hwork : doing ⟨⟨p, s.stacked fs⟩, e, b⟩ (tasks ++ tasks') =
      fun ts => doing ⟨⟨p, s.stacked fs⟩, e, b⟩ tasks (tasks' ++ ts) := by
    funext ts
    simp only [doing, List.append_assoc]
  rw [hwork]
  exact hf.followed hP hg

theorem ensures_trivial : Ensures f (fun _ _ => True) (fun _ _ => True) p := by
  unfold Ensures
  split <;> trivial

theorem Computes.bind (hf : Computes s b e (doing ⟨⟨p, s.stacked fs⟩, e, b⟩ tasks) f after p)
    (hg : ∀ a q, p.Grows q →
      Computes s b e (doing ⟨⟨q, s.stacked (after a)⟩, e, b⟩ tasks') (g a) after' q) :
    Computes s b e (doing ⟨⟨p, s.stacked fs⟩, e, b⟩ (tasks ++ tasks')) (f >>= g) after' p :=
  hf.bind_of ensures_trivial fun a q hpq _ => hg a q hpq

/-- The result of the computation is put differently. -/
theorem Computes.map {work : Work} {k : α → β} (hf : Computes s b e work f after p)
    (hafter : ∀ a, after a = after' (k a)) :
    Computes s b e work (do return k (← f)) after' p := by
  intro ts
  refine Ensures.bind_iff.2 ((hf ts).mono (fun a q h => ?_) fun _ _ h => h)
  exact ⟨h.1, hafter a ▸ h.2⟩

/-- Work that starts where other work leads is part of it. -/
theorem Computes.of_eq {work work' : Work} {f' : PoolM α} (h : Computes s b e work' f' after q)
    (hwork : work = work') (hf : f p = f' q) (hpq : p.Grows q) : Computes s b e work f after p := by
  intro ts
  have h := h ts
  unfold Ensures at h ⊢
  rw [hf, hwork]
  split at h
  · exact ⟨hpq.trans h.1, h.2⟩
  · exact h

theorem Computes.congr {work : Work} {f' : PoolM α} (h : Computes s b e work f' after p)
    (hf : f p = f' p) : Computes s b e work f after p :=
  h.of_eq rfl hf (.refl p)

theorem computes_error {st : OperandStack} (hf : f p = .error err q) :
    Computes s b e (Step.work (.error err ⟨⟨q, st⟩, e, b⟩)) f after p := by
  intro ts
  unfold Ensures
  rw [hf]
  exact ⟨st, [], rfl⟩

/-- Work in an inner scope, which is left when the work is done. -/
theorem Computes.inside {sc : Scope} (he' : e' = { e with inner := sc :: e.inner })
    (h : Computes s b e' (doing ⟨⟨p, s.stacked fs⟩, e', b⟩ tasks) f after p) :
    Computes s b e (doing ⟨⟨p, s.stacked fs⟩, e', b⟩ (tasks ++ [.exit])) f after p := by
  intro ts
  have hwork : doing ⟨⟨p, s.stacked fs⟩, e', b⟩ (tasks ++ [.exit]) ts =
      doing ⟨⟨p, s.stacked fs⟩, e', b⟩ tasks (.exit :: ts) := by
    simp [doing]
  rw [hwork]
  refine (h (.exit :: ts)).mono (fun a q hq => ⟨hq.1, ?_⟩) ?_
  · rw [hq.2, run_cons, he']
    rfl
  · rintro err q ⟨st, inner, hrun⟩
    refine ⟨st, inner ++ [sc], ?_⟩
    rw [hrun, he']
    simp

/-! ### Work on values -/

theorem computes_reduce {r : Reduction} {a : α} (hr : r.run ⟨p, s.stacked fs⟩ = .ok () ⟨q, s.stacked fs'⟩)
    (hf : f p = .ok a q) (hafter : after a = fs') (hpq : p.Grows q) :
    Computes s b e (doing ⟨⟨p, s.stacked fs⟩, e, b⟩ [.reduce r]) f after p := by
  have hstep : resume ⟨⟨p, s.stacked fs⟩, e, b⟩ (.reduce r) = .ok [] ⟨⟨q, s.stacked fs'⟩, e, b⟩ :=
    onValues_of_ok hr
  rw [doing_singleton, hstep, work_ok, ← hafter]
  exact (computes_pure after).of_eq rfl hf hpq

/-- A frame is opened for the work. -/
theorem Computes.framed (h : Computes s b e (doing ⟨⟨p, s.stacked ([] :: fs)⟩, e, b⟩ tasks) f after p) :
    Computes s b e (Step.work (reducing ⟨⟨p, s.stacked fs⟩, e, b⟩ openFrame tasks)) f after p := by
  rw [reducing, onValues_of_ok openFrame_stacked]
  exact h

/-! ### Reductions -/

theorem run_single (us : List NodeId) (p : Pool) (st : OperandStack) : ∃ id q, Evaluator.single us p = .ok id q ∧ p.Grows q ∧
    ValuesM.single us ⟨p, st⟩ = .ok id ⟨q, st⟩ := by
  have hgrows := p.grows_intern (n := .branch .exprs us) (by simp [Node.tag])
  rcases us with _ | ⟨a, _ | ⟨c, us⟩⟩
  · exact ⟨_, _, rfl, hgrows, rfl⟩
  · exact ⟨a, p, rfl, .refl p, rfl⟩
  · exact ⟨_, _, rfl, hgrows, rfl⟩

/-- A reduction that leaves one node. -/
theorem computes_leave {r : Reduction} (hn : n.tag ≠ .ident)
    (hr : r.run ⟨p, s.stacked fs'⟩ = ValuesM.leave n ⟨p, s.stacked (vs :: fs)⟩) :
    Computes s b e (doing ⟨⟨p, s.stacked fs'⟩, e, b⟩ [.reduce r]) (PoolM.intern n)
      (fun id => (id :: vs) :: fs) p :=
  computes_reduce (hr.trans ValuesM.leave_stacked) rfl rfl (p.grows_intern hn)

theorem computes_collect : Computes s b e (doing ⟨⟨p, s.stacked (us :: vs :: fs)⟩, e, b⟩ [.reduce .collect])
    (Evaluator.single us) (fun id => (id :: vs) :: fs) p := by
  obtain ⟨id, q, hsingle, hpq, hvalues⟩ := run_single us p (s.stacked (vs :: fs))
  refine computes_reduce ?_ hsingle rfl hpq
  simp only [Reduction.run, bind, EStateM.bind, ValuesM.closeFrame_stacked, hvalues, ValuesM.push_stacked]

theorem computes_close_prog :
    Computes s b e (doing ⟨⟨p, s.stacked (us :: vs :: fs)⟩, e, b⟩ [.reduce (.close .prog)])
      (do
        let exprs ← PoolM.intern (.branch .exprs us)
        return (← PoolM.intern (.branch .prog [exprs])) :: vs) (· :: fs) p := by
  have hpq := p.grows_intern (n := .branch .exprs us) (by simp [Node.tag])
  have hqr := Pool.grows_intern (p := (p.intern (.branch .exprs us)).2)
    (n := .branch .prog [(p.intern (.branch .exprs us)).1]) (by simp [Node.tag])
  refine computes_reduce ?_ rfl rfl (hpq.trans hqr)
  simp only [Reduction.run, bind, EStateM.bind, ValuesM.closeFrame_stacked, ValuesM.intern,
    ValuesM.leave_stacked]

theorem computes_close_paren :
    Computes s b e (doing ⟨⟨p, s.stacked (us :: vs :: fs)⟩, e, b⟩ [.reduce (.close .paren)])
      (do
        let inner ← Evaluator.single us
        return (← PoolM.intern (.branch .paren [inner])) :: vs) (· :: fs) p := by
  obtain ⟨id, q, hsingle, hpq, hvalues⟩ := run_single us p (s.stacked (vs :: fs))
  have hqr := q.grows_intern (n := .branch .paren [id]) (by simp [Node.tag])
  refine computes_reduce (q := (q.intern (.branch .paren [id])).2)
    (a := (q.intern (.branch .paren [id])).1 :: vs) ?_ ?_ rfl (hpq.trans hqr)
  · simp only [Reduction.run, bind, EStateM.bind, ValuesM.closeFrame_stacked, hvalues, ValuesM.leave_stacked]
  · simp only [bind, EStateM.bind, hsingle]
    rfl

theorem computes_close_list :
    Computes s b e (doing ⟨⟨p, s.stacked (us :: vs :: fs)⟩, e, b⟩ [.reduce (.close .list)])
      (PoolM.intern (.branch .list us)) (fun id => (id :: vs) :: fs) p := by
  refine computes_leave (by simp [Node.tag]) ?_
  simp only [Reduction.run, bind, EStateM.bind, ValuesM.closeFrame_stacked]

theorem computes_build {t : Tag} (ht : t ≠ .ident) (us vs : List NodeId) : Computes s b e
    (doing ⟨⟨p, s.stacked ((us.reverse ++ vs) :: fs)⟩, e, b⟩ [.reduce (.build t us.length)])
      (PoolM.intern (.branch t us)) (fun id => (id :: vs) :: fs) p := by
  refine computes_leave ht ?_
  have hpop : ValuesM.popMany us.reverse.length ⟨p, s.stacked ((us.reverse ++ vs) :: fs)⟩ =
      .ok us.reverse.reverse ⟨p, s.stacked (vs :: fs)⟩ := ValuesM.popMany_stacked
  rw [List.length_reverse, List.reverse_reverse] at hpop
  simp only [Reduction.run, bind, EStateM.bind, hpop]

theorem doing_push :
    doing ⟨⟨p, s.stacked (vs :: fs)⟩, e, b⟩ (.reduce (.push id) :: tasks) =
      doing ⟨⟨p, s.stacked ((id :: vs) :: fs)⟩, e, b⟩ tasks := by
  have hstep : resume ⟨⟨p, s.stacked (vs :: fs)⟩, e, b⟩ (.reduce (.push id)) =
      .ok [] ⟨⟨p, s.stacked ((id :: vs) :: fs)⟩, e, b⟩ :=
    onValues_of_ok (k := fun _ m => .ok [] m) ValuesM.push_stacked
  rw [doing_cons, hstep]
  rfl

theorem doing_pushes :
    doing ⟨⟨p, s.stacked (vs :: fs)⟩, e, b⟩ (ids.map (Task.reduce <| .push ·) ++ tasks) =
      doing ⟨⟨p, s.stacked ((ids.reverse ++ vs) :: fs)⟩, e, b⟩ tasks := by
  induction ids generalizing vs with
  | nil => rfl
  | cons id ids ih =>
    rw [List.map_cons, List.cons_append, doing_push, ih, List.reverse_cons, List.append_assoc]
    rfl

theorem computes_lambda {names body pattern : NodeId} :
    Computes s b e (doing ⟨⟨p, s.stacked ((body :: vs) :: fs)⟩, e, b⟩ [.reduce (.lambda names pattern)])
      (PoolM.intern (.branch .lambda [names, body, pattern])) (fun id => (id :: vs) :: fs) p := by
  refine computes_reduce ?_ rfl rfl (p.grows_intern (by simp [Node.tag]))
  simp only [Reduction.run, bind, EStateM.bind, ValuesM.pop_stacked, ValuesM.leave_stacked]

theorem computes_negate {a : NodeId} :
    Computes s b e (doing ⟨⟨p, s.stacked ((a :: vs) :: fs)⟩, e, b⟩ [.reduce .negate])
      (PoolM.intern (p.negationNode a)) (fun id => (id :: vs) :: fs) p := by
  unfold Pool.negationNode
  refine computes_leave (by split <;> simp [Node.tag]) ?_
  simp only [Reduction.run, bind, EStateM.bind, ValuesM.pop_stacked, ValuesM.ask]
  cases p.number? a <;> rfl

/-- An operator over two values leaves its result, or a node if it has none. -/
theorem computes_operator {t : Tag} {r : Reduction} {result : Option Node} {x y : NodeId} (ht : t ≠ .ident)
    (hresult : ∀ n, result = some n → n.isLiteral)
    (hnode : p.operatorNode t x y = result.getD (.branch t [x, y]))
    (hr : r.run ⟨p, s.stacked ((y :: x :: vs) :: fs)⟩ =
      ValuesM.leaveResult t x y result ⟨p, s.stacked (vs :: fs)⟩) :
    Computes s b e (doing ⟨⟨p, s.stacked ((y :: x :: vs) :: fs)⟩, e, b⟩ [.reduce r])
      (PoolM.intern (p.operatorNode t x y)) (fun id => (id :: vs) :: fs) p := by
  rw [hnode]
  refine computes_leave ?_ hr
  cases result with
  | none => exact ht
  | some n =>
    have hn := hresult n rfl
    cases n <;> simp_all [Node.isLiteral, Node.tag]

end Linefold.Machine
