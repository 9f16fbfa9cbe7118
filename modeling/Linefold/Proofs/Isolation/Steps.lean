import Linefold.Proofs.Evaluation.Scopes
import Linefold.Proofs.Folding.Frames

/-!
# Tasks on a ground

A machine is looked at in two parts: a `Ground`, the operand stack and the environment that a run has found, and a
`Layer`, the frames and the scopes that the run has opened since, with all else that it works on. A task takes values
from the innermost frame only, and closes no frame and no scope that has not been opened for it (`Task.Shifts`). So a
task comes to the same on two grounds where names have the same meaning (`steps_resume`). Only the room for further
scopes may differ; where there is more of it on the second ground, the task may fail on the first one for lack of room.
-/

namespace Linefold

attribute [local irreducible] Pool.intern

/-! ### Values -/

namespace ValuesM

variable {α β : Type} {k l n : Nat} {f : ValuesM α} {id a b : NodeId} {ids : List NodeId} {nd : Node}

/-- The computation turns `n` frames into `k` frames, or fails, whatever stack the frames are on. -/
def Within (n k : Nat) (f : ValuesM α) : Prop :=
  ∀ (p : Pool) (fs : List (List NodeId)), fs.length = n →
    (∃ a q gs, gs.length = k ∧ ∀ s : OperandStack, f ⟨p, s.stacked fs⟩ = .ok a ⟨q, s.stacked gs⟩) ∨
    ∃ e q gs, ∀ s : OperandStack, f ⟨p, s.stacked fs⟩ = .error e ⟨q, s.stacked gs⟩

theorem Within.bind {g : α → ValuesM β} (hf : f.Within n k) (hg : ∀ a, (g a).Within k l) : (f >>= g).Within n l := by
  intro p fs hfs
  rcases hf p fs hfs with ⟨a, q, gs, hgs, hok⟩ | ⟨e, q, gs, herror⟩
  · have hstep (s : OperandStack) : (f >>= g) ⟨p, s.stacked fs⟩ = g a ⟨q, s.stacked gs⟩ := by
      simp only [Bind.bind, EStateM.bind, hok]
    simp only [hstep]
    exact hg a q gs hgs
  · refine .inr ⟨e, q, gs, fun s => ?_⟩
    simp only [Bind.bind, EStateM.bind, herror]

theorem within_pure {a : α} : (pure a : ValuesM α).Within n n := fun p fs hfs => .inl ⟨a, p, fs, hfs, fun _ => rfl⟩

theorem within_ask {g : Pool → α} : (ask g).Within n n := fun p fs hfs => .inl ⟨g p, p, fs, hfs, fun _ => rfl⟩

theorem within_intern : (intern nd).Within n n := fun p fs hfs =>
  .inl ⟨(p.intern nd).1, (p.intern nd).2, fs, hfs, fun _ => rfl⟩

theorem within_push : (push id).Within (n + 1) (n + 1) := by
  intro p fs hfs
  obtain ⟨vs, fs, rfl⟩ := List.exists_cons_of_length_eq_add_one hfs
  exact .inl ⟨(), p, (id :: vs) :: fs, hfs, fun _ => push_stacked⟩

theorem within_pop : pop.Within (n + 1) (n + 1) := by
  intro p fs hfs
  obtain ⟨vs, fs, rfl⟩ := List.exists_cons_of_length_eq_add_one hfs
  cases vs with
  | nil =>
    refine .inr ⟨.internal .operandUnderflow, p, [] :: fs, fun s => ?_⟩
    simp only [pop, OperandStack.pop_stacked_nil]
  | cons v vs => exact .inl ⟨v, p, vs :: fs, hfs, fun _ => pop_stacked⟩

theorem within_popPair : popPair.Within (n + 1) (n + 1) :=
  within_pop.bind fun _ => within_pop.bind fun _ => within_pure

theorem within_popMany : (popMany k).Within (n + 1) (n + 1) := by
  induction k with
  | zero => exact within_pure
  | succ k ih => exact within_pop.bind fun _ => ih.bind fun _ => within_pure

theorem within_closeFrame : closeFrame.Within (n + 1) n := by
  intro p fs hfs
  obtain ⟨vs, fs, rfl⟩ := List.exists_cons_of_length_eq_add_one hfs
  exact .inl ⟨vs, p, fs, Nat.succ.inj hfs, fun _ => closeFrame_stacked⟩

theorem within_single : (single ids).Within n n := by
  unfold single
  split
  · exact within_pure
  · exact within_intern

theorem within_leave : (leave nd).Within (n + 1) (n + 1) := within_intern.bind fun _ => within_push

end ValuesM

namespace Reduction

open ValuesM

variable {α : Type} {n : Nat} {t : Tag}

theorem within_close : (run (.close t)).Within (n + 2) (n + 1) := by
  have hplain : ValuesM.Within (n + 2) (n + 1) (do ValuesM.leave (.branch t (← closeFrame))) :=
    within_closeFrame.bind fun _ => within_leave
  cases t
  case prog => exact within_closeFrame.bind fun _ => within_intern.bind fun _ => within_leave
  case paren => exact within_closeFrame.bind fun _ => within_single.bind fun _ => within_leave
  all_goals exact hplain

theorem within_collect : (run .collect).Within (n + 2) (n + 1) :=
  within_closeFrame.bind fun _ => within_single.bind fun _ => within_push

theorem within_operator {read : Pool → NodeId → α} {f : α → α → Option Node} :
    ValuesM.Within (n + 1) (n + 1) (do
      let (a, b) ← popPair
      let x ← ask (read · a)
      let y ← ask (read · b)
      leaveResult t a b (f x y)) :=
  within_popPair.bind fun _ => within_ask.bind fun _ => within_ask.bind fun _ => within_leave

/-- The reduction closes no frame. -/
def Stays : Reduction → Bool
  | .collect | .close _ => false
  | _ => true

theorem within_of_stays {r : Reduction} (h : r.Stays) : r.run.Within (n + 1) (n + 1) := by
  cases r with
  | collect | close => cases h
  | push id => exact within_push
  | build t arity => exact within_popMany.bind fun _ => within_leave
  | arithmetic t => exact within_operator
  | concat => exact within_operator
  | compare t => exact within_operator
  | negate =>
    refine within_pop.bind fun a => within_ask.bind fun x => ?_
    split <;> exact within_leave
  | lambda names pattern => exact within_pop.bind fun _ => within_leave

end Reduction

namespace Machine

variable {α : Type} {n k : Nat}

theorem within_openFrame : openFrame.Within n (n + 1) := fun p fs hfs =>
  .inl ⟨(), p, [] :: fs, congrArg (· + 1) hfs, fun _ => openFrame_stacked⟩

theorem within_takeArgs : (takeArgs k).Within (n + 1) (n + 1) := by
  intro p fs hfs
  obtain ⟨vs, fs, rfl⟩ := List.exists_cons_of_length_eq_add_one hfs
  exact .inl ⟨vs.take k, p, vs.drop k :: fs, hfs, fun _ => takeArgs_stacked⟩

theorem within_onPool {f : Pattern.PoolM α} : (onPool f).Within n n := by
  intro p fs hfs
  cases hf : f p with
  | ok a q => exact .inl ⟨a, q, fs, hfs, fun s => by simp only [onPool, hf]⟩
  | error e q => exact .inr ⟨e, q, fs, fun s => by simp only [onPool, hf]⟩

theorem returns_of_onPool {f : Pattern.PoolM α} {P : α → Prop} (h : Returns f P) {v w : Values} {a : α}
    (ha : onPool f v = .ok a w) : P a := by
  unfold onPool at ha
  simp only at ha
  split at ha
  · next hf =>
    cases ha
    exact h _ _ _ hf
  · cases ha

end Machine

/-! ### Frames and scopes that tasks open and close -/

namespace Task

variable {t : Task} {ts us : List Task} {k l : Nat} {c d e : Nat × Nat} {p : Pool}

/-- The task leaves as many frames and scopes as it finds. -/
def Stays : Task → Bool
  | .reduce r => r.Stays
  | .enter _ | .exit => false
  | _ => true

/-- The task, with all that it gives rise to, turns one number of frames and of scopes into another. It needs a frame. -/
inductive Shifts : Task → Nat × Nat → Nat × Nat → Prop where
  | stays {t : Task} {k l : Nat} (h : t.Stays) : Shifts t (k + 1, l) (k + 1, l)
  | collect {k l : Nat} : Shifts (.reduce .collect) (k + 2, l) (k + 1, l)
  | close {t : Tag} {k l : Nat} : Shifts (.reduce (.close t)) (k + 2, l) (k + 1, l)
  | enter {name : String} {k l : Nat} : Shifts (.enter name) (k + 1, l) (k + 1, l + 1)
  | exit {k l : Nat} : Shifts .exit (k + 1, l + 1) (k + 1, l)

/-- The same for tasks that run one after the other. -/
inductive ShiftsAll : List Task → Nat × Nat → Nat × Nat → Prop where
  | nil {c : Nat × Nat} : ShiftsAll [] c c
  | cons {t : Task} {ts : List Task} {c d e : Nat × Nat} (ht : t.Shifts c d) (hts : ShiftsAll ts d e) :
      ShiftsAll (t :: ts) c e

namespace ShiftsAll

theorem append (h : ShiftsAll ts c d) (h' : ShiftsAll us d e) : ShiftsAll (ts ++ us) c e := by
  induction h with
  | nil => exact h'
  | cons ht _ ih => exact .cons ht (ih h')

theorem singleton (h : t.Shifts c d) : ShiftsAll [t] c d := .cons h .nil

theorem of_stays (h : ∀ t ∈ ts, t.Stays) : ShiftsAll ts (k + 1, l) (k + 1, l) := by
  induction ts with
  | nil => exact .nil
  | cons t ts ih =>
    obtain ⟨ht, hts⟩ := List.forall_mem_cons.1 h
    exact .cons (.stays ht) (ih hts)

theorem map {ids : List NodeId} {f : NodeId → Task} (h : ∀ id, (f id).Stays) :
    ShiftsAll (ids.map f) (k + 1, l) (k + 1, l) :=
  of_stays (List.forall_mem_map.2 fun id _ => h id)

theorem flatten {tss : List (List Task)} (h : ∀ ts ∈ tss, ShiftsAll ts c c) : ShiftsAll tss.flatten c c := by
  induction tss with
  | nil => exact .nil
  | cons ts tss ih =>
    obtain ⟨hts, htss⟩ := List.forall_mem_cons.1 h
    exact hts.append (ih htss)

end ShiftsAll

end Task

namespace Machine

open Linefold.Task (ShiftsAll)

variable {p : Pool} {nid : NodeId} {t : Tag} {es args : List NodeId} {callee : Callee} {plan : Plan} {k l : Nat}

theorem shiftsAll_of_plan (h : Machine.plan nid t es = .ok plan) :
    ShiftsAll plan.tasks (if plan.frame then (k + 2, l) else (k + 1, l)) (k + 1, l) := by
  have hbuild {id : NodeId} {r : Reduction} (hr : r.Stays) : ShiftsAll [.operand id, .reduce r] (k + 1, l) (k + 1, l) :=
    .cons (.stays rfl) (.singleton (.stays hr))
  have hoperator {r : Reduction} (hr : r.Stays) (h : operatorPlan es r = .ok plan) :
      ShiftsAll plan.tasks (if plan.frame then (k + 2, l) else (k + 1, l)) (k + 1, l) := by
    unfold operatorPlan at h
    split at h
    · cases h
      exact .cons (.stays rfl) (hbuild hr)
    · cases h
  unfold Machine.plan at h
  split at h
  any_goals exact hoperator rfl h
  any_goals cases h
  · exact .append (.map fun _ => rfl) (.singleton .close)
  · exact .map fun _ => rfl
  · exact .append (.map fun _ => rfl) (.singleton .close)
  · exact .append (.map fun _ => rfl) (.singleton .close)
  any_goals exact .append (.map fun _ => rfl) (.singleton (.stays rfl))
  all_goals split at h <;> cases h
  · exact .cons (.stays rfl) (hbuild rfl)
  · exact .cons (.stays rfl) (.singleton (.stays rfl))
  · exact hbuild rfl

theorem shiftsAll_of_residualClause {id : NodeId} {ts : List Task} (h : residualClause p id = .ok ts) :
    ShiftsAll ts (k + 1, l) (k + 1, l) := by
  unfold residualClause at h
  cases hc : clause p id with
  | error fault =>
    rw [hc] at h
    cases h
  | ok c =>
    rw [hc] at h
    simp only [bind, Except.bind] at h
    split at h <;> cases h
    · refine .cons (.stays rfl) (.cons .enter (.cons (.stays rfl) (.cons .exit ?_)))
      exact .of_stays (by simp [Task.Stays, Reduction.Stays])
    · exact .of_stays (by simp [Task.Stays, Reduction.Stays])

theorem returns_bindCallee_shiftsAll :
    Returns (bindCallee callee args) fun bound => ShiftsAll bound.2 (k + 1, l + 1) (k + 1, l) := by
  unfold bindCallee
  refine returns_bind fun bound => ?_
  split
  · refine returns_bind fun parts => returns_pure (.cons (.stays rfl) (.cons (.stays rfl) (.append (.map fun _ => rfl) ?_)))
    exact .cons (.stays rfl) (.singleton .exit)
  · split
    · exact returns_pure (.cons (.stays rfl) (.singleton .exit))
    · exact returns_bind fun parts => returns_pure (.cons (.stays rfl) (.cons (.stays rfl) (.singleton .exit)))

end Machine

/-! ### Grounds -/

/-- What a fold reads of a word. -/
def Word.meaning (w : Word) : WordClass × NodeId × Option (Closure Word) := (w.cls, w.nid, w.closure)

/-- The operand stack and the environment that a run has found. -/
structure Ground where
  stack : OperandStack
  env : Environment

/-- What a run has put on its ground, innermost first, with the pool and the budget that it works with. -/
structure Layer where
  pool : Pool
  frames : List (List NodeId)
  scopes : List Scope
  budget : Nat

namespace Layer

variable {x : Layer} {g : Ground}

def on (x : Layer) (g : Ground) : Machine :=
  ⟨⟨x.pool, g.stack.stacked x.frames⟩, { g.env with inner := x.scopes ++ g.env.inner }, x.budget⟩

/-- The number of frames and of scopes. -/
def size (x : Layer) : Nat × Nat := (x.frames.length, x.scopes.length)

@[simp] theorem pool_on : (x.on g).pool = x.pool := rfl

@[simp] theorem limit_on : (x.on g).env.limit = g.env.limit := rfl

@[simp] theorem depth_on : (x.on g).env.depth = x.scopes.length + g.env.depth := by
  simp only [Environment.depth, on, List.length_append]
  omega

theorem lookup?_on (name : String) :
    (x.on g).env.lookup? name = (x.scopes.findSome? (·.get? name)).or (g.env.lookup? name) := by
  simp only [Environment.lookup?, on, List.findSome?_append, Option.or_assoc]

theorem opened_on {name : String} {lexicon : Lexicon} {words : List Word} :
    (x.on g).env.opened name lexicon words =
      (on { x with scopes := .opening name lexicon words :: x.scopes } g).env :=
  Environment.opened_eq _ name lexicon words

end Layer

/-- Names have the same meaning on both grounds, and on the second one there is as much room for further scopes. -/
structure Ground.Reads (g g' : Ground) : Prop where
  limit : g'.env.limit = g.env.limit
  depth : g'.env.depth ≤ g.env.depth
  lookup : ∀ name, (g.env.lookup? name).map Word.meaning = (g'.env.lookup? name).map Word.meaning

theorem Ground.reads_of_env_eq {g g' : Ground} (h : g.env = g'.env) : g.Reads g' :=
  ⟨by rw [h], Nat.le_of_eq (by rw [h]), fun _ => by rw [h]⟩

theorem Ground.Reads.lookup_on {g g' : Ground} (h : g.Reads g') (x : Layer) (name : String) :
    ((x.on g).env.lookup? name).map Word.meaning = ((x.on g').env.lookup? name).map Word.meaning := by
  simp only [Layer.lookup?_on, Option.map_or, h.lookup]

namespace Machine

open Linefold.Task (ShiftsAll)

variable {α β : Type} {g g' : Ground} {x : Layer} {c d : Nat × Nat} {k l n : Nat} {ts : List Task}
  {nid scrutinee : NodeId}

/-- What computations on two grounds come to: the same, in layers with the property, or there was no room for a scope on
the first ground and there is more of it on the second. -/
inductive Matches (g g' : Ground) (P : α → Layer → Prop) :
    EStateM.Result Error Machine α → EStateM.Result Error Machine α → Prop where
  | ok {a : α} {x : Layer} (h : P a x) : Matches g g' P (.ok a (x.on g)) (.ok a (x.on g'))
  | error {e : Error} {x : Layer} : Matches g g' P (.error e (x.on g)) (.error e (x.on g'))
  | deep {m : Machine} {r : EStateM.Result Error Machine α} (h : g'.env.depth < g.env.depth) :
      Matches g g' P (.error (.recursion g.env.limit) m) r

/-- Steps that come to the same, with tasks that lead to the given number of frames and of scopes. -/
abbrev Steps (g g' : Ground) (c : Nat × Nat) : Step → Step → Prop := Matches g g' fun ts x => ShiftsAll ts x.size c

theorem steps_ok (hx : x.size = d) (h : ShiftsAll ts d c) : Steps g g' c (.ok ts (x.on g)) (.ok ts (x.on g')) :=
  .ok (hx ▸ h)

theorem steps_ite {q : Prop} [Decidable q] {r r' s s' : Step} (h : q → Steps g g' c r r')
    (h' : ¬ q → Steps g g' c s s') : Steps g g' c (if q then r else s) (if q then r' else s') := by
  by_cases hq : q
  · rw [if_pos hq, if_pos hq]
    exact h hq
  · rw [if_neg hq, if_neg hq]
    exact h' hq

theorem steps_onValues {f : ValuesM β} {K : β → Machine → Step} (hx : x.size = (n, l)) (hf : f.Within n k)
    (hk : ∀ (b : β) (y : Layer) (v w : Values), f v = .ok b w → y.size = (k, l) →
      Steps g g' c (K b (y.on g)) (K b (y.on g'))) :
    Steps g g' c ((x.on g).onValues f K) ((x.on g').onValues f K) := by
  obtain ⟨hframes, rfl⟩ := Prod.mk.inj hx
  rcases hf x.pool x.frames hframes with ⟨b, q, fs, hfs, hok⟩ | ⟨e, q, fs, herror⟩
  · have hstep (h : Ground) : (x.on h).onValues f K = K b (Layer.on ⟨q, fs, x.scopes, x.budget⟩ h) :=
      onValues_of_ok (hok h.stack)
    rw [hstep, hstep]
    exact hk b _ _ _ (hok g.stack) (congrArg (·, x.scopes.length) hfs)
  · have hstep (h : Ground) : (x.on h).onValues f K = .error e (Layer.on ⟨q, fs, x.scopes, x.budget⟩ h) := by
      simp only [onValues, Layer.on, herror]
    rw [hstep, hstep]
    exact .error

theorem steps_reducing {f : ValuesM Unit} (hx : x.size = (n, l)) (hf : f.Within n k) (hts : ShiftsAll ts (k, l) c) :
    Steps g g' c ((x.on g).reducing f ts) ((x.on g').reducing f ts) :=
  steps_onValues hx hf fun _ _ _ _ _ hy => steps_ok hy hts

theorem steps_push {id : NodeId} (hx : x.size = (k + 1, l)) :
    Steps g g' (k + 1, l) ((x.on g).reducing (ValuesM.push id) []) ((x.on g').reducing (ValuesM.push id) []) :=
  steps_reducing hx ValuesM.within_push .nil

/-- A step that needs room for a scope. -/
theorem steps_of_room (hg : g.Reads g') {r r' : Step} (h : Steps g g' c r r') :
    Steps g g' c (if (x.on g).env.limit < (x.on g).env.depth then .error (.recursion (x.on g).env.limit) (x.on g) else r)
      (if (x.on g').env.limit < (x.on g').env.depth then .error (.recursion (x.on g').env.limit) (x.on g') else r') := by
  have hdepth : g'.env.depth ≤ g.env.depth := hg.depth
  simp only [Layer.limit_on, Layer.depth_on, hg.limit]
  by_cases hroom : g.env.limit < x.scopes.length + g.env.depth
  · rw [if_pos hroom]
    split
    · exact .error
    · exact .deep (by omega)
  · rw [if_neg hroom, if_neg (by omega)]
    exact h

theorem entering_eq {m : Machine} {name : String} {lexicon : Lexicon} {words : List Word} :
    m.entering name lexicon words ts =
      if m.env.limit < m.env.depth then .error (.recursion m.env.limit) m
      else .ok ts ⟨m.values, m.env.opened name lexicon words, m.budget⟩ := by
  split
  · next h => exact entering_of_lt h
  · next h => exact entering_of_not_lt h

theorem steps_entering (hg : g.Reads g') {name : String} {lexicon : Lexicon} {words : List Word}
    (hx : x.size = (k, l)) (h : ShiftsAll ts (k, l + 1) c) :
    Steps g g' c ((x.on g).entering name lexicon words ts) ((x.on g').entering name lexicon words ts) := by
  obtain ⟨rfl, rfl⟩ := Prod.mk.inj hx
  rw [entering_eq, entering_eq, Layer.opened_on, Layer.opened_on]
  exact steps_of_room hg (steps_ok (x := { x with scopes := .opening name lexicon words :: x.scopes }) rfl h)

/-! ### Functions and names -/

theorem steps_apply (hg : g.Reads g') {callee : Callee} (hx : x.size = (k + 1, l)) :
    Steps g g' (k + 1, l) ((x.on g).apply callee) ((x.on g').apply callee) := by
  refine steps_onValues hx within_takeArgs fun args y _ _ _ hy => steps_of_room hg ?_
  refine steps_onValues hy within_onPool fun bound z _ _ hbound hz => steps_entering hg hz ?_
  exact returns_of_onPool returns_bindCallee_shiftsAll hbound

theorem steps_visitName (hg : g.Reads g') {name : String} (hx : x.size = (k + 1, l)) :
    Steps g g' (k + 1, l) ((x.on g).visitName nid name) ((x.on g').visitName nid name) := by
  have hlookup := hg.lookup_on x name
  unfold visitName
  cases hw : (x.on g).env.lookup? name with
  | none =>
    rw [hw] at hlookup
    rw [Option.map_eq_none_iff.1 hlookup.symm]
    exact steps_push hx
  | some w =>
    rw [hw] at hlookup
    obtain ⟨w', hw', hmeaning⟩ := Option.map_eq_some_iff.1 hlookup.symm
    obtain ⟨hcls, hnid, hclosure⟩ : w'.cls = w.cls ∧ w'.nid = w.nid ∧ w'.closure = w.closure := by
      simpa [Word.meaning] using hmeaning
    simp only [hw', hcls, hnid, hclosure]
    split
    · exact steps_push hx
    · split
      · exact steps_push hx
      · exact steps_ite (fun _ => steps_push hx) fun _ => steps_apply hg hx
    · refine steps_onValues hx within_takeArgs fun args y _ _ _ hy => ?_
      refine steps_onValues hy ValuesM.within_intern fun id z _ _ _ hz => ?_
      refine steps_ite (fun _ => ?_) fun _ => steps_push hz
      obtain ⟨q, fs, scs, b⟩ := z
      cases b with
      | zero => exact .error (x := ⟨q, fs, scs, 0⟩)
      | succ b => exact steps_ok (x := ⟨q, fs, scs, b⟩) hz (.singleton (.stays rfl))

/-! ### Cases -/

theorem steps_residualCase (hx : x.size = (k + 1, l)) :
    Steps g g' (k + 1, l) ((x.on g).residualCase nid scrutinee) ((x.on g').residualCase nid scrutinee) := by
  unfold residualCase
  simp only [Layer.pool_on]
  split
  · exact .error
  · split
    · exact .error
    · next tasks htasks =>
      have hclauses : ∀ ts ∈ tasks, ShiftsAll ts (k + 1, l) (k + 1, l) :=
        forall_of_mapM htasks fun _ _ _ h => shiftsAll_of_residualClause h
      exact steps_ok hx (.cons (.stays rfl) (.append (.flatten hclauses) (.singleton (.stays rfl))))

theorem steps_select (hg : g.Reads g') {clauses : List NodeId} (hx : x.size = (k + 1, l)) :
    Steps g g' (k + 1, l) ((x.on g).select nid scrutinee clauses) ((x.on g').select nid scrutinee clauses) := by
  unfold select exhausted
  simp only [Layer.pool_on]
  split
  · exact steps_ite (fun _ => .error) fun _ => steps_residualCase hx
  · split
    · exact .error
    · split
      · exact steps_entering hg hx (.cons (.stays rfl) (.singleton .exit))
      · exact steps_ok hx (.cons (.stays rfl) (.singleton (.stays rfl)))

theorem steps_tryClause (hg : g.Reads g') {pattern : NodeId} {clauses : List NodeId} (hx : x.size = (k + 1, l)) :
    Steps g g' (k + 1, l) ((x.on g).tryClause nid scrutinee pattern clauses)
      ((x.on g').tryClause nid scrutinee pattern clauses) := by
  cases clauses with
  | nil => exact .error
  | cons id clauses =>
    refine steps_ite (fun _ => ?_) fun _ => steps_ite (fun _ => steps_select hg hx) fun _ => steps_residualCase hx
    simp only [Layer.pool_on]
    split
    · exact .error
    · exact steps_ok hx (.singleton (.stays rfl))

/-! ### Nodes and tasks -/

theorem steps_visit (hg : g.Reads g') (hx : x.size = (k + 1, l)) :
    Steps g g' (k + 1, l) ((x.on g).visit nid) ((x.on g').visit nid) := by
  unfold visit
  simp only [Layer.pool_on]
  split
  · exact .error
  · exact steps_visitName hg hx
  · split
    · exact .error
    · exact steps_apply hg hx
  · split
    · exact .error
    · next plan hplan =>
      have htasks := shiftsAll_of_plan (k := k) (l := l) hplan
      refine steps_ite (fun hframe => ?_) fun hframe => ?_
      · rw [if_pos hframe] at htasks
        exact steps_reducing hx within_openFrame htasks
      · rw [if_neg hframe] at htasks
        exact steps_ok hx htasks
  · exact steps_push hx

/-- A task comes to the same on two grounds where names have the same meaning. -/
theorem steps_resume (hg : g.Reads g') {t : Task} (h : t.Shifts x.size c) :
    Steps g g' c ((x.on g).resume t) ((x.on g').resume t) := by
  generalize hx : x.size = d at h
  cases h with
  | collect => exact steps_reducing hx Reduction.within_collect .nil
  | close => exact steps_reducing hx Reduction.within_close .nil
  | enter => exact steps_entering hg hx .nil
  | @exit k l =>
    obtain ⟨q, fs, scs, b⟩ := x
    obtain ⟨hframes, hscopes⟩ := Prod.mk.inj hx
    obtain ⟨sc, scs, rfl⟩ := List.exists_cons_of_length_eq_add_one hscopes
    have hsize : Layer.size ⟨q, fs, scs, b⟩ = (k + 1, l) := Prod.ext hframes (Nat.succ.inj hscopes)
    exact steps_ok hsize .nil
  | @stays t k l h =>
    cases t with
    | visit nid => exact steps_visit hg hx
    | operand nid => exact steps_reducing hx within_openFrame (.cons (.stays rfl) (.singleton .collect))
    | reduce r => exact steps_reducing hx (Reduction.within_of_stays h) .nil
    | select nid =>
      unfold resume
      refine steps_onValues hx ValuesM.within_pop fun v y _ _ _ hy => ?_
      simp only [Layer.pool_on]
      split
      · exact .error
      · exact steps_select hg hy
    | clause nid clauses scrutinee =>
      unfold resume
      exact steps_onValues hx ValuesM.within_pop fun v y _ _ _ hy => steps_tryClause hg hy
    | enter | exit => cases h

end Machine

end Linefold
