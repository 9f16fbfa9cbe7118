import Linefold.Proofs.Folding.Frames
import Linefold.Proofs.Folding.Layout
import Linefold.Proofs.Outcome
import Linefold.Proofs.Wholeness.Binding
import Linefold.Proofs.Twins.Patterns
import Linefold.Proofs.Twins.Reductions

/-!
# What a fold adds to the pool

Whatever is folded, in whatever scopes and however it ends: nodes are added that are no names, and no node is
given a place (`Machine.fold_accrues`). So an error that tells the place of a case tells the place of a `CASE`
node that the fold has found in the pool.
-/

namespace Linefold

attribute [local irreducible] Pool.intern

/-! ### Pools -/

/-- The node is no name. -/
def Node.Nameless : Node → Prop
  | .ident _ => False
  | _ => True

theorem Node.nameless_of_isLiteral {n : Node} (h : n.isLiteral) : n.Nameless := by
  cases n with
  | ident => cases h
  | _ => trivial

/-- The second pool is the first one with nodes interned that are no names. -/
inductive Pool.Accrues : Pool → Pool → Prop where
  | refl (p : Pool) : Accrues p p
  | intern {p q : Pool} (h : Accrues p q) {n : Node} (hn : n.Nameless) : Accrues p (q.intern n).2

namespace Pool

variable {p q r : Pool} {n : Node} {id : NodeId}

theorem accrues_intern (hn : n.Nameless) : p.Accrues (p.intern n).2 := .intern (.refl p) hn

namespace Accrues

theorem trans (hpq : p.Accrues q) (hqr : q.Accrues r) : p.Accrues r := by
  induction hqr with
  | refl => exact hpq
  | intern _ hn ih => exact .intern ih hn

theorem grows (h : p.Accrues q) : p.Grows q := by
  induction h with
  | refl => exact .refl p
  | @intern q _ n hn ih =>
    refine ih.trans ⟨q.extends_intern n, fun id name hid => ?_⟩
    rcases of_get?_intern hid with hid | ⟨-, heq⟩
    · exact ⟨id, hid⟩
    · cases n with
      | ident s => exact hn.elim
      | _ => cases heq

theorem keeps (h : p.Accrues q) : p.Extends q := h.grows.keeps

theorem coords_eq (h : p.Accrues q) : q.coords = p.coords := by
  induction h with
  | refl => rfl
  | @intern q _ n _ ih => rw [q.coords_intern n, ih]

theorem coord?_eq (h : p.Accrues q) : q.coord? id = p.coord? id := by
  rw [coord?, h.coords_eq, coord?]

end Accrues

end Pool

/-! ### Computations -/

section

variable {σ α β : Type} [Pooled σ] {f : EStateM Error σ α}

open Pooled (pool)

/-- Nodes that are no names are added to the pool, and errors are internal ones. -/
def Accrues (f : EStateM Error σ α) : Prop :=
  ∀ s, Ensures f (fun _ t => (pool s).Accrues (pool t))
    (fun e t => (pool s).Accrues (pool t) ∧ ∃ fault, e = .internal fault) s

theorem accrues_pure {a : α} : Accrues (pure a : EStateM Error σ α) := fun _ => .refl _

theorem accrues_throw {fault : InternalFault} : Accrues (throw (.internal fault) : EStateM Error σ α) :=
  fun _ => ⟨.refl _, fault, rfl⟩

theorem Accrues.bind {g : α → EStateM Error σ β} (hf : Accrues f) (hg : ∀ a, Accrues (g a)) : Accrues (f >>= g) := by
  intro s
  refine Ensures.bind_iff.2 ((hf s).mono (fun a t hst => ?_) fun _ _ h => h)
  exact (hg a t).mono (fun _ _ htu => hst.trans htu) fun _ _ h => ⟨hst.trans h.1, h.2⟩

end

namespace Pattern

variable {α : Type} {n : Node} {args patterns : List NodeId} {i : Nat}

theorem accrues_get : Accrues (get : PoolM Pool) := fun _ => .refl _

theorem accrues_intern (hn : n.Nameless) : Accrues (PoolM.intern n) := fun _ => Pool.accrues_intern hn

theorem accrues_listItems? {value : NodeId} : Accrues (PoolM.listItems? value) := fun _ => .refl _

theorem accrues_projection {value : NodeId} : Accrues (projection i value) :=
  (accrues_intern (by trivial)).bind fun _ => accrues_intern (by trivial)

theorem accrues_append {f g : PoolM (List Word)} (hf : Accrues f) (hg : Accrues g) :
    Accrues (do return (← f) ++ (← g)) :=
  hf.bind fun _ => hg.bind fun _ => accrues_pure

mutual

theorem accrues_words (value : NodeId) (i : Nat) : ∀ x : Pattern, Accrues (words value i x)
  | .name _ _ => accrues_pure
  | .list ps => accrues_listItems?.bind fun items =>
    match items with
    | none => accrues_wordsOfParts value 0 ps
    | some items => accrues_wordsOfItems items 0 ps
  | .faulty _ => accrues_throw

theorem accrues_wordsOfItems (items : List NodeId) (i : Nat) : ∀ ps : List Pattern, Accrues (wordsOfItems items i ps)
  | [] => accrues_pure
  | x :: ps => accrues_append (accrues_words _ i x) (accrues_wordsOfItems items.tail (i + 1) ps)

theorem accrues_wordsOfParts (value : NodeId) (i : Nat) : ∀ ps : List Pattern, Accrues (wordsOfParts value i ps)
  | [] => accrues_pure
  | x :: ps => accrues_projection.bind fun part =>
    accrues_append (accrues_words part i x) (accrues_wordsOfParts value (i + 1) ps)

end

theorem accrues_bindAll : Accrues (bindAll args i patterns) := by
  induction patterns generalizing args i with
  | nil => exact accrues_pure
  | cons pattern patterns ih =>
    unfold bindAll
    refine accrues_get.bind fun p => ?_
    extract_lets arg late shape jp
    have hrest (source : NodeId) : Accrues (jp source) :=
      (accrues_words source i shape).bind fun _ => ih.bind fun _ => accrues_pure
    split
    · exact (accrues_intern (by trivial)).bind fun _ => (accrues_intern (by trivial)).bind hrest
    · exact hrest arg

theorem accrues_lambdaParts : Accrues (lambdaParts patterns) := by
  unfold lambdaParts
  refine accrues_get.bind fun p => ?_
  split
  · exact accrues_throw
  · exact (accrues_intern (by trivial)).bind fun _ => (accrues_intern (by trivial)).bind fun _ => accrues_pure

end Pattern

/-! ### Reductions -/

namespace ValuesM

variable {α : Type} {n : Node} {id : NodeId} {ids : List NodeId} {k : Nat} {f : ValuesM α}

/-- What leaves the pool alone and fails with an internal error only. -/
theorem accrues_of_pool_eq (h : ∀ v, Ensures f (fun _ w => w.pool = v.pool)
    (fun e w => w.pool = v.pool ∧ ∃ fault, e = .internal fault) v) : Accrues f := by
  refine fun v => (h v).mono (fun _ w hw => ?_) fun _ w hw => ⟨?_, hw.2⟩
  · show v.pool.Accrues w.pool
    rw [hw]
    exact .refl _
  · show v.pool.Accrues w.pool
    rw [hw.1]
    exact .refl _

theorem accrues_intern (hn : n.Nameless) : Accrues (intern n) := fun _ => Pool.accrues_intern hn

theorem accrues_push : Accrues (push id) := fun _ => .refl _

theorem accrues_pop : Accrues pop := by
  refine accrues_of_pool_eq fun v => ?_
  obtain ⟨p, s⟩ := v
  unfold Ensures pop
  generalize hs : s.pop = popped
  obtain ⟨_ | id, t⟩ := popped <;> simp only [hs]
  exact ⟨trivial, _, rfl⟩

theorem accrues_popPair : Accrues popPair :=
  accrues_pop.bind fun _ => accrues_pop.bind fun _ => accrues_pure

theorem accrues_popMany : Accrues (popMany k) := by
  induction k with
  | zero => exact accrues_pure
  | succ k ih => exact accrues_pop.bind fun _ => ih.bind fun _ => accrues_pure

theorem accrues_closeFrame : Accrues closeFrame := fun _ => .refl _

theorem accrues_ask {g : Pool → α} : Accrues (ask g) := fun _ => .refl _

theorem accrues_single : Accrues (single ids) := by
  unfold single
  split
  · exact accrues_pure
  · exact accrues_intern (by trivial)

theorem accrues_leave (hn : n.Nameless) : Accrues (leave n) := (accrues_intern hn).bind fun _ => accrues_push

end ValuesM

namespace Reduction

open ValuesM

variable {α : Type} {t : Tag}

theorem accrues_close : Accrues (run (.close t)) := by
  have hplain : Accrues (do ValuesM.leave (.branch t (← closeFrame))) :=
    accrues_closeFrame.bind fun _ => accrues_leave (by trivial)
  cases t
  case prog => exact accrues_closeFrame.bind fun _ => (accrues_intern (by trivial)).bind fun _ => accrues_leave (by trivial)
  case paren => exact accrues_closeFrame.bind fun _ => accrues_single.bind fun _ => accrues_leave (by trivial)
  all_goals exact hplain

/-- An operator comes to a literal or stays over its operands. -/
theorem accrues_operator {read : Pool → NodeId → Option α} {f : Option α → Option α → Option Node}
    (hf : ∀ x y n, f x y = some n → n.isLiteral) :
    Accrues (do
      let (a, b) ← popPair
      let x ← ask (read · a)
      let y ← ask (read · b)
      leaveResult t a b (f x y)) := by
  refine accrues_popPair.bind fun ⟨a, b⟩ => accrues_ask.bind fun x => accrues_ask.bind fun y => accrues_leave ?_
  cases hxy : f x y with
  | none => trivial
  | some n => exact Node.nameless_of_isLiteral (hf x y n hxy)

theorem accrues_run (r : Reduction) : Accrues r.run := by
  cases r with
  | collect => exact accrues_closeFrame.bind fun _ => accrues_single.bind fun _ => accrues_push
  | close t => exact accrues_close
  | push id => exact accrues_push
  | build t arity => exact accrues_popMany.bind fun _ => accrues_leave (by trivial)
  | arithmetic t => exact accrues_operator fun _ _ _ => Node.isLiteral_of_arithmetic
  | concat => exact accrues_operator fun _ _ _ => Node.isLiteral_of_concat
  | compare t => exact accrues_operator fun _ _ _ => Node.isLiteral_of_compare
  | negate =>
    refine accrues_pop.bind fun a => accrues_ask.bind fun x => ?_
    split <;> exact accrues_leave (by trivial)
  | lambda names pattern => exact accrues_pop.bind fun _ => accrues_leave (by trivial)

end Reduction

/-! ### Steps -/

/-- Clauses are chosen for a case. -/
def Task.AtCase (p : Pool) : Task → Prop
  | .select nid | .clause nid _ _ => ∃ es, p.get? nid = some (.branch .case es)
  | _ => True

/-- The place that the error tells is that of a case. -/
def Error.AtCase (p : Pool) : Error → Prop
  | .nonExhaustiveCase _ (some span) => ∃ id es, p.get? id = some (.branch .case es) ∧ p.coord? id = some span
  | _ => True

theorem Task.AtCase.mono {p q : Pool} {t : Task} (h : t.AtCase p) (hpq : p.Extends q) : t.AtCase q := by
  cases t with
  | select nid | clause nid clauses scrutinee => exact h.imp fun es hes => hpq _ _ hes
  | _ => trivial

def Task.AllAtCase (p : Pool) (ts : List Task) : Prop := ∀ t ∈ ts, t.AtCase p

namespace Task.AllAtCase

variable {p q : Pool} {t : Task} {ts us : List Task} {ids : List NodeId}

theorem mono (h : AllAtCase p ts) (hpq : p.Extends q) : AllAtCase q ts := fun t ht => (h t ht).mono hpq

theorem nil : AllAtCase p [] := nofun

theorem cons (ht : t.AtCase p) (h : AllAtCase p ts) : AllAtCase p (t :: ts) := List.forall_mem_cons.2 ⟨ht, h⟩

theorem append (h : AllAtCase p ts) (h' : AllAtCase p us) : AllAtCase p (ts ++ us) :=
  List.forall_mem_append.2 ⟨h, h'⟩

theorem map {f : NodeId → Task} (h : ∀ id, (f id).AtCase p) : AllAtCase p (ids.map f) :=
  List.forall_mem_map.2 fun id _ => h id

end Task.AllAtCase

namespace Machine

variable {α : Type} {m : Machine} {r : Step} {ts us : List Task} {nid scrutinee : NodeId} {clauses es : List NodeId}
  {t : Tag} {p q : Pool}

/-- A step adds nodes that are no names. The tasks that it leaves choose clauses for cases only, and an error tells
the place of a case if any. -/
def StepAccrues (p : Pool) : Step → Prop
  | .ok ts m => p.Accrues m.pool ∧ Task.AllAtCase m.pool ts
  | .error e m => p.Accrues m.pool ∧ e.AtCase m.pool

theorem StepAccrues.mono_left (h : StepAccrues q r) (hpq : p.Accrues q) : StepAccrues p r := by
  cases r <;> exact ⟨hpq.trans h.1, h.2⟩

theorem stepAccrues_ok (h : Task.AllAtCase m.pool ts) : StepAccrues m.pool (.ok ts m) := ⟨.refl _, h⟩

theorem stepAccrues_error {e : Error} (h : e.AtCase m.pool) : StepAccrues m.pool (.error e m) := ⟨.refl _, h⟩

theorem stepAccrues_onValues {f : ValuesM α} {k : α → Machine → Step} (hf : Accrues f)
    (hk : ∀ a v, f m.values = .ok a v → m.pool.Accrues v.pool →
      StepAccrues (pool ⟨v, m.env, m.budget⟩) (k a ⟨v, m.env, m.budget⟩)) : StepAccrues m.pool (m.onValues f k) := by
  have hres := hf m.values
  unfold onValues
  unfold Ensures at hres
  simp only
  split at hres
  · next a v hv =>
    simp only [hv]
    exact (hk a v hv hres).mono_left hres
  · next e v hv =>
    obtain ⟨hgrows, fault, rfl⟩ := hres
    simp only [hv]
    exact ⟨hgrows, trivial⟩

theorem stepAccrues_reducing {f : ValuesM Unit} (hf : Accrues f) (hts : ∀ q, m.pool.Extends q → Task.AllAtCase q ts) :
    StepAccrues m.pool (m.reducing f ts) :=
  stepAccrues_onValues hf fun _ _ _ hgrows => stepAccrues_ok (hts _ hgrows.keeps)

theorem stepAccrues_push {id : NodeId} : StepAccrues m.pool (m.reducing (ValuesM.push id) []) :=
  stepAccrues_reducing ValuesM.accrues_push fun _ _ => .nil

theorem stepAccrues_entering {name : String} {lexicon : Lexicon} {words : List Word}
    (h : Task.AllAtCase m.pool ts) : StepAccrues m.pool (m.entering name lexicon words ts) := by
  obtain ⟨v, env, b⟩ := m
  unfold entering
  rcases env.enter_cases name with henter | henter
  · simp only [henter]
    exact stepAccrues_error trivial
  · simp only [henter]
    exact ⟨.refl _, h⟩

theorem accrues_openFrame : Accrues openFrame := fun _ => .refl _

theorem accrues_takeArgs {n : Nat} : Accrues (takeArgs n) := fun _ => .refl _

theorem accrues_onPool {f : Pattern.PoolM α} (h : Accrues f) : Accrues (onPool f) := by
  rintro ⟨p, s⟩
  have hres := h p
  unfold Ensures at hres ⊢
  unfold onPool
  simp only
  split at hres
  · next a q hq =>
    simp only [hq]
    exact hres
  · next e q hq =>
    simp only [hq]
    exact hres

/-! ### Functions and names -/

theorem accrues_bindCallee (callee : Callee) (args : List NodeId) : Accrues (bindCallee callee args) := by
  unfold bindCallee
  refine Pattern.accrues_bindAll.bind fun bound => ?_
  split
  · exact Pattern.accrues_lambdaParts.bind fun _ => accrues_pure
  · split
    · exact accrues_pure
    · exact Pattern.accrues_lambdaParts.bind fun _ => accrues_pure

/-- The body of a function is visited, and no case before it is. -/
theorem returns_bindCallee_atCase (callee : Callee) (args : List NodeId) :
    Returns (bindCallee callee args) fun bound => ∀ p, Task.AllAtCase p bound.2 := by
  unfold bindCallee
  refine returns_bind fun bound => ?_
  split
  · refine returns_bind fun parts => returns_pure fun p => .cons trivial (.cons trivial (.append (.map ?_) ?_))
    · exact fun _ => trivial
    · exact .cons trivial (.cons trivial .nil)
  · split
    · exact returns_pure fun p => .cons trivial (.cons trivial .nil)
    · exact returns_bind fun parts => returns_pure fun p => .cons trivial (.cons trivial (.cons trivial .nil))

theorem stepAccrues_apply {callee : Callee} : StepAccrues m.pool (m.apply callee) := by
  refine stepAccrues_onValues accrues_takeArgs fun args v _ _ => ?_
  split
  · exact stepAccrues_error trivial
  · refine stepAccrues_onValues (accrues_onPool (accrues_bindCallee callee args)) fun bound w hbound _ => ?_
    refine stepAccrues_entering ?_
    unfold onPool at hbound
    simp only at hbound
    split at hbound
    · next hb =>
      cases hbound
      exact returns_bindCallee_atCase callee args _ _ _ hb _
    · cases hbound

theorem stepAccrues_visitName {name : String} : StepAccrues m.pool (m.visitName nid name) := by
  unfold visitName
  split
  · exact stepAccrues_push
  · split
    · exact stepAccrues_push
    · split
      · exact stepAccrues_push
      · split
        · exact stepAccrues_push
        · exact stepAccrues_apply
    · refine stepAccrues_onValues accrues_takeArgs fun args v _ _ => ?_
      refine stepAccrues_onValues (ValuesM.accrues_intern (by trivial)) fun id w _ _ => ?_
      split
      · obtain ⟨-, env, b⟩ := m
        cases b with
        | zero => exact stepAccrues_error trivial
        | succ b => exact ⟨.refl _, .cons trivial .nil⟩
      · exact stepAccrues_push

/-! ### Cases -/

theorem atCase_residualClause {id : NodeId} (h : residualClause p id = .ok ts) : Task.AllAtCase q ts := by
  obtain ⟨c, -, hts⟩ := Pattern.exists_of_bind_eq_ok h
  split at hts <;> cases hts
  · exact .cons trivial (.cons trivial (.cons trivial (.cons trivial (.cons trivial (.cons trivial .nil)))))
  · exact .cons trivial (.cons trivial (.cons trivial .nil))

theorem stepAccrues_residualCase : StepAccrues m.pool (m.residualCase nid scrutinee) := by
  unfold residualCase
  split
  · exact stepAccrues_error trivial
  · split
    · exact stepAccrues_error trivial
    · next tss htss =>
      have hall := forall_of_mapM (P := Task.AllAtCase m.pool) htss fun _ _ _ => atCase_residualClause
      refine stepAccrues_ok (.cons trivial (.append (fun t ht => ?_) (.cons trivial .nil)))
      obtain ⟨ts, hts, ht⟩ := List.mem_flatten.1 ht
      exact hall ts hts t ht

/-- No clause is left of a case, which stands where the error says. -/
theorem stepAccrues_exhausted (hnid : m.pool.get? nid = some (.branch .case es)) :
    StepAccrues m.pool (m.exhausted nid scrutinee) := by
  unfold exhausted
  split
  · refine stepAccrues_error ?_
    cases hspan : m.pool.coord? nid with
    | none => trivial
    | some span => exact ⟨nid, es, hnid, hspan⟩
  · exact stepAccrues_residualCase

theorem stepAccrues_select (hnid : m.pool.get? nid = some (.branch .case es)) :
    StepAccrues m.pool (m.select nid scrutinee clauses) := by
  unfold select
  split
  · exact stepAccrues_exhausted hnid
  · split
    · exact stepAccrues_error trivial
    · split
      · exact stepAccrues_entering (.cons trivial (.cons trivial .nil))
      · exact stepAccrues_ok (.cons trivial (.cons ⟨es, hnid⟩ .nil))

theorem stepAccrues_tryClause {pattern : NodeId} (hnid : m.pool.get? nid = some (.branch .case es)) :
    StepAccrues m.pool (m.tryClause nid scrutinee pattern clauses) := by
  cases clauses with
  | nil => exact stepAccrues_error trivial
  | cons id clauses =>
    simp only [tryClause]
    split
    · split
      · exact stepAccrues_error trivial
      · exact stepAccrues_ok (.cons trivial .nil)
    · split
      · exact stepAccrues_select hnid
      · exact stepAccrues_residualCase

/-! ### Nodes -/

/-- Clauses are chosen for the node only that is planned, and only if it is a case. -/
theorem atCase_plan {plan : Plan} (hnid : p.get? nid = some (.branch t es))
    (h : Machine.plan nid t es = .ok plan) : Task.AllAtCase p plan.tasks := by
  have hoperator {r : Reduction} (h : operatorPlan es r = .ok plan) : Task.AllAtCase p plan.tasks := by
    unfold operatorPlan at h
    split at h
    · cases h
      exact .cons trivial (.cons trivial (.cons trivial .nil))
    · cases h
  have hvisits {ids : List NodeId} {us : List Task} (h : Task.AllAtCase p us) :
      Task.AllAtCase p (ids.map .visit ++ us) := .append (.map fun _ => trivial) h
  cases t
  case prog | paren | list =>
    cases h
    exact hvisits (.cons trivial .nil)
  case exprs =>
    cases h
    exact .map fun _ => trivial
  case record | apply | val | arg | of =>
    cases h
    exact Task.AllAtCase.append (.map fun _ => trivial) (.cons trivial .nil)
  case binding =>
    rcases es with _ | ⟨key, _ | ⟨value, _ | ⟨_, _⟩⟩⟩ <;> cases h
    exact .cons trivial (.cons trivial (.cons trivial .nil))
  case case =>
    rcases es with _ | ⟨first, es⟩ <;> cases h
    exact .cons trivial (.cons ⟨_, hnid⟩ .nil)
  case neg =>
    rcases es with _ | ⟨a, es⟩ <;> cases h
    exact .cons trivial (.cons trivial .nil)
  case add | sub | div | mod | pow | concat | eq | ne | lt | gt | le | ge => exact hoperator h
  all_goals cases h

theorem atCase_of_plan_error {e : Error} (h : Machine.plan nid t es = .error e) : e.AtCase p := by
  have hoperator {r : Reduction} (h : operatorPlan es r = .error e) : e.AtCase p := by
    unfold operatorPlan at h
    split at h
    · cases h
    · cases h
      trivial
  cases t
  case binding => rcases es with _ | ⟨key, _ | ⟨value, _ | ⟨_, _⟩⟩⟩ <;> cases h <;> trivial
  case case => rcases es with _ | ⟨first, es⟩ <;> cases h; trivial
  case neg => rcases es with _ | ⟨a, es⟩ <;> cases h; trivial
  case add | sub | div | mod | pow | concat | eq | ne | lt | gt | le | ge => exact hoperator h
  all_goals cases h <;> trivial

theorem stepAccrues_visit : StepAccrues m.pool (m.visit nid) := by
  unfold visit
  split
  · exact stepAccrues_error trivial
  · exact stepAccrues_visitName
  · split
    · exact stepAccrues_error trivial
    · exact stepAccrues_apply
  · next hnid =>
    split
    · next hplan => exact stepAccrues_error (atCase_of_plan_error hplan)
    · next hplan =>
      split
      · exact stepAccrues_reducing accrues_openFrame fun q hq => atCase_plan (hq _ _ hnid) hplan
      · exact stepAccrues_ok (atCase_plan hnid hplan)
  · exact stepAccrues_push

theorem stepAccrues_resume {t : Task} (ht : t.AtCase m.pool) : StepAccrues m.pool (m.resume t) := by
  cases t with
  | visit nid => exact stepAccrues_visit
  | operand nid =>
    exact stepAccrues_reducing accrues_openFrame fun q _ => .cons trivial (.cons trivial .nil)
  | reduce r => exact stepAccrues_reducing r.accrues_run fun _ _ => .nil
  | select nid =>
    obtain ⟨es, hnid⟩ := ht
    unfold resume
    refine stepAccrues_onValues ValuesM.accrues_pop fun scrutinee v _ hgrows => ?_
    have hnid := hgrows.keeps _ _ hnid
    split
    · exact stepAccrues_error trivial
    · exact stepAccrues_select hnid
  | clause nid clauses scrutinee =>
    obtain ⟨es, hnid⟩ := ht
    unfold resume
    refine stepAccrues_onValues ValuesM.accrues_pop fun pattern v _ hgrows => ?_
    exact stepAccrues_tryClause (hgrows.keeps _ _ hnid)
  | enter name => exact stepAccrues_entering .nil
  | exit => exact ⟨.refl _, .nil⟩

/-! ### Runs -/

/-- The outcome of a run or fold from the pool `p`. -/
def Accrued (p : Pool) : EStateM.Result Error Machine α → Prop
  | .ok _ m => p.Accrues m.pool
  | .error e m => p.Accrues m.pool ∧ e.AtCase m.pool

theorem Accrued.mono_left {r : EStateM.Result Error Machine α} (h : Accrued q r) (hpq : p.Accrues q) :
    Accrued p r := by
  cases r with
  | ok a m => exact hpq.trans h
  | error e m => exact ⟨hpq.trans h.1, h.2⟩

theorem run_accrues (hts : Task.AllAtCase m.pool ts) : Accrued m.pool (m.run ts) := by
  fun_induction Machine.run m ts with
  | case1 m => exact .refl _
  | case2 m t ts new m' hresume _ ih =>
    obtain ⟨ht, hts⟩ := List.forall_mem_cons.1 hts
    have hstep := stepAccrues_resume ht
    rw [hresume] at hstep
    obtain ⟨hgrows, hnew⟩ := hstep
    exact (ih (hnew.append (Task.AllAtCase.mono hts hgrows.keeps))).mono_left hgrows
  | case3 m t ts e m' hresume =>
    have hstep := stepAccrues_resume (hts t (.head _))
    rw [hresume] at hstep
    exact hstep

theorem fold_accrues (m : Machine) (nid : NodeId) : Accrued m.pool (m.fold nid) := by
  obtain ⟨⟨p, s⟩, env, b⟩ := m
  have hrun : Accrued p (run ⟨⟨p, s.openFrame⟩, env, operatorBudget⟩ [.operand nid]) :=
    run_accrues (.cons trivial .nil)
  unfold fold
  simp only
  generalize run ⟨⟨p, s.openFrame⟩, env, operatorBudget⟩ [.operand nid] = r at hrun ⊢
  obtain ⟨_, ⟨⟨q, t⟩, env', b'⟩⟩ | ⟨e, ⟨⟨q, t⟩, env', b'⟩⟩ := r
  · simp only [finish]
    generalize t.closeFrame = closed
    obtain ⟨_ | ⟨id, _ | ⟨_, _⟩⟩, t'⟩ := closed
    · exact ⟨hrun, trivial⟩
    · exact hrun
    · exact ⟨hrun, trivial⟩
  · exact hrun

end Machine

end Linefold
