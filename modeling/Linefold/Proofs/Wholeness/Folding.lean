import Linefold.Proofs.Folding.Frames
import Linefold.Proofs.Wholeness.Binding

/-!
# Folding leaves no holes

What a fold puts on its operand stack it has found in the pool or has interned itself, so the nodes that it
builds over its operands are whole (`Machine.Whole.resume`). That holds of every node and environment, for
folds that fail as well (`Machine.Whole.fold`).
-/

namespace Linefold

attribute [local irreducible] Pool.intern

/-! ### The operand stack -/

structure Values.Whole (v : Values) : Prop where
  pool : v.pool.Whole
  items : ∀ id ∈ v.stack.items, v.pool.Has id

instance : Wholesome Values where
  pool := Values.pool
  Whole := Values.Whole

namespace OperandStack

variable {s : OperandStack} {P : NodeId → Prop} {n : Nat}

theorem forall_mem_pop (h : ∀ id ∈ s.items, P id) :
    (∀ id, s.pop.1 = some id → P id) ∧ ∀ id ∈ s.pop.2.items, P id := by
  unfold pop
  split
  · refine ⟨fun id hid => h id (Array.mem_of_back? hid), fun id hid => ?_⟩
    have hid := Array.mem_toList_iff.2 hid
    rw [Array.toList_pop] at hid
    exact h id (Array.mem_toList_iff.1 (List.dropLast_subset _ hid))
  · exact ⟨nofun, h⟩

theorem forall_mem_popMany (h : ∀ id ∈ s.items, P id) :
    (∀ id ∈ (s.popMany n).1, P id) ∧ ∀ id ∈ (s.popMany n).2.items, P id := by
  induction n generalizing s with
  | zero => exact ⟨List.forall_mem_nil _, h⟩
  | succ n ih =>
    obtain ⟨htop, hrest⟩ := forall_mem_pop h
    unfold popMany
    generalize s.pop = popped at htop hrest
    obtain ⟨_ | id, t⟩ := popped
    · exact ⟨List.forall_mem_nil _, hrest⟩
    · exact ⟨List.forall_mem_cons.2 ⟨htop id rfl, (ih hrest).1⟩, (ih hrest).2⟩

theorem forall_mem_closeFrame (h : ∀ id ∈ s.items, P id) :
    (∀ id ∈ s.closeFrame.1, P id) ∧ ∀ id ∈ s.closeFrame.2.items, P id := by
  have hextract {start stop : Nat} : ∀ id ∈ s.items.extract start stop, P id := by
    intro id hid
    obtain ⟨i, hi, rfl⟩ := Array.mem_extract_iff_getElem.1 hid
    exact h _ (Array.getElem_mem _)
  refine ⟨fun id hid => hextract id (Array.mem_toList_iff.1 hid), fun id hid => ?_⟩
  have hid : id ∈ s.items.take s.base := hid
  rw [Array.take_eq_extract] at hid
  exact hextract id hid

end OperandStack

namespace ValuesM

variable {α : Type} {p : Pool} {n : Node} {id a b : NodeId} {ids : List NodeId} {t : Tag} {k : Nat}

theorem keeps_intern (h : n.Whole p) : Keeps p (intern n) Pool.Has := by
  intro v hp hv
  obtain ⟨hpool, hid⟩ := hv.pool.intern (h.mono hp)
  have hgrows := v.pool.extends_intern n
  exact ⟨⟨hgrows, hpool, fun i hi => (hv.items i hi).mono hgrows⟩, hid⟩

theorem keeps_push (h : p.Has id) : Keeps p (push id) fun _ _ => True := by
  refine fun v hp hv => ⟨⟨.refl _, hv.pool, fun i hi => ?_⟩, trivial⟩
  rcases Array.mem_push.1 hi with hi | rfl
  · exact hv.items i hi
  · exact h.mono hp

theorem keeps_pop : Keeps p pop Pool.Has := by
  rintro ⟨q, s⟩ hp ⟨hpool, hitems⟩
  obtain ⟨htop, hrest⟩ := OperandStack.forall_mem_pop hitems
  unfold Ensures pop
  generalize hs : s.pop = popped at htop hrest
  obtain ⟨_ | id, t⟩ := popped <;> simp only [hs]
  · exact ⟨.refl _, hpool, hrest⟩
  · exact ⟨⟨.refl _, hpool, hrest⟩, htop id rfl⟩

theorem keeps_popPair : Keeps p popPair fun q ab => q.Has ab.1 ∧ q.Has ab.2 :=
  keeps_pop.bind fun _ _ _ hb => keeps_pop.bind fun _ _ hqr ha =>
    keeps_pure fun _ hru => ⟨ha.mono hru, hb.mono (hqr.trans hru)⟩

theorem keeps_popMany : Keeps p (popMany k) fun q ids => ∀ id ∈ ids, q.Has id := by
  induction k generalizing p with
  | zero => exact keeps_pure fun _ _ => nofun
  | succ k ih =>
    refine keeps_pop.bind fun q id _ hid => ih.bind fun r ids hqr hids => keeps_pure fun u hru i hi => ?_
    rcases List.mem_append.1 hi with hi | hi
    · exact (hids i hi).mono hru
    · rw [List.mem_singleton.1 hi]
      exact hid.mono (hqr.trans hru)

theorem keeps_closeFrame : Keeps p closeFrame fun q ids => ∀ id ∈ ids, q.Has id := by
  rintro v hp ⟨hpool, hitems⟩
  obtain ⟨hids, hrest⟩ := OperandStack.forall_mem_closeFrame hitems
  exact ⟨⟨.refl _, hpool, hrest⟩, fun id hid => hids id (List.mem_reverse.1 hid)⟩

theorem keeps_ask {f : Pool → α} : Keeps p (ask f) fun _ _ => True :=
  fun _ _ hv => ⟨⟨.refl _, hv⟩, trivial⟩

theorem keeps_single (h : ∀ id ∈ ids, p.Has id) : Keeps p (single ids) Pool.Has := by
  unfold single
  split
  · exact keeps_pure fun q hq => (List.forall_mem_singleton.1 h).mono hq
  · exact keeps_intern (.branch rfl h)

theorem keeps_leave (h : n.Whole p) : Keeps p (leave n) fun _ _ => True :=
  (keeps_intern h).bind fun _ _ _ hid => keeps_push hid

end ValuesM

/-! ### Reductions -/

/-- What a reduction names is there, and what it makes has a tag that takes children. -/
def Reduction.Whole (p : Pool) : Reduction → Prop
  | .push id => p.Has id
  | .close t | .build t _ | .arithmetic t | .compare t => t.isLeaf = false
  | .lambda names pattern => p.Has names ∧ p.Has pattern
  | .collect | .concat | .negate => True

namespace Reduction

open ValuesM

variable {p q : Pool} {r : Reduction} {t : Tag}

theorem Whole.mono (h : r.Whole p) (hpq : p.Extends q) : r.Whole q := by
  cases r with
  | push id => exact Pool.Has.mono h hpq
  | lambda names pattern => exact ⟨h.1.mono hpq, h.2.mono hpq⟩
  | _ => exact h

theorem keeps_close (ht : t.isLeaf = false) : Keeps p (run (.close t)) fun _ _ => True := by
  have hplain : Keeps p (do ValuesM.leave (.branch t (← closeFrame))) fun _ _ => True :=
    keeps_closeFrame.bind fun _ _ _ hids => keeps_leave (.branch ht hids)
  cases t
  case prog =>
    refine keeps_closeFrame.bind fun q ids _ hids => (keeps_intern (.branch rfl hids)).bind ?_
    exact fun r exprs _ hexprs => keeps_leave (.branch rfl (by simpa using hexprs))
  case paren =>
    refine keeps_closeFrame.bind fun q ids _ hids => (keeps_single hids).bind fun r inner _ hinner => ?_
    exact keeps_leave (.branch rfl (by simpa using hinner))
  all_goals exact hplain

/-- Whatever the operands are read as, the operator comes to a literal or stays over them. -/
theorem keeps_operator {α : Type} {read : Pool → NodeId → Option α} {f : Option α → Option α → Option Node}
    (ht : t.isLeaf = false) (hf : ∀ x y n, f x y = some n → n.isLiteral) :
    Keeps p (do
      let (a, b) ← popPair
      let x ← ask (read · a)
      let y ← ask (read · b)
      leaveResult t a b (f x y)) fun _ _ => True := by
  refine keeps_popPair.bind ?_
  rintro q ⟨a, b⟩ - ⟨ha, hb⟩
  refine keeps_ask.bind fun r x hqr _ => keeps_ask.bind fun u y hru _ => ?_
  have hqu := hqr.trans hru
  exact keeps_leave (.getD (hf x y) ht (ha.mono hqu) (hb.mono hqu))

theorem Whole.keeps_run (h : r.Whole p) : Keeps p r.run fun _ _ => True := by
  cases r with
  | collect =>
    refine keeps_closeFrame.bind fun q ids _ hids => ?_
    exact (keeps_single hids).bind fun _ _ _ hid => ValuesM.keeps_push hid
  | close t => exact keeps_close h
  | push id => exact ValuesM.keeps_push h
  | build t arity => exact keeps_popMany.bind fun _ _ _ hids => keeps_leave (.branch h hids)
  | arithmetic t => exact keeps_operator h fun _ _ _ => Node.isLiteral_of_arithmetic
  | concat => exact keeps_operator rfl fun _ _ _ => Node.isLiteral_of_concat
  | compare t => exact keeps_operator h fun _ _ _ => Node.isLiteral_of_compare
  | negate =>
    refine keeps_pop.bind fun q a _ ha => keeps_ask.bind fun r x hqr _ => ?_
    split
    · exact keeps_leave (.leaf (by nofun))
    · exact keeps_leave (.branch rfl (by simpa using ha.mono hqr))
  | lambda names pattern =>
    refine keeps_pop.bind fun q body hpq hbody => ?_
    exact keeps_leave (.branch rfl (by simp [h.1.mono hpq, hbody, h.2.mono hpq]))

end Reduction

/-! ### Tasks -/

/-- Of the nodes that a task names, only those that it may put on the stack have to be there. -/
def Task.Whole (p : Pool) : Task → Prop
  | .reduce r => r.Whole p
  | .clause _ _ scrutinee => p.Has scrutinee
  | .visit _ | .operand _ | .select _ | .enter _ | .exit => True

def Task.AllWhole (p : Pool) (ts : List Task) : Prop := ∀ t ∈ ts, t.Whole p

section

variable {p q : Pool} {t : Task} {ts us : List Task} {ids : List NodeId}

namespace Task

theorem Whole.mono (h : t.Whole p) (hpq : p.Extends q) : t.Whole q := by
  cases t with
  | reduce r => exact Reduction.Whole.mono h hpq
  | clause nid clauses scrutinee => exact Pool.Has.mono h hpq
  | _ => trivial

namespace AllWhole

theorem mono (h : AllWhole p ts) (hpq : p.Extends q) : AllWhole q ts := fun t ht => (h t ht).mono hpq

theorem nil : AllWhole p [] := nofun

theorem cons (ht : t.Whole p) (h : AllWhole p ts) : AllWhole p (t :: ts) := List.forall_mem_cons.2 ⟨ht, h⟩

theorem append (h : AllWhole p ts) (h' : AllWhole p us) : AllWhole p (ts ++ us) :=
  List.forall_mem_append.2 ⟨h, h'⟩

theorem map {f : NodeId → Task} (h : ∀ id ∈ ids, (f id).Whole p) : AllWhole p (ids.map f) :=
  List.forall_mem_map.2 h

end AllWhole

end Task

end

namespace Machine

structure Whole (m : Machine) : Prop where
  values : m.values.Whole
  env : m.env.All (Word.Whole m.pool)

/-- A step from the pool `p` leaves a machine and tasks that refer to nodes of the pool. -/
def StepKeeps (p : Pool) : Step → Prop
  | .ok ts m => p.Extends m.pool ∧ m.Whole ∧ Task.AllWhole m.pool ts
  | .error _ m => p.Extends m.pool ∧ m.Whole

variable {α : Type} {p q : Pool} {m : Machine} {r : Step} {ts : List Task} {nid id scrutinee : NodeId}
  {es args clauses : List NodeId} {callee : Callee} {name : String} {n k : Nat} {t : Tag}

theorem StepKeeps.mono_left (h : StepKeeps q r) (hpq : p.Extends q) : StepKeeps p r := by
  cases r <;> exact ⟨hpq.trans h.1, h.2⟩

/-! ### Functions -/

theorem keeps_bindCallee (hargs : ∀ id ∈ args, p.Has id) : Keeps p (bindCallee callee args)
    fun q b => Pattern.AllWhole q b.1 ∧ Task.AllWhole q b.2 := by
  unfold bindCallee
  refine (Pattern.keeps_bindAll hargs).bind fun q bound hpq hwords => ?_
  split
  · refine Pattern.keeps_lambdaParts.bind ?_
    rintro r ⟨names, pattern⟩ hqr hparts
    refine keeps_pure fun u hru => ⟨Pattern.AllWhole.mono hwords (hqr.trans hru), .cons trivial ?_⟩
    refine .cons (Reduction.Whole.mono (r := .lambda names pattern) hparts hru) (.append (.map ?_) ?_)
    · exact fun id hid => (hargs id hid).mono (hpq.trans (hqr.trans hru))
    · exact .cons rfl (.cons trivial .nil)
  · split
    · exact keeps_pure fun r hqr => ⟨hwords.mono hqr, .cons trivial (.cons trivial .nil)⟩
    · refine Pattern.keeps_lambdaParts.bind ?_
      rintro r ⟨names, pattern⟩ hqr hparts
      refine keeps_pure fun u hru => ⟨Pattern.AllWhole.mono hwords (hqr.trans hru), .cons trivial ?_⟩
      exact .cons (Reduction.Whole.mono (r := .lambda names pattern) hparts hru) (.cons trivial .nil)

theorem keeps_openFrame : Keeps p openFrame fun _ _ => True :=
  fun _ _ hv => ⟨⟨.refl _, hv.pool, hv.items⟩, trivial⟩

theorem keeps_takeArgs : Keeps p (takeArgs k) fun q args => ∀ id ∈ args, q.Has id := by
  rintro v hp ⟨hpool, hitems⟩
  obtain ⟨hargs, hrest⟩ := OperandStack.forall_mem_popMany (n := k) hitems
  exact ⟨⟨.refl _, hpool, hrest⟩, hargs⟩

theorem keeps_onPool {f : Pattern.PoolM α} {Q : Pool → α → Prop} (h : Keeps p f Q) :
    Keeps p (onPool f) Q := by
  rintro ⟨q, s⟩ hp ⟨hpool, hitems⟩
  have hres := h q hp hpool
  unfold Ensures at hres ⊢
  split at hres
  · next a u hu =>
    obtain ⟨⟨hgrows, hu'⟩, ha⟩ := hres
    simp only [onPool, hu]
    exact ⟨⟨hgrows, hu', fun id hid => (hitems id hid).mono hgrows⟩, ha⟩
  · next e u hu =>
    obtain ⟨hgrows, hu'⟩ := hres
    simp only [onPool, hu]
    exact ⟨hgrows, hu', fun id hid => (hitems id hid).mono hgrows⟩

namespace Whole

theorem ok (h : m.Whole) (hts : Task.AllWhole m.pool ts) : StepKeeps m.pool (.ok ts m) := ⟨.refl _, h, hts⟩

theorem error {e : Error} (h : m.Whole) : StepKeeps m.pool (.error e m) := ⟨.refl _, h⟩

theorem onValues {f : ValuesM α} {Q : Pool → α → Prop} {k : α → Machine → Step} (h : m.Whole)
    (hf : Keeps m.pool f Q)
    (hk : ∀ a m', m.pool.Extends m'.pool → m'.Whole → Q m'.pool a → StepKeeps m'.pool (k a m')) :
    StepKeeps m.pool (m.onValues f k) := by
  obtain ⟨v, env, b⟩ := m
  obtain ⟨hvalues, henv⟩ := h
  have hres := hf v (.refl _) hvalues
  unfold Machine.onValues
  unfold Ensures at hres
  split at hres
  · next a w hw =>
    obtain ⟨⟨hgrows, hw'⟩, ha⟩ := hres
    simp only [hw]
    exact (hk a ⟨w, env, b⟩ hgrows ⟨hw', Environment.all_whole_mono henv hgrows⟩ ha).mono_left hgrows
  · next e w hw =>
    obtain ⟨hgrows, hw'⟩ := hres
    simp only [hw]
    exact ⟨hgrows, hw', Environment.all_whole_mono henv hgrows⟩

theorem reducing {f : ValuesM Unit} (h : m.Whole) (hf : Keeps m.pool f fun _ _ => True)
    (hts : Task.AllWhole m.pool ts) : StepKeeps m.pool (m.reducing f ts) :=
  h.onValues hf fun _ _ hgrows h _ => h.ok (hts.mono hgrows)

theorem push (h : m.Whole) (hid : m.pool.Has id) :
    StepKeeps m.pool (m.reducing (ValuesM.push id) []) :=
  h.reducing (ValuesM.keeps_push hid) .nil

theorem entering {l : Lexicon} {ws : List Word} (h : m.Whole) (hl : l.All (Word.Whole m.pool))
    (hws : Pattern.AllWhole m.pool ws) (hts : Task.AllWhole m.pool ts) :
    StepKeeps m.pool (m.entering name l ws ts) := by
  obtain ⟨v, env, b⟩ := m
  unfold Machine.entering
  rcases env.enter_cases name with henter | henter
  · simp only [henter]
    exact h.error
  · simp only [henter]
    exact ⟨.refl _, ⟨h.values, ((h.env.enter name).extend hl).bindAll hws⟩, hts⟩

theorem apply (h : m.Whole) (hcallee : callee.lexicon.All (Word.Whole m.pool)) :
    StepKeeps m.pool (m.apply callee) := by
  refine h.onValues keeps_takeArgs fun args m' hgrows h hargs => ?_
  split
  · exact h.error
  · refine h.onValues (keeps_onPool (keeps_bindCallee hargs)) ?_
    rintro ⟨ws, ts⟩ m'' hgrows' h ⟨hws, hts⟩
    exact h.entering (Lexicon.all_whole_mono hcallee (hgrows.trans hgrows')) hws hts

/-! ### Names -/

/-- A name that stands for itself is there; so is what it stands for otherwise. -/
theorem visitName (h : m.Whole) (hnid : m.pool.Has nid) : StepKeeps m.pool (m.visitName nid name) := by
  unfold Machine.visitName
  split
  · exact h.push hnid
  · next w hw =>
    have hword := h.env.lookup? hw
    split
    · split
      · exact h.push hnid
      · next hne => exact h.push (hword.refers.nid.resolve_left hne)
    · next hcls =>
      split
      · exact h.push hnid
      · next closure hclosure =>
        split
        · exact h.push hnid
        · exact h.apply (Word.Throughout.lexicon hword hcls hclosure)
    · next tag hcls =>
      have htag := Tag.isLeaf_eq_false_of_isOperator (hword.refers.operator tag hcls)
      refine h.onValues keeps_takeArgs fun args m' _ h hargs => ?_
      refine h.onValues (ValuesM.keeps_intern (.branch htag hargs)) fun id m'' _ h hid => ?_
      split
      · obtain ⟨v, env, b⟩ := m''
        cases b with
        | zero => exact ⟨.refl _, h⟩
        | succ b => exact ⟨.refl _, ⟨h.values, h.env⟩, .cons trivial .nil⟩
      · exact h.push hid

end Whole

/-! ### Cases -/

/-- The parts of a clause are there. -/
theorem has_of_clause {c : Clause} (hp : p.Whole) (h : clause p id = .ok c) :
    p.Has c.pattern ∧ p.Has c.body ∧ ∀ names, c.names = some names → p.Has names := by
  unfold clause at h
  split at h
  · cases h
  · next n hn =>
    have helts := hp.has hn
    split at h
    · next pattern body heq =>
      cases h
      rw [heq] at helts
      exact ⟨helts _ (.head _), helts _ (.tail _ (.head _)), nofun⟩
    · next pattern body names heq =>
      cases h
      rw [heq] at helts
      refine ⟨helts _ (.head _), helts _ (.tail _ (.head _)), ?_⟩
      rintro _ ⟨⟩
      exact helts _ (.tail _ (.tail _ (.head _)))
    · cases h

theorem names_of_variable {c : Clause} {x : String × NodeId} (h : c.variable? p = some x) :
    c.names = some x.2 := by
  unfold Clause.variable? at h
  split at h
  · next hnames _ =>
    cases h
    exact hnames
  · cases h

theorem whole_residualClause (hp : p.Whole) (h : residualClause p id = .ok ts) : Task.AllWhole p ts := by
  obtain ⟨c, hc, hts⟩ := Pattern.exists_of_bind_eq_ok h
  obtain ⟨hpattern, -, hnames⟩ := has_of_clause hp hc
  split at hts
  · next name names hvar =>
    cases hts
    have hnames := hnames names (names_of_variable hvar)
    exact .cons hpattern (.cons trivial (.cons trivial (.cons trivial (.cons hnames (.cons rfl .nil)))))
  · cases hts
    exact .cons trivial (.cons trivial (.cons rfl .nil))

theorem whole_residualClauses {tss : List (List Task)} (hp : p.Whole)
    (h : clauses.mapM (residualClause p) = .ok tss) : Task.AllWhole p tss.flatten := by
  induction clauses generalizing tss with
  | nil =>
    cases h
    exact .nil
  | cons id clauses ih =>
    rw [List.mapM_cons] at h
    obtain ⟨ts, hts, hrest⟩ := Pattern.exists_of_bind_eq_ok h
    obtain ⟨tss, htss, heq⟩ := Pattern.exists_of_bind_eq_ok hrest
    cases heq
    exact (whole_residualClause hp hts).append (ih htss)

namespace Whole

theorem residualCase (h : m.Whole) (hscrutinee : m.pool.Has scrutinee) :
    StepKeeps m.pool (m.residualCase nid scrutinee) := by
  unfold Machine.residualCase
  split
  · exact h.error
  · split
    · exact h.error
    · next tss htss =>
      exact h.ok (.cons hscrutinee ((whole_residualClauses h.values.pool htss).append (.cons rfl .nil)))

theorem exhausted (h : m.Whole) (hscrutinee : m.pool.Has scrutinee) :
    StepKeeps m.pool (m.exhausted nid scrutinee) := by
  unfold Machine.exhausted
  split
  · exact h.error
  · exact h.residualCase hscrutinee

theorem select (h : m.Whole) (hscrutinee : m.pool.Has scrutinee) :
    StepKeeps m.pool (m.select nid scrutinee clauses) := by
  unfold Machine.select
  split
  · exact h.exhausted hscrutinee
  · split
    · exact h.error
    · split
      · refine h.entering Lexicon.all_nil ?_ (.cons trivial (.cons trivial .nil))
        exact List.forall_mem_singleton.2 (Word.whole_value (.inr hscrutinee))
      · exact h.ok (.cons trivial (.cons hscrutinee .nil))

theorem tryClause {pattern : NodeId} (h : m.Whole) (hscrutinee : m.pool.Has scrutinee) :
    StepKeeps m.pool (m.tryClause nid scrutinee pattern clauses) := by
  cases clauses with
  | nil => exact h.error
  | cons id clauses =>
    simp only [Machine.tryClause]
    split
    · split
      · exact h.error
      · exact h.ok (.cons trivial .nil)
    · split
      · exact h.select hscrutinee
      · exact h.residualCase hscrutinee

end Whole

/-! ### Nodes -/

/-- What is planned for a node names its children only, and rebuilds it under its own tag. -/
theorem whole_plan {plan : Plan} (ht : t.isLeaf = false) (hes : ∀ e ∈ es, p.Has e)
    (h : Machine.plan nid t es = .ok plan) : Task.AllWhole p plan.tasks := by
  have hvisits {ids : List NodeId} : Task.AllWhole p (ids.map .visit) := .map fun _ _ => trivial
  have hoperator {r : Reduction} (h : operatorPlan es r = .ok plan) (hr : r.Whole p) :
      Task.AllWhole p plan.tasks := by
    unfold operatorPlan at h
    split at h
    · cases h
      exact .cons trivial (.cons trivial (.cons hr .nil))
    · cases h
  cases t
  case prog =>
    cases h
    exact hvisits.append (.cons rfl .nil)
  case exprs =>
    cases h
    exact hvisits
  case paren | list =>
    cases h
    exact hvisits.append (.cons rfl .nil)
  case record | apply | val | arg | of =>
    cases h
    exact Task.AllWhole.append (.map fun _ _ => trivial) (.cons rfl .nil)
  case binding =>
    rcases es with _ | ⟨key, _ | ⟨value, _ | ⟨_, _⟩⟩⟩ <;> cases h
    exact .cons (hes key (.head _)) (.cons trivial (.cons rfl .nil))
  case case =>
    rcases es with _ | ⟨scrutinee, es⟩ <;> cases h
    exact .cons trivial (.cons trivial .nil)
  case neg =>
    rcases es with _ | ⟨a, es⟩ <;> cases h
    exact .cons trivial (.cons trivial .nil)
  case add | sub | div | mod | pow => exact hoperator h ht
  case concat => exact hoperator h trivial
  case eq | ne | lt | gt | le | ge => exact hoperator h ht
  all_goals cases h

namespace Whole

theorem visit (h : m.Whole) : StepKeeps m.pool (m.visit nid) := by
  unfold Machine.visit
  split
  · exact h.error
  · next name hn => exact h.visitName ⟨_, hn⟩
  · split
    · exact h.error
    · next callee hcallee =>
      refine h.apply ?_
      rw [lexicon_of_lambda hcallee]
      exact Lexicon.all_nil
  · next t es _ hn =>
    split
    · exact h.error
    · next plan hplan =>
      have hnode := h.values.pool nid _ hn
      have htasks := whole_plan (hnode.tag t es rfl) hnode.has hplan
      split
      · exact h.reducing keeps_openFrame htasks
      · exact h.ok htasks
  · next n _ _ _ hn => exact h.push ⟨n, hn⟩

/-- A task that refers to nodes of a whole pool leaves one, and tasks of its kind. -/
theorem resume {t : Task} (h : m.Whole) (ht : t.Whole m.pool) : StepKeeps m.pool (m.resume t) := by
  cases t with
  | visit nid => exact h.visit
  | operand nid => exact h.reducing keeps_openFrame (.cons trivial (.cons trivial .nil))
  | reduce r => exact h.reducing (Reduction.Whole.keeps_run ht) .nil
  | select nid =>
    unfold Machine.resume
    refine h.onValues ValuesM.keeps_pop fun scrutinee m' _ h hscrutinee => ?_
    split
    · exact h.error
    · exact h.select hscrutinee
  | clause nid clauses scrutinee =>
    unfold Machine.resume
    refine h.onValues ValuesM.keeps_pop fun pattern m' hgrows h _ => ?_
    exact h.tryClause (Pool.Has.mono ht hgrows)
  | enter name =>
    refine h.entering Lexicon.all_nil ?_ .nil
    exact List.forall_mem_singleton.2 (Word.whole_value (.inl rfl))
  | exit => exact ⟨.refl _, ⟨h.values, h.env.exit⟩, .nil⟩

end Whole

/-! ### Runs -/

/-- The induction is on the run: each step leaves what the next one needs. -/
theorem Whole.run (h : m.Whole) (hts : Task.AllWhole m.pool ts) :
    match m.run ts with
    | .ok () m' => m.pool.Extends m'.pool ∧ m'.Whole
    | .error _ m' => m.pool.Extends m'.pool ∧ m'.Whole := by
  fun_induction Machine.run m ts with
  | case1 m => exact ⟨.refl _, h⟩
  | case2 m t ts new m' hresume _ ih =>
    obtain ⟨ht, hts⟩ := List.forall_mem_cons.1 hts
    have hstep := h.resume ht
    rw [hresume] at hstep
    obtain ⟨hgrows, h', hnew⟩ := hstep
    have hrest := ih h' (hnew.append (Task.AllWhole.mono hts hgrows))
    split at hrest <;> exact ⟨hgrows.trans hrest.1, hrest.2⟩
  | case3 m t ts e m' hresume =>
    have hstep := h.resume (hts t (.head _))
    rw [hresume] at hstep
    exact hstep

/-- A fold from a whole pool leaves a whole pool, whatever it is a fold of and however it ends. -/
theorem Whole.fold (h : m.Whole) (nid : NodeId) :
    match m.fold nid with
    | .ok _ m' => m.pool.Extends m'.pool ∧ m'.Whole
    | .error _ m' => m.pool.Extends m'.pool ∧ m'.Whole := by
  obtain ⟨⟨p, s⟩, env, b⟩ := m
  have hopen : Whole ⟨⟨p, s.openFrame⟩, env, operatorBudget⟩ := ⟨⟨h.values.pool, h.values.items⟩, h.env⟩
  have htasks : Task.AllWhole p [.operand nid] := .cons trivial .nil
  have hrun := hopen.run htasks
  unfold Machine.fold
  split at hrun
  · next m' hm =>
    obtain ⟨⟨q, t⟩, env', b'⟩ := m'
    obtain ⟨hgrows, ⟨hpool, hitems⟩, henv⟩ := hrun
    obtain ⟨-, hrest⟩ := OperandStack.forall_mem_closeFrame hitems
    simp only [hm, finish]
    generalize t.closeFrame = closed at hrest
    obtain ⟨_ | ⟨id, _ | ⟨_, _⟩⟩, t'⟩ := closed <;> exact ⟨hgrows, ⟨hpool, hrest⟩, henv⟩
  · next e m' hm =>
    obtain ⟨⟨q, t⟩, env', b'⟩ := m'
    obtain ⟨hgrows, ⟨hpool, hitems⟩, henv⟩ := hrun
    simp only [hm]
    exact ⟨hgrows, ⟨hpool, nofun⟩, henv.exitTo⟩

end Machine

end Linefold
