import Linefold.Folder.Step

/-!
# Why a fold ends

Every task has a rank: how many scopes may still be opened where it runs, then a bound on the nodes
it looks at, then its kind. `lower_of_resume` says that a task is replaced by tasks of lower rank only.
Replacing the first element of a list by any number of smaller ones cannot go on for ever, whatever
follows it, so the ranks of the tasks are a measure of the work left. Operator words that stand as
plain names are the exception, and draw on a budget.
-/

namespace Linefold

/-! ### Replacing the head of a list -/

/-- The measure of a task but for the scopes; the components are compared from left to right. -/
abbrev Order := Nat × Nat × Nat

/-- The measure of a task: the scopes that may still be opened, then its order. -/
abbrev Rank := Nat × Order

namespace Order

def Lower (a b : Order) : Prop := Prod.Lex (· < ·) (Prod.Lex (· < ·) (· < ·)) a b

theorem lower_iff {a b : Order} :
    Lower a b ↔ a.1 < b.1 ∨ a.1 = b.1 ∧ (a.2.1 < b.2.1 ∨ a.2.1 = b.2.1 ∧ a.2.2 < b.2.2) := by
  simp [Lower, Prod.lex_def]

theorem lower_kind {n a b x y : Nat} (h : a < b) : Lower (n, a, x) (n, b, y) :=
  .right _ (.left _ _ h)

/-- A lower bound or the same one, and the last component less. -/
theorem lower_of_le {m n k x y : Nat} (h : m ≤ n) (hx : x < y) : Lower (m, k, x) (n, k, y) := by
  rcases Nat.lt_or_eq_of_le h with h | rfl
  · exact .left _ _ h
  · exact .right _ (.right _ hx)

end Order

namespace Rank

def Lower (a b : Rank) : Prop := Prod.Lex (· < ·) Order.Lower a b

theorem lower_iff {a b : Rank} : Lower a b ↔ a.1 < b.1 ∨ a.1 = b.1 ∧ Order.Lower a.2 b.2 := by
  simp [Lower, Prod.lex_def]

theorem lower_wf : WellFounded Lower :=
  (inferInstance : WellFoundedRelation Rank).wf

/-- One list is another with its head replaced by lower elements. -/
inductive Shrinks : List Rank → List Rank → Prop where
  | intro {new rest : List Rank} {r : Rank} (h : ∀ a ∈ new, Lower a r) :
    Shrinks (new ++ rest) (r :: rest)

theorem acc_append {new rest : List Rank} (h : ∀ a ∈ new, ∀ l, Acc Shrinks l → Acc Shrinks (a :: l))
    (hrest : Acc Shrinks rest) : Acc Shrinks (new ++ rest) := by
  induction new with
  | nil => exact hrest
  | cons a new ih =>
    exact h a List.mem_cons_self _ (ih fun b hb => h b (List.mem_cons_of_mem _ hb))

theorem acc_cons (r : Rank) : ∀ l, Acc Shrinks l → Acc Shrinks (r :: l) := by
  induction r using lower_wf.induction with
  | _ r ih =>
    intro l hl
    refine Acc.intro _ fun l' h => ?_
    cases h with
    | intro hlow => exact acc_append (fun a ha => ih a (hlow a ha)) hl

theorem shrinks_wf : WellFounded Shrinks := by
  refine ⟨fun l => ?_⟩
  induction l with
  | nil => exact Acc.intro _ fun _ h => nomatch h
  | cons r l ih => exact acc_cons r l ih

/-- The ranks of pending tasks. -/
structure Agenda where
  ranks : List Rank

instance : WellFoundedRelation Agenda where
  rel a b := Shrinks a.ranks b.ranks
  wf := InvImage.wf Agenda.ranks shrinks_wf

end Rank

/-! ### Ranks of tasks -/

namespace Task

/-- The number of inner scopes after a task that started with `level` of them. -/
def levelAfter (level : Nat) : Task → Nat
  | enter _ => level + 1
  | exit => level - 1
  | _ => level

/-- A bound above a node and some clauses. -/
def clauseBound (nid : Nat) : List Nat → Nat
  | [] => nid
  | c :: cs => max (c + 1) (clauseBound nid cs)

/-- The measure of a task but for the scopes. -/
def order : Task → Order
  | visit nid => (nid, 3, 0)
  | operand nid => (nid, 4, 0)
  | select nid => (nid, 2, 0)
  | clause nid clauses _ => (clauseBound nid clauses, 1, clauses.length)
  | reduce _ | enter _ | exit => (0, 0, 0)

def rank (limit level : Nat) (t : Task) : Rank := (limit - level, t.order)

/-- The ranks of tasks that run one after the other. -/
def ranks (limit : Nat) : Nat → List Task → List Rank
  | _, [] => []
  | level, t :: ts => t.rank limit level :: ranks limit (t.levelAfter level) ts

def levelAfterAll (level : Nat) (ts : List Task) : Nat := ts.foldl levelAfter level

theorem ranks_append (limit level : Nat) (ts us : List Task) :
    ranks limit level (ts ++ us) =
      ranks limit level ts ++ ranks limit (levelAfterAll level ts) us := by
  induction ts generalizing level with
  | nil => rfl
  | cons t ts ih => simp [ranks, ih, levelAfterAll]

theorem clauseBound_eq {nid : Nat} {cs : List Nat} (h : ∀ c ∈ cs, c < nid) :
    clauseBound nid cs = nid := by
  induction cs with
  | nil => rfl
  | cons c cs ih =>
    have := h c List.mem_cons_self
    rw [clauseBound, ih fun d hd => h d (List.mem_cons_of_mem _ hd)]
    omega

theorem le_clauseBound (nid : Nat) (cs : List Nat) : nid ≤ clauseBound nid cs := by
  induction cs with
  | nil => exact Nat.le_refl _
  | cons c cs ih => rw [clauseBound]; omega

theorem lt_clauseBound (nid c : Nat) (cs : List Nat) : c < clauseBound nid (c :: cs) := by
  rw [clauseBound]; omega

theorem clauseBound_le_cons (nid c : Nat) (cs : List Nat) :
    clauseBound nid cs ≤ clauseBound nid (c :: cs) := by
  rw [clauseBound]; omega

/-! ### Lists of tasks -/

/-- The tasks are lower than one of the given order that runs where there are `level` inner scopes,
and lead from `start` inner scopes to `stop` of them. -/
def Falls (limit level : Nat) (o : Order) (start stop : Nat) (ts : List Task) : Prop :=
  levelAfterAll start ts = stop ∧ ∀ r ∈ ranks limit start ts, Rank.Lower r (limit - level, o)

namespace Falls

variable {limit level start mid stop : Nat} {o : Order} {ts us : List Task} {t : Task}

theorem nil : Falls limit level o start start [] := ⟨rfl, by simp [ranks]⟩

theorem append (h : Falls limit level o start mid ts) (h' : Falls limit level o mid stop us) :
    Falls limit level o start stop (ts ++ us) := by
  obtain ⟨rfl, hts⟩ := h
  obtain ⟨rfl, hus⟩ := h'
  refine ⟨by simp [levelAfterAll], fun r hr => ?_⟩
  rw [ranks_append, List.mem_append] at hr
  exact hr.elim (hts r) (hus r)

theorem cons (ht : Rank.Lower (t.rank limit start) (limit - level, o))
    (h : Falls limit level o (t.levelAfter start) stop ts) :
    Falls limit level o start stop (t :: ts) :=
  ⟨h.1, by simpa [ranks, ht] using h.2⟩

/-- With at least as many scopes open, it is enough that the order is lower. -/
theorem cons_of_order (hl : level ≤ start) (ht : Order.Lower t.order o)
    (h : Falls limit level o (t.levelAfter start) stop ts) :
    Falls limit level o start stop (t :: ts) := by
  refine cons ?_ h
  rw [Rank.lower_iff]
  simp only [rank]
  by_cases h : limit - start < limit - level
  · exact .inl h
  · exact .inr ⟨by omega, ht⟩

/-- Within a scope that was just opened every task is lower. -/
theorem cons_of_inner (hl : level < start) (hlimit : level < limit)
    (h : Falls limit level o (t.levelAfter start) stop ts) :
    Falls limit level o start stop (t :: ts) := by
  refine cons ?_ h
  rw [Rank.lower_iff]
  simp only [rank]
  left
  omega

/-- Tasks that leave the scopes alone. -/
theorem of_forall (hl : level ≤ start)
    (h : ∀ t ∈ ts, t.levelAfter start = start ∧ Order.Lower t.order o) :
    Falls limit level o start start ts := by
  induction ts with
  | nil => exact nil
  | cons t ts ih =>
    obtain ⟨hs, ho⟩ := h t List.mem_cons_self
    refine cons_of_order hl ho ?_
    rw [hs]
    exact ih fun u hu => h u (List.mem_cons_of_mem _ hu)

theorem flatten {tss : List (List Task)} (h : ∀ ts ∈ tss, Falls limit level o start start ts) :
    Falls limit level o start start tss.flatten := by
  induction tss with
  | nil => exact nil
  | cons ts tss ih =>
    exact (h ts List.mem_cons_self).append (ih fun us hus => h us (List.mem_cons_of_mem _ hus))

end Falls

theorem visit_lower {nid : NodeId} {o : Order} (h : nid < o.1) : Order.Lower (visit nid).order o :=
  Order.lower_iff.2 (.inl h)

theorem operand_lower {nid : NodeId} {o : Order} (h : nid < o.1) :
    Order.Lower (operand nid).order o :=
  Order.lower_iff.2 (.inl h)

theorem reduce_lower {r : Reduction} {n k x : Nat} : Order.Lower (reduce r).order (n, k + 1, x) := by
  simp only [Order.lower_iff, order]
  omega

end Task

/-! ### Steps -/

namespace Machine

/-- The number of inner scopes. -/
def level (m : Machine) : Nat := m.env.inner.length

/-- If the step succeeds then it draws on the budget, or its tasks are lower than one of the given
order and leave as many scopes open as that one. -/
def Descends (m : Machine) (o : Order) (stop : Nat) (r : Step) : Prop :=
  ∀ new m', r = .ok new m' → m'.budget < m.budget ∨
    (m'.budget = m.budget ∧ m'.env.limit = m.env.limit ∧
      Task.Falls m.env.limit m.level o m'.level stop new)

variable {m : Machine} {o : Order} {stop : Nat}

theorem descends_ok {new : List Task} (h : Task.Falls m.env.limit m.level o m.level stop new) :
    Descends m o stop (.ok new m) := by
  rintro _ _ ⟨⟩
  exact .inr ⟨rfl, rfl, h⟩

theorem descends_error {e : Error} {m' : Machine} : Descends m o stop (.error e m') := by
  rintro _ _ ⟨⟩

theorem descends_fail {m' : Machine} {fault : InternalFault} :
    Descends m o stop (m'.fail fault) :=
  descends_error

/-- Work on values changes neither the scopes nor the budget. -/
theorem descends_onValues {α : Type} {f : ValuesM α} {k : α → Machine → Step}
    (h : ∀ a v, f m.values = .ok a v →
      Descends ⟨v, m.env, m.budget⟩ o stop (k a ⟨v, m.env, m.budget⟩)) :
    Descends m o stop (m.onValues f k) := by
  intro new m' hr
  unfold onValues at hr
  cases hf : f m.values with
  | ok a v => simp only [hf] at hr; exact h a v hf new m' hr
  | error e v => simp only [hf] at hr; cases hr

theorem descends_reducing {f : ValuesM Unit} {tasks : List Task}
    (h : Task.Falls m.env.limit m.level o m.level stop tasks) :
    Descends m o stop (m.reducing f tasks) :=
  descends_onValues fun _ _ _ => descends_ok h

theorem length_inner_bind (e : Environment) (name : String) (w : Word) :
    (e.bind name w).inner.length = e.inner.length ∧ (e.bind name w).limit = e.limit := by
  unfold Environment.bind Environment.modifyTop
  split <;> simp_all

theorem length_inner_extend (e : Environment) (l : Lexicon) :
    (e.extend l).inner.length = e.inner.length ∧ (e.extend l).limit = e.limit := by
  unfold Environment.extend Environment.modifyTop
  split <;> simp_all

theorem length_inner_bindAll (words : List Word) (e : Environment) :
    (words.foldl (fun e w => e.bind w.name w) e).inner.length = e.inner.length ∧
      (words.foldl (fun e w => e.bind w.name w) e).limit = e.limit := by
  induction words generalizing e with
  | nil => exact ⟨rfl, rfl⟩
  | cons w words ih =>
    have := length_inner_bind e w.name w
    rw [List.foldl_cons, (ih _).1, (ih _).2]
    exact this

/-- A scope is opened only below the limit. -/
theorem descends_entering {name : String} {lexicon : Lexicon} {words : List Word}
    {tasks : List Task}
    (h : m.level < m.env.limit → Task.Falls m.env.limit m.level o (m.level + 1) stop tasks) :
    Descends m o stop (m.entering name lexicon words tasks) := by
  obtain ⟨v, env, budget⟩ := m
  intro new m' hr
  simp only [entering, Environment.enter] at hr
  split at hr
  · cases hr
  · next e henv =>
    split at henv
    · cases henv
    · next hlimit =>
      cases henv
      cases hr
      have hw := length_inner_bindAll words
        (Environment.extend { env with inner := ⟨name, []⟩ :: env.inner } lexicon)
      have hx := length_inner_extend { env with inner := ⟨name, []⟩ :: env.inner } lexicon
      refine .inr ⟨rfl, hw.2.trans hx.2, ?_⟩
      simp only [level] at h ⊢
      rw [hw.1, hx.1]
      refine h ?_
      simp only [Environment.depth] at hlimit
      omega

/-- Every result of a computation on a pool has a property. -/
def Returns {α : Type} (f : Pattern.PoolM α) (P : α → Prop) : Prop :=
  ∀ p a p', f p = .ok a p' → P a

theorem returns_pure {α : Type} {a : α} {P : α → Prop} (h : P a) :
    Returns (pure a : Pattern.PoolM α) P := by
  rintro p _ _ ⟨⟩
  exact h

theorem returns_bind {α β : Type} {f : Pattern.PoolM α} {g : α → Pattern.PoolM β} {P : β → Prop}
    (h : ∀ a, Returns (g a) P) : Returns (f >>= g) P := by
  intro p b p' hb
  simp only [bind, EStateM.bind] at hb
  split at hb
  · exact h _ _ _ _ hb
  · cases hb

/-- The tasks for a function's body run in the function's own scope. -/
theorem returns_bindCallee {limit start : Nat} {o : Order} {callee : Callee} {args : List NodeId}
    (hlimit : start < limit) :
    Returns (bindCallee callee args)
      fun r => Task.Falls limit start o (start + 1) start r.2 := by
  have last : Task.Falls limit start o (start + 1) start [.exit] :=
    .cons_of_inner (Nat.lt_succ_self _) hlimit .nil
  have inner {t : Task} {ts : List Task} (ht : t.levelAfter (start + 1) = start + 1)
      (hts : Task.Falls limit start o (start + 1) start ts) :
      Task.Falls limit start o (start + 1) start (t :: ts) :=
    .cons_of_inner (Nat.lt_succ_self _) hlimit (ht.symm ▸ hts)
  have pushes (ids : List NodeId) {ts : List Task}
      (hts : Task.Falls limit start o (start + 1) start ts) :
      Task.Falls limit start o (start + 1) start (ids.map (Task.reduce <| .push ·) ++ ts) := by
    induction ids with
    | nil => exact hts
    | cons id ids ih => exact inner rfl ih
  unfold bindCallee
  refine returns_bind fun bound => ?_
  split
  · refine returns_bind fun parts => returns_pure ?_
    exact inner rfl (inner rfl (pushes args (inner rfl last)))
  · split
    · exact returns_pure (inner rfl last)
    · refine returns_bind fun parts => returns_pure ?_
      exact inner rfl (inner rfl last)

theorem descends_apply {callee : Callee} : Descends m o m.level (m.apply callee) := by
  refine descends_onValues fun args v _ => ?_
  split
  · exact descends_error
  · refine descends_onValues fun (words, tasks) v' hf => ?_
    refine descends_entering fun hlimit => ?_
    unfold onPool at hf
    split at hf
    split at hf
    · next hb =>
      cases hf
      exact returns_bindCallee hlimit _ _ _ hb
    · cases hf

/-- The order of a visit to a node. -/
def visitOrder (nid : Nat) : Order := (nid, 3, 0)

theorem descends_visitName {nid : NodeId} {name : String} :
    Descends m (visitOrder nid) m.level (m.visitName nid name) := by
  have pushed {id : NodeId} {m : Machine} :
      Descends m (visitOrder nid) m.level (m.reducing (ValuesM.push id) []) :=
    descends_reducing .nil
  unfold visitName
  split
  · exact pushed
  · split
    · exact pushed
    · split
      · exact pushed
      · split
        · exact pushed
        · exact descends_apply
    · refine descends_onValues fun args v _ => ?_
      refine descends_onValues fun id v' _ => ?_
      split
      · split
        · next h =>
          rintro _ _ ⟨⟩
          exact .inl (Nat.lt_of_succ_le (Nat.le_of_eq (congrArg Machine.budget h).symm))
        · exact descends_error
      · exact pushed

theorem lt_of_clause {p : Pool} {id : NodeId} {c : Clause} (h : clause p id = .ok c) :
    c.pattern < id ∧ c.body < id := by
  unfold clause at h
  split at h
  · cases h
  · next n hn =>
    have lt (d : NodeId) (hd : d ∈ n.elts) : d < id := Pool.lt_of_mem_elts hn hd
    split at h
    · next a b he => cases h; exact ⟨lt a (by simp [he]), lt b (by simp [he])⟩
    · next a b _ he => cases h; exact ⟨lt a (by simp [he]), lt b (by simp [he])⟩
    · cases h

/-- The tasks for a clause look at nodes below it only. -/
theorem falls_of_residualClause {limit level : Nat} {o : Order} {p : Pool} {id : NodeId}
    {ts : List Task} (h : residualClause p id = .ok ts) (hid : id < o.1) :
    Task.Falls limit level o level level ts := by
  unfold residualClause at h
  cases hc : clause p id with
  | error e => simp [hc, bind, Except.bind] at h
  | ok c =>
    obtain ⟨hp, hb⟩ := lt_of_clause hc
    have hp : c.pattern < o.1 := Nat.lt_trans hp hid
    have hb : c.body < o.1 := Nat.lt_trans hb hid
    have zero {t : Task} (ht : t.order = (0, 0, 0)) : Order.Lower t.order o :=
      Order.lower_iff.2 (.inl (by rw [ht]; exact Nat.lt_of_le_of_lt (Nat.zero_le _) hp))
    simp only [hc, bind, Except.bind, pure, Except.pure] at h
    have hl := Nat.le_refl level
    have hs := Nat.le_succ level
    split at h <;> cases h
    · refine .cons_of_order hl (zero rfl) (.cons_of_order hl (zero rfl) ?_)
      refine .cons_of_order hs (Task.operand_lower hb) (.cons_of_order hs (zero rfl) ?_)
      exact .cons_of_order hl (zero rfl) (.cons_of_order hl (zero rfl) .nil)
    · refine .cons_of_order hl (Task.operand_lower hp) (.cons_of_order hl (Task.operand_lower hb) ?_)
      exact .cons_of_order hl (zero rfl) .nil

theorem forall_of_mapM {α β ε : Type} {f : α → Except ε β} {P : β → Prop} {l : List α} {l' : List β}
    (h : l.mapM f = .ok l') (hP : ∀ a ∈ l, ∀ b, f a = .ok b → P b) : ∀ b ∈ l', P b := by
  induction l generalizing l' with
  | nil => simp [pure, Except.pure] at h; subst h; simp
  | cons a l ih =>
    rw [List.mapM_cons] at h
    cases hf : f a with
    | error e => simp [hf, bind, Except.bind] at h
    | ok b =>
      cases hl : l.mapM f with
      | error e => simp [hf, hl, bind, Except.bind] at h
      | ok bs =>
        simp [hf, hl, bind, Except.bind, pure, Except.pure] at h
        subst h
        intro c hc
        rcases List.mem_cons.1 hc with rfl | hc
        · exact hP a List.mem_cons_self _ hf
        · exact ih hl (fun a ha => hP a (List.mem_cons_of_mem _ ha)) c hc

theorem descends_residualCase {nid scrutinee : NodeId} {n k x : Nat} (hn : nid ≤ n) :
    Descends m (n, k + 1, x) m.level (m.residualCase nid scrutinee) := by
  unfold residualCase
  split
  · exact descends_fail
  · next node hnode =>
    split
    · exact descends_fail
    · next tasks htasks =>
      refine descends_ok (.cons_of_order (Nat.le_refl _) Task.reduce_lower (.append (.flatten ?_)
        (.cons_of_order (Nat.le_refl _) Task.reduce_lower .nil)))
      refine forall_of_mapM htasks fun id hid ts hts => falls_of_residualClause hts ?_
      exact Nat.lt_of_lt_of_le (Pool.lt_of_mem_elts hnode (List.mem_of_mem_drop hid)) hn

theorem descends_exhausted {nid scrutinee : NodeId} {n k x : Nat} (hn : nid ≤ n) :
    Descends m (n, k + 1, x) m.level (m.exhausted nid scrutinee) := by
  unfold exhausted
  split
  · exact descends_error
  · exact descends_residualCase hn

/-- Trying clauses descends below whatever the clauses left descend below. -/
theorem descends_select {nid scrutinee : NodeId} {clauses : List NodeId} {n k x : Nat}
    (h : Order.Lower (Task.clause nid clauses scrutinee).order (n, k + 1, x)) :
    Descends m (n, k + 1, x) m.level (m.select nid scrutinee clauses) := by
  have hbound : Task.clauseBound nid clauses ≤ n := by
    simp only [Order.lower_iff, Task.order] at h
    omega
  unfold select
  split
  · exact descends_exhausted (Nat.le_trans (Task.le_clauseBound nid []) hbound)
  · next id clauses =>
    split
    · exact descends_fail
    · next c hc =>
      obtain ⟨hp, hb⟩ := lt_of_clause hc
      have hid : id < n := Nat.lt_of_lt_of_le (Task.lt_clauseBound _ _ _) hbound
      split
      · refine descends_entering fun hlimit => ?_
        exact .cons_of_inner (Nat.lt_succ_self _) hlimit
          (.cons_of_inner (Nat.lt_succ_self _) hlimit .nil)
      · refine descends_ok (.cons_of_order (Nat.le_refl _) ?_ (.cons_of_order (Nat.le_refl _) h .nil))
        exact Task.operand_lower (Nat.lt_trans hp hid)

theorem descends_tryClause {nid scrutinee pattern : NodeId} {clauses : List NodeId} :
    Descends m (Task.clause nid clauses scrutinee).order m.level
      (m.tryClause nid scrutinee pattern clauses) := by
  cases clauses with
  | nil => exact descends_fail
  | cons id clauses =>
    simp only [tryClause]
    split
    · split
      · exact descends_fail
      · next c hc =>
        refine descends_ok (.cons_of_order (Nat.le_refl _) (Task.visit_lower ?_) .nil)
        exact Nat.lt_trans (lt_of_clause hc).2 (Task.lt_clauseBound _ _ _)
    · split
      · refine descends_select ?_
        exact Order.lower_of_le (Task.clauseBound_le_cons nid id clauses) (Nat.lt_succ_self _)
      · exact descends_residualCase (Task.le_clauseBound nid (id :: clauses))

/-- The tasks for a node with children look at the children, or at the node in a later way. -/
theorem falls_of_plan {limit level nid : Nat} {tag : Tag} {elts : List NodeId} {plan : Plan}
    (h : Machine.plan nid tag elts = .ok plan) (helts : ∀ c ∈ elts, c < nid) :
    Task.Falls limit level (visitOrder nid) level level plan.tasks := by
  have reduce {r : Reduction} : Task.Falls limit level (visitOrder nid) level level [.reduce r] :=
    .cons_of_order (Nat.le_refl _) Task.reduce_lower .nil
  have visits {ids : List NodeId} (hids : ∀ c ∈ ids, c ∈ elts) :
      Task.Falls limit level (visitOrder nid) level level (ids.map .visit) :=
    .of_forall (Nat.le_refl _) fun t ht => by
      obtain ⟨c, hc, rfl⟩ := List.mem_map.1 ht
      exact ⟨rfl, Task.visit_lower (helts c (hids c hc))⟩
  have operands (ids : List NodeId) (hids : ∀ c ∈ ids, c ∈ elts) :
      Task.Falls limit level (visitOrder nid) level level (ids.map .operand) :=
    .of_forall (Nat.le_refl _) fun t ht => by
      obtain ⟨c, hc, rfl⟩ := List.mem_map.1 ht
      exact ⟨rfl, Task.operand_lower (helts c (hids c hc))⟩
  have operator {r : Reduction} (h : operatorPlan elts r = .ok plan) :
      Task.Falls limit level (visitOrder nid) level level plan.tasks := by
    unfold operatorPlan at h
    split at h
    · cases h
      exact .append (operands [_, _] fun c hc => hc) reduce
    · cases h
  unfold Machine.plan at h
  split at h
  · cases h; exact (visits fun c hc => List.mem_of_mem_take hc).append reduce
  · cases h; exact visits fun c hc => List.mem_reverse.1 hc
  iterate 2 · cases h; exact (visits fun c hc => List.mem_reverse.1 hc).append reduce
  iterate 5 · cases h; exact (operands elts fun c hc => hc).append reduce
  · split at h
    · cases h
      exact .cons_of_order (Nat.le_refl _) Task.reduce_lower
        (.append (operands [_] (by simp)) reduce)
    · cases h
  · split at h
    · cases h
      refine .cons_of_order (Nat.le_refl _) (Task.operand_lower (helts _ List.mem_cons_self)) ?_
      exact .cons_of_order (Nat.le_refl _) (Order.lower_kind (by decide)) .nil
    · cases h
  iterate 12 · exact operator h
  iterate 2 · cases h
  · split at h
    · cases h
      exact .append (operands [_] (by simp)) reduce
    · cases h
  all_goals cases h

theorem descends_visit {nid : NodeId} : Descends m (visitOrder nid) m.level (m.visit nid) := by
  unfold visit
  split
  · exact descends_fail
  · exact descends_visitName
  · split
    · exact descends_fail
    · exact descends_apply
  · next tag elts _ hnode =>
    split
    · exact descends_error
    · next plan hplan =>
      have : Task.Falls m.env.limit m.level (visitOrder nid) m.level m.level plan.tasks :=
        falls_of_plan hplan fun c hc => Pool.lt_of_get?_branch hnode hc
      split
      · exact descends_reducing this
      · exact descends_ok this
  · exact descends_reducing .nil

/-- A task is replaced by lower ones, unless it draws on the budget. -/
theorem lower_of_resume (t : Task) :
    Descends m t.order (t.levelAfter m.level) (m.resume t) := by
  cases t with
  | visit nid => exact descends_visit
  | operand nid =>
    exact descends_reducing (.cons_of_order (Nat.le_refl _) (Order.lower_kind (by decide))
      (.cons_of_order (Nat.le_refl _) Task.reduce_lower .nil))
  | reduce r => exact descends_reducing .nil
  | select nid =>
    simp only [resume]
    refine descends_onValues fun scrutinee v _ => ?_
    split
    · exact descends_fail
    · next n hn =>
      refine descends_select ?_
      have : Task.clauseBound nid (n.elts.drop 1) = nid :=
        Task.clauseBound_eq fun c hc => Pool.lt_of_mem_elts hn (List.mem_of_mem_drop hc)
      rw [Task.order, this]
      exact Order.lower_kind (by decide)
  | clause nid clauses scrutinee =>
    simp only [resume]
    exact descends_onValues fun pattern v _ => descends_tryClause
  | enter name => exact descends_entering fun _ => .nil
  | exit =>
    rintro _ _ ⟨⟩
    refine .inr ⟨rfl, ?_, ?_⟩
    · simp only [Environment.exit]; split <;> rfl
    · have : level { m with env := m.env.exit.2 } = m.level - 1 := by
        simp only [level, Environment.exit]
        split <;> simp_all
      exact this ▸ .nil

end Machine

end Linefold
