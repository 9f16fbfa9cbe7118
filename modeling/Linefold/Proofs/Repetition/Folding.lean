import Linefold.Proofs.Folding.Frames
import Linefold.Proofs.Repetition.Values
import Linefold.Proofs.Twins.Folding

/-!
# Folds that are carried out again

A fold over a pool that holds all that the same fold has left there before goes the same way, task by task: each
node that it interns is found, so it comes to the same node or to the same error, place included, and leaves the
pool as it is (`Machine.Alike.fold_repeats`). That holds as well of folds that fail half way.
-/

namespace Linefold

attribute [local irreducible] Pool.intern

open Exchange (withPool)

/-! ### Computations on values -/

instance : Exchange Values where
  withPool v u := ⟨u, v.stack⟩
  withPool_self _ := rfl

namespace ValuesM

variable {α : Type} {p : Pool} {n : Node} {id : NodeId} {ids : List NodeId} {k : Nat}

theorem repeats_intern (hname : n.Nameless) (h : n.Matches (Twin.self p).Alike n) : Repeats p (intern n) := by
  rintro ⟨q, s⟩ hp _
  refine ⟨Pool.accrues_intern hname, fun u hu => ?_⟩
  have hheld := forall_mem_left (h.imp fun _ _ h => h.mono (Twin.grows_self hp)).forall₂_elts fun _ _ h => h.le_left
  have hagain : Pool.intern u n = _ := Pool.intern_again hheld hu.keeps
  show EStateM.Result.ok (Pool.intern u n).1 (⟨(Pool.intern u n).2, s⟩ : Values) = _
  rw [hagain]
  rfl

theorem repeats_push : Repeats p (push id) := fun _ _ _ => ⟨.refl _, fun _ _ => rfl⟩

theorem repeats_pop : Repeats p pop := by
  rintro ⟨q, s⟩ - -
  unfold RepeatsAt pop
  generalize hs : s.pop = popped
  obtain ⟨_ | id, t⟩ := popped
  · simp only [hs]
    exact ⟨.refl _, fun u _ => by simp only [withPool, hs]⟩
  · simp only [hs]
    exact ⟨.refl _, fun u _ => by simp only [withPool, hs]⟩

theorem repeats_popPair : Repeats p popPair :=
  repeats_pop.bind agree_pop fun _ _ _ _ => repeats_pop.bind agree_pop fun _ _ _ _ => repeats_pure

theorem repeats_popMany : Repeats p (popMany k) := by
  induction k generalizing p with
  | zero => exact repeats_pure
  | succ k ih =>
    exact repeats_pop.bind agree_pop fun _ _ _ _ => ih.bind agree_popMany fun _ _ _ _ => repeats_pure

theorem repeats_closeFrame : Repeats p closeFrame := fun _ _ _ => ⟨.refl _, fun _ _ => rfl⟩

theorem repeats_ask {f : Pool → α} (h : ∀ q u, p.Extends q → q.Extends u → f u = f q) : Repeats p (ask f) := by
  refine fun v hp _ => ⟨.refl _, fun u hu => ?_⟩
  show EStateM.Result.ok (f u) _ = .ok (f v.pool) _
  rw [h v.pool u hp hu.keeps]

theorem repeats_single (h : List.Forall₂ (Twin.self p).Alike ids ids) : Repeats p (single ids) := by
  unfold single
  split
  · exact repeats_pure
  · exact repeats_intern (by trivial) (.branch _ h)

theorem repeats_leave (hname : n.Nameless) (h : n.Matches (Twin.self p).Alike n) : Repeats p (leave n) :=
  (repeats_intern hname h).bind (agree_intern h) fun _ _ _ _ => repeats_push

end ValuesM

/-! ### Reductions -/

namespace Reduction

open ValuesM

variable {p : Pool} {r : Reduction} {t : Tag}

theorem repeats_close : Repeats p (run (.close t)) := by
  have hplain : Repeats p (do ValuesM.leave (.branch t (← closeFrame))) :=
    repeats_closeFrame.bind agree_closeFrame fun _ _ _ hids => repeats_leave trivial (.branch t hids)
  cases t
  case prog =>
    refine repeats_closeFrame.bind agree_closeFrame fun q ids _ hids => ?_
    refine (repeats_intern (by trivial) (.branch .exprs hids)).bind (agree_intern (.branch .exprs hids))
      fun _ _ _ hid => ?_
    exact repeats_leave trivial (.branch .prog (.cons hid .nil))
  case paren =>
    refine repeats_closeFrame.bind agree_closeFrame fun q ids _ hids => ?_
    refine (repeats_single hids).bind (agree_single hids) fun _ _ _ hid => ?_
    exact repeats_leave trivial (.branch .paren (.cons hid .nil))
  all_goals exact hplain

theorem repeats_operator {α : Type} {read : Pool → NodeId → Option α} {f : Option α → Option α → Option Node}
    (hread : ∀ {U : Twin} {i j : NodeId}, U.Alike i j → read U.left i = read U.right j)
    (hf : ∀ x y n, f x y = some n → n.isLiteral) :
    Repeats p (do
      let (a, b) ← popPair
      let x ← ask (read · a)
      let y ← ask (read · b)
      leaveResult t a b (f x y)) := by
  have hsame {q r u : Pool} {i : NodeId} (hi : (Twin.self q).Alike i i) (hqr : q.Extends r) (hru : r.Extends u) :
      read u i = read r i := (hread (hi.mono (U := ⟨r, u⟩) ⟨hqr, hqr.trans hru⟩)).symm
  refine repeats_popPair.bind agree_popPair ?_
  rintro q ⟨a, b⟩ - ⟨ha, hb⟩
  refine (repeats_ask fun r u hqr hru => hsame ha hqr hru).bind
    (agree_ask fun U hU => hread (ha.mono hU)) fun r x hqr _ => ?_
  have ha := ha.mono (Twin.grows_self hqr)
  have hb := hb.mono (Twin.grows_self hqr)
  refine (repeats_ask fun v u hrv hvu => hsame hb hrv hvu).bind
    (agree_ask fun U hU => hread (hb.mono hU)) fun v y hrv _ => ?_
  refine repeats_leave ?_ (.getD (hf x y) (ha.mono (Twin.grows_self hrv)) (hb.mono (Twin.grows_self hrv)))
  cases hxy : f x y with
  | none => trivial
  | some n => exact Node.nameless_of_isLiteral (hf x y n hxy)

theorem repeats_run (h : r.Alike (.self p) r) : Repeats p r.run := by
  cases h with
  | collect =>
    refine repeats_closeFrame.bind agree_closeFrame fun _ _ _ hids => ?_
    exact (repeats_single hids).bind (agree_single hids) fun _ _ _ _ => repeats_push
  | close t => exact repeats_close
  | push h => exact repeats_push
  | build t arity =>
    exact repeats_popMany.bind agree_popMany fun _ _ _ hids => repeats_leave trivial (.branch t hids)
  | arithmetic t => exact repeats_operator (fun h => h.number?_eq) fun _ _ _ => Node.isLiteral_of_arithmetic
  | concat => exact repeats_operator (fun h => h.literal?_eq) fun _ _ _ => Node.isLiteral_of_concat
  | compare t => exact repeats_operator (fun h => h.literal?_eq) fun _ _ _ => Node.isLiteral_of_compare
  | negate =>
    refine repeats_pop.bind agree_pop fun q a _ ha => ?_
    refine (repeats_ask fun r u hqr hru => ?_).bind (agree_ask fun U hU => (ha.mono hU).number?_eq)
      fun r x hqr _ => ?_
    · exact (ha.mono (U := ⟨r, u⟩) ⟨hqr, hqr.trans hru⟩).number?_eq.symm
    · cases x with
      | some x => exact repeats_leave trivial (.num _)
      | none => exact repeats_leave trivial (.branch .neg (.cons (ha.mono (Twin.grows_self hqr)) .nil))
  | lambda hnames hpattern =>
    refine repeats_pop.bind agree_pop fun q body hpq hbody => repeats_leave trivial ?_
    have hnames := hnames.mono (Twin.grows_self hpq)
    exact .branch .lambda (.cons hnames (.cons hbody (.cons (hpattern.mono (Twin.grows_self hpq)) .nil)))

end Reduction

/-! ### Steps -/

namespace Machine

instance : Exchange Machine where
  pool := pool
  Alike T m n := m.values.stack.Alike T n.values.stack ∧ m.env.Alike T n.env ∧ m.budget = n.budget
  withPool m u := ⟨⟨u, m.values.stack⟩, m.env, m.budget⟩
  withPool_self _ := rfl

variable {α : Type} {m : Machine} {ts : List Task} {nid scrutinee pattern id : NodeId}
  {clauses es args : List NodeId} {p q u : Pool} {t : Tag} {callee : Callee} {name : String}

/-- A step as a computation. -/
abbrev StepFrom := EStateM Error Machine (List Task)

abbrev resuming (task : Task) : StepFrom := fun m => m.resume task

/-- A run as a computation. -/
abbrev running (ts : List Task) : EStateM Error Machine Unit := fun m => m.run ts

theorem held_of_le (h : id ≤ p.size) : (Twin.self p).Alike id id := Twin.alike_of_le (.refl _) h

theorem get?_of_accrues (hid : id ≤ p.size) (hu : p.Accrues u) : u.get? id = p.get? id := hu.keeps.get?_eq hid

theorem repeatsAt_ok : RepeatsAt (fun m => .ok ts m : StepFrom) m := ⟨.refl _, fun _ _ => rfl⟩

theorem repeatsAt_error {e : Error} : RepeatsAt (fun m => .error e m : StepFrom) m := ⟨.refl _, fun _ _ => rfl⟩

namespace Alike

theorem onValues_repeats {f : ValuesM α} {k : α → Machine → Step} {R : Twin → α → α → Prop} (h : m.Alike m)
    (hf : Repeats m.pool f) (hagree : Agree (.self m.pool) f f R)
    (hk : ∀ a m', m.pool.Extends m'.pool → m'.Alike m' → m'.env = m.env → R (.self m'.pool) a a →
      RepeatsAt (k a : StepFrom) m') : RepeatsAt (fun m => m.onValues f k : StepFrom) m := by
  obtain ⟨v, env, b⟩ := m
  have hrun := hf v (.refl _) h.stack
  have hagreed := hagree v v (.refl _) h.stack
  cases hv : f v with
  | ok a w =>
    rw [hv] at hagreed
    obtain ⟨hgrown, hstack, ha⟩ := hagreed
    obtain ⟨hgrows, hagain⟩ := hrun.ok hv
    have hnext := hk a ⟨w, env, b⟩ hgrows.keeps ⟨hstack, h.env.mono hgrown, rfl⟩ rfl ha
    have hm : Machine.onValues ⟨v, env, b⟩ f k = k a ⟨w, env, b⟩ := onValues_of_ok hv
    have hu (u : Pool) (hu : Pool.Accrues w.pool u) :
        Machine.onValues (withPool ⟨v, env, b⟩ u) f k = k a (withPool ⟨w, env, b⟩ u) := onValues_of_ok (hagain u hu)
    cases hk : k a ⟨w, env, b⟩ with
    | ok ts m' =>
      obtain ⟨hgrows', hagain'⟩ := hnext.ok hk
      exact repeatsAt_of_ok (hm.trans hk) (hgrows.trans hgrows') fun u hgrown =>
        (hu u (hgrows'.trans hgrown)).trans (hagain' u hgrown)
    | error e m' =>
      obtain ⟨hgrows', hagain'⟩ := hnext.error hk
      exact repeatsAt_of_error (hm.trans hk) (hgrows.trans hgrows') fun u hgrown =>
        (hu u (hgrows'.trans hgrown)).trans (hagain' u hgrown)
  | error e w =>
    obtain ⟨hgrows, hagain⟩ := hrun.error hv
    have hfails {x y : Values} (h : f x = .error e y) : Machine.onValues ⟨x, env, b⟩ f k = .error e ⟨y, env, b⟩ := by
      simp only [Machine.onValues, h]
    exact repeatsAt_of_error (hfails hv) hgrows fun u hu => hfails (hagain u hu)

theorem reducing_repeats {f : ValuesM Unit} (h : m.Alike m) (hf : Repeats m.pool f)
    (hagree : Agree (.self m.pool) f f fun _ => Eq) : RepeatsAt (fun m => m.reducing f ts : StepFrom) m :=
  h.onValues_repeats hf hagree fun _ _ _ _ _ _ => repeatsAt_ok

theorem push_repeats (h : m.Alike m) (hid : id ≤ m.pool.size) :
    RepeatsAt (fun m => m.reducing (ValuesM.push id) [] : StepFrom) m :=
  h.reducing_repeats ValuesM.repeats_push (ValuesM.agree_push (held_of_le hid))

end Alike

/-- The scopes are the same, whatever the pool. -/
theorem entering_repeats {l : Lexicon} {ws : List Word} :
    RepeatsAt (fun m => m.entering name l ws ts : StepFrom) m := by
  obtain ⟨v, env, b⟩ := m
  rcases env.enter_cases name with henter | henter
  · exact repeatsAt_error.congr fun u _ => by
      simp only [entering, withPool, henter]
      rfl
  · unfold RepeatsAt entering
    simp only [withPool, henter]
    exact ⟨.refl _, fun _ _ => trivial⟩

/-! ### Functions and names -/

theorem openFrame_repeats : Repeats p openFrame := fun _ _ _ => ⟨.refl _, fun _ _ => rfl⟩

theorem takeArgs_repeats {n : Nat} : Repeats p (takeArgs n) := fun _ _ _ => ⟨.refl _, fun _ _ => rfl⟩

theorem onPool_repeats {f : Pattern.PoolM α} (h : Repeats p f) : Repeats p (onPool f) := by
  rintro ⟨q, s⟩ hp -
  have hrun := h q hp trivial
  cases hq : f q with
  | ok a r =>
    obtain ⟨hgrows, hagain⟩ := hrun.ok hq
    have hok {x y : Pool} (h : f x = .ok a y) : onPool f ⟨x, s⟩ = .ok a ⟨y, s⟩ := by simp only [onPool, h]
    exact repeatsAt_of_ok (hok hq) hgrows fun u hu => hok (hagain u hu)
  | error e r =>
    obtain ⟨hgrows, hagain⟩ := hrun.error hq
    have hfails {x y : Pool} (h : f x = .error e y) : onPool f ⟨x, s⟩ = .error e ⟨y, s⟩ := by simp only [onPool, h]
    exact repeatsAt_of_error (hfails hq) hgrows fun u hu => hfails (hagain u hu)

theorem bindCallee_repeats (hcallee : List.Forall₂ (Twin.self p).Alike callee.pattern callee.pattern)
    (hargs : List.Forall₂ (Twin.self p).Alike args args) : Repeats p (bindCallee callee args) := by
  unfold bindCallee
  refine Pattern.repeats_then (Pattern.repeats_bindAll hargs ?_) fun q bound hpq => ?_
  · exact fun id hid => held_of_le (forall_mem_left hcallee (fun _ _ h => h.le_left) id hid)
  · have hcallee := Pattern.held_mono hcallee hpq
    split
    · exact Pattern.repeats_then (Pattern.repeats_lambdaParts hcallee) fun _ _ _ => repeats_pure
    · split
      · exact repeats_pure
      · exact Pattern.repeats_then (Pattern.repeats_lambdaParts (List.forall₂_drop _ hcallee)) fun _ _ _ =>
          repeats_pure

namespace Alike

theorem apply_repeats (h : m.Alike m) (hcallee : Callee.Related Twin.Alike (.self m.pool) callee callee) :
    RepeatsAt (fun m => m.apply callee : StepFrom) m := by
  refine h.onValues_repeats takeArgs_repeats agree_takeArgs fun args m' hgrows h _ hargs => ?_
  have hcallee := hcallee.mono (Twin.grows_self hgrows)
  by_cases hlimit : m'.env.limit < m'.env.depth
  · exact (repeatsAt_error (e := .recursion m'.env.limit)).congr fun _ _ => if_pos hlimit
  · refine (h.onValues_repeats (onPool_repeats (bindCallee_repeats hcallee.pattern hargs))
      (agree_onPool (agree_bindCallee hcallee hargs)) ?_).congr fun _ _ => if_neg hlimit
    exact fun _ _ _ _ _ _ => entering_repeats

theorem visitName_repeats (h : m.Alike m) (hnid : nid ≤ m.pool.size) :
    RepeatsAt (fun m => m.visitName nid name : StepFrom) m := by
  have hword : Option.Rel (Word.Alike (.self m.pool)) (m.env.lookup? name) (m.env.lookup? name) := h.env.lookup?
  have hsame (u : Pool) : (withPool m u).env = m.env := rfl
  have hitself := h.push_repeats hnid
  cases hw : m.env.lookup? name with
  | none => exact hitself.congr fun u _ => by simp only [Machine.visitName, hsame, hw]
  | some w =>
    rw [hw] at hword
    cases hword with | some hword =>
    cases hcls : w.cls with
    | value =>
      have hvalue : (if w.nid = 0 then nid else w.nid) ≤ m.pool.size := by
        split
        · exact hnid
        · exact hword.head.nid.le_left
      exact (h.push_repeats hvalue).congr fun u _ => by simp only [Machine.visitName, hsame, hw, hcls]
    | function =>
      have hclosure := hword.closure
      cases hc : w.closure with
      | none => exact hitself.congr fun u _ => by simp only [Machine.visitName, hsame, hw, hcls, hc]
      | some c =>
        rw [hc] at hclosure
        cases hclosure with | some hlexicon _ hpattern =>
        by_cases hzero : w.nid = 0
        · exact hitself.congr fun u _ => by simp only [Machine.visitName, hsame, hw, hcls, hc, if_pos hzero]
        · have hcallee : Callee.Related Twin.Alike (.self m.pool) ⟨name, w.nid, c.pattern, c.lexicon⟩
              ⟨name, w.nid, c.pattern, c.lexicon⟩ := ⟨rfl, hword.head.nid, hpattern, hlexicon⟩
          exact (h.apply_repeats hcallee).congr fun u _ => by
            simp only [Machine.visitName, hsame, hw, hcls, hc, if_neg hzero]
    | operator tag =>
      refine RepeatsAt.congr (h.onValues_repeats takeArgs_repeats agree_takeArgs fun args m' _ h _ hargs =>
        h.onValues_repeats (ValuesM.repeats_intern (by trivial) (.branch tag hargs))
          (ValuesM.agree_intern (.branch tag hargs)) fun id m'' _ h _ hid => ?_) fun u _ => by
        simp only [Machine.visitName, hsame, hw, hcls]
        rfl
      by_cases htwo : args.length = 2
      · simp only [if_pos htwo]
        obtain ⟨v, env, b⟩ := m''
        cases b with
        | zero => exact ⟨.refl _, fun _ _ => rfl⟩
        | succ b => exact ⟨.refl _, fun _ _ => rfl⟩
      · simp only [if_neg htwo]
        exact h.push_repeats hid.le_left

end Alike

/-! ### Cases -/

theorem clause_grown (hid : id ≤ p.size) (hu : p.Accrues u) : clause u id = clause p id := by
  unfold clause
  rw [get?_of_accrues hid hu]

theorem variable_grown {c : Clause} (hid : id ≤ p.size) (hc : clause p id = .ok c) (hu : p.Accrues u) :
    c.variable? u = c.variable? p := by
  have hpattern := Nat.le_trans (Nat.le_of_lt (lt_of_clause hc).1) hid
  unfold Clause.variable?
  rw [get?_of_accrues hpattern hu]

theorem residualClause_grown (hid : id ≤ p.size) (hu : p.Accrues u) :
    residualClause u id = residualClause p id := by
  unfold residualClause
  rw [clause_grown hid hu]
  cases hc : clause p id with
  | error fault => rfl
  | ok c => simp only [bind, Except.bind, variable_grown hid hc hu]

theorem residualClauses_grown (h : ∀ id ∈ clauses, id ≤ p.size) (hu : p.Accrues u) :
    clauses.mapM (residualClause u) = clauses.mapM (residualClause p) := by
  induction clauses with
  | nil => rfl
  | cons id clauses ih =>
    obtain ⟨hid, hclauses⟩ := List.forall_mem_cons.1 h
    rw [List.mapM_cons, List.mapM_cons, residualClause_grown hid hu, ih hclauses]

theorem residualCase_repeats (hnid : nid ≤ m.pool.size) (scrutinee : NodeId) :
    RepeatsAt (fun m => m.residualCase nid scrutinee : StepFrom) m := by
  have hget (u : Pool) (hu : m.pool.Accrues u) : (withPool m u).pool.get? nid = m.pool.get? nid := get?_of_accrues hnid hu
  cases hn : m.pool.get? nid with
  | none =>
    exact repeatsAt_error.congr fun u hu => by
      simp only [residualCase, hget u hu, hn]
      rfl
  | some n =>
    have hclauses : ∀ id ∈ n.elts.drop 1, id ≤ m.pool.size := fun id hid =>
      Nat.le_trans (Nat.le_of_lt (Pool.lt_of_mem_elts hn (List.mem_of_mem_drop hid))) hnid
    have htasks (u : Pool) (hu : m.pool.Accrues u) : (n.elts.drop 1).mapM (residualClause (withPool m u).pool) =
        (n.elts.drop 1).mapM (residualClause m.pool) := residualClauses_grown hclauses hu
    cases hts : (n.elts.drop 1).mapM (residualClause m.pool) with
    | error fault =>
      exact repeatsAt_error.congr fun u hu => by
        simp only [residualCase, hget u hu, hn, htasks u hu, hts]
        rfl
    | ok tss =>
      exact repeatsAt_ok.congr fun u hu => by
        simp only [residualCase, hget u hu, hn, htasks u hu, hts]
        rfl

/-- The error tells the place of the case, which no interning has changed. -/
theorem exhausted_repeats (hnid : nid ≤ m.pool.size) (hscrutinee : scrutinee ≤ m.pool.size) :
    RepeatsAt (fun m => m.exhausted nid scrutinee : StepFrom) m := by
  have hgrown (u : Pool) (hu : m.pool.Accrues u) : Twin.Alike ⟨m.pool, (withPool m u).pool⟩ scrutinee scrutinee :=
    Twin.alike_grown hu.keeps (held_of_le hscrutinee)
  by_cases hground : m.pool.isGround scrutinee
  · exact repeatsAt_error.congr fun u hu => by
      have hcoord : (withPool m u).pool.coord? nid = m.pool.coord? nid := hu.coord?_eq
      simp only [exhausted, ← (hgrown u hu).isGround_eq, ← (hgrown u hu).tree?_eq, hcoord, if_pos hground]
      rfl
  · refine (residualCase_repeats hnid scrutinee).congr fun u hu => ?_
    simp only [exhausted, ← (hgrown u hu).isGround_eq, if_neg hground]

theorem select_repeats (hnid : nid ≤ m.pool.size) (hscrutinee : scrutinee ≤ m.pool.size)
    (hclauses : ∀ id ∈ clauses, id ≤ m.pool.size) :
    RepeatsAt (fun m => m.select nid scrutinee clauses : StepFrom) m := by
  cases clauses with
  | nil => exact exhausted_repeats hnid hscrutinee
  | cons id clauses =>
    have hid := hclauses id (.head _)
    have hclause (u : Pool) (hu : m.pool.Accrues u) : clause (withPool m u).pool id = clause m.pool id :=
      clause_grown hid hu
    cases hc : clause m.pool id with
    | error fault =>
      exact repeatsAt_error.congr fun u hu => by
        simp only [select, hclause u hu, hc]
        rfl
    | ok c =>
      have hvariable (u : Pool) (hu : m.pool.Accrues u) : c.variable? (withPool m u).pool = c.variable? m.pool :=
        variable_grown hid hc hu
      cases hv : c.variable? m.pool with
      | none =>
        exact repeatsAt_ok.congr fun u hu => by
          simp only [select, hclause u hu, hc, hvariable u hu, hv]
          rfl
      | some x =>
        exact entering_repeats.congr fun u hu => by
          simp only [select, hclause u hu, hc, hvariable u hu, hv]
          rfl

theorem tryClause_repeats (hnid : nid ≤ m.pool.size) (hscrutinee : scrutinee ≤ m.pool.size)
    (hpattern : pattern ≤ m.pool.size) (hclauses : ∀ id ∈ clauses, id ≤ m.pool.size) :
    RepeatsAt (fun m => m.tryClause nid scrutinee pattern clauses : StepFrom) m := by
  cases clauses with
  | nil => exact repeatsAt_error
  | cons id clauses =>
    obtain ⟨hid, hclauses⟩ := List.forall_mem_cons.1 hclauses
    have hunwrap {i : NodeId} (hi : i ≤ m.pool.size) (u : Pool) (hu : m.pool.Accrues u) :
        (withPool m u).pool.unwrapGroup i = m.pool.unwrapGroup i := Pool.unwrapGroup_grown hu.keeps (held_of_le hi)
    have hground {i : NodeId} (hi : i ≤ m.pool.size) (u : Pool) (hu : m.pool.Accrues u) :
        (withPool m u).pool.isGround i = m.pool.isGround i :=
      (Twin.alike_grown hu.keeps (held_of_le hi)).isGround_eq.symm
    have hclause (u : Pool) (hu : m.pool.Accrues u) : clause (withPool m u).pool id = clause m.pool id :=
      clause_grown hid hu
    by_cases heq : m.pool.unwrapGroup pattern = m.pool.unwrapGroup scrutinee
    · cases hc : clause m.pool id with
      | error fault =>
        exact repeatsAt_error.congr fun u hu => by
          simp only [tryClause, hunwrap hpattern u hu, hunwrap hscrutinee u hu, if_pos heq, hclause u hu, hc]
          rfl
      | ok c =>
        exact repeatsAt_ok.congr fun u hu => by
          simp only [tryClause, hunwrap hpattern u hu, hunwrap hscrutinee u hu, if_pos heq, hclause u hu, hc]
          rfl
    · by_cases hboth : (m.pool.isGround scrutinee && m.pool.isGround pattern) = true
      · refine (select_repeats hnid hscrutinee hclauses).congr fun u hu => ?_
        simp only [tryClause, hunwrap hpattern u hu, hunwrap hscrutinee u hu, if_neg heq, hground hscrutinee u hu,
          hground hpattern u hu, if_pos hboth]
      · refine (residualCase_repeats hnid scrutinee).congr fun u hu => ?_
        simp only [tryClause, hunwrap hpattern u hu, hunwrap hscrutinee u hu, if_neg heq, hground hscrutinee u hu,
          hground hpattern u hu, if_neg hboth]

/-! ### Nodes and tasks -/

theorem lambda_grown (hes : ∀ id ∈ es, id ≤ p.size) (hu : p.Accrues u) : lambda u es = lambda p es := by
  unfold lambda
  split
  · next a body pattern => rw [get?_of_accrues (hes pattern (by simp)) hu]
  · rfl

theorem held_of_lambda (hes : ∀ id ∈ es, id ≤ p.size) (h : lambda p es = .ok callee) :
    Callee.Related Twin.Alike (.self p) callee callee := by
  unfold lambda at h
  split at h
  · next a body pattern =>
    split at h
    · cases h
    · next n hn =>
      cases h
      have hpattern := Pool.le_size_of_get? hn
      refine ⟨rfl, held_of_le (hes body (by simp)), List.forall₂_same.2 fun id hid => held_of_le ?_, .nil⟩
      exact Nat.le_trans (Nat.le_of_lt (Pool.lt_of_mem_elts hn hid)) hpattern
  · cases h

namespace Alike

theorem visit_repeats (h : m.Alike m) (hnid : nid ≤ m.pool.size) : RepeatsAt (fun m => m.visit nid : StepFrom) m := by
  have hget (u : Pool) (hu : m.pool.Accrues u) : (withPool m u).pool.get? nid = m.pool.get? nid := get?_of_accrues hnid hu
  have hitself := h.push_repeats hnid
  cases hn : m.pool.get? nid with
  | none =>
    exact repeatsAt_error.congr fun u hu => by
      simp only [Machine.visit, hget u hu, hn]
      rfl
  | some n =>
    cases n with
    | ident name =>
      exact (h.visitName_repeats hnid).congr fun u hu => by
        simp only [Machine.visit, hget u hu, hn]
        rfl
    | branch t es =>
      have hes : ∀ id ∈ es, id ≤ m.pool.size := fun id hid =>
        Nat.le_trans (Nat.le_of_lt (Pool.lt_of_mem_elts hn hid)) hnid
      by_cases ht : t = .lambda
      · subst ht
        have hlambda (u : Pool) (hu : m.pool.Accrues u) : lambda (withPool m u).pool es = lambda m.pool es :=
          lambda_grown hes hu
        cases hcallee : lambda m.pool es with
        | error fault =>
          exact repeatsAt_error.congr fun u hu => by
            simp only [Machine.visit, hget u hu, hn, hlambda u hu, hcallee]
            rfl
        | ok callee =>
          exact (h.apply_repeats (held_of_lambda hes hcallee)).congr fun u hu => by
            simp only [Machine.visit, hget u hu, hn, hlambda u hu, hcallee]
      · have hnode (u : Pool) (hu : m.pool.Accrues u) : (withPool m u).pool.get? nid = some (.branch t es) :=
          (hget u hu).trans hn
        cases hplan : plan nid t es with
        | error e => exact repeatsAt_error.congr fun u hu => visit_of_error (hnode u hu) ht hplan
        | ok plan =>
          refine RepeatsAt.congr (g := fun m => plan.step m) ?_ fun u hu => visit_of_plan (hnode u hu) ht hplan
          unfold Plan.step
          split
          · exact h.reducing_repeats openFrame_repeats agree_openFrame
          · exact repeatsAt_ok
    | _ => exact hitself.congr fun u hu => by simp only [Machine.visit, hget u hu, hn]

theorem le_of_clauses {T : Twin} {i j : NodeId} (h : Twin.Clauses Twin.Alike T i j) : i ≤ T.left.size := by
  cases h with
  | alike h => exact h.le_left
  | plain hi | binder hi => exact Pool.le_size_of_get? hi

theorem resume_repeats {task : Task} (h : m.Alike m) (htask : Task.Related Twin.Alike (.self m.pool) task task) :
    RepeatsAt (resuming task) m := by
  cases htask with
  | visit hnid => exact h.visit_repeats hnid.le_left
  | operand hnid => exact h.reducing_repeats openFrame_repeats agree_openFrame
  | reduce hr => exact h.reducing_repeats (Reduction.repeats_run hr) hr.agree_run
  | @select nid _ hcase =>
    unfold resuming Machine.resume
    refine h.onValues_repeats ValuesM.repeats_pop ValuesM.agree_pop fun scrutinee m' hgrows h _ hscrutinee => ?_
    obtain ⟨a, _, cs, _, hn, _, _⟩ := hcase.mono (Twin.grows_self hgrows)
    have hn : m'.pool.get? nid = some (.branch .case (a :: cs)) := hn
    have hnid := Pool.le_size_of_get? hn
    have hcs : ∀ id ∈ cs, id ≤ m'.pool.size := fun id hid =>
      Nat.le_trans (Nat.le_of_lt (Pool.lt_of_mem_elts hn (.tail _ hid))) hnid
    refine (select_repeats hnid hscrutinee.le_left hcs).congr fun u hu => ?_
    have hget : (withPool m' u).pool.get? nid = some (.branch .case (a :: cs)) := (get?_of_accrues hnid hu).trans hn
    simp only [hget]
    rfl
  | clause hcase hclauses hscrutinee =>
    unfold resuming Machine.resume
    refine h.onValues_repeats ValuesM.repeats_pop ValuesM.agree_pop fun pattern m' hgrows h _ hpattern => ?_
    obtain ⟨_, _, _, _, hn, _, _⟩ := hcase.mono (Twin.grows_self hgrows)
    refine tryClause_repeats (Pool.le_size_of_get? hn) (hscrutinee.mono (Twin.grows_self hgrows)).le_left
      hpattern.le_left ?_
    have hclauses := Twin.forall₂_clauses_mono hclauses (Twin.grows_self hgrows)
    exact forall_mem_left hclauses fun _ _ h => le_of_clauses h
  | enter name => exact entering_repeats
  | exit => exact ⟨.refl _, fun _ _ => rfl⟩

end Alike

/-! ### Runs -/

theorem running_cons {task : Task} : running (task :: ts) m =
    (resuming task >>= fun new => running (new ++ ts)) m := by
  unfold running
  rw [run_cons]
  cases h : m.resume task with
  | ok new m' => exact (bind_of_ok (f := resuming task) (g := fun new => running (new ++ ts)) h).symm
  | error e m' => exact (bind_of_error (f := resuming task) h).symm

namespace Alike

/-- What is left to do is held as well. -/
theorem resume_held {task : Task} (h : m.Alike m) (htask : Task.Related Twin.Alike (.self m.pool) task task) :
    StepsRelated Twin.Alike (.self m.pool) (m.resume task) (m.resume task) := by
  cases task with
  | visit nid => cases htask with | visit hnid => exact h.visit hnid
  | _ => exact h.resume htask (by rintro _ ⟨⟩)

theorem run_repeats (h : m.Alike m) (htasks : Task.AllRelated Twin.Alike (.self m.pool) ts ts) :
    RepeatsAt (running ts) m := by
  fun_induction Machine.run m ts with
  | case1 m => exact repeatsAt_pure.congr fun u _ => run_nil
  | case2 m task ts new m' hresume _ ih =>
    rcases htasks with _ | ⟨htask, hrest⟩
    refine ((h.resume_repeats htask).bind fun new' n hnew _ => ?_).congr fun u _ => running_cons
    cases hresume.symm.trans hnew
    have hheld := h.resume_held htask
    rw [hresume] at hheld
    obtain ⟨hgrows, h, hnew⟩ := hheld
    exact ih h (List.rel_append hnew (Task.AllRelated.mono hrest hgrows))
  | case3 m task ts e m' hresume =>
    rcases htasks with _ | ⟨htask, hrest⟩
    refine ((h.resume_repeats htask).bind fun new' n hnew _ => ?_).congr fun u _ => running_cons
    cases hresume.symm.trans hnew

theorem finish_repeats : RepeatsAt (fun m => m.finish : EStateM Error Machine NodeId) m := by
  obtain ⟨⟨p, s⟩, env, b⟩ := m
  unfold RepeatsAt Machine.finish
  simp only [withPool]
  generalize hs : s.closeFrame = closed
  obtain ⟨ids, t⟩ := closed
  rcases ids with _ | ⟨id, _ | ⟨id', ids⟩⟩ <;> exact ⟨.refl _, fun _ _ => rfl⟩

/-- A fold of a node that the pool holds does the same again over what it has left. -/
theorem fold_repeats (h : m.Alike m) (hnid : nid ≤ m.pool.size) :
    RepeatsAt (fun m => m.fold nid : EStateM Error Machine NodeId) m := by
  obtain ⟨⟨p, s⟩, env, b⟩ := m
  have hopen : Alike ⟨⟨p, s.openFrame⟩, env, operatorBudget⟩ ⟨⟨p, s.openFrame⟩, env, operatorBudget⟩ :=
    ⟨h.stack.openFrame, h.env, rfl⟩
  have hrun := hopen.run_repeats (.cons (.operand (held_of_le hnid)) .nil)
  cases hm : run ⟨⟨p, s.openFrame⟩, env, operatorBudget⟩ [.operand nid] with
  | ok _ m' =>
    obtain ⟨hgrows, hagain⟩ := hrun.ok hm
    have hfinish := finish_repeats (m := m')
    cases hn : m'.finish with
    | ok id n =>
      obtain ⟨hgrows', hagain'⟩ := hfinish.ok hn
      exact repeatsAt_of_ok ((fold_of_ok hm).trans hn) (hgrows.trans hgrows') fun u hu =>
        (fold_of_ok (hagain u (hgrows'.trans hu))).trans (hagain' u hu)
    | error e n =>
      obtain ⟨hgrows', hagain'⟩ := hfinish.error hn
      exact repeatsAt_of_error ((fold_of_ok hm).trans hn) (hgrows.trans hgrows') fun u hu =>
        (fold_of_ok (hagain u (hgrows'.trans hu))).trans (hagain' u hu)
  | error e m' =>
    obtain ⟨hgrows, hagain⟩ := hrun.error hm
    exact repeatsAt_of_error (fold_of_error hm) hgrows fun u hu => fold_of_error (hagain u hu)

end Alike

end Machine

end Linefold
