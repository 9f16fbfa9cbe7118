import Linefold.Proofs.Folding.Additions
import Linefold.Proofs.Isolation.Runs
import Linefold.Proofs.Renaming.Applications
import Linefold.Proofs.Staging.Applications

/-!
# Functions of two parameters

A function of `x` whose body is a function of `y`, and a function of both `x` and `y` over the same body, come to the same
where they are applied (`Machine.fold_curried`). The first one opens two scopes where the second one opens one, and it
meets the function of `y` while further arguments wait on the same frame. Names mean the same in the two scopes as in the
one, so the body is carried out on two grounds (`Ground.Reads`). The first function needs room for one more scope.
-/

namespace Linefold

variable {p q : Pool} {s : OperandStack} {e : Environment} {b : Nat} {x y : String} {i j f h l l' body nid : NodeId}
  {ps args vs : List NodeId} {fs : List (List NodeId)} {names : List String} {ts us : List Task} {g g' : Ground}

/-! ### Scopes of parameters -/

/-- What names mean in a scope with two words they mean in two scopes with one word each. -/
theorem Ground.reads_opened {name : String} {u v u' v' : Word} (hu : u.name = u'.name) (hv : v.name = v'.name)
    (hmu : u.meaning = u'.meaning) (hmv : v.meaning = v'.meaning) :
    Ground.Reads ⟨s, (e.opened name [] [u]).opened name [] [v]⟩ ⟨s, e.opened name [] [u', v']⟩ := by
  refine ⟨?_, ?_, fun n => ?_⟩
  · rw [Environment.opened_eq, Environment.opened_eq, Environment.opened_eq]
  · rw [Environment.opened_eq, Environment.opened_eq, Environment.opened_eq]
    exact Nat.le_succ _
  · have hone (w : Word) : (Scope.opening name [] [w]).get? n = if n = w.name then some w else none :=
      Lexicon.find?_insert [] w.name w n
    have htwo : (Scope.opening name [] [u', v']).get? n =
        if n = v'.name then some v' else if n = u'.name then some u' else none := by
      rw [← hone]
      exact Lexicon.find?_insert _ v'.name v' n
    simp only [Environment.lookup?_opened, hone, htwo, hu, hv]
    by_cases hn : n = v'.name
    · simp only [if_pos hn, Option.some_or, Option.map_some, hmv]
    · by_cases hn' : n = u'.name
      · simp only [if_neg hn, if_pos hn', Option.none_or, Option.some_or, Option.map_some, hmu]
      · simp only [if_neg hn, if_neg hn', Option.none_or]

theorem Pool.LambdaOver.grow (hi : p.LambdaOver i names body) (hpq : p.Extends q) : q.LambdaOver i names body := by
  obtain ⟨l, ps, hi, hl, hps⟩ := hi
  exact ⟨l, ps, hpq _ _ hi, hpq _ _ hl, Pool.Names.grow hps hpq⟩

namespace Machine

open Linefold.Task (ShiftsAll)
open Linefold.Pattern (plainWords)

/-! ### Applications of functions of plain parameters -/

theorem resume_lambda (hi : p.get? i = some (.branch .lambda [l, body, l])) (hl : p.get? l = some (.branch .list ps)) :
    resume ⟨⟨p, s.stacked (vs :: fs)⟩, e, b⟩ (.visit i) =
      if e.limit < e.depth then .error (.recursion e.limit) ⟨⟨p, s.stacked (vs.drop ps.length :: fs)⟩, e, b⟩
      else match bindCallee ⟨"lambda", body, ps, []⟩ (vs.take ps.length) p with
        | .ok (words, us) q => .ok us ⟨⟨q, s.stacked (vs.drop ps.length :: fs)⟩, e.opened "lambda" [] words, b⟩
        | .error err q => .error err ⟨⟨q, s.stacked (vs.drop ps.length :: fs)⟩, e, b⟩ := by
  have hcallee : lambda p [l, body, l] = .ok ⟨"lambda", body, ps, []⟩ := by simp only [lambda, hl, Node.elts]
  have hvisit : resume ⟨⟨p, s.stacked (vs :: fs)⟩, e, b⟩ (.visit i) =
      apply ⟨⟨p, s.stacked (vs :: fs)⟩, e, b⟩ ⟨"lambda", body, ps, []⟩ := by
    simp only [resume, visit, pool, hi, hcallee]
  rw [hvisit, apply, onValues_of_ok takeArgs_stacked]
  by_cases hroom : e.limit < e.depth
  · simp only [if_pos hroom]
  · simp only [if_neg hroom, onValues, onPool]
    cases bindCallee ⟨"lambda", body, ps, []⟩ (vs.take ps.length) p with
    | ok bound q => exact entering_of_not_lt hroom
    | error err q => rfl

/-- There are values for all parameters of a function. -/
theorem resume_lambdaOver_full (args : List NodeId) (hi : p.LambdaOver i names body) (hroom : ¬ e.limit < e.depth)
    (hlength : args.length = names.length) :
    resume ⟨⟨p, s.stacked ((args ++ vs) :: fs)⟩, e, b⟩ (.visit i) =
      .ok [.visit body, .exit] ⟨⟨p, s.stacked (vs :: fs)⟩, e.opened "lambda" [] (plainWords args 0 names), b⟩ := by
  obtain ⟨l, ps, hi, hl, hps⟩ := hi
  have hcount : args.length = ps.length := hlength.trans hps.length_eq.symm
  have hbind : bindCallee ⟨"lambda", body, ps, []⟩ args p = .ok (plainWords args 0 names, [.visit body, .exit]) p := by
    simp only [bindCallee, bind, EStateM.bind, Pattern.bindAll_of_names hps, hcount, Bool.false_eq_true, ↓reduceIte]
    rfl
  rw [resume_lambda hi hl, if_neg hroom, List.take_left' hcount, List.drop_left' hcount, hbind]

/-- There are values for some parameters of a function, the others are left. -/
theorem resume_lambdaOver_few (args : List NodeId) (hi : p.get? i = some (.branch .lambda [l, body, l]))
    (hl : p.get? l = some (.branch .list ps)) (hps : p.Names ps names) (hroom : ¬ e.limit < e.depth)
    (hlt : args.length < ps.length) (hparts : Pattern.lambdaParts (ps.drop args.length) p = .ok (l', l') q) :
    resume ⟨⟨p, s.stacked (args :: fs)⟩, e, b⟩ (.visit i) =
      .ok [.operand body, .reduce (.lambda l' l'), .exit]
        ⟨⟨q, s.stacked ([] :: fs)⟩, e.opened "lambda" [] (plainWords args 0 names), b⟩ := by
  have hbind : bindCallee ⟨"lambda", body, ps, []⟩ args p =
      .ok (plainWords args 0 names, [.operand body, .reduce (.lambda l' l'), .exit]) q := by
    simp only [bindCallee, bind, EStateM.bind, Pattern.bindAll_of_names hps, Nat.ne_of_lt hlt, Bool.false_eq_true,
      ↓reduceIte, hparts]
    rfl
  rw [resume_lambda hi hl, if_neg hroom, List.take_of_length_le (Nat.le_of_lt hlt),
    List.drop_eq_nil_of_le (Nat.le_of_lt hlt), hbind]

/-! ### Runs -/

/-- Two runs come to the same, apart from the scopes that are open after an error, or the first one fails for lack of
room. -/
inductive Coincides (e : Environment) :
    EStateM.Result Error Machine Unit → EStateM.Result Error Machine Unit → Prop where
  | same {r : EStateM.Result Error Machine Unit} : Coincides e r r
  | error {err : Error} {v : Values} {scs scs' : List Scope} {b : Nat} :
      Coincides e (.error err ⟨v, { e with inner := scs ++ e.inner }, b⟩)
        (.error err ⟨v, { e with inner := scs' ++ e.inner }, b⟩)
  | deep {l : Nat} {m : Machine} {r : EStateM.Result Error Machine Unit} : Coincides e (.error (.recursion l) m) r

/-- There is no room for the scope of a function. -/
theorem coincides_of_lt {e' : Environment} {r : EStateM.Result Error Machine Unit} (hi : p.LambdaOver i names body)
    (hroom : e.limit < e.depth) : Coincides e' (run ⟨⟨p, s.stacked (vs :: fs)⟩, e, b⟩ (.visit i :: ts)) r := by
  obtain ⟨l, ps, hi, hl, -⟩ := hi
  rw [run_cons, resume_lambda hi hl, if_pos hroom]
  exact .deep

theorem coincides_of_reads {sc sc' sc'' : Scope} (hus : ∀ u ∈ us, u.Stays)
    (hreads : Ground.Reads ⟨s, { e with inner := sc' :: sc :: e.inner }⟩ ⟨s, { e with inner := sc'' :: e.inner }⟩) :
    Coincides e
      (run ⟨⟨p, s.stacked (vs :: fs)⟩, { e with inner := sc' :: sc :: e.inner }, b⟩ (us ++ .exit :: .exit :: ts))
      (run ⟨⟨p, s.stacked (vs :: fs)⟩, { e with inner := sc'' :: e.inner }, b⟩ (us ++ .exit :: ts)) := by
  have hmatches := matches_run hreads (x := ⟨p, vs :: fs, [], b⟩) (.of_stays hus)
  have hexit (m : Machine) (ts : List Task) : m.run (.exit :: ts) = run ⟨m.values, m.env.exit.2, m.budget⟩ ts := by
    rw [run_cons]
    rfl
  change Matches _ _ _ (run ⟨⟨p, s.stacked (vs :: fs)⟩, { e with inner := sc' :: sc :: e.inner }, b⟩ us)
    (run ⟨⟨p, s.stacked (vs :: fs)⟩, { e with inner := sc'' :: e.inner }, b⟩ us) at hmatches
  rw [run_append, run_append]
  generalize run ⟨⟨p, s.stacked (vs :: fs)⟩, { e with inner := sc' :: sc :: e.inner }, b⟩ us = r at hmatches ⊢
  generalize run ⟨⟨p, s.stacked (vs :: fs)⟩, { e with inner := sc'' :: e.inner }, b⟩ us = r' at hmatches ⊢
  cases hmatches with
  | @ok _ z hz =>
    obtain ⟨q, gs, scs, b'⟩ := z
    obtain rfl := List.eq_nil_of_length_eq_zero (Prod.mk.inj hz).2
    simp only [hexit]
    exact .same
  | @error err z =>
    have hinner (scs : List Scope) : z.scopes ++ (scs ++ e.inner) = (z.scopes ++ scs) ++ e.inner :=
      (List.append_assoc _ _ _).symm
    simp only [Layer.on]
    rw [show sc' :: sc :: e.inner = [sc', sc] ++ e.inner from rfl, show sc'' :: e.inner = [sc''] ++ e.inner from rfl,
      hinner, hinner]
    exact .error (v := ⟨z.pool, s.stacked z.frames⟩)
  | deep => exact .deep

/-- Tasks in two scopes with a word each, and in one scope with words of the same meaning. -/
theorem coincides_opened {name : String} {u v u' v' : Word} (us : List Task) (hus : ∀ t ∈ us, t.Stays) (hu : u.name = u'.name)
    (hv : v.name = v'.name) (hmu : u.meaning = u'.meaning) (hmv : v.meaning = v'.meaning) :
    Coincides e
      (run ⟨⟨p, s.stacked (vs :: fs)⟩, (e.opened name [] [u]).opened name [] [v], b⟩ (us ++ .exit :: .exit :: ts))
      (run ⟨⟨p, s.stacked (vs :: fs)⟩, e.opened name [] [u', v'], b⟩ (us ++ .exit :: ts)) := by
  have hreads : Ground.Reads ⟨s, (e.opened name [] [u]).opened name [] [v]⟩ ⟨s, e.opened name [] [u', v']⟩ :=
    Ground.reads_opened hu hv hmu hmv
  simp only [Environment.opened_eq] at hreads ⊢
  exact coincides_of_reads hus hreads

/-- The function of two parameters and the function that gives a function, where there is a value for the first
parameter. -/
theorem coincides_curried {v : NodeId} (hi : p.LambdaOver i [x] f) (hf : p.get? f = some (.branch .exprs [h]))
    (hh : p.LambdaOver h [y] body) (hj : p.LambdaOver j [x, y] body) :
    Coincides e (run ⟨⟨p, s.stacked ((v :: vs) :: fs)⟩, e, b⟩ (.visit i :: ts))
      (run ⟨⟨p, s.stacked ((v :: vs) :: fs)⟩, e, b⟩ (.visit j :: ts)) := by
  by_cases hroom : e.limit < e.depth
  · exact coincides_of_lt hi hroom
  let e₁ := e.opened "lambda" [] (plainWords [v] 0 [x])
  have hfirst : run ⟨⟨p, s.stacked ((v :: vs) :: fs)⟩, e, b⟩ (.visit i :: ts) =
      run ⟨⟨p, s.stacked (vs :: fs)⟩, e₁, b⟩ (.visit h :: .exit :: ts) := by
    have hexprs : resume ⟨⟨p, s.stacked (vs :: fs)⟩, e₁, b⟩ (.visit f) = .ok [.visit h] ⟨⟨p, s.stacked (vs :: fs)⟩, e₁, b⟩ :=
      visit_of_plan (m := ⟨⟨p, s.stacked (vs :: fs)⟩, e₁, b⟩) hf (by decide) rfl
    exact (run_of_resume (resume_lambdaOver_full [v] hi hroom rfl) ts).trans (run_of_resume hexprs _)
  rw [hfirst]
  by_cases hroom₁ : e₁.limit < e₁.depth
  · exact coincides_of_lt hh hroom₁
  cases vs with
  | nil =>
    obtain ⟨l, ps, hh, hl, hps⟩ := hh
    obtain ⟨l', qs, hj, hl', hqs⟩ := hj
    obtain _ | ⟨hx, _ | ⟨hy, _ | _⟩⟩ := hqs
    obtain _ | ⟨hy', _ | _⟩ := hps
    obtain rfl := Pool.eq_of_get? hy hy'
    -- both functions leave the parameter `y` over the body
    obtain ⟨k, q, hparts, -, -⟩ := Pattern.lambdaParts_of_names (.cons hy .nil)
    rw [run_of_resume (resume_lambdaOver_few [] hh hl (.cons hy .nil) hroom₁ (by simp) hparts),
      run_of_resume (resume_lambdaOver_few [v] hj hl' (.cons hx (.cons hy .nil)) hroom (by simp) hparts)]
    exact coincides_opened [.operand body, .reduce (.lambda k k)] (by simp [Task.Stays, Reduction.Stays]) rfl rfl
      rfl rfl
  | cons w vs =>
    have hinner : resume ⟨⟨p, s.stacked ((w :: vs) :: fs)⟩, e₁, b⟩ (.visit h) = _ :=
      resume_lambdaOver_full [w] hh hroom₁ rfl
    have hboth : resume ⟨⟨p, s.stacked ((v :: w :: vs) :: fs)⟩, e, b⟩ (.visit j) = _ :=
      resume_lambdaOver_full [v, w] hj hroom rfl
    rw [run_of_resume hinner, run_of_resume hboth]
    exact coincides_opened [.visit body] (by simp [Task.Stays]) rfl rfl rfl rfl

/-! ### Folds -/

theorem Coincides.concluded_eq {r r' : EStateM.Result Error Machine Unit} (hr : Coincides e r r') :
    (∃ l m, concluded e r = .error (.recursion l) m) ∨ concluded e r = concluded e r' := by
  cases hr with
  | same => exact .inr rfl
  | error => exact .inr (by simp only [concluded, exitTo_append])
  | deep => exact .inl ⟨_, _, rfl⟩

/-- Visited in a frame of their own, the expressions leave some value in it, unless they fail. -/
def LeaveValues (m : Machine) (ids : List NodeId) : Prop :=
  ∀ m', run ⟨⟨m.pool, m.values.stack.openFrame⟩, m.env, operatorBudget⟩ (ids.reverse.map .visit) = .ok () m' →
    0 < m'.values.stack.frameSize

theorem run_operand_exprs {c : NodeId} {cs : List NodeId} (hc : p.get? c = some (.branch .exprs (i :: cs))) :
    run ⟨⟨p, s⟩, e, b⟩ [.operand c] =
      run (Layer.on ⟨p, [[]], [], b⟩ ⟨s, e⟩) (cs.reverse.map .visit ++ [.visit i, .reduce .collect]) := by
  have hoperand : resume ⟨⟨p, s⟩, e, b⟩ (.operand c) = .ok [.visit c, .reduce .collect] (Layer.on ⟨p, [[]], [], b⟩ ⟨s, e⟩) := by
    have hstep : resume ⟨⟨p, s⟩, e, b⟩ (.operand c) = .ok [.visit c, .reduce .collect] ⟨⟨p, s.openFrame⟩, e, b⟩ := rfl
    rw [hstep, s.openFrame_eq_stacked]
    rfl
  have hexprs : resume (Layer.on ⟨p, [[]], [], b⟩ ⟨s, e⟩) (.visit c) =
      .ok ((i :: cs).reverse.map .visit) (Layer.on ⟨p, [[]], [], b⟩ ⟨s, e⟩) :=
    visit_of_plan (m := Layer.on ⟨p, [[]], [], b⟩ ⟨s, e⟩) hc (by decide) rfl
  rw [run_of_resume hoperand, List.append_nil, run_of_resume hexprs, List.reverse_cons, List.map_append, List.append_assoc]
  rfl

/-- A function of two parameters, applied to at least one value, comes to what the function of the first one comes to that
gives the function of the second one. -/
theorem fold_curried {m : Machine} {c d : NodeId} {as : List NodeId}
    (hc : m.pool.get? c = some (.branch .exprs (i :: as))) (hi : m.pool.LambdaOver i [x] f)
    (hf : m.pool.get? f = some (.branch .exprs [h])) (hh : m.pool.LambdaOver h [y] body)
    (hd : m.pool.get? d = some (.branch .exprs (j :: as))) (hj : m.pool.LambdaOver j [x, y] body)
    (has : m.LeaveValues as) : (∃ l n, m.fold c = .error (.recursion l) n) ∨ m.fold c = m.fold d := by
  obtain ⟨⟨p, s⟩, e, b⟩ := m
  change p.get? c = _ at hc
  change p.get? d = _ at hd
  let start : Layer := ⟨p, [[]], [], operatorBudget⟩
  have hfold (c : NodeId) :
      fold ⟨⟨p, s⟩, e, b⟩ c = concluded e (run ⟨⟨p, s.openFrame⟩, e, operatorBudget⟩ [.operand c]) := rfl
  have hshifts : ShiftsAll (as.reverse.map .visit) start.size (1, 0) := .map fun _ => rfl
  rw [hfold, hfold]
  refine Coincides.concluded_eq ?_
  rw [run_operand_exprs hc, run_operand_exprs hd, run_append, run_append]
  rcases run_on_stacks e hshifts with ⟨z, hz, hok⟩ | ⟨err, z, herror⟩
  · obtain ⟨q, gs, scs, b'⟩ := z
    obtain ⟨vs, rfl⟩ := List.length_eq_one_iff.1 (Prod.mk.inj hz).1
    obtain rfl := List.eq_nil_of_length_eq_zero (Prod.mk.inj hz).2
    have hvalue : 0 < vs.length := by
      have hsize := has (Layer.on ⟨q, [vs], [], b'⟩ ⟨s, e⟩) (by
        rw [s.openFrame_eq_stacked]
        exact hok s)
      simpa [OperandStack.frameSize, OperandStack.base, Layer.on, OperandStack.stacked] using hsize
    obtain ⟨v, vs, rfl⟩ := List.exists_cons_of_length_pos hvalue
    have hgrows : p.Extends q := by
      have haccrued : Accrued p (run (start.on ⟨s, e⟩) (as.reverse.map .visit)) := run_accrues (.map fun _ => trivial)
      rw [hok] at haccrued
      exact haccrued.keeps
    have hargs : run (Layer.on ⟨p, [[]], [], operatorBudget⟩ ⟨s.openFrame, e⟩) (as.reverse.map .visit) = _ := hok _
    simp only [hargs]
    exact coincides_curried (hi.grow hgrows) (hgrows _ _ hf) (hh.grow hgrows) (hj.grow hgrows)
  · have hargs : run (Layer.on ⟨p, [[]], [], operatorBudget⟩ ⟨s.openFrame, e⟩) (as.reverse.map .visit) = _ := herror _
    simp only [hargs]
    exact .same

/-! ### Some functions of two parameters -/

/-- The nodes of `<x: <y: x - y>> 7 3` and of `<x y: x - y> 7 3`. -/
def curriedPool : Pool := .ofNodes [
  .ident "x", .ident "y", .branch .sub [1, 2],
  .branch .list [2], .branch .lambda [4, 3, 4], .branch .exprs [5],
  .branch .list [1], .branch .lambda [7, 6, 7],
  .branch .list [1, 2], .branch .lambda [9, 3, 9],
  .num (.ofInt 7), .num (.ofInt 3), .branch .exprs [8, 11, 12], .branch .exprs [10, 11, 12]]

/-- The two differences are the same. -/
theorem fold_curried_difference : (ofPool curriedPool .initial).LeaveValues [11, 12] ∧
    ((∃ l n, (ofPool curriedPool .initial).fold 13 = .error (.recursion l) n) ∨
      (ofPool curriedPool .initial).fold 13 = (ofPool curriedPool .initial).fold 14) := by
  have hvalues : (ofPool curriedPool .initial).LeaveValues [11, 12] := by
    intro m' hrun
    simp only [ofPool, pool, List.reverse_cons, List.reverse_nil, List.nil_append, List.cons_append, List.map_cons,
      List.map_nil] at hrun
    obtain ⟨m, hvisits, hsize⟩ :
        ∃ m, run ⟨⟨curriedPool, OperandStack.openFrame {}⟩, .initial, operatorBudget⟩ [.visit 12, .visit 11] = .ok () m ∧
          m.values.stack.frameSize = 2 := exists_of_frameSize? (n := 2) (by decide +kernel)
    obtain ⟨-, rfl⟩ := EStateM.Result.ok.inj (hvisits.symm.trans hrun)
    exact hsize ▸ Nat.two_pos
  have hx : (ofPool curriedPool .initial).pool.get? 1 = some (.ident "x") := by decide +kernel
  have hy : (ofPool curriedPool .initial).pool.get? 2 = some (.ident "y") := by decide +kernel
  have hi : (ofPool curriedPool .initial).pool.LambdaOver 8 ["x"] 6 :=
    ⟨7, [1], by decide +kernel, by decide +kernel, .cons hx .nil⟩
  have hh : (ofPool curriedPool .initial).pool.LambdaOver 5 ["y"] 3 :=
    ⟨4, [2], by decide +kernel, by decide +kernel, .cons hy .nil⟩
  have hj : (ofPool curriedPool .initial).pool.LambdaOver 10 ["x", "y"] 3 :=
    ⟨9, [1, 2], by decide +kernel, by decide +kernel, .cons hx (.cons hy .nil)⟩
  exact ⟨hvalues, fold_curried (by decide +kernel) hi (by decide +kernel) hh (by decide +kernel) hj hvalues⟩

/-- The nodes of `<x: <y: x>> <z: > 1` and of `<x y: x> <z: > 1`. -/
def valuelessPool : Pool := .ofNodes [
  .ident "x", .ident "y", .branch .list [2], .branch .lambda [3, 1, 3], .branch .exprs [4],
  .branch .list [1], .branch .lambda [6, 5, 6], .branch .list [1, 2], .branch .lambda [8, 1, 8],
  .ident "z", .branch .list [10], .branch .exprs [], .branch .lambda [11, 12, 11], .num (.ofInt 1),
  .branch .exprs [7, 13, 14], .branch .exprs [9, 13, 14]]

/-- There are two arguments, but the first one takes the value of the second and leaves none. So there is none for `x`, and
what is left are the functions as they are. -/
theorem fold_curried_valueless : valuelessPool.LambdaOver 7 ["x"] 5 ∧ valuelessPool.get? 5 = some (.branch .exprs [4]) ∧
    valuelessPool.LambdaOver 4 ["y"] 1 ∧ valuelessPool.LambdaOver 9 ["x", "y"] 1 ∧
    valuelessPool.get? 15 = some (.branch .exprs [7, 13, 14]) ∧
    valuelessPool.get? 16 = some (.branch .exprs [9, 13, 14]) ∧
    ∃ a r b n t u, (ofPool valuelessPool .initial).fold 15 = .ok a r ∧ (ofPool valuelessPool .initial).fold 16 = .ok b n ∧
      r.pool.tree? a = some t ∧ n.pool.tree? b = some u ∧ t ≠ u := by
  have hx : valuelessPool.get? 1 = some (.ident "x") := by decide +kernel
  have hy : valuelessPool.get? 2 = some (.ident "y") := by decide +kernel
  obtain ⟨a, r, hr, ha⟩ : ∃ a r, (ofPool valuelessPool .initial).fold 15 = .ok a r ∧
      r.pool.tree? a = some (.function ["x"] (.function ["y"] (.ident "x"))) := exists_tree_of_left? (n := 40) (by decide +kernel)
  obtain ⟨b, n, hn, hb⟩ : ∃ b n, (ofPool valuelessPool .initial).fold 16 = .ok b n ∧
      n.pool.tree? b = some (.function ["x", "y"] (.ident "x")) := exists_tree_of_left? (n := 40) (by decide +kernel)
  refine ⟨⟨6, [1], by decide +kernel, by decide +kernel, .cons hx .nil⟩, by decide +kernel,
    ⟨3, [2], by decide +kernel, by decide +kernel, .cons hy .nil⟩,
    ⟨8, [1, 2], by decide +kernel, by decide +kernel, .cons hx (.cons hy .nil)⟩, by decide +kernel, by decide +kernel,
    a, r, b, n, _, _, hr, hn, ha, hb, by decide +kernel⟩

end Machine

end Linefold
