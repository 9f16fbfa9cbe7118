import Linefold.Proofs.Scoping.Mirrors

/-!
# Calls under the scopes of a caller

`Machine.applyTo` applies a function to arguments, as a call within a fold does. What it gives does not
depend on the scopes of the caller as long as they bind no name that the function uses
(`applyTo_callers`). They do matter otherwise: the names of a function are looked up where it is called, so
that a parameter of the caller hides a definition of the same name (`applyTo_captured`).
-/

namespace Linefold

attribute [local irreducible] Pool.intern

theorem OperandStack.pushes_stacked {s : OperandStack} {fs : List (List NodeId)} (ids : List NodeId) :
    ids.foldr (fun id s => s.push id) (s.stacked ([] :: fs)) = s.stacked (ids :: fs) := by
  induction ids with
  | nil => rfl
  | cons id ids ih => rw [List.foldr_cons, ih, push_stacked]

namespace Machine

open Pattern (PoolM)

variable {s : OperandStack} {b : Nat} {e : Environment} {p : Pool} {args : List NodeId} {callee : Callee}

/-! ### Applying a function -/

/-- Applies a function to the values of a frame, the first on top, and gives the one value that it comes to. -/
def applyTo (m : Machine) (callee : Callee) (args : List NodeId) : EStateM.Result Error Machine NodeId :=
  match m with
  | ⟨⟨pool, stack⟩, env, _⟩ =>
    let operands := args.foldr (fun id s => s.push id) stack.openFrame.openFrame
    concluded env (Step.work (apply ⟨⟨pool, operands⟩, env, operatorBudget⟩ callee) [.reduce .collect])

/-- What a function is applied for, by recursion. -/
def applied (e : Environment) (callee : Callee) (args : List NodeId) : PoolM NodeId := do
  Evaluator.single (← Evaluator.apply e callee args)

theorem applyTo_eq_applied (he : e.Unnamed p)
    (hlexicon : callee.lexicon.All (Word.Throughout (Word.Unnamed p))) :
    applyTo ⟨⟨p, s⟩, e, b⟩ callee args = match applied e callee args p with
      | .ok id q => .ok id ⟨⟨q, s⟩, e, operatorBudget⟩
      | .error err q => .error err ⟨⟨q, {}⟩, e, operatorBudget⟩ := by
  have hopen : (s.stacked []).openFrame.openFrame = s.stacked [[], []] := by
    rw [OperandStack.openFrame_stacked, OperandStack.openFrame_stacked]
  have happly : Computes s operatorBudget e (Step.work (apply ⟨⟨p, s.stacked [args, []]⟩, e, operatorBudget⟩ callee))
      (Evaluator.apply e callee args) (fun us => [us, []]) p :=
    computes_apply (fun f _ nid => evaluates f nid) he hlexicon
  have hwork := happly.followed ensures_trivial fun us q _ _ => computes_collect
  have happlied := concluded_of_computes hwork
  rw [← OperandStack.pushes_stacked, ← hopen] at happlied
  exact happlied

/-! ### Callers -/

theorem mirrors_applied {N : String → Prop} {e' : Environment} {p₀ : Pool} (he : Scoped p₀ p N e e')
    (hlexicon : callee.lexicon.All (Word.Throughout (Word.Contained p₀ N)))
    (hcallee : callee.Contained p₀ N) : Mirrors (applied e callee args) (applied e' callee args) p :=
  (mirrors_apply (fun f _ nid => tracks p₀ f nid) he hlexicon hcallee).bind fun _ _ _ => mirrors_single

/-- Callers do not matter to a function if they bind no name of `N`, which are the names that the function
and the functions with these names use. -/
theorem applyTo_callers {m : Machine} {callers : List Scope} {N : String → Prop} {name : String} {w : Word}
    {c : Closure Word} (hunnamed : m.env.Unnamed m.pool)
    (hvalues : ∀ sc ∈ callers, sc.lexicon.All fun _ w => w.cls = .value)
    (hw : m.env.lookup? name = some w) (hcls : w.cls = .function) (hclosure : w.closure = some c)
    (hcontained : w.Throughout (Word.Contained m.pool N) name)
    (hclosed : ∀ x w, N x → m.env.lookup? x = some w → w.Throughout (Word.Contained m.pool N) x)
    (hfree : ∀ x, N x → ∀ sc ∈ callers, sc.get? x = none) :
    let m' := { m with env := { m.env with inner := callers ++ m.env.inner } }
    let callee : Callee := ⟨name, w.nid, c.pattern, c.lexicon⟩
    (∃ limit r, m'.applyTo callee args = .error (.recursion limit) r) ∨
      match m.applyTo callee args with
      | .ok id r => m'.applyTo callee args = .ok id { r with env := m'.env }
      | .error err r => m'.applyTo callee args = .error err { r with env := m'.env } := by
  obtain ⟨⟨p, s⟩, e, b⟩ := m
  intro m' callee
  have hunnamed : e.Unnamed p := hunnamed
  have hcontained : w.Throughout (Word.Contained p N) name := hcontained
  have hlexicon : callee.lexicon.All (Word.Throughout (Word.Unnamed p)) :=
    (hunnamed.lookup? hw).lexicon hcls hclosure
  have hunnamed' : Environment.Unnamed { e with inner := callers ++ e.inner } p := by
    refine ⟨hunnamed.globals, fun sc hsc => ?_⟩
    rcases List.mem_append.1 hsc with hsc | hsc
    · refine (hvalues sc hsc).mono fun x w hw => ?_
      exact .of_ne (by simp [hw]) fun t ht => nomatch hw.symm.trans ht
    · exact hunnamed.inner sc hsc
  have hscoped : Scoped p p N e { e with inner := callers ++ e.inner } :=
    ⟨.refl p, hclosed, rfl, by simp [Environment.depth], fun x hx => Environment.lookup?_callers (hfree x hx)⟩
  have happly : applyTo ⟨⟨p, s⟩, e, b⟩ callee args = _ := applyTo_eq_applied hunnamed hlexicon
  have happly' : m'.applyTo callee args = _ := applyTo_eq_applied hunnamed' hlexicon
  have hmirrors : Mirrors (applied e callee args) (applied _ callee args) p :=
    mirrors_applied hscoped (hcontained.lexicon hcls hclosure) (hcontained.self hcls c hclosure)
  rcases hmirrors with ⟨limit, q, hq⟩ | hmirrors
  · left
    rw [hq] at happly'
    exact ⟨limit, _, happly'⟩
  · right
    cases hresult : applied e callee args p with
    | ok id q =>
      simp only [Ensures, hresult] at hmirrors
      rw [hresult] at happly
      rw [hmirrors.2] at happly'
      rw [happly]
      exact happly'
    | error err q =>
      simp only [Ensures, hresult] at hmirrors
      rw [hresult] at happly
      rw [hmirrors] at happly'
      rw [happly]
      exact happly'

/-! ### A definition by another one -/

/-- The nodes of `let g = "a".. let f = g..`. -/
def aliasPool : Pool := .ofNodes [.str "a", .branch .exprs [1], .ident "g", .branch .exprs [3]]

/-- A function without parameters. -/
def constantWord (name : String) (body : NodeId) : Word :=
  { Word.function name with nid := body, closure := some ⟨[], [], []⟩ }

/-- The environment that `let g = "a".. let f = g..` leaves. -/
def aliasEnvironment : Environment :=
  (Environment.initial.bind "g" (constantWord "g" 2)).bind "f" (constantWord "f" 4)

theorem get?_aliasPool {i : Nat} : aliasPool.get? (i + 1) =
    [Node.str "a", .branch .exprs [1], .ident "g", .branch .exprs [3]][i]? := by
  have hnodes : aliasPool.nodes = _ := Pool.nodes_ofNodes (by decide) (by decide)
  show aliasPool.nodes[i]? = _
  rw [hnodes, List.getElem?_toArray]

/-- The only name in the pool is `g`, and the only nodes with children are expression lists. -/
theorem node_aliasPool {id : NodeId} {n : Node} (h : aliasPool.get? id = some n) :
    (∀ x, n = .ident x → x = "g") ∧ ∀ t es, n = .branch t es → t = .exprs := by
  rcases id with _ | _ | _ | _ | _ | id
  · cases h
  all_goals
    rw [get?_aliasPool] at h
    cases h
  all_goals simp

theorem eq_of_free_aliasPool {x : String} {id : NodeId} (hx : aliasPool.Free x id) : x = "g" := by
  induction hx with
  | name h => exact (node_aliasPool h).1 _ rfl
  | child _ _ _ _ ih => exact ih
  | value h | lambda h | scrutinee h | pattern h | body h => exact nomatch (node_aliasPool h).2 _ _ rfl

theorem unnamed_aliasEnvironment : aliasEnvironment.Unnamed aliasPool := by
  have hconstant (name : String) (body : NodeId) :
      (constantWord name body).Throughout (Word.Unnamed aliasPool) name :=
    .intro nofun fun _ c hc => by
      cases hc
      exact Lexicon.all_nil
  refine ((Environment.all_initial fun w hw => ?_).bind (hconstant "g" 2)).bind (hconstant "f" 4)
  have hnames : ∀ w ∈ Environment.operatorWords, w.1 ≠ "g" := by decide
  exact .of_ne (by simp [Word.operator]) fun _ _ id hid => hnames w hw ((node_aliasPool hid).1 _ rfl)

theorem lookup?_aliasEnvironment : aliasEnvironment.lookup? "f" = some (constantWord "f" 4) ∧
    aliasEnvironment.lookup? "g" = some (constantWord "g" 2) := by
  have hget {x : String} : aliasEnvironment.lookup? x =
      Lexicon.find? ((Environment.initial.globals.lexicon.insert "g" (constantWord "g" 2)).insert "f"
        (constantWord "f" 4)) x := Option.none_or
  rw [hget, hget, Lexicon.find?_insert, Lexicon.find?_insert, Lexicon.find?_insert, Lexicon.find?_insert]
  exact ⟨rfl, rfl⟩

theorem contained_constantWord {name : String} {body : NodeId} (hbody : body ≤ 4) :
    (constantWord name body).Throughout (Word.Contained aliasPool (· = "g")) name := by
  have hsize : aliasPool.size = 4 := by
    have hnodes : aliasPool.nodes = _ := Pool.nodes_ofNodes (by decide) (by decide)
    rw [Pool.size, hnodes]
    rfl
  refine .intro (fun _ c hc => ?_) fun _ c hc => ?_
  · cases hc
    exact ⟨⟨hsize ▸ hbody, fun x hx => .inl (eq_of_free_aliasPool hx)⟩, List.forall_mem_nil _⟩
  · cases hc
    exact Lexicon.all_nil

/-- Under a parameter `h` of its caller `f` gives what it gives alone. -/
theorem applyTo_otherCaller :
    let m := ofPool aliasPool aliasEnvironment
    let m' := { m with env := { m.env with inner := [Scope.mk "k" [("h", .value "h" 0)]] ++ m.env.inner } }
    let f : Callee := ⟨"f", 4, [], []⟩
    (∃ limit r, m'.applyTo f [] = .error (.recursion limit) r) ∨
      match m.applyTo f [] with
      | .ok id r => m'.applyTo f [] = .ok id { r with env := m'.env }
      | .error err r => m'.applyTo f [] = .error err { r with env := m'.env } := by
  refine applyTo_callers (m := ofPool aliasPool aliasEnvironment) (N := (· = "g")) (w := constantWord "f" 4)
    (c := ⟨[], [], []⟩) unnamed_aliasEnvironment ?_ lookup?_aliasEnvironment.1 rfl rfl
    (contained_constantWord (Nat.le_refl 4)) ?_ ?_
  · simp [Lexicon.All, Word.value]
  · rintro x w rfl hw
    cases lookup?_aliasEnvironment.2.symm.trans hw
    exact contained_constantWord (by decide)
  · rintro x rfl
    simp [Scope.get?, Lexicon.find?]

theorem apply_constant {name : String} {body : NodeId} {l : Lexicon} {vs : List NodeId}
    (h : ¬ e.limit < e.depth) : Evaluator.apply e ⟨name, body, [], l⟩ vs p =
      Evaluator.visit (e.opened name l []) body vs p := by
  rw [Evaluator.apply]
  simp only [h, ↓reduceDIte]
  rfl

theorem visit_alone {nid c : NodeId} {vs : List NodeId} (h : p.get? nid = some (.branch .exprs [c])) :
    Evaluator.visit e nid vs p = Evaluator.visit e c vs p := by
  have hrest {hlt : ∀ d ∈ ([] : List NodeId), d < nid} (us : List NodeId) :
      Evaluator.visitAll e nid [] hlt us = pure us := by rw [Evaluator.visitAll]
  rw [Evaluator.visit_of_branch h (by decide), Evaluator.visitBranch.eq_def]
  simp only [List.reverse_singleton]
  rw [Evaluator.visitAll]
  simp only [hrest, bind_pure]

/-- The definition of `f` by `g` comes to `"a"`, but under a parameter `g` of its caller to the name `g`. -/
theorem applyTo_captured :
    let f : Callee := ⟨"f", 4, [], []⟩
    let e : Environment := { aliasEnvironment with inner := [⟨"k", [("g", .value "g" 0)]⟩] }
    applyTo (ofPool aliasPool aliasEnvironment) f [] = .ok 1 (ofPool aliasPool aliasEnvironment) ∧
      applyTo (ofPool aliasPool e) f [] = .ok 3 (ofPool aliasPool e) := by
  intro f e
  have hunnamed : e.Unnamed aliasPool := by
    refine ⟨unnamed_aliasEnvironment.globals, fun sc hsc => ?_⟩
    cases List.mem_singleton.1 hsc
    intro nw hnw
    cases List.mem_singleton.1 hnw
    exact .of_ne (by simp [Word.value]) fun t ht => nomatch ht
  have hvisit : Evaluator.apply aliasEnvironment f [] aliasPool = .ok [1] aliasPool := by
    have hword : (aliasEnvironment.opened "f" [] []).lookup? "g" = some (constantWord "g" 2) :=
      Environment.lookup?_opened.trans lookup?_aliasEnvironment.2
    calc Evaluator.apply aliasEnvironment f [] aliasPool
      _ = Evaluator.visit (aliasEnvironment.opened "f" [] []) 4 [] aliasPool := apply_constant (by decide)
      _ = Evaluator.visit (aliasEnvironment.opened "f" [] []) 3 [] aliasPool := visit_alone get?_aliasPool
      _ = Evaluator.visitName (aliasEnvironment.opened "f" [] []) 3 "g" [] aliasPool :=
        Evaluator.visit_of_ident get?_aliasPool
      _ = Evaluator.apply (aliasEnvironment.opened "f" [] []) ⟨"g", 2, [], []⟩ [] aliasPool := by
        rw [Evaluator.visitName, hword]
        rfl
      _ = Evaluator.visit ((aliasEnvironment.opened "f" [] []).opened "g" [] []) 2 [] aliasPool :=
        apply_constant (by decide)
      _ = Evaluator.visit ((aliasEnvironment.opened "f" [] []).opened "g" [] []) 1 [] aliasPool :=
        visit_alone get?_aliasPool
      _ = .ok [1] aliasPool := Evaluator.visit_of_leaf get?_aliasPool (by simp) (by simp)
  have hvisit' : Evaluator.apply e f [] aliasPool = .ok [3] aliasPool := by
    have hword : (e.opened "f" [] []).lookup? "g" = some (.value "g" 0) := Environment.lookup?_opened
    calc Evaluator.apply e f [] aliasPool
      _ = Evaluator.visit (e.opened "f" [] []) 4 [] aliasPool := apply_constant (by decide)
      _ = Evaluator.visit (e.opened "f" [] []) 3 [] aliasPool := visit_alone get?_aliasPool
      _ = Evaluator.visitName (e.opened "f" [] []) 3 "g" [] aliasPool :=
        Evaluator.visit_of_ident get?_aliasPool
      _ = .ok [3] aliasPool := by
        rw [Evaluator.visitName, hword]
        rfl
  have happlied : applied aliasEnvironment f [] aliasPool = .ok 1 aliasPool := by
    simp only [applied, bind, EStateM.bind, hvisit]
    rfl
  have happlied' : applied e f [] aliasPool = .ok 3 aliasPool := by
    simp only [applied, bind, EStateM.bind, hvisit']
    rfl
  constructor
  · exact (applyTo_eq_applied unnamed_aliasEnvironment Lexicon.all_nil).trans (by rw [happlied]; rfl)
  · exact (applyTo_eq_applied hunnamed Lexicon.all_nil).trans (by rw [happlied']; rfl)

end Machine

end Linefold
