import Linefold.Proofs.Evaluation.Computes
import Linefold.Proofs.Evaluation.Scopes

/-!
# Names and functions, by tasks and by recursion

`Evaluates e nid`: a visit to the node, wherever it happens in the scopes of `e`, computes what the evaluator
says. From this for the nodes below, and for all nodes where fewer scopes may be opened, follows that values
in turn, names and applied functions are computed so.
-/

namespace Linefold.Machine

open Pattern (PoolM)

attribute [local irreducible] Pool.intern

variable {s : OperandStack} {b : Nat} {e : Environment} {p q : Pool} {vs ids : List NodeId}
  {fs : List (List NodeId)} {nid id : NodeId} {name : String}

/-! ### Values in turn -/

/-- A visit to the node, wherever it happens in the scopes of `e`, is what the evaluator says. -/
def Evaluates (e : Environment) (nid : NodeId) : Prop :=
  ∀ (s : OperandStack) (b : Nat) (p : Pool) (vs : List NodeId) (fs : List (List NodeId)), e.Unnamed p →
    Computes s b e (doing ⟨⟨p, s.stacked (vs :: fs)⟩, e, b⟩ [.visit nid]) (Evaluator.visit e nid vs)
      (· :: fs) p

theorem computes_operand (h : Evaluates e nid) (he : e.Unnamed p) :
    Computes s b e (doing ⟨⟨p, s.stacked (vs :: fs)⟩, e, b⟩ [.operand nid]) (Evaluator.operand e nid)
      (fun id => (id :: vs) :: fs) p := by
  have hvisit := (h s b p [] (vs :: fs) he).bind fun _ _ _ => computes_collect
  rw [Evaluator.operand, doing_singleton]
  exact hvisit.framed

theorem computes_visitAll {hlt : ∀ c ∈ ids, c < nid} (h : ∀ c ∈ ids, Evaluates e c) (he : e.Unnamed p) :
    Computes s b e (doing ⟨⟨p, s.stacked (vs :: fs)⟩, e, b⟩ (ids.map .visit))
      (Evaluator.visitAll e nid ids hlt vs) (· :: fs) p := by
  induction ids generalizing vs p with
  | nil =>
    rw [Evaluator.visitAll]
    exact computes_pure (· :: fs)
  | cons c ids ih =>
    obtain ⟨hc, hids⟩ := List.forall_mem_cons.1 h
    rw [Evaluator.visitAll]
    exact (hc s b p vs fs he).bind fun us q hpq => ih hids (he.mono hpq)

theorem computes_operands {hlt : ∀ c ∈ ids, c < nid} (h : ∀ c ∈ ids, Evaluates e c) (he : e.Unnamed p) :
    Computes s b e (doing ⟨⟨p, s.stacked (vs :: fs)⟩, e, b⟩ (ids.map .operand))
      (Evaluator.operands e nid ids hlt) (fun us => (us.reverse ++ vs) :: fs) p := by
  induction ids generalizing vs p with
  | nil =>
    rw [Evaluator.operands]
    exact computes_pure fun us : List NodeId => (us.reverse ++ vs) :: fs
  | cons c ids ih =>
    obtain ⟨hc, hids⟩ := List.forall_mem_cons.1 h
    rw [Evaluator.operands]
    refine (computes_operand hc he).bind fun v q hpq => ?_
    exact (ih hids (he.mono hpq)).map fun us => by simp

theorem length_operands {hlt : ∀ c ∈ ids, c < nid} : Ensures (Evaluator.operands e nid ids hlt)
    (fun us _ => us.length = ids.length) (fun _ _ => True) p := by
  induction ids generalizing p with
  | nil =>
    rw [Evaluator.operands]
    exact rfl
  | cons c ids ih =>
    rw [Evaluator.operands]
    refine Ensures.bind_iff.2 (ensures_trivial.mono (fun v q _ => ?_) fun _ _ h => h)
    exact Ensures.bind_iff.2 (ih.mono (fun us _ h => congrArg (· + 1) h) fun _ _ h => h)

/-! ### Functions and names -/

/-- All nodes are evaluated where fewer scopes may still be opened. -/
def EvaluatesWithin (e : Environment) : Prop := ∀ e' : Environment, e'.room < e.room → ∀ nid, Evaluates e' nid

theorem Computes.enter {name : String} {lexicon : Lexicon} {words : List Word} {α : Type} {f : PoolM α}
    {after : α → List (List NodeId)} (tasks : List Task) (hlimit : ¬ e.limit < e.depth)
    (h : Computes s b (e.opened name lexicon words)
      (doing ⟨⟨p, s.stacked fs⟩, e.opened name lexicon words, b⟩ tasks) f after p) :
    Computes s b e (Step.work (entering ⟨⟨p, s.stacked fs⟩, e, b⟩ name lexicon words (tasks ++ [.exit])))
      f after p := by
  rw [entering_of_not_lt hlimit]
  exact h.inside (e.opened_eq name lexicon words)

/-- A step that begins with a computation on the pool. -/
theorem computes_onPool {α γ δ : Type} {f : PoolM γ} {h : γ → PoolM δ} {g : γ → PoolM α} {P : γ → Prop}
    {k : δ → Machine → Step} {after : α → List (List NodeId)} (hf : Pattern.Adds f P)
    (hk : ∀ c q, p.Grows q → P c →
      Computes s b e (Step.work (onValues ⟨⟨q, s.stacked fs⟩, e, b⟩ (onPool (h c)) k)) (g c) after q) :
    Computes s b e (Step.work (onValues ⟨⟨p, s.stacked fs⟩, e, b⟩ (onPool (f >>= h)) k)) (f >>= g) after p := by
  intro ts
  have hfp := hf p
  unfold Ensures at hfp
  rw [Ensures.bind_iff]
  cases hres : f p with
  | ok c q =>
    rw [hres] at hfp
    have hwork : onValues ⟨⟨p, s.stacked fs⟩, e, b⟩ (onPool (f >>= h)) k =
        onValues ⟨⟨q, s.stacked fs⟩, e, b⟩ (onPool (h c)) k := by
      simp only [onValues, onPool, bind, EStateM.bind, hres]
    rw [hwork]
    refine .of_ok hres ((hk c q hfp.1 hfp.2 ts).mono (fun a r h => ?_) fun _ _ h => h)
    exact ⟨hfp.1.trans h.1, h.2⟩
  | error err q =>
    have hwork : onValues ⟨⟨p, s.stacked fs⟩, e, b⟩ (onPool (f >>= h)) k =
        .error err ⟨⟨q, s.stacked fs⟩, e, b⟩ := by
      simp only [onValues, onPool, bind, EStateM.bind, hres]
    unfold Ensures
    rw [hres, hwork]
    exact ⟨_, [], rfl⟩

/-- A function of the parameters left. -/
theorem computes_partial {names pattern : NodeId} (h : Evaluates e nid) (he : e.Unnamed p) : Computes s b e
    (doing ⟨⟨p, s.stacked (vs :: fs)⟩, e, b⟩ [.operand nid, .reduce (.lambda names pattern)])
      (do
        let body ← Evaluator.operand e nid
        return (← PoolM.intern (.branch .lambda [names, body, pattern])) :: vs) (· :: fs) p :=
  (computes_operand h he).bind fun _ _ _ => computes_lambda.map fun _ => rfl

/-- A function that stays applied. -/
theorem computes_late (names pattern : NodeId) (args vs : List NodeId) (fs : List (List NodeId))
    (h : Evaluates e nid) (he : e.Unnamed p) : Computes s b e
    (doing ⟨⟨p, s.stacked (vs :: fs)⟩, e, b⟩ ([.operand nid] ++ ([.reduce (.lambda names pattern)] ++
      (args.map (Task.reduce <| .push ·) ++ [.reduce (.build .apply (args.length + 1))]))))
      (do
        let body ← Evaluator.operand e nid
        let lambda ← PoolM.intern (.branch .lambda [names, body, pattern])
        return (← PoolM.intern (.branch .apply (lambda :: args))) :: vs) (· :: fs) p := by
  refine (computes_operand h he).bind fun body q _ => computes_lambda.bind fun lambda r _ => ?_
  have hbuild : Computes s b e (doing ⟨⟨r, s.stacked (((lambda :: args).reverse ++ vs) :: fs)⟩, e, b⟩
      [.reduce (.build .apply (lambda :: args).length)]) _ _ r :=
    computes_build (by decide) (lambda :: args) vs
  rw [doing_pushes]
  rw [List.reverse_cons, List.append_assoc] at hbuild
  exact hbuild.map fun _ => rfl

theorem computes_apply {callee : Callee} (hinner : EvaluatesWithin e) (he : e.Unnamed p)
    (hlexicon : callee.lexicon.All (Word.Throughout (Word.Unnamed p))) :
    Computes s b e (Step.work (apply ⟨⟨p, s.stacked (vs :: fs)⟩, e, b⟩ callee))
      (Evaluator.apply e callee vs) (· :: fs) p := by
  rw [Evaluator.apply, apply, onValues_of_ok takeArgs_stacked]
  generalize vs.take callee.pattern.length = args, vs.drop callee.pattern.length = rest
  by_cases hlimit : e.limit < e.depth
  · simp only [hlimit, ↓reduceIte, ↓reduceDIte]
    exact computes_error rfl
  simp only [hlimit, ↓reduceIte, ↓reduceDIte]
  unfold bindCallee
  refine computes_onPool (Pattern.adds_bindAll args 0 callee.pattern) fun bound q hpq hwords => ?_
  have hroom := Environment.room_opened_lt hlimit callee.name callee.lexicon bound.words
  have hopened {r : Pool} (hpr : p.Grows r) :
      (e.opened callee.name callee.lexicon bound.words).Unnamed r :=
    (he.mono hpr).opened _ (hlexicon.mono fun _ _ h => h.mono fun _ _ h => h.mono hpr) hwords
  split
  · refine computes_onPool (Pattern.adds_lambdaParts callee.pattern) fun parts r hqr _ => ?_
    have hbody := hinner _ hroom callee.body
    have hlate := Computes.enter _ hlimit (computes_late parts.1 parts.2 args rest fs hbody
      (hopened (hpq.trans hqr)) (s := s) (b := b))
    simp only [List.cons_append, List.append_assoc] at hlate
    exact hlate
  · split
    · exact Computes.enter [.visit callee.body] hlimit
        (hinner _ hroom callee.body s b q rest fs (hopened hpq))
    · refine computes_onPool (Pattern.adds_lambdaParts _) fun parts r hqr _ => ?_
      exact Computes.enter [.operand callee.body, .reduce (.lambda parts.1 parts.2)] hlimit
        (computes_partial (hinner _ hroom callee.body) (hopened (hpq.trans hqr)))

theorem computes_value : Computes s b e (Step.work (reducing ⟨⟨p, s.stacked (vs :: fs)⟩, e, b⟩ (ValuesM.push id) []))
    (pure (id :: vs)) (· :: fs) p := by
  rw [reducing, onValues_of_ok ValuesM.push_stacked]
  exact computes_pure (· :: fs)

theorem computes_visitName (hinner : EvaluatesWithin e) (he : e.Unnamed p)
    (hnid : p.get? nid = some (.ident name)) :
    Computes s b e (Step.work (visitName ⟨⟨p, s.stacked (vs :: fs)⟩, e, b⟩ nid name))
      (Evaluator.visitName e nid name vs) (· :: fs) p := by
  unfold visitName
  rw [Evaluator.visitName]
  cases hword : e.lookup? name with
  | none => exact computes_value
  | some word =>
    have hw := he.lookup? hword
    cases hcls : word.cls with
    | value =>
      simp only [hcls]
      exact computes_value
    | operator t => exact absurd hnid (hw.self t hcls nid)
    | function =>
      simp only [hcls]
      cases hclosure : word.closure with
      | none => exact computes_value
      | some closure =>
        simp only
        split
        · exact computes_value
        · exact computes_apply hinner he (hw.lexicon hcls hclosure)

end Linefold.Machine
