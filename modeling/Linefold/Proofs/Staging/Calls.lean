import Linefold.Proofs.Scoping.Free
import Linefold.Proofs.Staging.Binding

/-!
# Functions applied in a run

The visit to a node that is a function takes its arguments from the values of its frame, and brings what `Tree.applied` says
(`Machine.brings_call`), if its body has a value where the parameters are bound.
-/

namespace Linefold

attribute [local irreducible] Pool.intern

open Linefold.Tree

/-! ### The scope of a function -/

section

variable {p q : Pool} {e : Environment} {ps vs : List Tree} {xs : List String} {x : String} {ws : List Word} {sc : Scope}
  {w : Word} {xos : List (String × Option Tree)} {X Y : String → Prop} {ρ σ : String → Option Tree}

theorem Scope.get?_bind : (sc.bind w.name w).get? x = if x = w.name then some w else sc.get? x :=
  Lexicon.find?_insert _ _ _ _

theorem Scope.get?_bindAll_of_not_mem (h : x ∉ ws.map Word.name) :
    (ws.foldl (fun sc w => Scope.bind sc w.name w) sc).get? x = sc.get? x := by
  induction ws generalizing sc with
  | nil => rfl
  | cons w ws ih =>
    obtain ⟨hne, hx⟩ := not_or.1 (mt List.mem_cons.2 h)
    exact (ih hx).trans (get?_bind.trans (if_neg hne))

/-- Of words with different names each is found. -/
theorem Scope.get?_bindAll (hnames : (ws.map Word.name).Nodup) (hw : w ∈ ws) :
    (ws.foldl (fun sc w => Scope.bind sc w.name w) sc).get? w.name = some w := by
  induction ws generalizing sc with
  | nil => cases hw
  | cons v ws ih =>
    obtain ⟨hv, hws⟩ := List.nodup_cons.1 hnames
    rcases List.mem_cons.1 hw with rfl | hw
    · exact (get?_bindAll_of_not_mem hv).trans (get?_bind.trans (if_pos rfl))
    · exact ih hws hw

theorem Pool.Words.map_name (h : p.Words ws xos) : ws.map Word.name = xos.map Prod.fst := by
  induction h with
  | nil => rfl
  | cons h _ ih => rw [List.map_cons, List.map_cons, h.name, ih]

/-- The word of a name, with what the bindings give to it. -/
theorem Pool.Words.exists_of_mem (h : p.Words ws xos) (hx : x ∈ xos.map Prod.fst) :
    ∃ w ∈ ws, ∃ o, xos.lookup x = some o ∧ w.Stands p (x, o) := by
  induction h with
  | nil => cases hx
  | @cons w xo ws xos h _ ih =>
    obtain ⟨y, o⟩ := xo
    rw [List.lookup_cons]
    by_cases hxy : x = y
    · subst hxy
      exact ⟨w, .head _, o, by simp, h⟩
    · obtain ⟨v, hv, o', ho', hstands⟩ := ih ((List.mem_cons.1 hx).resolve_left hxy)
      exact ⟨v, .tail _ hv, o', by rwa [beq_eq_false_iff_ne.2 hxy], hstands⟩

theorem lookup_eq_none_of_not_mem {α : Type} {xos : List (String × α)} (h : x ∉ xos.map Prod.fst) : xos.lookup x = none := by
  refine List.lookup_eq_none_iff.2 fun xo hxo => ?_
  have hne : x ≠ xo.1 := fun heq => h (heq ▸ List.mem_map_of_mem hxo)
  simpa using hne

/-- A function sees what its parameters are bound to, and what else there is around it. -/
theorem Environment.Assigns.opened (he : e.Assigns p X ρ σ) (hpq : p.Extends q) (hws : q.Words ws (parameters 0 ps vs))
    (hnodup : (identsAll ps).Nodup) (hXY : ∀ x, Y x → x ∈ identsAll ps ∨ X x) :
    (e.opened "lambda" [] ws).Assigns q Y (without ρ (identsAll ps)) (bound ps vs σ) := by
  intro x hx
  have hnames : ws.map Word.name = identsAll ps := hws.map_name.trans map_fst_parameters
  rw [Environment.lookup?_opened, without, bound]
  by_cases hmem : x ∈ identsAll ps
  · obtain ⟨w, hw, o, ho, hstands⟩ := hws.exists_of_mem (map_fst_parameters ▸ hmem)
    have hget : (Scope.opening "lambda" [] ws).get? w.name = some w := Scope.get?_bindAll (hnames ▸ hnodup) hw
    have hname : w.name = x := hstands.name
    rw [if_pos hmem, ho, Option.getD_some, ← hname, hget, Option.some_or]
    exact .inr ⟨rfl, .inr ⟨w, rfl, hstands.cls, hstands.tree⟩⟩
  · have hget : (Scope.opening "lambda" [] ws).get? x = none := Scope.get?_bindAll_of_not_mem (hnames ▸ hmem)
    have hlookup : (parameters 0 ps vs).lookup x = none := lookup_eq_none_of_not_mem (map_fst_parameters ▸ hmem)
    rw [if_neg hmem, hget, Option.none_or, hlookup, Option.getD_none]
    exact he.mono hpq x ((hXY x hx).resolve_left hmem)

end

/-! ### Applications -/

namespace Machine

variable {s : OperandStack} {b : Nat} {e : Environment} {p q : Pool} {us vs ls : List NodeId} {fs : List (List NodeId)}
  {i : NodeId} {ts ws as ps : List Tree} {names body v : Tree} {α β : Type} {work : Work} {r : Option α}
  {R : Pool → α → β → Prop} {after : β → List (List NodeId)} {X Y : String → Prop} {ρ σ : String → Option Tree} {callee : Callee}

theorem Brings.of_extends (h : Brings s b e work r R after q) (hpq : p.Extends q) : Brings s b e work r R after p := by
  refine ⟨fun v hv => ?_, h.failure⟩
  obtain ⟨a, q', hqq', hR, hwork⟩ := h.value v hv
  exact ⟨a, q', hpq.trans hqq', hR, hwork⟩

theorem Brings.enter {name : String} {lexicon : Lexicon} {words : List Word} (tasks : List Task) (hlimit : ¬ e.limit < e.depth)
    (h : Brings s b (e.opened name lexicon words) (doing ⟨⟨p, s.stacked fs⟩, e.opened name lexicon words, b⟩ tasks) r R after
      p) :
    Brings s b e (Step.work (entering ⟨⟨p, s.stacked fs⟩, e, b⟩ name lexicon words (tasks ++ [.exit]))) r R after p := by
  rw [entering_of_not_lt hlimit]
  exact h.inside (e.opened_eq name lexicon words)

theorem room_opened {name : String} {lexicon : Lexicon} {words : List Word} :
    (e.opened name lexicon words).room = e.room - 1 := by
  obtain ⟨hlength, hlimit⟩ := e.opened_length_limit name lexicon words
  simp only [Environment.room, Environment.depth, hlength, hlimit]
  omega

/-- What is done in the scope of a function: its body is folded, and put before the arguments or made a function again unless
there are arguments for all parameters. -/
def calleeTasks (body k l : NodeId) (us : List NodeId) (late full : Bool) : List Task :=
  if late then
    [.operand body] ++ (.reduce (.lambda k l) :: (us.map (.reduce <| .push ·) ++ [.reduce (.build .apply (us.length + 1))]))
  else if full then [.visit body]
  else [.operand body, .reduce (.lambda k l)]

/-- The patterns that a function keeps. -/
def keptPatterns (ps as : List Tree) : List Tree := if isLate ps as then ps else ps.drop as.length

theorem bindCallee_eq (callee : Callee) (hps : ∀ t ∈ ps, t.isPattern) (hls : p.HasTrees callee.pattern ps)
    (hus : p.HasTrees us as) : ∃ words k l q, bindCallee callee us p =
        .ok (words, calleeTasks callee.body k l us (isLate ps as) (decide (as.length = ps.length)) ++ [.exit]) q ∧
      p.Extends q ∧ q.Words words (parameters 0 ps as) ∧ (isLate ps as ∨ as.length ≠ ps.length →
        q.tree? k = some (node .list ((identsAll (keptPatterns ps as)).map ident)) ∧
        q.tree? l = some (node .list (keptPatterns ps as))) := by
  have hall {ps : List Tree} (h : ∀ t ∈ ps, t.isPattern) : allPatterns ps := by
    induction ps with
    | nil => rfl
    | cons t ps ih =>
      obtain ⟨ht, hps⟩ := List.forall_mem_cons.1 h
      exact Bool.and_eq_true_iff.2 ⟨ht, ih hps⟩
  obtain ⟨⟨words, late⟩, q, hbind, hpq, hwords, rfl⟩ := (Pattern.succeeds_bindAll (i := 0) hps hls hus).exists_ok
  have hls' := Pool.HasTrees.mono hls hpq
  cases hlate : isLate ps as with
  | true =>
    obtain ⟨⟨k, l⟩, r, hparts, hqr, hk, hl⟩ := (Pattern.succeeds_lambdaParts (hall hps) hls').exists_ok
    refine ⟨words, k, l, r, ?_, hpq.trans hqr, hwords.mono hqr, fun _ => ?_⟩
    · rw [hlate] at hbind
      unfold bindCallee calleeTasks
      simp only [bind, EStateM.bind, hbind, ↓reduceIte, hparts, pure, EStateM.pure, List.cons_append,
        List.append_assoc]
      rfl
    · rw [keptPatterns, if_pos hlate]
      exact ⟨hk, hl⟩
  | false =>
    rw [hlate] at hbind
    by_cases hfull : as.length = ps.length
    · have hargs : us.length = callee.pattern.length := by rw [hus.length_eq, hls.length_eq, hfull]
      refine ⟨words, 0, 0, q, ?_, hpq, hwords, fun h => (h.elim nofun fun h => absurd hfull h)⟩
      unfold bindCallee calleeTasks
      simp only [bind, EStateM.bind, hbind, Bool.false_eq_true, ↓reduceIte, hargs, hfull, decide_true]
      rfl
    · have hargs : us.length ≠ callee.pattern.length := by rwa [hus.length_eq, hls.length_eq]
      have hdrop : q.HasTrees (callee.pattern.drop us.length) (ps.drop as.length) := by
        rw [hus.length_eq]
        exact List.forall₂_drop as.length hls'
      have hpatterns : allPatterns (ps.drop as.length) := hall fun t ht => hps t (List.mem_of_mem_drop ht)
      obtain ⟨⟨k, l⟩, r, hparts, hqr, hk, hl⟩ := (Pattern.succeeds_lambdaParts hpatterns hdrop).exists_ok
      refine ⟨words, k, l, r, ?_, hpq.trans hqr, hwords.mono hqr, fun _ => ?_⟩
      · unfold bindCallee calleeTasks
        simp only [bind, EStateM.bind, hbind, Bool.false_eq_true, ↓reduceIte, hargs, hfull, decide_false, hparts, pure,
          EStateM.pure]
        rfl
      · rw [keptPatterns, hlate, if_neg (by decide)]
        exact ⟨hk, hl⟩

/-- The arguments of a function with `n` patterns are the values of its frame that lie before the others, unless there
are too few of them. -/
theorem take_drop_frame {n : Nat} (h : n ≤ us.length ∨ vs = []) :
    (us ++ vs).take n = us.take n ∧ (us ++ vs).drop n = us.drop n ++ vs := by
  rcases h with h | rfl
  · exact ⟨List.take_append_of_le_length h, List.drop_append_of_le_length h⟩
  · simp only [List.append_nil, and_self]

/-- The body is folded, and made a function of these patterns again. -/
theorem brings_remade {c k l : NodeId} {o : Option Tree}
    (hbody : BringsTree s b e (doing ⟨⟨p, s.stacked (vs :: fs)⟩, e, b⟩ [.operand c]) o vs fs p)
    (hk : p.tree? k = some (node .list ((identsAll ps).map ident))) (hl : p.tree? l = some (node .list ps)) :
    BringsTree s b e (doing ⟨⟨p, s.stacked (vs :: fs)⟩, e, b⟩ ([.operand c] ++ [.reduce (.lambda k l)]))
      (do return Tree.lambda ps (← o)) vs fs p := by
  refine hbody.bind fun v a q _ hpq ha => ?_
  have htree := Pool.tree?_intern_branch (t := .lambda) (.cons (hpq.tree? hk) (.cons ha (.cons (hpq.tree? hl) .nil)))
  exact computes_lambda.brings rfl rfl htree

/-- What is done in the scope of a function brings what the function is applied to. -/
theorem brings_calleeTasks {c k l : NodeId} (hbody : Realizes e Y ρ σ body) (he : e.Assigns p Y ρ σ)
    (hc : p.tree? c = some (body.replace ρ)) (hus : p.HasTrees us ws)
    (hparts : isLate ps ws ∨ ws.length ≠ ps.length →
      p.tree? k = some (node .list ((identsAll (keptPatterns ps ws)).map ident)) ∧
      p.tree? l = some (node .list (keptPatterns ps ws))) :
    BringsTree s b e (doing ⟨⟨p, s.stacked (vs :: fs)⟩, e, b⟩
        (calleeTasks c k l us (isLate ps ws) (decide (ws.length = ps.length))))
      (do return Tree.applied ps (← value? e.room σ body) ws) vs fs p := by
  have hoperand : BringsTree s b e (doing ⟨⟨p, s.stacked (vs :: fs)⟩, e, b⟩ [.operand c]) (value? e.room σ body) vs fs p :=
    hbody.operand he hc
  unfold calleeTasks Tree.applied
  cases hlate : isLate ps ws with
  | true =>
    obtain ⟨hk, hl⟩ := hparts (.inl hlate)
    rw [keptPatterns, if_pos hlate] at hk hl
    have hresult : (do return node .apply (Tree.lambda ps (← value? e.room σ body) :: ws)) = (do
        let f ← (do return Tree.lambda ps (← value? e.room σ body))
        return node .apply (f :: ws)) := by
      cases value? e.room σ body <;> rfl
    have htasks : ([.operand c] ++ (.reduce (.lambda k l) ::
        (us.map (Task.reduce <| .push ·) ++ [.reduce (.build .apply (us.length + 1))])) : List Task) =
        ([.operand c] ++ [.reduce (.lambda k l)]) ++
          (us.map (Task.reduce <| .push ·) ++ [.reduce (.build .apply (us.length + 1))]) := rfl
    simp only [↓reduceIte]
    rw [hresult, htasks]
    refine (brings_remade hoperand hk hl).bind fun f j q _ hpq hj => ?_
    have hbuild : BringsTree s b e
        (doing ⟨⟨q, s.stacked (((j :: us).reverse ++ vs) :: fs)⟩, e, b⟩ [.reduce (.build .apply (us.length + 1))])
        (some (node .apply (f :: ws))) vs fs q :=
      brings_build (j :: us) (by decide) (.cons hj (Pool.HasTrees.mono hus hpq)) rfl
    rw [List.reverse_cons, List.append_assoc] at hbuild
    rw [doing_pushes]
    exact hbuild
  | false =>
    by_cases hfull : ws.length = ps.length
    · simp only [hfull, decide_true, Bool.false_eq_true, ↓reduceIte, bind_pure]
      exact hbody s b p vs fs c he hc
    · obtain ⟨hk, hl⟩ := hparts (.inr hfull)
      rw [keptPatterns, hlate, if_neg (by decide)] at hk hl
      simp only [hfull, decide_false, Bool.false_eq_true, ↓reduceIte]
      exact brings_remade hoperand hk hl

/-- A function takes its arguments from the values in its frame. -/
theorem brings_call (s : OperandStack) (b : Nat) (vs : List NodeId) (fs : List (List NodeId))
    (hi : p.tree? i = some ((node .lambda [names, body, node .list ps]).replace ρ))
    (hps : ∀ t ∈ ps, t.isPattern) (hnodup : (identsAll ps).Nodup) (he : e.Assigns p X ρ σ) (hus : p.HasTrees us ws)
    (hframe : ps.length ≤ ws.length ∨ vs = []) (hXY : ∀ x, Y x → x ∈ identsAll ps ∨ X x)
    (hbody : ∀ e', Realizes e' Y (without ρ (identsAll ps)) (bound ps (ws.take ps.length) σ) body) :
    BringsTree s b e (doing ⟨⟨p, s.stacked ((us ++ vs) :: fs)⟩, e, b⟩ [.visit i])
      (if e.room = 0 then none else do
        let v ← value? (e.room - 1) (bound ps (ws.take ps.length) σ) body
        return Tree.applied ps v (ws.take ps.length)) (us.drop ps.length ++ vs) fs p := by
  obtain ⟨es, hn, hes⟩ := Pool.tree?_eq_node_iff.1 hi
  rcases hes with _ | @⟨_, _, _, _, -, _ | @⟨c, _, _, _, hc, _ | @⟨l', _, _, _, hl', _ | _⟩⟩⟩
  obtain ⟨ls, hl', hls⟩ := Pool.tree?_eq_node_iff.1 hl'
  have hvisit : resume ⟨⟨p, s.stacked ((us ++ vs) :: fs)⟩, e, b⟩ (.visit i) =
      apply ⟨⟨p, s.stacked ((us ++ vs) :: fs)⟩, e, b⟩ ⟨"lambda", c, ls, []⟩ := by
    simp only [resume, visit, pool, hn, lambda, hl', Node.elts]
  obtain ⟨htake, hdrop⟩ := take_drop_frame (hus.length_eq ▸ hframe)
  rw [doing_singleton, hvisit, apply, onValues_of_ok takeArgs_stacked, hls.length_eq, htake, hdrop]
  by_cases hlimit : e.limit < e.depth
  · simp only [hlimit, ↓reduceIte, if_pos (Environment.room_eq_zero_iff.2 hlimit)]
    exact brings_error
  simp only [hlimit, ↓reduceIte, if_neg (mt Environment.room_eq_zero_iff.1 hlimit)]
  have hargs : p.HasTrees (us.take ps.length) (ws.take ps.length) := List.forall₂_take ps.length hus
  generalize us.take ps.length = as at hargs
  generalize us.drop ps.length ++ vs = vs
  generalize ws.take ps.length = ws at *
  obtain ⟨words, k, l, q, hbind, hpq, hwords, hparts⟩ := bindCallee_eq ⟨"lambda", c, ls, []⟩ hps hls hargs
  have hcallee : onPool (bindCallee ⟨"lambda", c, ls, []⟩ as) ⟨p, s.stacked (vs :: fs)⟩ =
      .ok (words, calleeTasks c k l as (isLate ps ws) (decide (ws.length = ps.length)) ++ [.exit])
        ⟨q, s.stacked (vs :: fs)⟩ := by
    rw [onPool, hbind]
  rw [onValues_of_ok hcallee]
  refine .of_extends (.enter _ hlimit ?_) hpq
  rw [← room_opened]
  exact brings_calleeTasks (hbody _) (he.opened hpq hwords hnodup hXY) (hpq.tree? hc) (Pool.HasTrees.mono hargs hpq)
    hparts

/-- A function leaves its value in the place of its arguments. -/
theorem RealizesAll.call (hts : RealizesAll e X ρ σ ts) (hps : ∀ t ∈ ps, t.isPattern) (hnodup : (identsAll ps).Nodup)
    (hlength : ∀ ws, values? e.room σ ts = some ws → ps.length ≤ ws.length) (hXY : ∀ x, Y x → x ∈ identsAll ps ∨ X x)
    (hbody : ∀ e' ws, Realizes e' Y (without ρ (identsAll ps)) (bound ps ws σ) body) :
    RealizesAll e X ρ σ (node .lambda [names, body, node .list ps] :: ts) := by
  intro s b p vs fs es he hes
  rcases hes with _ | @⟨i, _, es, _, hi, hes⟩
  rw [values?_function, List.reverse_cons, List.map_append]
  refine (hts s b p vs fs es he hes).bind fun ws us q hws hpq hus => ?_
  have hcall := brings_call s b vs fs (hpq.tree? hi) hps hnodup (he.mono hpq) hus
    (.inl (hlength ws hws)) hXY fun e' => hbody e' _
  have hdrop : q.HasTrees (us.drop ps.length) (ws.drop ps.length) := List.forall₂_drop ps.length hus
  have hvalues : (if e.room = 0 then none else do
      let v ← value? (e.room - 1) (bound ps (ws.take ps.length) σ) body
      return Tree.applied ps v (ws.take ps.length) :: ws.drop ps.length) = (do
        let v ← (if e.room = 0 then none else do
          let v ← value? (e.room - 1) (bound ps (ws.take ps.length) σ) body
          return Tree.applied ps v (ws.take ps.length) : Option Tree)
        return v :: ws.drop ps.length) := by
    split
    · rfl
    · cases value? (e.room - 1) (bound ps (ws.take ps.length) σ) body <;> rfl
  rw [hvalues]
  refine hcall.map (· :: us.drop ps.length) (fun r v a hqr ha => ?_) fun _ => rfl
  exact .cons ha (Pool.HasTrees.mono hdrop hqr)

end Machine

end Linefold
