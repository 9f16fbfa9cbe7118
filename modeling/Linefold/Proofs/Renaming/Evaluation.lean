import Linefold.Proofs.Closedness.Binding
import Linefold.Proofs.Renaming.Relation
import Linefold.Proofs.Twins.Tally

/-!
# Evaluation under a renaming

`Tally T f g R`: run on the two pools of `T`, `f` and `g` both succeed, with results in relation `R`, or both
fail. A node and the same text with other names tally (`translates`), in environments in which what corresponds
has values in relation: no name of the text is replaced where it is bound, so what is replaced is free
everywhere, and values with replaced names go where the values that they correspond to go. No name of the
text may stand for a function or an operator.
-/

namespace Linefold

open Pattern (PoolM)
open Machine (Callee Clause)
open Twin (Source Value)

attribute [local irreducible] Pool.intern

theorem tally_intern {N : String → String → Prop} {T : Twin} {n m : Node} (h : n.Renamed N T (Value N T) m) :
    Tally T (PoolM.intern n) (PoolM.intern m) (Value N) :=
  ⟨T.grows_intern n m, Twin.value_intern h⟩

/-! ### Environments -/

variable {N : String → String → Prop} {M M' : String → Prop} {T U : Twin} {e e' : Environment} {ws ws' : List Word}
  {w v : Word} {x y name : String}

/-- Two values in relation. -/
structure Word.Tallies (N : String → String → Prop) (T : Twin) (w v : Word) : Prop where
  left : w.cls = .value
  right : v.cls = .value
  value : Value N T w.nid v.nid

theorem Word.Paired.tallies (h : w.Paired (Value N) T v) : w.Tallies N T v := by
  obtain ⟨⟨offset, hw⟩, hv, hvalue⟩ := h
  refine ⟨?_, ?_, hvalue⟩
  · rw [hw]
    rfl
  · rw [hv, hw]
    rfl

theorem Word.Tallies.mono (h : w.Tallies N T v) (hTU : T.Grows U) : w.Tallies N U v :=
  ⟨h.left, h.right, h.value.mono hTU⟩

/-- As many scopes in both, with values in relation for those of the names `M` that have words. -/
structure Environment.Tallies (N : String → String → Prop) (M : String → Prop) (T : Twin) (e e' : Environment) : Prop where
  limit : e'.limit = e.limit
  depth : e'.depth = e.depth
  words : ∀ x y, M x → N x y → Option.Rel (Word.Tallies N T) (e.lookup? x) (e'.lookup? y)

theorem Environment.Tallies.mono (h : e.Tallies N M T e') (hTU : T.Grows U) : e.Tallies N M U e' := by
  refine ⟨h.limit, h.depth, fun x y hx hxy => ?_⟩
  have hrel := h.words x y hx hxy
  generalize e.lookup? x = left, e'.lookup? y = right at hrel ⊢
  cases hrel with
  | none => exact .none
  | some hw => exact .some (hw.mono hTU)

/-- Words for names in relation. Those of the names `M` have values in relation. -/
abbrev Word.AllTally (N : String → String → Prop) (M : String → Prop) (T : Twin) : List Word → List Word → Prop :=
  List.Forall₂ fun w v => N w.name v.name ∧ (M w.name → w.Tallies N T v)

theorem Scope.rel_opening (hN : OneToOne N) (hws : Word.AllTally N M T ws ws') (hx : M x) (hxy : N x y) :
    Option.Rel (Word.Tallies N T) ((Scope.opening name [] ws).get? x) ((Scope.opening name [] ws').get? y) := by
  have hbind {s s' : Scope} (h : Option.Rel (Word.Tallies N T) (s.get? x) (s'.get? y)) :
      Option.Rel (Word.Tallies N T) ((ws.foldl (fun s w => s.bind w.name w) s).get? x)
        ((ws'.foldl (fun s w => s.bind w.name w) s').get? y) := by
    induction hws generalizing s s' with
    | nil => exact h
    | @cons w v _ _ hwv _ ih =>
      refine ih ?_
      show Option.Rel _ ((s.lexicon.insert w.name w).find? x) ((s'.lexicon.insert v.name v).find? y)
      rw [Lexicon.find?_insert, Lexicon.find?_insert]
      by_cases hname : x = w.name
      · rw [if_pos hname, if_pos ((hN.eq_iff hxy hwv.1).1 hname)]
        exact .some (hwv.2 (hname ▸ hx))
      · rw [if_neg hname, if_neg (mt (hN.eq_iff hxy hwv.1).2 hname)]
        exact h
  exact hbind .none

/-- A scope is opened in both. -/
theorem Environment.Tallies.opened (h : e.Tallies N M T e') (hN : OneToOne N) (name : String)
    (hws : Word.AllTally N M' T ws ws') (hM : ∀ x, M' x → M x ∨ x ∈ ws.map Word.name) :
    (e.opened name [] ws).Tallies N M' T (e'.opened name [] ws') := by
  obtain ⟨hlength, hlimit⟩ := e.opened_length_limit name [] ws
  obtain ⟨hlength', hlimit'⟩ := e'.opened_length_limit name [] ws'
  refine ⟨?_, ?_, fun x y hx hxy => ?_⟩
  · rw [hlimit, hlimit', h.limit]
  · have hdepth := h.depth
    simp only [Environment.depth, hlength, hlength'] at hdepth ⊢
    omega
  · rw [Environment.lookup?_opened, Environment.lookup?_opened]
    have hrel : Option.Rel (Word.Tallies N T) ((Scope.opening name [] ws).get? x)
        ((Scope.opening name [] ws').get? y) := Scope.rel_opening hN hws hx hxy
    have hopen : x ∈ ws.map Word.name → ((Scope.opening name [] ws).get? x).isSome := fun hx =>
      Scope.isSome_get?_opening (.inr hx)
    generalize (Scope.opening name [] ws).get? x = left, (Scope.opening name [] ws').get? y = right at hrel hopen ⊢
    cases hrel with
    | none => exact h.words x y ((hM x hx).resolve_right fun hx => absurd (hopen hx) Bool.false_ne_true) hxy
    | some hw => exact .some hw

/-! ### Values in turn -/

section

variable {nid nid' scrutinee scrutinee' first : NodeId} {t : Tag} {n m : Node}
  {vs vs' us us' es es' ids ids' clauses : List NodeId}

/-- A node and the same text with other names tally in the scopes of `e` and any that tally with them. -/
def Translates (N : String → String → Prop) (e : Environment) (nid : NodeId) : Prop :=
  ∀ {T : Twin} {M : String → Prop} {e' : Environment} {nid' : NodeId} {vs vs' : List NodeId}, e.Tallies N M T e' →
    T.left.Sees M nid → Source N T nid nid' → List.Forall₂ (Value N T) vs vs' →
    Tally T (Evaluator.visit e nid vs) (Evaluator.visit e' nid' vs') fun U => List.Forall₂ (Value N U)

/-- All nodes do where fewer scopes may still be opened. -/
def TranslatesWithin (N : String → String → Prop) (e : Environment) : Prop :=
  ∀ f : Environment, f.room < e.room → ∀ nid, Translates N f nid

/-- What is below a node in the scopes of `e` does, and everything where fewer scopes may still be opened. -/
structure TranslatesBelow (N : String → String → Prop) (e : Environment) (nid : NodeId) : Prop where
  nodes : ∀ c < nid, Translates N e c
  scopes : TranslatesWithin N e

theorem forall₂_value_mono (h : List.Forall₂ (Value N T) vs vs') (hTU : T.Grows U) : List.Forall₂ (Value N U) vs vs' :=
  h.imp fun _ _ h => h.mono hTU

theorem forall₂_source_mono (h : List.Forall₂ (Source N T) vs vs') (hTU : T.Grows U) :
    List.Forall₂ (Source N U) vs vs' :=
  h.imp fun _ _ h => h.mono hTU

theorem forall_sees_grow {p q : Pool} (h : ∀ c ∈ ids, p.Sees M c) (hpq : p.Extends q) : ∀ c ∈ ids, q.Sees M c :=
  fun c hc => (h c hc).grow hpq

/-- A node is pushed. -/
theorem tally_push (hvs : List.Forall₂ (Value N T) vs vs') (h : n.Renamed N T (Value N T) m) :
    Tally T (do return (← PoolM.intern n) :: vs) (do return (← PoolM.intern m) :: vs')
      fun U => List.Forall₂ (Value N U) :=
  (tally_intern h).bind fun _ _ _ hTU hid => tally_pure (.cons hid (forall₂_value_mono hvs hTU))

theorem tally_single (h : List.Forall₂ (Value N T) us us') :
    Tally T (Evaluator.single us) (Evaluator.single us') (Value N) := by
  rcases h with _ | ⟨hid, _ | ⟨hid', h⟩⟩
  · exact tally_intern (.branch (by decide) .nil)
  · exact tally_pure hid
  · exact tally_intern (.branch (by decide) (.cons hid (.cons hid' h)))

theorem tally_operand (h : Translates N e nid) (he : e.Tallies N M T e') (hsees : T.left.Sees M nid)
    (hnid : Source N T nid nid') : Tally T (Evaluator.operand e nid) (Evaluator.operand e' nid') (Value N) := by
  rw [Evaluator.operand, Evaluator.operand]
  exact (h he hsees hnid .nil).bind fun _ _ _ _ => tally_single

theorem tally_visitAll {hlt : ∀ c ∈ ids, c < nid} {hlt' : ∀ c ∈ ids', c < nid'} (h : ∀ c ∈ ids, Translates N e c)
    (he : e.Tallies N M T e') (hsees : ∀ c ∈ ids, T.left.Sees M c) (hids : List.Forall₂ (Source N T) ids ids')
    (hvs : List.Forall₂ (Value N T) vs vs') :
    Tally T (Evaluator.visitAll e nid ids hlt vs) (Evaluator.visitAll e' nid' ids' hlt' vs')
      fun U => List.Forall₂ (Value N U) := by
  induction ids generalizing T ids' vs vs' with
  | nil =>
    cases hids
    rw [Evaluator.visitAll, Evaluator.visitAll]
    exact tally_pure hvs
  | cons c ids ih =>
    rcases hids with _ | ⟨hcd, hids⟩
    obtain ⟨hc, h⟩ := List.forall_mem_cons.1 h
    obtain ⟨hcs, hsees⟩ := List.forall_mem_cons.1 hsees
    rw [Evaluator.visitAll, Evaluator.visitAll]
    refine (hc he hcs hcd hvs).bind fun U _ _ hTU hus => ?_
    exact ih h (he.mono hTU) (forall_sees_grow hsees hTU.1) (forall₂_source_mono hids hTU) hus

theorem tally_operands {hlt : ∀ c ∈ ids, c < nid} {hlt' : ∀ c ∈ ids', c < nid'} (h : ∀ c ∈ ids, Translates N e c)
    (he : e.Tallies N M T e') (hsees : ∀ c ∈ ids, T.left.Sees M c) (hids : List.Forall₂ (Source N T) ids ids') :
    Tally T (Evaluator.operands e nid ids hlt) (Evaluator.operands e' nid' ids' hlt')
      fun U => List.Forall₂ (Value N U) := by
  induction ids generalizing T ids' with
  | nil =>
    cases hids
    rw [Evaluator.operands, Evaluator.operands]
    exact tally_pure .nil
  | cons c ids ih =>
    rcases hids with _ | ⟨hcd, hids⟩
    obtain ⟨hc, h⟩ := List.forall_mem_cons.1 h
    obtain ⟨hcs, hsees⟩ := List.forall_mem_cons.1 hsees
    rw [Evaluator.operands, Evaluator.operands]
    refine (tally_operand hc he hcs hcd).bind fun U _ _ hTU hv => ?_
    refine (ih h (he.mono hTU) (forall_sees_grow hsees hTU.1) (forall₂_source_mono hids hTU)).bind fun V _ _ hUV hus => ?_
    exact tally_pure (.cons (hv.mono hUV) hus)

/-! ### Functions and names -/

/-- A function and the same text with other names. Its parameters are kept. -/
structure Machine.Callee.Renamed (N : String → String → Prop) (M : String → Prop) (T : Twin) (c d : Callee) : Prop where
  name : c.name = d.name
  body : Source N T c.body d.body
  pattern : List.Forall₂ T.Alike c.pattern d.pattern
  kept : ∀ x ∈ T.left.params c.pattern, N x x
  lexicon : c.lexicon = [] ∧ d.lexicon = []
  sees : T.left.Sees (fun x => M x ∨ x ∈ T.left.params c.pattern) c.body

theorem limit_lt_depth_iff (he : e.Tallies N M T e') : e'.limit < e'.depth ↔ e.limit < e.depth := by
  rw [he.limit, he.depth]

theorem tally_lambdaParts {is js : List NodeId} (h : List.Forall₂ T.Alike is js) (hkept : ∀ x ∈ T.left.params is, N x x) :
    Tally T (Pattern.lambdaParts is) (Pattern.lambdaParts js) fun U a b => U.Alike a.1 b.1 ∧ U.Alike a.2 b.2 ∧
      U.left.get? a.2 = some (.branch .list is) ∧ ∀ x ∈ U.left.params is, N x x := by
  have hheld : ∀ i ∈ is, i ≤ T.left.size := forall_mem_left h fun _ _ h => h.le_left
  refine ((Pattern.agree_lambdaParts h).tally.and_left (Pattern.ensures_lambdaParts hheld)).mono ?_
  rintro U a b hTU ⟨⟨hnames, hpattern⟩, hext, -, hget⟩
  refine ⟨hnames, hpattern, hget, ?_⟩
  rw [hext.params_eq hheld]
  exact hkept

theorem Pool.params_drop_subset {p : Pool} {patterns : List NodeId} {k : Nat} :
    p.params (patterns.drop k) ⊆ p.params patterns := fun _ hx => by
  obtain ⟨id, hid, hx⟩ := mem_params.1 hx
  exact mem_params.2 ⟨id, List.drop_subset k patterns hid, hx⟩

/-- A `LAMBDA` over a folded body, with parameters that are kept. -/
theorem tally_lambda {α β : Type} {is js : List NodeId} {k : NodeId → PoolM α} {l : NodeId → PoolM β}
    {S : Twin → α → β → Prop} (h : Translates N e nid) (he : e.Tallies N M T e') (hsees : T.left.Sees M nid)
    (hnid : Source N T nid nid') (his : List.Forall₂ T.Alike is js) (hkept : ∀ x ∈ T.left.params is, N x x)
    (hk : ∀ U a b, T.Grows U → Value N U a b → Tally U (k a) (l b) S) : Tally T
      (do
        let (names, pattern) ← Pattern.lambdaParts is
        let body ← Evaluator.operand e nid
        k (← PoolM.intern (.branch .lambda [names, body, pattern])))
      (do
        let (names, pattern) ← Pattern.lambdaParts js
        let body ← Evaluator.operand e' nid'
        l (← PoolM.intern (.branch .lambda [names, body, pattern]))) S := by
  refine (tally_lambdaParts his hkept).bind ?_
  rintro U ⟨names, pattern⟩ ⟨names', pattern'⟩ hTU ⟨hnames, hpattern, hget, hkept⟩
  refine (tally_operand h (he.mono hTU) (hsees.grow hTU.1) (hnid.mono hTU)).bind fun V a b hUV hab => ?_
  have hnode : Node.Renamed N V (Value N V) (.branch .lambda [names, a, pattern]) (.branch .lambda [names', b, pattern']) := by
    refine .lambda (hnames.mono hUV) (hpattern.mono hUV) (hUV.1 _ _ hget) ?_ hab
    rw [hUV.1.params_eq fun i hi => Nat.le_trans (Nat.le_of_lt (Pool.lt_of_get?_branch hget hi)) (Pool.le_size_of_get? hget)]
    exact hkept
  exact (tally_intern hnode).bind fun W a b hVW hab => hk W a b ((hTU.trans hUV).trans hVW) hab

theorem tally_apply {c d : Callee} (hinner : TranslatesWithin N e) (hN : OneToOne N) (he : e.Tallies N M T e')
    (hcd : c.Renamed N M T d) (hvs : List.Forall₂ (Value N T) vs vs') :
    Tally T (Evaluator.apply e c vs) (Evaluator.apply e' d vs') fun U => List.Forall₂ (Value N U) := by
  rw [Evaluator.apply, Evaluator.apply, ← hcd.pattern.length_eq]
  have hargs := List.forall₂_take c.pattern.length hvs
  have hrest := List.forall₂_drop c.pattern.length hvs
  generalize vs.take c.pattern.length = args, vs.drop c.pattern.length = rest at hargs hrest ⊢
  generalize vs'.take c.pattern.length = args', vs'.drop c.pattern.length = rest' at hargs hrest ⊢
  by_cases hlimit : e.limit < e.depth
  · simp only [hlimit, (limit_lt_depth_iff he).2 hlimit, ↓reduceDIte]
    exact tally_error rfl rfl
  simp only [hlimit, mt (limit_lt_depth_iff he).1 hlimit, ↓reduceDIte]
  have hheld : ∀ i ∈ c.pattern, i ≤ T.left.size := forall_mem_left hcd.pattern fun _ _ h => h.le_left
  have hbound := (Pattern.agree_bindAll hargs hcd.pattern).tally.and_left
    (Pattern.ensures_bindAll args 0 (.refl _))
  refine hbound.bind ?_
  rintro U bound bound' hTU ⟨hbound, hgrows, -, hnames⟩
  have hnames := hnames hheld
  have hroom := Environment.room_opened_lt hlimit c.name c.lexicon bound.words
  have hwords : Word.AllTally N (fun x => M x ∨ x ∈ T.left.params c.pattern) U bound.words bound'.words := by
    refine forall₂_imp_mem hbound.words fun w hw v hwv => ⟨?_, fun _ => hwv.tallies⟩
    have hname : v.name = w.name := by rw [hwv.right]
    rw [hname]
    exact hcd.kept _ (hnames ▸ List.mem_map_of_mem hw)
  have hopened : Environment.Tallies N (fun x => M x ∨ x ∈ T.left.params c.pattern) U
      (e.opened c.name c.lexicon bound.words) (e'.opened d.name d.lexicon bound'.words) := by
    rw [hcd.lexicon.1, hcd.lexicon.2, ← hcd.name]
    exact (he.mono hTU).opened hN c.name hwords fun x hx => hnames ▸ hx
  have hbody : Translates N _ c.body := hinner _ hroom c.body
  have hsees := hcd.sees.grow hTU.1
  have hsource := hcd.body.mono hTU
  have hpattern := Twin.forall₂_mono hcd.pattern hTU
  have hkept : ∀ x ∈ U.left.params c.pattern, N x x := by
    rw [hTU.1.params_eq hheld]
    exact hcd.kept
  have hargs := forall₂_value_mono hargs hTU
  have hrest := forall₂_value_mono hrest hTU
  rw [← hbound.late, ← hargs.length_eq]
  split
  · refine tally_lambda hbody hopened hsees hsource hpattern hkept fun V a b hUV hab => ?_
    exact tally_push (forall₂_value_mono hrest hUV) (.branch (by decide) (.cons hab (forall₂_value_mono hargs hUV)))
  · split
    · exact hbody hopened hsees hsource hrest
    · have hdropped : ∀ x ∈ U.left.params (c.pattern.drop args.length), N x x := fun x hx =>
        hkept x (Pool.params_drop_subset hx)
      refine tally_lambda hbody hopened hsees hsource (List.forall₂_drop _ hpattern) hdropped fun V a b hUV hab => ?_
      exact tally_pure (.cons hab (forall₂_value_mono hrest hUV))

/-- The names of a pattern do not change as the pool grows. -/
theorem renamed_lambda {l l' b b' p p' : NodeId} {ps : List NodeId} {t : Tag} (hsees : T.left.Sees M nid)
    (hi : T.left.get? nid = some (.branch .lambda [l, b, p])) (hp : T.Alike p p') (hps : T.left.get? p = some (.branch t ps))
    (hkept : ∀ x ∈ T.left.params ps, N x x) (hb : Source N T b b') :
    ∃ c d, Machine.lambda T.left [l, b, p] = .ok c ∧ Machine.lambda T.right [l', b', p'] = .ok d ∧ c.Renamed N M T d := by
  cases hp with
  | absent => cases hps
  | node hp hp' hm =>
    cases hps.symm.trans hp
    cases hm with
    | @branch _ _ qs hes =>
      have hc : Machine.lambda T.left [l, b, p] = .ok ⟨"lambda", b, ps, []⟩ := by simp only [Machine.lambda, hps, Node.elts]
      have hd : Machine.lambda T.right [l', b', p'] = .ok ⟨"lambda", b', qs, []⟩ := by
        simp only [Machine.lambda, hp', Node.elts]
      refine ⟨_, _, hc, hd, rfl, hb, hes, hkept, ⟨rfl, rfl⟩, ?_⟩
      exact (lambda_contained hi hsees (.refl _) hc).body.mono fun x hx => hx.imp_right fun hx =>
        hx.resolve_left (by simp [Lexicon.names])

theorem tally_visitName (he : e.Tallies N M T e') (hx : M x) (hxy : N x y)
    (hnid : Value N T nid nid') (hvs : List.Forall₂ (Value N T) vs vs') :
    Tally T (Evaluator.visitName e nid x vs) (Evaluator.visitName e' nid' y vs') fun U => List.Forall₂ (Value N U) := by
  rw [Evaluator.visitName, Evaluator.visitName]
  have hrel := he.words x y hx hxy
  generalize e.lookup? x = left, e'.lookup? y = right at hrel ⊢
  cases hrel with
  | none => exact tally_pure (.cons hnid hvs)
  | some hw =>
    simp only [hw.left, hw.right]
    have hzero := (Twin.resembling_value N T).eq_zero_iff hw.value
    split
    · next h => exact tally_pure (.cons (by rwa [if_pos (hzero.1 h)]) hvs)
    · next h => exact tally_pure (.cons (by rw [if_neg fun h' => h (hzero.2 h')]; exact hw.value) hvs)

/-! ### Clauses -/

/-- Clauses with other names, whose variable is kept. What is free in them is one of `M` or the variable. -/
inductive Machine.Clause.Renamed (N : String → String → Prop) (M : String → Prop) (T : Twin) : Clause → Clause → Prop where
  | plain {p p' b b' : NodeId} (hp : Source N T p p') (hb : Source N T b b') (hps : T.left.Sees M p)
      (hbs : T.left.Sees M b) : Renamed N M T ⟨p, b, none⟩ ⟨p', b', none⟩
  | binder {x : String} {p p' b b' l l' : NodeId} (hx : T.left.get? p = some (.ident x))
      (hy : T.right.get? p' = some (.ident x)) (hN : N x x) (hb : Source N T b b') (hl : T.Alike l l')
      (hbs : T.left.Sees (fun y => M y ∨ y = x) b) : Renamed N M T ⟨p, b, some l⟩ ⟨p', b', some l'⟩

theorem Machine.Clause.Renamed.mono {c d : Clause} (h : c.Renamed N M T d) (hTU : T.Grows U) : c.Renamed N M U d := by
  cases h with
  | plain hp hb hps hbs => exact .plain (hp.mono hTU) (hb.mono hTU) (hps.grow hTU.1) (hbs.grow hTU.1)
  | binder hx hy hN hb hl hbs =>
    exact .binder (hTU.1 _ _ hx) (hTU.2 _ _ hy) hN (hb.mono hTU) (hl.mono hTU) (hbs.grow hTU.1)

/-- The nodes of clauses with other names. -/
def ClausePair (N : String → String → Prop) (M : String → Prop) (T : Twin) (i j : NodeId) : Prop :=
  ∃ c d, Machine.clause T.left i = .ok c ∧ Machine.clause T.right j = .ok d ∧ c.Renamed N M T d

theorem ClausePair.mono {i j : NodeId} (h : ClausePair N M T i j) (hTU : T.Grows U) : ClausePair N M U i j := by
  obtain ⟨c, d, hc, hd, hcd⟩ := h
  refine ⟨c, d, ?_, ?_, hcd.mono hTU⟩
  · rw [Machine.clause_eq_of_le hTU.1 (Machine.le_size_of_clause hc), hc]
  · rw [Machine.clause_eq_of_le hTU.2 (Machine.le_size_of_clause hd), hd]

theorem clausePairs_of_case {ds : List NodeId} (hsees : T.left.Sees M nid)
    (hnid : T.left.get? nid = some (.branch .case (first :: clauses)))
    (h : List.Forall₂ (RenamedClause N (Source N T) T) clauses ds) : List.Forall₂ (ClausePair N M T) clauses ds := by
  refine forall₂_imp_mem h fun i hi j hij => ?_
  cases hij with
  | plain hi' hj hp hb =>
    obtain ⟨hc, hnone⟩ := clause_of_pair hi'
    obtain ⟨hps, hbs⟩ := (sees_of_clause hnid hsees hi hc).1 hnone
    exact ⟨_, _, hc, (clause_of_pair hj).1, .plain hp hb hps hbs⟩
  | binder hi' hj hx hp hN hb hl =>
    cases hp with
    | absent => cases hx
    | node hx' hy hm =>
      cases hx.symm.trans hx'
      cases hm
      obtain ⟨hc, hsome⟩ := clause_of_variable hi' hx
      have hbs := (sees_of_clause hnid hsees hi hc).2 _ _ hsome
      exact ⟨_, _, hc, (clause_of_variable hj hy).1, .binder hx hy hN hb hl hbs⟩

theorem Machine.Clause.variable?_of_get? {p : Pool} {a b l : NodeId} (h : p.get? a = some (.ident x)) :
    Clause.variable? ⟨a, b, some l⟩ p = some (x, l) := by
  unfold Clause.variable?
  rw [h]

/-- A scope for the variable of a clause, which is kept. -/
theorem Environment.Tallies.openedCase (he : e.Tallies N M T e') (hN : OneToOne N) (hx : N x x) {a b : NodeId}
    (h : Value N T a b) : Environment.Tallies N (fun y => M y ∨ y = x) T (e.opened "case" [] [.bound x a])
      (e'.opened "case" [] [.bound x b]) :=
  he.opened hN "case" (.cons ⟨hx, fun _ => ⟨rfl, rfl, h⟩⟩ .nil) fun y hy => hy.imp_right fun hy => by
    simp [hy, Word.bound, Word.value]

theorem renamedClause_mono {i j : NodeId} (h : RenamedClause N (Value N T) T i j) (hTU : T.Grows U) :
    RenamedClause N (Value N U) U i j :=
  h.imp hTU fun _ _ _ h => h.mono hTU

/-- A clause over parts in relation. -/
theorem tally_pair {p p' b b' : NodeId} (hp : Value N T p p') (hb : Value N T b b') :
    Tally T (PoolM.intern (.branch .of [p, b])) (PoolM.intern (.branch .of [p', b'])) fun U i j =>
      RenamedClause N (Value N U) U i j := by
  have hgrows := T.grows_intern (.branch .of [p, b]) (.branch .of [p', b'])
  refine ⟨hgrows, .plain (Pool.get?_intern ?_) (Pool.get?_intern ?_) (hp.mono hgrows) (hb.mono hgrows)⟩
  · simp [Node.elts, hp.le_size, hb.le_size]
  · simp [Node.elts, hp.le_size, hb.le_size]

theorem tally_binder {p p' b b' l l' : NodeId} (hx : T.left.get? p = some (.ident x)) (hy : T.right.get? p' = some (.ident x))
    (hkept : N x x) (hb : Value N T b b') (hl : T.Alike l l') :
    Tally T (PoolM.intern (.branch .of [p, b, l])) (PoolM.intern (.branch .of [p', b', l'])) fun U i j =>
      RenamedClause N (Value N U) U i j := by
  have hgrows := T.grows_intern (.branch .of [p, b, l]) (.branch .of [p', b', l'])
  have hp : T.Alike p p' := .node hx hy (.ident x)
  refine ⟨hgrows, .binder (Pool.get?_intern ?_) (Pool.get?_intern ?_) (hgrows.1 _ _ hx) (hp.mono hgrows) hkept
    (hb.mono hgrows) (hl.mono hgrows)⟩
  · simp [Node.elts, hp.le_left, hb.le_size, hl.le_left]
  · simp [Node.elts, hp.le_right, hb.le_size, hl.le_right]

theorem tally_residualClause {c d : Clause} {hlt : c.pattern < nid ∧ c.body < nid}
    {hlt' : d.pattern < nid' ∧ d.body < nid'} (hbelow : TranslatesBelow N e nid) (hN : OneToOne N)
    (he : e.Tallies N M T e') (hcd : c.Renamed N M T d) :
    Tally T (Evaluator.residualClause e nid c hlt) (Evaluator.residualClause e' nid' d hlt') fun U i j =>
      RenamedClause N (Value N U) U i j := by
  cases hcd with
  | plain hp hb hps hbs =>
    refine TallyIn.congr ?_ (Evaluator.residualClause_of_none hlt rfl) (Evaluator.residualClause_of_none hlt' rfl)
    refine (tally_operand (hbelow.nodes _ hlt.1) he hps hp).bind fun U p p' hTU hp => ?_
    refine (tally_operand (hbelow.nodes _ hlt.2) (he.mono hTU) (hbs.grow hTU.1) (hb.mono hTU)).bind fun V b b' hUV hb => ?_
    exact tally_pair (hp.mono hUV) hb
  | @binder x p p' b b' l l' hx hy hkept hb hl hbs =>
    have hvar := Machine.Clause.variable?_of_get? (b := b) (l := l) hx
    have hvar' := Machine.Clause.variable?_of_get? (b := b') (l := l') hy
    have heq := Evaluator.residualClause_of_some (e := e) hlt hvar
    have heq' := Evaluator.residualClause_of_some (e := e') hlt' hvar'
    by_cases hlimit : e.limit < e.depth
    · have hlimit' := (limit_lt_depth_iff he).2 hlimit
      exact tally_error (heq.trans (if_pos hlimit)) (heq'.trans (if_pos hlimit'))
    · have hlimit' := mt (limit_lt_depth_iff he).1 hlimit
      refine TallyIn.congr ?_ (heq.trans (if_neg hlimit)) (heq'.trans (if_neg hlimit'))
      have hroom := Environment.room_opened_lt hlimit "case" [] [.value x 0]
      have hopened := he.openedCase hN hkept (Value.absent N T)
      refine (tally_operand (hbelow.scopes _ hroom b) hopened hbs hb).bind fun U b b' hTU hb => ?_
      exact tally_binder (hTU.1 _ _ hx) (hTU.2 _ _ hy) hkept hb (hl.mono hTU)

theorem tally_residualClauses {cs ds : List Clause} {hlt : ∀ c ∈ cs, c.pattern < nid ∧ c.body < nid}
    {hlt' : ∀ d ∈ ds, d.pattern < nid' ∧ d.body < nid'} (hbelow : TranslatesBelow N e nid) (hN : OneToOne N)
    (he : e.Tallies N M T e') (h : List.Forall₂ (Clause.Renamed N M T) cs ds) :
    Tally T (Evaluator.residualClauses e nid cs hlt) (Evaluator.residualClauses e' nid' ds hlt') fun U =>
      List.Forall₂ (RenamedClause N (Value N U) U) := by
  induction cs generalizing T ds with
  | nil =>
    cases h
    rw [Evaluator.residualClauses, Evaluator.residualClauses]
    exact tally_pure .nil
  | cons c cs ih =>
    rcases h with _ | ⟨hcd, h⟩
    rw [Evaluator.residualClauses, Evaluator.residualClauses]
    refine (tally_residualClause hbelow hN he hcd).bind fun U i j hTU hij => ?_
    refine (ih (he.mono hTU) (h.imp fun _ _ h => h.mono hTU)).bind fun V is js hUV h => ?_
    exact tally_pure (.cons (renamedClause_mono hij hUV) h)

theorem clauses_of_pairs {ds : List NodeId} (h : List.Forall₂ (ClausePair N M T) clauses ds) :
    ∃ cs ds', clauses.mapM (Machine.clause T.left) = .ok cs ∧ ds.mapM (Machine.clause T.right) = .ok ds' ∧
      List.Forall₂ (Clause.Renamed N M T) cs ds' := by
  induction h with
  | nil => exact ⟨[], [], rfl, rfl, .nil⟩
  | cons hcd _ ih =>
    obtain ⟨c, d, hc, hd, hcd⟩ := hcd
    obtain ⟨cs, ds, hcs, hds, h⟩ := ih
    refine ⟨c :: cs, d :: ds, ?_, ?_, .cons hcd h⟩
    · rw [List.mapM_cons, hc, hcs]
      rfl
    · rw [List.mapM_cons, hd, hds]
      rfl

theorem tally_residual {ds : List NodeId} {hlt : ∀ c ∈ clauses, c < nid} {hlt' : ∀ d ∈ ds, d < nid'}
    (hbelow : TranslatesBelow N e nid) (hN : OneToOne N) (he : e.Tallies N M T e')
    (h : List.Forall₂ (ClausePair N M T) clauses ds) (hscrutinee : Value N T scrutinee scrutinee')
    (hvs : List.Forall₂ (Value N T) vs vs') : Tally T (Evaluator.residual e nid clauses hlt scrutinee vs)
      (Evaluator.residual e' nid' ds hlt' scrutinee' vs') fun U => List.Forall₂ (Value N U) := by
  obtain ⟨cs, ds, hcs, hds, h⟩ := clauses_of_pairs h
  refine TallyIn.congr ?_ (Evaluator.residual_of_ok hcs) (Evaluator.residual_of_ok hds)
  refine (tally_residualClauses hbelow hN he h).bind fun U is js hTU h => ?_
  exact tally_push (forall₂_value_mono hvs hTU) (.case (hscrutinee.mono hTU) h)

/-- Whether the clause is the one for the scrutinee is the same in both, since values are equal in both or in
neither. -/
theorem tally_select {left right ds : List NodeId} {hclauses : ∀ c ∈ clauses, c < nid} {hclauses' : ∀ d ∈ ds, d < nid'}
    {hleft : ∀ c ∈ left, c < nid} {hright : ∀ d ∈ right, d < nid'} (hbelow : TranslatesBelow N e nid) (hN : OneToOne N)
    (he : e.Tallies N M T e') (hall : List.Forall₂ (ClausePair N M T) clauses ds)
    (h : List.Forall₂ (ClausePair N M T) left right) (hscrutinee : Value N T scrutinee scrutinee')
    (hvs : List.Forall₂ (Value N T) vs vs') :
    Tally T (Evaluator.select e nid clauses hclauses scrutinee left hleft vs)
      (Evaluator.select e' nid' ds hclauses' scrutinee' right hright vs') fun U => List.Forall₂ (Value N U) := by
  induction left generalizing T right vs vs' with
  | nil =>
    cases h
    have hground := (Twin.resembling_value N T).isGround_eq hscrutinee
    by_cases hleft : T.left.isGround scrutinee
    · have hright := hground.symm.trans hleft
      exact tally_error (by rw [Evaluator.select_nil, if_pos hleft]) (by rw [Evaluator.select_nil, if_pos hright])
    · have hright := hground ▸ hleft
      exact (tally_residual hbelow hN he hall hscrutinee hvs).congr (by rw [Evaluator.select_nil, if_neg hleft])
        (by rw [Evaluator.select_nil, if_neg hright])
  | cons i left ih =>
    rcases h with _ | ⟨⟨c, d, hc, hd, hcd⟩, h⟩
    have hlt : i < nid := hleft i (.head _)
    obtain ⟨hpattern, hbody⟩ := Machine.lt_of_clause hc
    cases hcd with
    | plain hp hb hps hbs =>
      refine TallyIn.congr ?_ (Evaluator.select_of_none hc rfl) (Evaluator.select_of_none hd rfl)
      have hp := tally_operand (hbelow.nodes _ (Nat.lt_trans hpattern hlt)) he hps hp
      refine hp.bind fun U p p' hTU hp => tally_get ?_
      have he := he.mono hTU
      have hscrutinee := hscrutinee.mono hTU
      have hvs := forall₂_value_mono hvs hTU
      have hall := hall.imp fun _ _ h => h.mono hTU
      have hU := Twin.resembling_value N U
      have heq := Value.eq_iff_eq hN (hU.unwrapGroup hp) (hU.unwrapGroup hscrutinee)
      rw [← hU.isGround_eq hp, ← hU.isGround_eq hscrutinee]
      by_cases hequal : U.left.unwrapGroup p = U.left.unwrapGroup scrutinee
      · rw [if_pos hequal, if_pos (heq.1 hequal)]
        exact hbelow.nodes _ (Nat.lt_trans hbody hlt) he (hbs.grow hTU.1) (hb.mono hTU) hvs
      · rw [if_neg hequal, if_neg (mt heq.2 hequal)]
        split
        · exact ih he hall (h.imp fun _ _ h => h.mono hTU) hscrutinee hvs
        · exact tally_residual hbelow hN he hall hscrutinee hvs
    | @binder x p p' b b' l l' hx hy hkept hb hl hbs =>
      have hvar := Machine.Clause.variable?_of_get? (b := b) (l := l) hx
      have hvar' := Machine.Clause.variable?_of_get? (b := b') (l := l') hy
      by_cases hlimit : e.limit < e.depth
      · have hlimit' := (limit_lt_depth_iff he).2 hlimit
        exact tally_error ((Evaluator.select_of_some hc hvar).trans (if_pos hlimit))
          ((Evaluator.select_of_some hd hvar').trans (if_pos hlimit'))
      · have hlimit' := mt (limit_lt_depth_iff he).1 hlimit
        refine TallyIn.congr ?_ ((Evaluator.select_of_some hc hvar).trans (if_neg hlimit))
          ((Evaluator.select_of_some hd hvar').trans (if_neg hlimit'))
        have hroom := Environment.room_opened_lt hlimit "case" [] [.bound x scrutinee]
        exact hbelow.scopes _ hroom b (he.openedCase hN hkept hscrutinee) hbs hb hvs

/-! ### Nodes -/

theorem Twin.Value.operator {a a' b b' : NodeId} (ht : t ≠ .lambda ∧ t ≠ .binding ∧ t ≠ .case)
    (ha : Value N T a a') (hb : Value N T b b') :
    (T.left.operatorNode t a b).Renamed N T (Value N T) (T.right.operatorNode t a' b') := by
  have hT := Twin.resembling_value N T
  unfold Pool.operatorNode
  rw [hT.literal?_eq ha, hT.literal?_eq hb, hT.number?_eq ha, hT.number?_eq hb]
  refine Node.Renamed.getD (fun n hn => ?_) ht (.cons ha (.cons hb .nil))
  split at hn
  · exact Node.isLiteral_of_concat hn
  all_goals first | exact Node.isLiteral_of_compare hn | exact Node.isLiteral_of_arithmetic hn

theorem Twin.Value.negation {a a' : NodeId} (ha : Value N T a a') :
    (T.left.negationNode a).Renamed N T (Value N T) (T.right.negationNode a') := by
  unfold Pool.negationNode
  rw [(Twin.resembling_value N T).number?_eq ha]
  split
  · exact .literal rfl
  · exact .branch (by decide) (.cons ha .nil)

theorem tally_binary {a a' b b' : NodeId} (ht : t ≠ .lambda ∧ t ≠ .binding ∧ t ≠ .case) (hx : Translates N e a)
    (hy : Translates N e b) (he : e.Tallies N M T e') (has : T.left.Sees M a) (hbs : T.left.Sees M b)
    (ha : Source N T a a') (hb : Source N T b b') (hvs : List.Forall₂ (Value N T) vs vs') : Tally T
      (do
        let v ← Evaluator.operand e a
        let w ← Evaluator.operand e b
        let p ← get
        return (← PoolM.intern (p.operatorNode t v w)) :: vs)
      (do
        let v ← Evaluator.operand e' a'
        let w ← Evaluator.operand e' b'
        let p ← get
        return (← PoolM.intern (p.operatorNode t v w)) :: vs') fun U => List.Forall₂ (Value N U) := by
  refine (tally_operand hx he has ha).bind fun U v v' hTU hv => ?_
  refine (tally_operand hy (he.mono hTU) (hbs.grow hTU.1) (hb.mono hTU)).bind fun V w w' hUV hw => tally_get ?_
  exact tally_push (forall₂_value_mono hvs (hTU.trans hUV)) ((hv.mono hUV).operator ht hw)

/-- Parts that are evaluated in turn and then taken by a node over them. -/
theorem tally_parts {hlt : ∀ c ∈ es, c < nid} {hlt' : ∀ c ∈ es', c < nid'} (ht : t ≠ .lambda ∧ t ≠ .binding ∧ t ≠ .case)
    (h : ∀ c ∈ es, Translates N e c) (he : e.Tallies N M T e') (hsees : ∀ c ∈ es, T.left.Sees M c)
    (hes : List.Forall₂ (Source N T) es es') (hvs : List.Forall₂ (Value N T) vs vs') : Tally T
      (do
        let values ← Evaluator.operands e nid es hlt
        return (← PoolM.intern (.branch t values)) :: vs)
      (do
        let values ← Evaluator.operands e' nid' es' hlt'
        return (← PoolM.intern (.branch t values)) :: vs') fun U => List.Forall₂ (Value N U) :=
  (tally_operands h he hsees hes).bind fun _ _ _ hTU hus => tally_push (forall₂_value_mono hvs hTU) (.branch ht hus)

theorem tally_visitBranch {hlt : ∀ c ∈ es, c < nid} {hlt' : ∀ c ∈ es', c < nid'}
    (ht : t ≠ .lambda ∧ t ≠ .binding ∧ t ≠ .case) (h : ∀ c ∈ es, Translates N e c) (he : e.Tallies N M T e')
    (hsees : ∀ c ∈ es, T.left.Sees M c) (hes : List.Forall₂ (Source N T) es es')
    (hvs : List.Forall₂ (Value N T) vs vs') :
    Tally T (Evaluator.visitBranch e nid t es hlt vs) (Evaluator.visitBranch e' nid' t es' hlt' vs')
      fun U => List.Forall₂ (Value N U) := by
  have hreverse : ∀ c ∈ es.reverse, Translates N e c := fun c hc => h c (List.mem_reverse.1 hc)
  have hreversed : ∀ c ∈ es.reverse, T.left.Sees M c := fun c hc => hsees c (List.mem_reverse.1 hc)
  have hes' := List.rel_reverse hes
  have hfails {err : Error} : Tally T (throw err : PoolM (List NodeId)) (throw err) fun U => List.Forall₂ (Value N U) :=
    tally_error rfl rfl
  rw [Evaluator.visitBranch.eq_def, Evaluator.visitBranch.eq_def]
  cases t with
  | prog =>
    refine (tally_visitAll (fun c hc => h c (List.mem_of_mem_take hc)) he (fun c hc => hsees c (List.mem_of_mem_take hc))
      (List.forall₂_take 1 hes) .nil).bind fun U us us' hTU hus => ?_
    refine (tally_intern (.branch (by decide) hus)).bind fun V i j hUV hij => ?_
    exact tally_push (forall₂_value_mono hvs (hTU.trans hUV)) (.branch (by decide) (.cons hij .nil))
  | exprs => exact tally_visitAll hreverse he hreversed hes' hvs
  | paren =>
    refine (tally_visitAll hreverse he hreversed hes' .nil).bind fun U us us' hTU hus => ?_
    refine (tally_single hus).bind fun V i j hUV hij => ?_
    exact tally_push (forall₂_value_mono hvs (hTU.trans hUV)) (.branch (by decide) (.cons hij .nil))
  | list =>
    refine (tally_visitAll hreverse he hreversed hes' .nil).bind fun U us us' hTU hus => ?_
    exact tally_push (forall₂_value_mono hvs hTU) (.branch (by decide) hus)
  | record | apply | val | arg | of => exact tally_parts (by decide) h he hsees hes hvs
  | add | sub | div | mod | pow | concat | eq | ne | lt | gt | le | ge =>
    rcases hes with _ | ⟨ha, _ | ⟨hb, _ | _⟩⟩
    · exact hfails
    · exact hfails
    · exact tally_binary (by decide) (h _ (.head _)) (h _ (.tail _ (.head _))) he (hsees _ (.head _))
        (hsees _ (.tail _ (.head _))) ha hb hvs
    · exact hfails
  | or | and => exact hfails
  | neg =>
    rcases hes with _ | ⟨ha, hes⟩
    · exact hfails
    · refine (tally_operand (h _ (.head _)) he (hsees _ (.head _)) ha).bind fun U v v' hTU hv => tally_get ?_
      exact tally_push (forall₂_value_mono hvs hTU) hv.negation
  | lambda | binding | case => simp at ht
  | num | str | ident | bool | null => exact hfails

theorem translates_of_below (hN : OneToOne N) (h : TranslatesBelow N e nid) : Translates N e nid := by
  intro T M e' nid' vs vs' he hsees hnid hvs
  have hvalue := hnid.value
  cases hnid with
  | given h => exact h.elim
  | node hi hj hm =>
    cases hm with
    | literal hn =>
      obtain ⟨hname, hbranch⟩ := Node.ne_of_isLiteral hn
      exact (tally_pure (.cons hvalue hvs)).congr (Evaluator.visit_of_leaf hi hname hbranch)
        (Evaluator.visit_of_leaf hj hname hbranch)
    | ident hxy =>
      refine (tally_visitName he (hsees.free _ (.name hi)) hxy hvalue hvs).congr (Evaluator.visit_of_ident hi)
        (Evaluator.visit_of_ident hj)
    | branch ht hes =>
      refine TallyIn.congr ?_ (Evaluator.visit_of_branch hi ht.1) (Evaluator.visit_of_branch hj ht.1)
      exact tally_visitBranch ht (fun c hc => h.nodes c (Pool.lt_of_get?_branch hi hc)) he (sees_of_branch hi hsees ht) hes hvs
    | entry hk hv => 
      refine TallyIn.congr ?_ (Evaluator.visit_of_branch hi (by decide)) (Evaluator.visit_of_branch hj (by decide))
      rw [Evaluator.visitBranch.eq_def, Evaluator.visitBranch.eq_def]
      have hlt := Pool.lt_of_get?_branch hi (.tail _ (.head _))
      refine (tally_operand (h.nodes _ hlt) he (sees_of_entry hi hsees) hv).bind fun U v v' hTU hv => ?_
      exact tally_push (forall₂_value_mono hvs hTU) (.entry (hk.mono hTU) hv)
    | lambda hl hp hps hkept hb =>
      obtain ⟨c, d, hc, hd, hcd⟩ := renamed_lambda hsees hi hp hps hkept hb
      refine (tally_apply h.scopes hN he hcd hvs).congr ?_ ?_
      · rw [Evaluator.visit_of_lambda hi, hc]
      · rw [Evaluator.visit_of_lambda hj, hd]
    | case ha hcs =>
      refine TallyIn.congr ?_ (Evaluator.visit_of_branch hi (by decide)) (Evaluator.visit_of_branch hj (by decide))
      rw [Evaluator.visitBranch.eq_def, Evaluator.visitBranch.eq_def]
      have hlt := Pool.lt_of_get?_branch hi (.head _)
      have hpairs := clausePairs_of_case hsees hi hcs
      have hfirst : T.left.Sees M _ := ⟨Nat.le_trans (Nat.le_of_lt hlt) hsees.held, fun x hx => hsees.free x (.scrutinee hi hx)⟩
      refine (tally_operand (h.nodes _ hlt) he hfirst ha).bind fun U v v' hTU hv => ?_
      have hpairs := hpairs.imp fun _ _ h => h.mono hTU
      exact tally_select h hN (he.mono hTU) hpairs hpairs hv (forall₂_value_mono hvs hTU)

/-- All nodes tally with the same text with other names. -/
theorem translates (hN : OneToOne N) (e : Environment) (nid : NodeId) : Translates N e nid := by
  induction hroom : e.room using Nat.strongRecOn generalizing e nid with
  | ind room ihroom =>
    induction nid using Nat.strongRecOn with
    | ind nid ihnid =>
      exact translates_of_below hN ⟨ihnid, fun f hlt c => ihroom f.room (hroom ▸ hlt) f c rfl⟩

end

end Linefold
