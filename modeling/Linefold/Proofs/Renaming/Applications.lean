import Linefold.Proofs.Folding.Limited
import Linefold.Proofs.Renaming.Alpha
import Linefold.Proofs.Renaming.Evaluation

/-!
# Functions with too few arguments

A function that is applied to some of its arguments leaves a function of the parameters that are left. What these are
called makes no difference to what is left (`Machine.fold_renamed`), as long as they are not free in the arguments that
are put into the body, and not bound again in the body. Otherwise it does: a value is put into the body as it is, below
the binder for the parameters that are left and below any other one (`Machine.fold_captures`).
-/

namespace Linefold

open Pattern (PoolM)
open Machine (Callee)
open Twin (Source Value Given)

attribute [local irreducible] Pool.intern

variable {N : String → String → Prop} {T : Twin} {p q : Pool} {e : Environment} {ps qs args args' : List NodeId}
  {xs ys zs names names' : List String} {b b' i j : NodeId} {M : String → Prop} {x y : String}

/-! ### Plain parameters -/

/-- The nodes are names. -/
abbrev Pool.Names (p : Pool) : List NodeId → List String → Prop := List.Forall₂ fun i x => p.get? i = some (.ident x)

theorem Pool.Names.grow (h : p.Names ps xs) (hpq : p.Extends q) : q.Names ps xs := h.imp fun _ _ h => hpq _ _ h

theorem Pool.params_of_names (h : p.Names ps xs) : p.params ps = xs := by
  induction h with
  | nil => rfl
  | cons hi _ ih =>
    simp only [params, List.map_cons, Pattern.identsOfAll] at ih ⊢
    rw [idents_ident hi, ih, List.singleton_append]

theorem Pool.shapes_of_names (h : p.Names ps xs) :
    Pattern.shapes (ps.map p.pattern) = List.replicate ps.length (.name 0 "") := by
  induction h with
  | nil => rfl
  | cons hi _ ih =>
    rw [List.map_cons, Pattern.shapes, ih, pattern_of_ident hi]
    rfl

theorem Pool.namesOfAll_of_names (h : p.Names ps xs) : Pattern.namesOfAll (ps.map p.pattern) = .ok ps := by
  induction h with
  | nil => rfl
  | cons hi _ ih =>
    rw [List.map_cons, Pattern.namesOfAll, ih, pattern_of_ident hi]
    rfl

namespace Pattern

/-- The words of plain parameters. One without an argument has no value. -/
def plainWords (args : List NodeId) (i : Nat) : List String → List Word
  | [] => []
  | x :: xs => { Word.value x i with nid := args.head?.getD 0 } :: plainWords args.tail (i + 1) xs

theorem map_name_plainWords {i : Nat} : (plainWords args i xs).map Word.name = xs := by
  induction xs generalizing args i with
  | nil => rfl
  | cons x xs ih => exact congrArg (x :: ·) ih

theorem bindAll_of_names {i : Nat} (h : p.Names ps xs) :
    bindAll args i ps p = .ok ⟨plainWords args i xs, false⟩ p := by
  induction h generalizing args i with
  | nil => rfl
  | cons hc _ ih =>
    rw [bindAll_cons_name hc]
    simp only [bind, EStateM.bind, ih]
    rfl

theorem lambdaParts_of_names (h : p.Names ps xs) :
    ∃ l q, lambdaParts ps p = .ok (l, l) q ∧ p.Extends q ∧ q.get? l = some (.branch .list ps) := by
  have hle : ∀ c ∈ ps, c ≤ p.size := forall_mem_left h fun _ _ h => Pool.le_size_of_get? h
  have hext := p.extends_intern (.branch .list ps)
  have hget : (p.intern (.branch .list ps)).2.get? _ = _ := Pool.get?_intern hle
  have hget' : ((p.intern (.branch .list ps)).2.intern (.branch .list ps)).2.get? _ = _ :=
    Pool.get?_intern fun c hc => hext.le_size (hle c hc)
  have hext' := (p.intern (.branch .list ps)).2.extends_intern (.branch .list ps)
  have heq := Pool.eq_of_get? (hext' _ _ hget) hget'
  refine ⟨_, _, ?_, hext.trans hext', hext' _ _ hget⟩
  rw [lambdaParts, get_bind]
  simp only [Pool.namesOfAll_of_names h, bind, EStateM.bind, PoolM.intern, pure, EStateM.pure]
  rw [← heq]

end Pattern

/-- Words for corresponding names and the same values, as far as these matter. -/
theorem tally_plainWords {i : Nat} (h : List.Forall₂ N names names')
    (hargs : ∀ xa ∈ names.zip args, M xa.1 → Value N T xa.2 xa.2) :
    Word.AllTally N M T (Pattern.plainWords args i names) (Pattern.plainWords args i names') := by
  induction h generalizing args i with
  | nil => exact .nil
  | @cons x y _ _ hxy _ ih =>
    cases args with
    | nil => exact .cons ⟨hxy, fun _ => ⟨rfl, rfl, .absent N T⟩⟩ (ih (by simp))
    | cons a args =>
      obtain ⟨ha, hargs⟩ := List.forall_mem_cons.1 hargs
      exact .cons ⟨hxy, fun hx => ⟨rfl, rfl, ha hx⟩⟩ (ih hargs)

/-- Of the parameters the first ones are kept. -/
theorem forall₂_under (hlength : zs.length = ys.length) (hzs : (xs ++ zs).Nodup) (hys : (xs ++ ys).Nodup) :
    List.Forall₂ (Under zs ys Eq) (xs ++ zs) (xs ++ ys) := by
  obtain ⟨-, hzs, hxzs⟩ := List.nodup_append.1 hzs
  obtain ⟨-, hys, hxys⟩ := List.nodup_append.1 hys
  refine List.rel_append (List.forall₂_same.2 fun x hx => ?_) ?_
  · exact .inr ⟨fun hz => hxzs x hx x hz rfl, fun hy => hxys x hx x hy rfl, rfl⟩
  · exact (forall₂_boundAlike hzs hys hlength).imp fun _ _ => .inl

/-! ### Applications to some arguments -/

/-- The node is a function of plain parameters with the given body. -/
def Pool.LambdaOver (p : Pool) (id : NodeId) (names : List String) (body : NodeId) : Prop :=
  ∃ l ps, p.get? id = some (.branch .lambda [l, body, l]) ∧ p.get? l = some (.branch .list ps) ∧ p.Names ps names

/-- Functions of the names `zs` and `ys` that differ in these only. -/
structure AlphaLambdas (zs ys : List String) (T : Twin) (i j : NodeId) : Prop where
  left : ∃ b, T.left.LambdaOver i zs b
  right : ∃ b, T.right.LambdaOver j ys b
  alpha : Alpha T Eq i j

theorem lambdaOver_intern {l : NodeId} (hl : p.get? l = some (.branch .list ps)) (hps : p.Names ps zs) (hb : b ≤ p.size) :
    (p.intern (.branch .lambda [l, b, l])).2.LambdaOver (p.intern (.branch .lambda [l, b, l])).1 zs b := by
  have hext := p.extends_intern (.branch .lambda [l, b, l])
  have hle := Pool.le_size_of_get? hl
  exact ⟨l, ps, Pool.get?_intern (by simp [Node.elts, hle, hb]), hext _ _ hl, hps.grow hext⟩

theorem Alpha.lambdaOver (hi : T.left.LambdaOver i xs b) (hj : T.right.LambdaOver j ys b')
    (hlength : xs.length = ys.length) (hb : Alpha T (Under xs ys N) b b') : Alpha T N i j := by
  obtain ⟨l, ps, hi, hl, hps⟩ := hi
  obtain ⟨l', qs, hj, hl', hqs⟩ := hj
  have hcount : ps.length = qs.length := by rw [hps.length_eq, hqs.length_eq, hlength]
  refine .lambda hi hj hl hl' ?_ (.inr ⟨Pool.idents_list hl, Pool.idents_list hl'⟩) ?_
  · rw [Pool.shapes_of_names hps, Pool.shapes_of_names hqs, hcount]
  · rw [Pool.params_of_names hps, Pool.params_of_names hqs]
    exact hb

theorem Alpha.of_lambdaOver (h : Alpha T N i j) (hi : T.left.LambdaOver i xs b) (hj : T.right.LambdaOver j ys b') :
    Alpha T (Under xs ys N) b b' := by
  obtain ⟨l, ps, hi, hl, hps⟩ := hi
  obtain ⟨l', qs, hj, hl', hqs⟩ := hj
  have hb := h.lambda_inv hi hj hl hl'
  rwa [Pool.params_of_names hps, Pool.params_of_names hqs] at hb

/-- The parameters that are left, over bodies with other names. -/
theorem tally_left {f : Environment} (hN : OneToOne (Under zs ys Eq)) (hlength : zs.length = ys.length)
    (hps : T.left.Names ps zs) (hqs : T.right.Names qs ys)
    (hbody : ∀ U, T.Grows U → Tally U (Evaluator.operand e b) (Evaluator.operand f b') (Value (Under zs ys Eq))) : Tally T
      (do
        let (names, pattern) ← Pattern.lambdaParts ps
        let body ← Evaluator.operand e b
        return [← PoolM.intern (.branch .lambda [names, body, pattern])])
      (do
        let (names, pattern) ← Pattern.lambdaParts qs
        let body ← Evaluator.operand f b'
        return [← PoolM.intern (.branch .lambda [names, body, pattern])])
      fun U is js => ∃ i j, is = [i] ∧ js = [j] ∧ AlphaLambdas zs ys U i j := by
  obtain ⟨l, p, hp, hTp, hl⟩ := Pattern.lambdaParts_of_names hps
  obtain ⟨l', q, hq, hTq, hl'⟩ := Pattern.lambdaParts_of_names hqs
  have hparts : Tally T (Pattern.lambdaParts ps) (Pattern.lambdaParts qs) fun U is js => is = (l, l) ∧ js = (l', l') ∧
      U.left.get? l = some (.branch .list ps) ∧ U.right.get? l' = some (.branch .list qs) :=
    tally_ok hp hq ⟨hTp, hTq⟩ ⟨rfl, rfl, hl, hl'⟩
  refine hparts.bind ?_
  rintro U _ _ hTU ⟨rfl, rfl, hl, hl'⟩
  refine (hbody U hTU).bind fun V a c hUV hac => ?_
  have hi := lambdaOver_intern (hUV.1 _ _ hl) (hps.grow (hTU.trans hUV).1) hac.le_size.1
  have hj := lambdaOver_intern (hUV.2 _ _ hl') (hqs.grow (hTU.trans hUV).2) hac.le_size.2
  have hgrows := V.grows_intern (.branch .lambda [l, a, l]) (.branch .lambda [l', c, l'])
  have hbodies : Alpha _ (Under zs ys Eq) a c := (hac.mono hgrows).alpha hN fun _ _ h => h
  exact tally_ok rfl rfl hgrows ⟨_, _, rfl, rfl, ⟨_, hi⟩, ⟨_, hj⟩, .lambdaOver hi hj hlength hbodies⟩

/-- The names are not free in the node. -/
abbrev Pool.Avoids (p : Pool) (xs ys : List String) (id : NodeId) : Prop := p.Sees (fun x => x ∉ xs ∧ x ∉ ys) id

/-- The parameters `zs` of the first function are `ys` in the second one, and both are applied to as many values as they have
parameters before these. None of these names comes with a value that the body uses, or is bound in the body. -/
structure Pool.LeftUnder (p : Pool) (e : Environment) (xs zs ys : List String) (args : List NodeId) (i j : NodeId) : Prop where
  distinct : (xs ++ zs).Nodup ∧ (xs ++ ys).Nodup
  length : zs.length = ys.length
  ne_nil : zs ≠ []
  count : args.length = xs.length
  renamed : ∃ b b', p.LambdaOver i (xs ++ zs) b ∧ p.LambdaOver j (xs ++ ys) b' ∧ Source (Under zs ys Eq) ⟨p, p⟩ b b' ∧
    (∀ xa ∈ xs.zip args, p.Free xa.1 b → p.Avoids zs ys xa.2) ∧
    ∀ x w, p.Free x b → x ∉ xs ++ zs → e.lookup? x = some w → w.cls = .value ∧ p.Avoids zs ys w.nid

theorem Pool.Avoids.value (h : p.Avoids zs ys i) (hT : Twin.Grows ⟨p, p⟩ T) : Value (Under zs ys Eq) T i i := by
  have hsees : p.Sees (fun x => Under zs ys Eq x x) i := h.mono fun x hx => .inr ⟨hx.1, hx.2, rfl⟩
  exact .given ⟨Twin.alike_of_le hT h.held, hsees.grow hT.1, hsees.grow hT.2⟩

/-- An environment tallies with itself where names outside of `zs` and `ys` are looked up. -/
theorem tallies_self (hM : ∀ x, M x → x ∉ zs)
    (hfound : ∀ x w, M x → e.lookup? x = some w → w.cls = .value ∧ p.Avoids zs ys w.nid) :
    e.Tallies (Under zs ys Eq) M ⟨p, p⟩ e := by
  refine ⟨rfl, rfl, fun x y hx hxy => ?_⟩
  obtain ⟨-, -, rfl⟩ := hxy.resolve_left fun h => hM x hx h.mem.1
  cases hw : e.lookup? x with
  | none => exact .none
  | some w =>
    obtain ⟨hcls, hvalue⟩ := hfound x w hx hw
    exact .some ⟨hcls, hcls, hvalue.value (.refl _)⟩

theorem visit_of_lambdaOver {vs : List NodeId} {l : NodeId} (hi : p.get? i = some (.branch .lambda [l, b, l]))
    (hl : p.get? l = some (.branch .list ps)) : Evaluator.visit e i vs p = Evaluator.apply e ⟨"lambda", b, ps, []⟩ vs p := by
  have hcallee : Machine.lambda p [l, b, l] = .ok ⟨"lambda", b, ps, []⟩ := by simp only [Machine.lambda, hl, Node.elts]
  rw [Evaluator.visit_of_lambda hi, hcallee]

/-- An application to fewer arguments than there are parameters. -/
theorem apply_of_names (hps : p.Names ps names) (hlt : args.length < ps.length) (hlimit : ¬ e.limit < e.depth) :
    Evaluator.apply e ⟨"lambda", b, ps, []⟩ args p = (do
      let (names', pattern) ← Pattern.lambdaParts (ps.drop args.length)
      let body ← Evaluator.operand (e.opened "lambda" [] (Pattern.plainWords args 0 names)) b
      return [← PoolM.intern (.branch .lambda [names', body, pattern])] : PoolM (List NodeId)) p := by
  have htake : args.take ps.length = args := List.take_of_length_le (Nat.le_of_lt hlt)
  have hdrop : args.drop ps.length = [] := List.drop_eq_nil_of_le (Nat.le_of_lt hlt)
  rw [Evaluator.apply]
  simp only [htake, hdrop, hlimit, ↓reduceDIte, bind, EStateM.bind, Pattern.bindAll_of_names hps, Bool.false_eq_true,
    ↓reduceIte, Nat.ne_of_lt hlt]

theorem tally_application (h : p.LeftUnder e xs zs ys args i j) :
    Tally ⟨p, p⟩ (Evaluator.visit e i args) (Evaluator.visit e j args)
      fun U is js => ∃ i j, is = [i] ∧ js = [j] ∧ AlphaLambdas zs ys U i j := by
  obtain ⟨b, b', ⟨l, ps, hi, hl, hps⟩, ⟨l', qs, hj, hl', hqs⟩, hsource, hvalues, hfound⟩ := h.renamed
  have hN : OneToOne (Under zs ys Eq) := OneToOne.under ⟨fun h h' => h.symm.trans h', fun h h' => h.trans h'.symm⟩ zs ys
  have hpos : 0 < zs.length := List.length_pos_iff.2 h.ne_nil
  have hlt : args.length < ps.length := by
    rw [hps.length_eq, List.length_append, h.count]
    omega
  have hlt' : args.length < qs.length := by
    rw [hqs.length_eq, List.length_append, h.count, ← h.length]
    omega
  have hleft : p.Names (ps.drop args.length) zs := by
    simpa only [h.count, List.drop_left] using List.forall₂_drop args.length hps
  have hright : p.Names (qs.drop args.length) ys := by
    simpa only [h.count, List.drop_left] using List.forall₂_drop args.length hqs
  by_cases hlimit : e.limit < e.depth
  · have happly {b : NodeId} {ps : List NodeId} :
        Evaluator.apply e ⟨"lambda", b, ps, []⟩ args p = .error (.recursion e.limit) p := by
      rw [Evaluator.apply]
      simp only [hlimit, ↓reduceDIte]
      rfl
    exact tally_error ((visit_of_lambdaOver hi hl).trans happly) ((visit_of_lambdaOver hj hl').trans happly)
  refine TallyIn.congr ?_ ((visit_of_lambdaOver hi hl).trans (apply_of_names hps hlt hlimit))
    ((visit_of_lambdaOver hj hl').trans (apply_of_names hqs hlt' hlimit))
  refine tally_left hN h.length hleft hright fun U hU => ?_
  have hzip : (xs ++ zs).zip args = xs.zip args := by
    have happend : (xs ++ zs).zip (args ++ []) = xs.zip args ++ zs.zip [] := List.zip_append h.count.symm
    simpa only [List.append_nil, List.zip_nil_right] using happend
  have hbefore : e.Tallies (Under zs ys Eq) (fun x => p.Free x b ∧ x ∉ xs ++ zs) ⟨p, p⟩ e :=
    tallies_self (fun x hx hz => hx.2 (List.mem_append_right _ hz)) fun x w hx => hfound x w hx.1 hx.2
  have hwords : Word.AllTally (Under zs ys Eq) (fun x => p.Free x b) U (Pattern.plainWords args 0 (xs ++ zs))
      (Pattern.plainWords args 0 (xs ++ ys)) := by
    refine tally_plainWords (forall₂_under h.length h.distinct.1 h.distinct.2) fun xa hxa hfree => ?_
    exact (hvalues xa (hzip ▸ hxa) hfree).value hU
  have hinside := (hbefore.mono hU).opened hN "lambda" hwords fun x hx => by
    rw [Pattern.map_name_plainWords]
    by_cases hbound : x ∈ xs ++ zs
    · exact .inr hbound
    · exact .inl ⟨hx, hbound⟩
  have hsees : p.Sees (fun x => p.Free x b) b := ⟨Renamed.le_left hsource (by rintro _ _ ⟨⟩), fun _ hx => hx⟩
  exact tally_operand (translates hN _ b) hinside (hsees.grow hU.1) (hsource.mono hU)

/-! ### Folds -/

namespace Evaluator

/-- The first of some nodes is folded before the values of the others. -/
theorem operand_of_exprs {c : NodeId} {cs : List NodeId} (hc : p.get? c = some (.branch .exprs (i :: cs))) :
    operand e c p = (do single (← visit e i (← visitBack e cs [])) : PoolM NodeId) p := by
  have hvisit : visit e c [] p = (do visit e i (← visitBack e cs []) : PoolM (List NodeId)) p := by
    rw [visit_of_branch hc (by decide), visitBranch.eq_def]
    rw [visitAll_reverse, visitBack_cons]
  rw [operand]
  simp only [bind, EStateM.bind, hvisit]
  cases visitBack e cs [] p <;> rfl

end Evaluator

/-- Whatever the parameters that are left are called, a function of them is left, and always the same. -/
theorem Machine.fold_renamed {m : Machine} {c d : NodeId} {as : List NodeId} (hm : m.env.Unnamed m.pool)
    (hc : m.pool.get? c = some (.branch .exprs (i :: as))) (hd : m.pool.get? d = some (.branch .exprs (j :: as)))
    (hargs : Evaluator.visitBack m.env as [] m.pool = .ok args q) (h : q.LeftUnder m.env xs zs ys args i j) :
    match m.fold c, m.fold d with
    | .ok a r, .ok b s => AlphaLambdas zs ys ⟨r.pool, s.pool⟩ a b
    | .error _ _, .error _ _ => True
    | _, _ => False := by
  have hfolds : Tally ⟨q, q⟩ (do Evaluator.single (← Evaluator.visit m.env i args))
      (do Evaluator.single (← Evaluator.visit m.env j args)) (AlphaLambdas zs ys) := by
    refine (tally_application h).bind ?_
    rintro U _ _ - ⟨a, c, rfl, rfl, hac⟩
    exact tally_pure hac
  have hfold {c i : NodeId} (hc : m.pool.get? c = some (.branch .exprs (i :: as))) : Evaluator.operand m.env c m.pool =
      (do Evaluator.single (← Evaluator.visit m.env i args) : PoolM NodeId) q := by
    rw [Evaluator.operand_of_exprs hc]
    simp only [bind, EStateM.bind, hargs]
  exact fold_tally hfolds hm (hfold hc) hm (hfold hd)

/-! ### Some functions of two parameters -/

/-- The nodes of `<x y: x - y>` and of `<x y: case y of v: <y: v - y> end>`, and of both with `z` for their second
parameter, each of them before an argument. -/
def callNodes : List Node := [
  .ident "x", .ident "y", .ident "z",
  .branch .sub [1, 2], .branch .list [1, 2], .branch .lambda [5, 4, 5],
  .branch .sub [1, 3], .branch .list [1, 3], .branch .lambda [8, 7, 8],
  .ident "v", .branch .sub [10, 2], .branch .list [2], .branch .lambda [12, 11, 12],
  .branch .list [10], .branch .of [10, 13, 14],
  .branch .case [2, 15], .branch .lambda [5, 16, 5],
  .branch .case [3, 15], .branch .lambda [8, 18, 8],
  .ident "a",
  .branch .exprs [6, 20], .branch .exprs [9, 20],
  .branch .exprs [6, 2], .branch .exprs [9, 2],
  .branch .exprs [17, 20], .branch .exprs [19, 20]]

def callPool : Pool := .ofNodes callNodes

theorem nodes_callPool : callPool.nodes = callNodes.toArray := Pool.nodes_ofNodes (by decide) (by decide)

theorem get?_callPool {i : Nat} : callPool.get? (i + 1) = callNodes[i]? := by
  show callPool.nodes[i]? = _
  rw [nodes_callPool, List.getElem?_toArray]

theorem mem_callNodes {id : NodeId} {n : Node} (h : callPool.get? id = some n) : n ∈ callNodes := by
  cases id with
  | zero => cases h
  | succ i => exact List.mem_of_getElem? (get?_callPool.symm.trans h)

theorem unnamed_callPool : Environment.initial.Unnamed callPool := by
  refine Environment.all_initial fun w hw => .of_ne (by simp [Word.operator]) fun _ _ id hid => ?_
  have hname : w.1 ∈ ["x", "y", "z", "v", "a"] := by
    have hmem := mem_callNodes hid
    simp only [callNodes, List.mem_cons, Node.ident.injEq, List.mem_nil_iff, reduceCtorEq, or_false, false_or] at hmem
    simpa using hmem
  have hnone : ∀ w ∈ Environment.operatorWords, w.1 ∉ ["x", "y", "z", "v", "a"] := by decide
  exact hnone w hw hname

theorem lambdaOver_callPool : callPool.LambdaOver 6 ["x", "y"] 4 ∧ callPool.LambdaOver 9 ["x", "z"] 7 ∧
    callPool.LambdaOver 17 ["x", "y"] 16 ∧ callPool.LambdaOver 19 ["x", "z"] 18 := by
  have hxy : callPool.Names [1, 2] ["x", "y"] := .cons get?_callPool (.cons get?_callPool .nil)
  have hxz : callPool.Names [1, 3] ["x", "z"] := .cons get?_callPool (.cons get?_callPool .nil)
  exact ⟨⟨5, _, get?_callPool, get?_callPool, hxy⟩, ⟨8, _, get?_callPool, get?_callPool, hxz⟩,
    ⟨5, _, get?_callPool, get?_callPool, hxy⟩, ⟨8, _, get?_callPool, get?_callPool, hxz⟩⟩

theorem visit_unbound {vs : List NodeId} (hi : p.get? i = some (.ident x)) (hx : e.lookup? x = none) :
    Evaluator.visit e i vs p = .ok (i :: vs) p := by
  rw [Evaluator.visit_of_ident hi, Evaluator.visitName, hx]
  rfl

/-- `<x y: x - y> a` leaves what `<x z: x - z> a` leaves. -/
theorem fold_renamed_difference :
    match (Machine.ofPool callPool .initial).fold 21, (Machine.ofPool callPool .initial).fold 22 with
    | .ok a r, .ok b s => AlphaLambdas ["y"] ["z"] ⟨r.pool, s.pool⟩ a b
    | .error _ _, .error _ _ => True
    | _, _ => False := by
  have hargs : Evaluator.visitBack .initial [20] [] callPool = .ok [20] callPool := by
    have hvisit : Evaluator.visit .initial 20 [] callPool = .ok [20] callPool := visit_unbound get?_callPool (by decide)
    rw [Evaluator.visitBack_cons, Evaluator.visitBack_nil, pure_bind]
    exact hvisit
  have hfree : ∀ x, callPool.Free x 4 → x ∈ ["x", "y"] := by
    have hbody : callPool.get? 4 = some (.branch .sub [1, 2]) := get?_callPool
    have hsees : callPool.Sees (· ∈ ["x", "y"]) 4 := by
      refine Pool.sees_branch hbody (by decide) (List.forall_mem_cons.2 ⟨Pool.sees_ident get?_callPool (by decide), ?_⟩)
      exact List.forall_mem_singleton.2 (Pool.sees_ident get?_callPool (by decide))
    exact hsees.free
  suffices hleft : callPool.LeftUnder .initial ["x"] ["y"] ["z"] [20] 6 9 from
    Machine.fold_renamed (m := .ofPool callPool .initial) unnamed_callPool get?_callPool get?_callPool hargs hleft
  refine ⟨by decide, rfl, by decide, rfl, 4, 7, lambdaOver_callPool.1, lambdaOver_callPool.2.1, ?_, ?_, ?_⟩
  · refine .node get?_callPool get?_callPool (.branch (by decide) (.cons ?_ (.cons ?_ .nil)))
    · exact .node get?_callPool get?_callPool (.ident (.inr (by decide)))
    · exact .node get?_callPool get?_callPool (.ident (.inl (.inr (by decide))))
  · intro xa hxa _
    cases List.mem_singleton.1 hxa
    exact Pool.sees_ident get?_callPool (by decide)
  · exact fun x w hx hxs => absurd (hfree x hx) hxs

/-- In operators that differ in names only, the first operands correspond. -/
theorem Alpha.first_of_sub {c c' d d' : NodeId} (h : Alpha T N i j) (hi : T.left.get? i = some (.branch .sub [c, d]))
    (hj : T.right.get? j = some (.branch .sub [c', d'])) (hc : T.left.get? c = some (.ident x))
    (hc' : T.right.get? c' = some (.ident y)) : N x y := by
  cases h.branch_inv hi hj (by decide) with
  | cons h _ => exact h.name_inv hc hc'

theorem alpha_callPool : Alpha ⟨callPool, callPool⟩ Eq 6 9 ∧ Alpha ⟨callPool, callPool⟩ Eq 17 19 := by
  obtain ⟨hxy, hxz, hxy', hxz'⟩ := lambdaOver_callPool
  constructor
  · refine .lambdaOver hxy hxz rfl (.branch get?_callPool get?_callPool (by decide) (.cons ?_ (.cons ?_ .nil)))
    · exact .name get?_callPool get?_callPool (by simp [Under, BoundAlike])
    · exact .name get?_callPool get?_callPool (by simp [Under, BoundAlike])
  · have hlists : callPool.get? 14 = some (.branch .list [10]) := get?_callPool
    have hv : (callPool.pattern 14).idents = ["v"] :=
      (Pool.idents_list hlists).trans (Pool.params_of_names (.cons get?_callPool .nil))
    have hinner : callPool.LambdaOver 13 ["y"] 11 := ⟨12, _, get?_callPool, get?_callPool, .cons get?_callPool .nil⟩
    refine .lambdaOver hxy' hxz' rfl (.case get?_callPool get?_callPool ?_ ?_)
    · exact .name get?_callPool get?_callPool (by simp [Under, BoundAlike])
    refine .binder get?_callPool get?_callPool get?_callPool get?_callPool (.inr ⟨hv, hv⟩) ?_ .nil
    refine .lambdaOver hinner hinner rfl (.branch get?_callPool get?_callPool (by decide) (.cons ?_ (.cons ?_ .nil)))
    · exact .name get?_callPool get?_callPool (by simp [Under, BoundAlike])
    · exact .name get?_callPool get?_callPool (by simp [Under, BoundAlike])

namespace Machine

theorem fold_of_left? {m : Machine} {nid id : NodeId} {n : Nat} {is : List NodeId} {ns : List (Option Node)}
    (h : ((foldWithin n m nid).bind left?).map (fun r => (r.1, is.map r.2.get?)) = some (id, ns)) :
    ∃ r, m.fold nid = .ok id r ∧ is.map r.pool.get? = ns := by
  obtain ⟨⟨id', q⟩, hleft, heq⟩ := Option.map_eq_some_iff.1 h
  obtain ⟨r, hfold, hr⟩ := Option.bind_eq_some_iff.1 hleft
  cases heq
  cases r with
  | error => cases hr
  | ok =>
    cases hr
    exact ⟨_, fold_of_foldWithin hfold, rfl⟩

/-- Two nodes fold to nodes that differ in more than bound names. -/
def PartAt (m : Machine) (c d : NodeId) : Prop :=
  ∃ a r b s, m.fold c = .ok a r ∧ m.fold d = .ok b s ∧ ¬ Alpha ⟨r.pool, s.pool⟩ Eq a b

/-- `<x y: x - y> y` leaves `<y: y - y>`. -/
theorem partAt_argument : (ofPool callPool .initial).PartAt 23 24 := by
  let m := ofPool callPool .initial
  have hrun : ((foldWithin 40 m 23).bind left?).map (fun r => (r.1, [28, 12, 27, 2].map r.2.get?)) = some (28,
      [some (.branch .lambda [12, 27, 12]), some (.branch .list [2]), some (.branch .sub [2, 2]), some (.ident "y")]) := by
    decide +kernel
  have hrun' : ((foldWithin 40 m 24).bind left?).map (fun r => (r.1, [29, 27, 28, 2, 3].map r.2.get?)) = some (29,
      [some (.branch .lambda [27, 28, 27]), some (.branch .list [3]), some (.branch .sub [2, 3]), some (.ident "y"),
        some (.ident "z")]) := by
    decide +kernel
  obtain ⟨r, hr, hnodes⟩ := fold_of_left? hrun
  obtain ⟨s, hs, hnodes'⟩ := fold_of_left? hrun'
  simp only [List.map_cons, List.map_nil, List.cons.injEq, and_true] at hnodes hnodes'
  obtain ⟨hlambda, hlist, hsub, hy⟩ := hnodes
  obtain ⟨hlambda', hlist', hsub', hy', hz'⟩ := hnodes'
  refine ⟨28, r, 29, s, hr, hs, fun h => ?_⟩
  have hunder := h.of_lambdaOver ⟨12, [2], hlambda, hlist, .cons hy .nil⟩ ⟨27, [3], hlambda', hlist', .cons hz' .nil⟩
  have hname : Under ["y"] ["z"] Eq "y" "y" := hunder.first_of_sub hsub hsub' hy hy'
  simp [Under, BoundAlike] at hname

/-- `<x y: case y of v: <y: v - y> end> a` leaves `<y: <y: y - y>>`. -/
theorem partAt_variable : (ofPool callPool .initial).PartAt 25 26 := by
  let m := ofPool callPool .initial
  have hrun : ((foldWithin 40 m 25).bind left?).map (fun r => (r.1, [29, 12, 28, 27, 2].map r.2.get?)) = some (29,
      [some (.branch .lambda [12, 28, 12]), some (.branch .list [2]), some (.branch .lambda [12, 27, 12]),
        some (.branch .sub [2, 2]), some (.ident "y")]) := by
    decide +kernel
  have hrun' : ((foldWithin 40 m 26).bind left?).map (fun r => (r.1, [30, 27, 29, 12, 28, 2, 3].map r.2.get?)) = some (30,
      [some (.branch .lambda [27, 29, 27]), some (.branch .list [3]), some (.branch .lambda [12, 28, 12]),
        some (.branch .list [2]), some (.branch .sub [3, 2]), some (.ident "y"), some (.ident "z")]) := by
    decide +kernel
  obtain ⟨r, hr, hnodes⟩ := fold_of_left? hrun
  obtain ⟨s, hs, hnodes'⟩ := fold_of_left? hrun'
  simp only [List.map_cons, List.map_nil, List.cons.injEq, and_true] at hnodes hnodes'
  obtain ⟨hlambda, hlist, hinner, hsub, hy⟩ := hnodes
  obtain ⟨hlambda', hlist', hinner', hlist'', hsub', hy', hz'⟩ := hnodes'
  refine ⟨29, r, 30, s, hr, hs, fun h => ?_⟩
  have hunder := h.of_lambdaOver ⟨12, [2], hlambda, hlist, .cons hy .nil⟩ ⟨27, [3], hlambda', hlist', .cons hz' .nil⟩
  have hunder := hunder.of_lambdaOver ⟨12, [2], hinner, hlist, .cons hy .nil⟩ ⟨12, [2], hinner', hlist'', .cons hy' .nil⟩
  have hname : Under ["y"] ["y"] (Under ["y"] ["z"] Eq) "y" "z" := hunder.first_of_sub hsub hsub' hy hz'
  simp [Under, BoundAlike] at hname

/-- The name that was put in for `x` is bound in what `<x y: x - y> y` leaves, and in what
`<x y: case y of v: <y: v - y> end> a` leaves the name that was put in for `v`. With `z` for the second parameter they are
free, or bound elsewhere. -/
theorem fold_captures :
    let m := ofPool callPool .initial
    Alpha ⟨m.pool, m.pool⟩ Eq 6 9 ∧ m.PartAt 23 24 ∧ Alpha ⟨m.pool, m.pool⟩ Eq 17 19 ∧ m.PartAt 25 26 :=
  ⟨alpha_callPool.1, partAt_argument, alpha_callPool.2, partAt_variable⟩

end Machine

end Linefold
