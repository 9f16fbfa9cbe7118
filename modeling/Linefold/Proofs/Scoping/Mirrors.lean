import Linefold.Proofs.Evaluation.Agreement
import Linefold.Proofs.Scoping.Free

/-!
# Evaluation in other scopes

`Mirrors f g p`: run on the pool `p`, `g` does what `f` does, or stops because there are too many scopes. An
evaluation of a node, repeated in an environment that agrees on the names that are free in it but has more
scopes, follows the first one (`tracks`).
-/

namespace Linefold

open Pattern (PoolM)
open Machine (Callee Clause)

attribute [local irreducible] Pool.intern

/-- The computation stopped because there were too many scopes. -/
def Recursed {α : Type} (r : EStateM.Result Error Pool α) : Prop :=
  ∃ limit q, r = .error (.recursion limit) q

def Mirrors {α : Type} (f g : PoolM α) (p : Pool) : Prop :=
  Recursed (g p) ∨ Ensures f (fun a q => p.Extends q ∧ g p = .ok a q) (fun err q => g p = .error err q) p

section

variable {α β : Type} {f g f' g' : PoolM α} {k l : α → PoolM β} {p : Pool} {n : Node}

theorem Recursed.bind (h : Recursed (g p)) : Recursed ((g >>= l) p) := by
  obtain ⟨limit, q, hg⟩ := h
  refine ⟨limit, q, ?_⟩
  simp only [Bind.bind, EStateM.bind, hg]

theorem Mirrors.bind_of {P : α → Prop} (h : Mirrors f g p)
    (hP : Ensures f (fun a _ => P a) (fun _ _ => True) p)
    (hk : ∀ a q, p.Extends q → P a → Mirrors (k a) (l a) q) : Mirrors (f >>= k) (g >>= l) p := by
  rcases h with h | h
  · exact .inl h.bind
  unfold Ensures at h hP
  split at h
  · next a q hf =>
    obtain ⟨hpq, hg⟩ := h
    rw [hf] at hP
    have heq : (g >>= l) p = l a q := by simp only [Bind.bind, EStateM.bind, hg]
    refine (hk a q hpq hP).imp (fun h => heq ▸ h) fun h => ?_
    rw [heq]
    exact Ensures.bind_iff.2 (.of_ok hf (h.mono (fun _ _ h => ⟨hpq.trans h.1, h.2⟩) fun _ _ h => h))
  · next err q hf =>
    right
    unfold Ensures
    simp only [Bind.bind, EStateM.bind, hf, h]

theorem Mirrors.bind (h : Mirrors f g p) (hk : ∀ a q, p.Extends q → Mirrors (k a) (l a) q) :
    Mirrors (f >>= k) (g >>= l) p := by
  have htrivial : Ensures f (fun _ _ => True) (fun _ _ => True) p := by
    unfold Ensures
    split <;> trivial
  exact h.bind_of htrivial fun a q hpq _ => hk a q hpq

theorem Mirrors.congr (h : Mirrors f' g' p) (hf : f p = f' p) (hg : g p = g' p) : Mirrors f g p := by
  unfold Mirrors Ensures at h ⊢
  rw [hf, hg]
  exact h

/-- The same computation in both. -/
theorem mirrors_self {Q : α → Pool → Prop} {E : Error → Pool → Prop} (h : Ensures f Q E p)
    (hQ : ∀ a q, Q a q → p.Extends q) : Mirrors f f p := by
  right
  unfold Ensures at *
  split
  · next a q hf =>
    rw [hf] at h
    exact ⟨hQ a q h, hf⟩
  · next hf => exact hf

/-- Both begin with the same computation. -/
theorem mirrors_bind {P : α → Prop} (hf : Ensures f (fun a q => p.Grows q ∧ P a) (fun _ _ => True) p)
    (hk : ∀ a q, p.Extends q → P a → Mirrors (k a) (l a) q) : Mirrors (f >>= k) (f >>= l) p :=
  (mirrors_self hf fun _ _ h => h.1.keeps).bind_of (hf.mono (fun _ _ h => h.2) fun _ _ h => h) hk

theorem mirrors_pure {a : α} : Mirrors (pure a) (pure a) p := .inr ⟨.refl p, rfl⟩

theorem mirrors_intern : Mirrors (PoolM.intern n) (PoolM.intern n) p := .inr ⟨p.extends_intern n, rfl⟩

theorem mirrors_error {err : Error} {q : Pool} (hf : f p = .error err q) (hg : g p = .error err q) :
    Mirrors f g p := by
  right
  unfold Ensures
  rw [hf, hg]

theorem mirrors_get {k l : Pool → PoolM β} (h : Mirrors (k p) (l p) p) :
    Mirrors (get >>= k) (get >>= l) p :=
  h.congr rfl rfl

end

/-! ### Values in turn -/

section

variable {p₀ p : Pool} {N : String → Prop} {e e' : Environment} {vs us es ids clauses : List NodeId}
  {nid id scrutinee first : NodeId} {t : Tag} {name : String}

/-- An evaluation of the node in the scopes of `e` is followed by one in any scopes that agree with them. -/
def Tracks (p₀ : Pool) (e : Environment) (nid : NodeId) : Prop :=
  ∀ (e' : Environment) (N : String → Prop) (p : Pool) (vs : List NodeId), Scoped p₀ p N e e' →
    p₀.Sees N nid → Mirrors (Evaluator.visit e nid vs) (Evaluator.visit e' nid vs) p

theorem mirrors_single : Mirrors (Evaluator.single us) (Evaluator.single us) p := by
  unfold Evaluator.single
  split
  · exact mirrors_pure
  · exact mirrors_intern

theorem mirrors_operand (h : Tracks p₀ e nid) (he : Scoped p₀ p N e e') (hnid : p₀.Sees N nid) :
    Mirrors (Evaluator.operand e nid) (Evaluator.operand e' nid) p := by
  rw [Evaluator.operand, Evaluator.operand]
  exact (h e' N p [] he hnid).bind fun _ _ _ => mirrors_single

theorem mirrors_visitAll {hlt : ∀ c ∈ ids, c < nid} (h : ∀ c ∈ ids, Tracks p₀ e c)
    (he : Scoped p₀ p N e e') (hids : ∀ c ∈ ids, p₀.Sees N c) :
    Mirrors (Evaluator.visitAll e nid ids hlt vs) (Evaluator.visitAll e' nid ids hlt vs) p := by
  induction ids generalizing vs p with
  | nil =>
    rw [Evaluator.visitAll, Evaluator.visitAll]
    exact mirrors_pure
  | cons c ids ih =>
    obtain ⟨hc, h⟩ := List.forall_mem_cons.1 h
    obtain ⟨hsees, hids⟩ := List.forall_mem_cons.1 hids
    rw [Evaluator.visitAll, Evaluator.visitAll]
    exact (hc e' N p vs he hsees).bind fun us q hpq => ih h (he.mono hpq) hids

theorem mirrors_operands {hlt : ∀ c ∈ ids, c < nid} (h : ∀ c ∈ ids, Tracks p₀ e c)
    (he : Scoped p₀ p N e e') (hids : ∀ c ∈ ids, p₀.Sees N c) :
    Mirrors (Evaluator.operands e nid ids hlt) (Evaluator.operands e' nid ids hlt) p := by
  induction ids generalizing p with
  | nil =>
    rw [Evaluator.operands, Evaluator.operands]
    exact mirrors_pure
  | cons c ids ih =>
    obtain ⟨hc, h⟩ := List.forall_mem_cons.1 h
    obtain ⟨hsees, hids⟩ := List.forall_mem_cons.1 hids
    rw [Evaluator.operands, Evaluator.operands]
    refine (mirrors_operand hc he hsees).bind fun v q hpq => ?_
    exact (ih h (he.mono hpq) hids).bind fun _ _ _ => mirrors_pure

/-! ### Functions and names -/

/-- All nodes are tracked where fewer scopes may still be opened. -/
def TracksWithin (p₀ : Pool) (e : Environment) : Prop :=
  ∀ f : Environment, f.room < e.room → ∀ nid, Tracks p₀ f nid

theorem not_lt_depth (he : Scoped p₀ p N e e') (hlimit : ¬ e'.limit < e'.depth) : ¬ e.limit < e.depth := by
  have hdepth := he.depth
  rw [he.limit] at hlimit
  omega

theorem mirrors_apply {callee : Callee} (hinner : TracksWithin p₀ e) (he : Scoped p₀ p N e e')
    (hlexicon : callee.lexicon.All (Word.Throughout (Word.Contained p₀ N)))
    (hcallee : callee.Contained p₀ N) :
    Mirrors (Evaluator.apply e callee vs) (Evaluator.apply e' callee vs) p := by
  rw [Evaluator.apply, Evaluator.apply]
  generalize vs.take callee.pattern.length = args, vs.drop callee.pattern.length = rest
  by_cases hlimit : e'.limit < e'.depth
  · left
    simp only [hlimit, ↓reduceDIte]
    exact ⟨_, p, rfl⟩
  have hlimit' := not_lt_depth he hlimit
  simp only [hlimit, hlimit', ↓reduceDIte]
  refine mirrors_bind (Pattern.ensures_bindAll args 0 he.grown) ?_
  rintro bound q hpq ⟨hvalues, hnames⟩
  have hroom := Environment.room_opened_lt hlimit' callee.name callee.lexicon bound.words
  have hbody := hinner _ hroom callee.body
  have hopened : Scoped p₀ q _ _ _ := (he.mono hpq).opened callee.name hlexicon hvalues
    (fun x hx => .inl hx) fun x (hx : _ ∨ _ ∨ _) => hnames hcallee.pattern ▸ hx
  split
  · refine mirrors_bind (Pattern.adds_lambdaParts callee.pattern q) fun parts r hqr _ => ?_
    refine (mirrors_operand hbody (hopened.mono hqr) hcallee.body).bind fun body q' _ => ?_
    exact mirrors_intern.bind fun _ _ _ => mirrors_intern.bind fun _ _ _ => mirrors_pure
  · split
    · exact hbody _ _ q rest hopened hcallee.body
    · refine mirrors_bind (Pattern.adds_lambdaParts _ q) fun parts r hqr _ => ?_
      refine (mirrors_operand hbody (hopened.mono hqr) hcallee.body).bind fun body q' _ => ?_
      exact mirrors_intern.bind fun _ _ _ => mirrors_pure

theorem mirrors_visitName (hinner : TracksWithin p₀ e) (he : Scoped p₀ p N e e') (hname : N name) :
    Mirrors (Evaluator.visitName e nid name vs) (Evaluator.visitName e' nid name vs) p := by
  rw [Evaluator.visitName, Evaluator.visitName, he.lookup name hname]
  cases hword : e.lookup? name with
  | none => exact mirrors_pure
  | some word =>
    have hw := he.words name word hname hword
    cases hcls : word.cls with
    | value =>
      simp only [hcls]
      exact mirrors_pure
    | operator t =>
      simp only [hcls]
      exact mirrors_error rfl rfl
    | function =>
      simp only [hcls]
      cases hclosure : word.closure with
      | none => exact mirrors_pure
      | some closure =>
        simp only
        split
        · exact mirrors_pure
        · exact mirrors_apply hinner he (hw.lexicon hcls hclosure) (hw.self hcls closure hclosure)

/-! ### Clauses -/

/-- What is below a node in the scopes of `e`, and everything where fewer scopes may still be opened, is
tracked. -/
structure TracksBelow (p₀ : Pool) (e : Environment) (nid : NodeId) : Prop where
  nodes : ∀ c < nid, Tracks p₀ e c
  scopes : TracksWithin p₀ e

/-- A pattern variable is bound in the same way in both. -/
theorem Scoped.openedCase {w : Word} (he : Scoped p₀ p N e e') (hw : w.cls = .value) :
    Scoped p₀ p (fun x => N x ∨ x = w.name) (e.opened "case" [] [w]) (e'.opened "case" [] [w]) :=
  he.opened "case" Lexicon.all_nil (by simpa [Pattern.AllValues] using hw) (fun _ => .inl) fun x hx =>
    hx.imp_right fun hx => .inr (by simp [hx])

variable {c : Clause} {cid : NodeId}

/-- The parts of a clause are held, and what is free in them is free in the case or is the variable. -/
theorem sees_of_clause (hnid : p₀.get? nid = some (.branch .case (first :: clauses)))
    (hsees : p₀.Sees N nid) (hmem : cid ∈ clauses) (hc : Machine.clause p₀ cid = .ok c) :
    ( c.variable? p₀ = none → p₀.Sees N c.pattern ∧ p₀.Sees N c.body) ∧
      ∀ name names, c.variable? p₀ = some (name, names) → p₀.Sees (fun x => N x ∨ x = name) c.body := by
  have hle : cid ≤ p₀.size := Machine.le_size_of_clause hc
  have hlt := Machine.lt_of_clause hc
  have hpattern : c.pattern ≤ p₀.size := Nat.le_trans (Nat.le_of_lt hlt.1) hle
  have hbody : c.body ≤ p₀.size := Nat.le_trans (Nat.le_of_lt hlt.2) hle
  refine ⟨fun hvar => ⟨⟨hpattern, fun x hx => ?_⟩, ⟨hbody, fun x hx => ?_⟩⟩, fun name names hvar =>
    ⟨hbody, fun x hx => ?_⟩⟩
  · exact hsees.free x (.pattern hnid hmem hc hvar hx)
  · exact hsees.free x (.body hnid hmem hc (by simp [hvar]) hx)
  · by_cases hname : x = name
    · exact .inr hname
    · refine .inl (hsees.free x (.body hnid hmem hc (fun names' h => hname ?_) hx))
      rw [hvar] at h
      exact (Prod.mk.inj (Option.some.inj h)).1.symm

theorem mirrors_residualClause {hlt : c.pattern < nid ∧ c.body < nid} (hbelow : TracksBelow p₀ e nid)
    (he : Scoped p₀ p N e e') (hnid : p₀.get? nid = some (.branch .case (first :: clauses)))
    (hsees : p₀.Sees N nid) (hmem : cid ∈ clauses) (hc : Machine.clause p₀ cid = .ok c) :
    Mirrors (Evaluator.residualClause e nid c hlt) (Evaluator.residualClause e' nid c hlt) p := by
  obtain ⟨hnone, hsome⟩ := sees_of_clause hnid hsees hmem hc
  have hvariable := Machine.variable_eq_of_clause hc he.grown
  cases hvar : c.variable? p₀ with
  | none =>
    have hvar' := hvariable.trans hvar
    refine Mirrors.congr ?_ (Evaluator.residualClause_of_none hlt hvar')
      (Evaluator.residualClause_of_none hlt hvar')
    obtain ⟨hpattern, hbody⟩ := hnone hvar
    refine (mirrors_operand (hbelow.nodes _ hlt.1) he hpattern).bind fun pattern q hpq => ?_
    refine (mirrors_operand (hbelow.nodes _ hlt.2) (he.mono hpq) hbody).bind fun body q' _ => ?_
    exact mirrors_intern
  | some found =>
    obtain ⟨name, names⟩ := found
    have hvar' := hvariable.trans hvar
    have heq := Evaluator.residualClause_of_some (e := e) hlt hvar'
    have heq' := Evaluator.residualClause_of_some (e := e') hlt hvar'
    by_cases hlimit : e'.limit < e'.depth
    · left
      rw [heq', if_pos hlimit]
      exact ⟨_, p, rfl⟩
    · have hlimit' := not_lt_depth he hlimit
      refine Mirrors.congr ?_ (heq.trans (if_neg hlimit')) (heq'.trans (if_neg hlimit))
      have hroom := Environment.room_opened_lt hlimit' "case" [] [.value name 0]
      have hopened := he.openedCase (w := .value name 0) rfl
      refine (mirrors_operand (hbelow.scopes _ hroom _) hopened (hsome name names hvar)).bind fun _ _ _ => ?_
      exact mirrors_intern

theorem mirrors_residualClauses {cs : List Clause} {hlt : ∀ c ∈ cs, c.pattern < nid ∧ c.body < nid}
    (hbelow : TracksBelow p₀ e nid) (he : Scoped p₀ p N e e')
    (hnid : p₀.get? nid = some (.branch .case (first :: clauses))) (hsees : p₀.Sees N nid)
    (hcs : ∀ c ∈ cs, ∃ cid ∈ clauses, Machine.clause p₀ cid = .ok c) :
    Mirrors (Evaluator.residualClauses e nid cs hlt) (Evaluator.residualClauses e' nid cs hlt) p := by
  induction cs generalizing p with
  | nil =>
    rw [Evaluator.residualClauses, Evaluator.residualClauses]
    exact mirrors_pure
  | cons c cs ih =>
    obtain ⟨⟨cid, hmem, hc⟩, hcs⟩ := List.forall_mem_cons.1 hcs
    rw [Evaluator.residualClauses, Evaluator.residualClauses]
    refine (mirrors_residualClause hbelow he hnid hsees hmem hc).bind fun id q hpq => ?_
    exact (ih (he.mono hpq) hcs).bind fun _ _ _ => mirrors_pure

theorem mirrors_residual {hlt : ∀ c ∈ clauses, c < nid} (hbelow : TracksBelow p₀ e nid)
    (he : Scoped p₀ p N e e') (hnid : p₀.get? nid = some (.branch .case (first :: clauses)))
    (hsees : p₀.Sees N nid) : Mirrors (Evaluator.residual e nid clauses hlt scrutinee vs)
      (Evaluator.residual e' nid clauses hlt scrutinee vs) p := by
  cases hcs : clauses.mapM (Machine.clause p) with
  | error fault =>
    exact mirrors_error (Evaluator.residual_of_error hcs) (Evaluator.residual_of_error hcs)
  | ok cs =>
    have hclause : ∀ c ∈ cs, ∃ cid ∈ clauses, Machine.clause p₀ cid = .ok c := by
      refine Machine.forall_of_mapM hcs fun cid hmem c hc => ⟨cid, hmem, ?_⟩
      have hle : cid ≤ p₀.size := Nat.le_trans (Nat.le_of_lt (hlt cid hmem)) hsees.held
      exact (Machine.clause_eq_of_le he.grown hle).symm.trans hc
    refine Mirrors.congr ?_ (Evaluator.residual_of_ok hcs) (Evaluator.residual_of_ok hcs)
    refine (mirrors_residualClauses hbelow he hnid hsees hclause).bind fun ids q _ => ?_
    exact mirrors_intern.bind fun _ _ _ => mirrors_pure

theorem mirrors_select {left : List NodeId} {hclauses : ∀ c ∈ clauses, c < nid}
    {hleft : ∀ c ∈ left, c < nid} (hbelow : TracksBelow p₀ e nid) (he : Scoped p₀ p N e e')
    (hnid : p₀.get? nid = some (.branch .case (first :: clauses))) (hsees : p₀.Sees N nid)
    (hmem : ∀ c ∈ left, c ∈ clauses) :
    Mirrors (Evaluator.select e nid clauses hclauses scrutinee left hleft vs)
      (Evaluator.select e' nid clauses hclauses scrutinee left hleft vs) p := by
  induction left generalizing p with
  | nil =>
    by_cases hground : p.isGround scrutinee
    · exact mirrors_error (by rw [Evaluator.select_nil, if_pos hground])
        (by rw [Evaluator.select_nil, if_pos hground])
    · exact (mirrors_residual hbelow he hnid hsees).congr (by rw [Evaluator.select_nil, if_neg hground])
        (by rw [Evaluator.select_nil, if_neg hground])
  | cons id left ih =>
    obtain ⟨hid, hmem⟩ := List.forall_mem_cons.1 hmem
    have hle : id ≤ p₀.size := Nat.le_trans (Nat.le_of_lt (hleft id (.head _))) hsees.held
    cases hc : Machine.clause p id with
    | error fault => exact mirrors_error (Evaluator.select_of_error hc) (Evaluator.select_of_error hc)
    | ok c =>
      have hc₀ := (Machine.clause_eq_of_le he.grown hle).symm.trans hc
      have hvariable := Machine.variable_eq_of_clause hc₀ he.grown
      obtain ⟨hnone, hsome⟩ := sees_of_clause hnid hsees hid hc₀
      obtain ⟨hpattern, hbody⟩ := Machine.lt_of_clause hc
      have hlt := hleft id (.head _)
      cases hvar : c.variable? p with
      | some found =>
        obtain ⟨name, names⟩ := found
        by_cases hlimit : e'.limit < e'.depth
        · left
          rw [Evaluator.select_of_some hc hvar, if_pos hlimit]
          exact ⟨_, p, rfl⟩
        · have hlimit' := not_lt_depth he hlimit
          refine Mirrors.congr ?_ ((Evaluator.select_of_some hc hvar).trans (if_neg hlimit'))
            ((Evaluator.select_of_some hc hvar).trans (if_neg hlimit))
          have hroom := Environment.room_opened_lt hlimit' "case" [] [.bound name scrutinee]
          have hopened := he.openedCase (w := .bound name scrutinee) rfl
          exact hbelow.scopes _ hroom _ _ _ p vs hopened (hsome name names (hvariable.symm.trans hvar))
      | none =>
        obtain ⟨hpat, hbod⟩ := hnone (hvariable.symm.trans hvar)
        refine Mirrors.congr ?_ (Evaluator.select_of_none hc hvar) (Evaluator.select_of_none hc hvar)
        refine (mirrors_operand (hbelow.nodes _ (Nat.lt_trans hpattern hlt)) he hpat).bind
          fun pattern q hpq => mirrors_get ?_
        split
        · exact hbelow.nodes _ (Nat.lt_trans hbody hlt) _ N q vs (he.mono hpq) hbod
        · split
          · exact ih (he.mono hpq) hmem
          · exact mirrors_residual hbelow (he.mono hpq) hnid hsees

/-! ### Nodes -/

theorem sees_of_branch (hnid : p₀.get? nid = some (.branch t es)) (hsees : p₀.Sees N nid)
    (ht : t ≠ .lambda ∧ t ≠ .binding ∧ t ≠ .case) : ∀ c ∈ es, p₀.Sees N c := fun c hc => by
  have hlt : c < nid := Pool.lt_of_get?_branch hnid hc
  exact ⟨Nat.le_trans (Nat.le_of_lt hlt) hsees.held, fun x hx => hsees.free x (.child hnid ht hc hx)⟩

/-- Parts that are evaluated in turn and then taken by a node over them. -/
theorem mirrors_parts {hlt : ∀ c ∈ es, c < nid} (h : ∀ c ∈ es, Tracks p₀ e c) (he : Scoped p₀ p N e e')
    (hes : ∀ c ∈ es, p₀.Sees N c) : Mirrors (do
        let values ← Evaluator.operands e nid es hlt
        return (← PoolM.intern (.branch t values)) :: vs) (do
        let values ← Evaluator.operands e' nid es hlt
        return (← PoolM.intern (.branch t values)) :: vs) p :=
  (mirrors_operands h he hes).bind fun _ _ _ => mirrors_intern.bind fun _ _ _ => mirrors_pure

theorem mirrors_binary {x y : NodeId} (hx : Tracks p₀ e x) (hy : Tracks p₀ e y)
    (he : Scoped p₀ p N e e') (hxs : p₀.Sees N x) (hys : p₀.Sees N y) : Mirrors (do
        let a ← Evaluator.operand e x
        let c ← Evaluator.operand e y
        let q ← get
        return (← PoolM.intern (q.operatorNode t a c)) :: vs) (do
        let a ← Evaluator.operand e' x
        let c ← Evaluator.operand e' y
        let q ← get
        return (← PoolM.intern (q.operatorNode t a c)) :: vs) p := by
  refine (mirrors_operand hx he hxs).bind fun a q hpq => ?_
  refine (mirrors_operand hy (he.mono hpq) hys).bind fun c q' _ => mirrors_get ?_
  exact mirrors_intern.bind fun _ _ _ => mirrors_pure

theorem mirrors_visitBranch {hlt : ∀ c ∈ es, c < nid} (hbelow : TracksBelow p₀ e nid)
    (he : Scoped p₀ p N e e') (hnid : p₀.get? nid = some (.branch t es)) (ht : t ≠ .lambda)
    (hsees : p₀.Sees N nid) :
    Mirrors (Evaluator.visitBranch e nid t es hlt vs) (Evaluator.visitBranch e' nid t es hlt vs) p := by
  have hes : ∀ c ∈ es, Tracks p₀ e c := fun c hc => hbelow.nodes c (hlt c hc)
  have hreverse : ∀ c ∈ es.reverse, Tracks p₀ e c := fun c hc => hes c (List.mem_reverse.1 hc)
  have hparts := sees_of_branch hnid hsees
  have hparts' (h) : ∀ c ∈ es.reverse, p₀.Sees N c := fun c hc => hparts h c (List.mem_reverse.1 hc)
  have hfails {err : Error} :
      Mirrors (throw err : PoolM (List NodeId)) (throw err) p := mirrors_error rfl rfl
  rw [Evaluator.visitBranch.eq_def, Evaluator.visitBranch.eq_def]
  cases t with
  | prog =>
    refine (mirrors_visitAll (fun c hc => hes c (List.mem_of_mem_take hc)) he fun c hc =>
      hparts (by decide) c (List.mem_of_mem_take hc)).bind fun _ _ _ => ?_
    exact mirrors_intern.bind fun _ _ _ => mirrors_intern.bind fun _ _ _ => mirrors_pure
  | exprs => exact mirrors_visitAll hreverse he (hparts' (by decide))
  | paren =>
    refine (mirrors_visitAll hreverse he (hparts' (by decide))).bind fun _ _ _ => ?_
    exact mirrors_single.bind fun _ _ _ => mirrors_intern.bind fun _ _ _ => mirrors_pure
  | list =>
    refine (mirrors_visitAll hreverse he (hparts' (by decide))).bind fun _ _ _ => ?_
    exact mirrors_intern.bind fun _ _ _ => mirrors_pure
  | record | apply | val | arg | of => exact mirrors_parts hes he (hparts (by decide))
  | binding =>
    rcases es with _ | ⟨key, _ | ⟨value, _ | ⟨x, es⟩⟩⟩
    · exact hfails
    · exact hfails
    · have hlt' : value < nid := hlt value (.tail _ (.head _))
      have hvalue : p₀.Sees N value :=
        ⟨Nat.le_trans (Nat.le_of_lt hlt') hsees.held, fun x hx => hsees.free x (.value hnid hx)⟩
      refine (mirrors_operand (hes value (.tail _ (.head _))) he hvalue).bind fun _ _ _ => ?_
      exact mirrors_intern.bind fun _ _ _ => mirrors_pure
    · exact hfails
  | case =>
    cases es with
    | nil => exact hfails
    | cons first clauses =>
      have hlt' : first < nid := hlt first (.head _)
      have hfirst : p₀.Sees N first :=
        ⟨Nat.le_trans (Nat.le_of_lt hlt') hsees.held, fun x hx => hsees.free x (.scrutinee hnid hx)⟩
      refine (mirrors_operand (hes first (.head _)) he hfirst).bind fun scrutinee q hpq => ?_
      exact mirrors_select hbelow (he.mono hpq) hnid hsees fun _ hc => hc
  | add | sub | div | mod | pow | concat | eq | ne | lt | gt | le | ge =>
    rcases es with _ | ⟨x, _ | ⟨y, _ | ⟨z, es⟩⟩⟩
    · exact hfails
    · exact hfails
    · have hparts := hparts (by decide)
      exact mirrors_binary (hes x (.head _)) (hes y (.tail _ (.head _))) he (hparts x (.head _))
        (hparts y (.tail _ (.head _)))
    · exact hfails
  | or | and => exact hfails
  | neg =>
    cases es with
    | nil => exact hfails
    | cons x es =>
      refine (mirrors_operand (hes x (.head _)) he (hparts (by decide) x (.head _))).bind
        fun a q _ => mirrors_get ?_
      exact mirrors_intern.bind fun _ _ _ => mirrors_pure
  | lambda => exact absurd rfl ht
  | num | str | ident | bool | null => exact hfails

/-- The names of a pattern do not change as the pool grows. -/
theorem lambda_contained {callee : Callee} (hnid : p₀.get? nid = some (.branch .lambda es))
    (hsees : p₀.Sees N nid) (hgrown : p₀.Extends p) (hcallee : Machine.lambda p es = .ok callee) :
    callee.Contained p₀ N := by
  unfold Machine.lambda at hcallee
  split at hcallee
  · next names body pattern =>
    have hlt {c : NodeId} (hc : c ∈ [names, body, pattern]) : c ≤ p₀.size :=
      Nat.le_trans (Nat.le_of_lt (Pool.lt_of_get?_branch hnid hc)) hsees.held
    cases hpattern : p.get? pattern with
    | none => rw [hpattern] at hcallee; cases hcallee
    | some n =>
      rw [hpattern] at hcallee
      cases hcallee
      have hpattern₀ : p₀.get? pattern = some n := (hgrown.get?_eq (hlt (by simp))).symm.trans hpattern
      refine ⟨⟨hlt (by simp), fun x hx => ?_⟩, fun i hi => ?_⟩
      · by_cases hbound : x ∈ p₀.params n.elts
        · exact .inr (.inr hbound)
        · exact .inl (hsees.free x (.lambda hnid hpattern₀ hbound hx))
      · have hi : i < pattern := Pool.lt_of_mem_elts hpattern₀ hi
        exact Nat.le_trans (Nat.le_of_lt hi) (hlt (by simp))
  · cases hcallee

theorem tracks_of_below (h : TracksBelow p₀ e nid) : Tracks p₀ e nid := by
  intro e' N p vs he hsees
  have hget : p.get? nid = p₀.get? nid := he.grown.get?_eq hsees.held
  cases hn : p₀.get? nid with
  | none =>
    have hn' := hget.trans hn
    exact mirrors_error (Evaluator.visit_of_none hn') (Evaluator.visit_of_none hn')
  | some n =>
    have hn' := hget.trans hn
    cases n with
    | ident name =>
      have hname : N name := hsees.free name (.name hn)
      exact (mirrors_visitName h.scopes he hname).congr (Evaluator.visit_of_ident hn')
        (Evaluator.visit_of_ident hn')
    | branch t es =>
      by_cases ht : t = .lambda
      · subst ht
        cases hcallee : Machine.lambda p es with
        | error fault =>
          exact mirrors_error (by rw [Evaluator.visit_of_lambda hn', hcallee])
            (by rw [Evaluator.visit_of_lambda hn', hcallee])
        | ok callee =>
          have hlexicon : callee.lexicon.All (Word.Throughout (Word.Contained p₀ N)) := by
            rw [Machine.lexicon_of_lambda hcallee]
            exact Lexicon.all_nil
          have happly : Mirrors (Evaluator.apply e callee vs) (Evaluator.apply e' callee vs) p :=
            mirrors_apply h.scopes he hlexicon (lambda_contained hn hsees he.grown hcallee)
          refine happly.congr ?_ ?_
          · rw [Evaluator.visit_of_lambda hn', hcallee]
          · rw [Evaluator.visit_of_lambda hn', hcallee]
      · exact (mirrors_visitBranch h he hn ht hsees).congr (Evaluator.visit_of_branch hn' ht)
          (Evaluator.visit_of_branch hn' ht)
    | _ =>
      have hleaf (f : Environment) : Evaluator.visit f nid vs p = .ok (nid :: vs) p :=
        Evaluator.visit_of_leaf hn' (by simp) (by simp)
      exact mirrors_pure.congr (hleaf e) (hleaf e')

/-- An evaluation is followed in all scopes that agree with its own on the free names. -/
theorem tracks (p₀ : Pool) (e : Environment) (nid : NodeId) : Tracks p₀ e nid := by
  induction hroom : e.room using Nat.strongRecOn generalizing e nid with
  | ind room ihroom =>
    induction nid using Nat.strongRecOn with
    | ind nid ihnid =>
      exact tracks_of_below ⟨ihnid, fun f hlt c => ihroom f.room (hroom ▸ hlt) f c rfl⟩

end

end Linefold
