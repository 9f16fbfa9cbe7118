import Linefold.Proofs.Closedness.Binding
import Linefold.Proofs.Closedness.Levels

/-!
# An evaluation leaves open names only

Evaluated where its free names are open or resolved, a node comes to values in which the open names alone are
free (`closes`). A function that lacks arguments, or stays applied, leaves the names of its parameters open
while its body is evaluated, and lists them; a clause that is rebuilt does so with its variable.
-/

namespace Linefold

open Pattern (PoolM)
open Machine (Callee Clause)

attribute [local irreducible] Pool.intern

variable {M Op O O' : String → Prop} {p₀ p : Pool} {e : Environment} {vs us es ids clauses : List NodeId}
  {nid id scrutinee first cid : NodeId} {t : Tag} {name : String} {n : Node} {c : Clause}

theorem Ensures.congr {ε σ α : Type} {f g : EStateM ε σ α} {Q : α → σ → Prop} {E : ε → σ → Prop} {s : σ}
    (h : Ensures g Q E s) (heq : f s = g s) : Ensures f Q E s := by
  unfold Ensures at h ⊢
  rw [heq]
  exact h

theorem Ensures.of_error {ε σ α : Type} {f : EStateM ε σ α} {Q : α → σ → Prop} {E : ε → σ → Prop} {s s' : σ}
    {err : ε} (h : f s = .error err s') (hE : E err s') : Ensures f Q E s := by
  unfold Ensures
  rw [h]
  exact hE

/-! ### Values in turn -/

/-- The values that the computation gives see the names `O`. -/
abbrev ShowsAll (O : String → Prop) (f : PoolM (List NodeId)) (p : Pool) : Prop :=
  Ensures f (fun us q => p.Extends q ∧ q.Shows O us) (fun _ _ => True) p

abbrev ShowsOne (O : String → Prop) (f : PoolM NodeId) (p : Pool) : Prop :=
  Ensures f (fun u q => p.Extends q ∧ u ≠ 0 ∧ q.Sees O u) (fun _ _ => True) p

theorem ShowsOne.bind {β : Type} {f : PoolM NodeId} {k : NodeId → PoolM β} {Q : β → Pool → Prop}
    (h : ShowsOne O f p)
    (hk : ∀ u q, p.Extends q → u ≠ 0 → q.Sees O u → Ensures (k u) (fun b r => q.Extends r ∧ Q b r)
      (fun _ _ => True) q) : Ensures (f >>= k) (fun b r => p.Extends r ∧ Q b r) (fun _ _ => True) p := by
  refine Ensures.bind_iff.2 (h.mono ?_ fun _ _ _ => trivial)
  rintro u q ⟨hpq, hne, hu⟩
  exact (hk u q hpq hne hu).mono (fun _ _ h => ⟨hpq.trans h.1, h.2⟩) fun _ _ _ => trivial

theorem ShowsAll.bind {β : Type} {f : PoolM (List NodeId)} {k : List NodeId → PoolM β} {Q : β → Pool → Prop}
    (h : ShowsAll O f p)
    (hk : ∀ us q, p.Extends q → q.Shows O us → Ensures (k us) (fun b r => q.Extends r ∧ Q b r)
      (fun _ _ => True) q) : Ensures (f >>= k) (fun b r => p.Extends r ∧ Q b r) (fun _ _ => True) p := by
  refine Ensures.bind_iff.2 (h.mono ?_ fun _ _ _ => trivial)
  rintro us q ⟨hpq, hus⟩
  exact (hk us q hpq hus).mono (fun _ _ h => ⟨hpq.trans h.1, h.2⟩) fun _ _ _ => trivial

/-- A node over parts that see the names. -/
theorem showsOne_intern (hn : ∀ c ∈ n.elts, c ≤ p.size)
    (h : ∀ id q, p.Extends q → q.get? id = some n → q.Sees O id) : ShowsOne O (PoolM.intern n) p :=
  Pattern.ensures_intern hn fun id q hpq hid => ⟨hpq, Pool.ne_zero_of_get? hid, h id q hpq hid⟩

theorem showsOne_branch (ht : t ≠ .lambda ∧ t ≠ .binding ∧ t ≠ .case) (hes : ∀ c ∈ es, p.Sees O c) :
    ShowsOne O (PoolM.intern (.branch t es)) p :=
  showsOne_intern (fun c hc => (hes c hc).held) fun _ _ hpq hid =>
    Pool.sees_branch hid ht fun c hc => (hes c hc).grow hpq

/-- A node takes the place of its parts in the frame. -/
theorem ShowsOne.push {f : PoolM NodeId} (h : ShowsOne O f p) (hvs : p.Shows O vs) :
    ShowsAll O (do return (← f) :: vs) p :=
  h.bind fun _ _ hpq hne hu => ⟨.refl _, .cons ⟨hne, hu⟩ (hvs.grow hpq)⟩

theorem showsOne_single (hus : p.Shows O us) : ShowsOne O (Evaluator.single us) p := by
  unfold Evaluator.single
  split
  · exact ⟨.refl p, hus _ (.head _)⟩
  · exact showsOne_branch (by decide) fun c hc => (hus c hc).2

/-- Evaluated with its names open or resolved, the node comes to values that see the open names. -/
def Closes (M : String → Prop) (p₀ : Pool) (e : Environment) (nid : NodeId) : Prop :=
  ∀ (O : String → Prop) (p : Pool) (vs : List NodeId), Resolves M O p₀ p e → p₀.Sees (e.Within O) nid →
    p.Shows O vs → ShowsAll O (Evaluator.visit e nid vs) p

theorem showsOne_operand (h : Closes M p₀ e nid) (he : Resolves M O p₀ p e) (hnid : p₀.Sees (e.Within O) nid) :
    ShowsOne O (Evaluator.operand e nid) p := by
  rw [Evaluator.operand]
  exact (h O p [] he hnid .nil).bind fun us q _ hus => showsOne_single hus

theorem showsAll_visitAll {hlt : ∀ c ∈ ids, c < nid} (h : ∀ c ∈ ids, Closes M p₀ e c)
    (he : Resolves M O p₀ p e) (hids : ∀ c ∈ ids, p₀.Sees (e.Within O) c) (hvs : p.Shows O vs) :
    ShowsAll O (Evaluator.visitAll e nid ids hlt vs) p := by
  induction ids generalizing vs p with
  | nil =>
    rw [Evaluator.visitAll]
    exact ⟨.refl p, hvs⟩
  | cons c ids ih =>
    obtain ⟨hc, h⟩ := List.forall_mem_cons.1 h
    obtain ⟨hsees, hids⟩ := List.forall_mem_cons.1 hids
    rw [Evaluator.visitAll]
    exact (hc O p vs he hsees hvs).bind fun us q hpq hus => ih h (he.grow hpq) hids hus

theorem showsAll_operands {hlt : ∀ c ∈ ids, c < nid} (h : ∀ c ∈ ids, Closes M p₀ e c)
    (he : Resolves M O p₀ p e) (hids : ∀ c ∈ ids, p₀.Sees (e.Within O) c) :
    ShowsAll O (Evaluator.operands e nid ids hlt) p := by
  induction ids generalizing p with
  | nil =>
    rw [Evaluator.operands]
    exact ⟨.refl p, .nil⟩
  | cons c ids ih =>
    obtain ⟨hc, h⟩ := List.forall_mem_cons.1 h
    obtain ⟨hsees, hids⟩ := List.forall_mem_cons.1 hids
    rw [Evaluator.operands]
    refine (showsOne_operand hc he hsees).bind fun v q hpq hne hv => ?_
    refine (ih h (he.grow hpq) hids).bind fun us r hqr hus => ?_
    exact ⟨.refl r, .cons ⟨hne, hv.grow hqr⟩ hus⟩

/-! ### Functions and names -/

/-- All nodes come to such values where fewer scopes may still be opened. -/
def ClosesWithin (M : String → Prop) (p₀ : Pool) (e : Environment) : Prop :=
  ∀ f : Environment, f.room < e.room → ∀ nid, Closes M p₀ f nid

/-- A function that is left of another one lists the names that were left open. -/
theorem ensures_lambda {β : Type} {f : PoolM NodeId} {k : NodeId → PoolM β} {Q : β → Pool → Prop}
    {names pattern : NodeId} {patterns : List NodeId} (hp : p₀.Extends p) (hbody : ShowsOne O' f p)
    (hnames : names ≤ p.size) (hpattern : p.get? pattern = some (.branch .list patterns))
    (hheld : ∀ i ∈ patterns, i ≤ p₀.size) (hO : ∀ x, O' x → O x ∨ x ∈ p₀.params patterns)
    (hk : ∀ u q, p.Extends q → u ≠ 0 → q.Sees O u → Ensures (k u) (fun b r => q.Extends r ∧ Q b r)
      (fun _ _ => True) q) :
    Ensures (do
      let body ← f
      k (← PoolM.intern (.branch .lambda [names, body, pattern]))) (fun b r => p.Extends r ∧ Q b r)
      (fun _ _ => True) p := by
  refine hbody.bind fun body q hpq _ hsees => ?_
  have hpattern := hpq _ _ hpattern
  have hle := hpq.le_size hnames
  have hlambda : ShowsOne O (PoolM.intern (.branch .lambda [names, body, pattern])) q := by
    refine showsOne_intern (by simpa [Node.elts] using ⟨hle, hsees.held, Pool.le_size_of_get? hpattern⟩)
      fun id r hqr hid => ?_
    refine Pool.sees_lambda hid (hqr _ _ hpattern) ((hsees.mono fun x hx => ?_).grow hqr)
    rw [Node.elts, ((hp.trans hpq).trans hqr).params_eq hheld]
    exact hO x hx
  exact hlambda.bind fun u r hqr => hk u r (hpq.trans hqr)

/-- In the scope of a function the names are open that were open around it, and those of the parameters that lack an
argument. -/
theorem ensures_bindAll_opened {callee : Callee} (he : Resolves M O p₀ p e)
    (hlexicon : callee.lexicon.All (Word.Closed M p₀ fun y => e.Within O y ∨ y ∈ callee.lexicon.names))
    (hcallee : callee.Closed M p₀ (e.Within O)) (hvs : p.Shows O vs) (hO : ∀ y, O y → O' y)
    (hmissing : ∀ y ∈ p₀.params (callee.pattern.drop vs.length), O' y) :
    Ensures (Pattern.bindAll vs 0 callee.pattern) (fun bound q => p.Extends q ∧
        Resolves M O' p₀ q (e.opened callee.name callee.lexicon bound.words) ∧
          p₀.Sees ((e.opened callee.name callee.lexicon bound.words).Within O') callee.body)
      (fun _ _ => True) p := by
  have hlisted : ∀ i ∈ callee.pattern, p₀.Listed O' i := fun i hi es hes x hx =>
    hO x (he.lost x (hcallee.listed i hi es hes x hx))
  have hbind := (Pattern.ensures_bindAll_held 0 he.grown hcallee.pattern hvs hlisted hmissing).and
    (Pattern.ensures_bindAll vs 0 he.grown)
  refine hbind.mono ?_ fun _ _ _ => trivial
  rintro bound q ⟨⟨hpq, hheld⟩, -, hvalues, hnames⟩
  have hnames := hnames hcallee.pattern
  refine ⟨hpq, (he.grow hpq).opened callee.name hO hlexicon ?_ fun w hw => ⟨hvalues w hw, hheld w hw⟩, ?_⟩
  · rw [hnames]
    exact hcallee.values
  · refine hcallee.body.mono fun x hx => ?_
    rcases hx with hx | hx
    · exact hx.opened hO
    · exact Environment.within_opened (hnames ▸ hx)

theorem showsAll_apply {callee : Callee} (hinner : ClosesWithin M p₀ e) (he : Resolves M O p₀ p e)
    (hlexicon : callee.lexicon.All (Word.Closed M p₀ fun y => e.Within O y ∨ y ∈ callee.lexicon.names))
    (hcallee : callee.Closed M p₀ (e.Within O)) (hvs : p.Shows O vs) :
    ShowsAll O (Evaluator.apply e callee vs) p := by
  rw [Evaluator.apply]
  have hargs : p.Shows O (vs.take callee.pattern.length) := fun v hv => hvs v (List.mem_of_mem_take hv)
  have hrest : p.Shows O (vs.drop callee.pattern.length) := fun v hv => hvs v (List.mem_of_mem_drop hv)
  revert hargs hrest
  generalize vs.take callee.pattern.length = args, vs.drop callee.pattern.length = rest
  intro hargs hrest
  by_cases hlimit : e.limit < e.depth
  · simp only [hlimit, ↓reduceDIte]
    trivial
  simp only [hlimit, ↓reduceDIte]
  -- Parameters that lack an argument stay open.
  generalize hO' : (fun y => O y ∨ y ∈ p₀.params (callee.pattern.drop args.length)) = O'
  have hOO' (y : String) (hy : O y) : O' y := hO' ▸ .inl hy
  have hopen (y : String) (hy : O' y) : O y ∨ y ∈ p₀.params (callee.pattern.drop args.length) := by
    rw [← hO'] at hy
    exact hy
  have hbind := ensures_bindAll_opened he hlexicon hcallee hargs hOO' fun y hy => hO' ▸ .inr hy
  refine Ensures.bind_iff.2 (hbind.mono ?_ fun _ _ _ => trivial)
  rintro bound q ⟨hpq, hopened, hsees⟩
  have hroom := Environment.room_opened_lt hlimit callee.name callee.lexicon bound.words
  have hbody {r : Pool} (hqr : q.Extends r) :=
    showsOne_operand (hinner _ hroom callee.body) (hopened.grow hqr) hsees
  have hdrop : ∀ i ∈ callee.pattern.drop args.length, i ≤ p₀.size := fun i hi =>
    hcallee.pattern i (List.mem_of_mem_drop hi)
  have hmissing (x : String) (hx : x ∈ p₀.params (callee.pattern.drop args.length)) :
      x ∈ p₀.params callee.pattern := by
    obtain ⟨i, hi, hx⟩ := Pool.mem_params.1 hx
    exact Pool.mem_params.2 ⟨i, List.mem_of_mem_drop hi, hx⟩
  have hgrown : p₀.Extends q := he.grown.trans hpq
  split
  · refine Ensures.bind_iff.2 ((Pattern.ensures_lambdaParts fun i hi =>
      hgrown.le_size (hcallee.pattern i hi)).mono ?_ fun _ _ _ => trivial)
    rintro parts r ⟨hqr, hle, hpattern⟩
    refine (ensures_lambda (O := O) (hgrown.trans hqr) (hbody hqr) hle hpattern hcallee.pattern
      (fun x hx => (hopen x hx).imp_right (hmissing x)) fun lambda u hru hne hlambda => ?_).mono
        (fun _ _ h => ⟨(hpq.trans hqr).trans h.1, h.2⟩) fun _ _ h => h
    have hpu := (hpq.trans hqr).trans hru
    refine (showsOne_branch (by decide) (List.forall_mem_cons.2 ⟨hlambda, fun v hv => ?_⟩)).push (hrest.grow hpu)
    exact ((hargs v hv).2).grow hpu
  · split
    · next hfull =>
      have hO : ∀ y, O' y → O y := fun y hy => (hopen y hy).resolve_right fun hy => by
        rw [hfull, List.drop_length] at hy
        cases hy
      have hvisit := hinner _ hroom callee.body O' q rest hopened hsees ((hrest.grow hpq).mono hOO')
      exact hvisit.mono (fun _ _ h => ⟨hpq.trans h.1, h.2.mono hO⟩) fun _ _ h => h
    · refine Ensures.bind_iff.2 ((Pattern.ensures_lambdaParts fun i hi =>
        hgrown.le_size (hdrop i hi)).mono ?_ fun _ _ _ => trivial)
      rintro parts r ⟨hqr, hle, hpattern⟩
      refine (ensures_lambda (O := O) (hgrown.trans hqr) (hbody hqr) hle hpattern hdrop hopen
        fun lambda u hru hne hlambda => ?_).mono (fun _ _ h => ⟨(hpq.trans hqr).trans h.1, h.2⟩) fun _ _ h => h
      exact ⟨.refl u, .cons ⟨hne, hlambda⟩ (hrest.grow ((hpq.trans hqr).trans hru))⟩

theorem showsAll_visitName (hinner : ClosesWithin M p₀ e) (he : Resolves M O p₀ p e)
    (hnid : p.get? nid = some (.ident name)) (hname : e.Within O name) (hvs : p.Shows O vs) :
    ShowsAll O (Evaluator.visitName e nid name vs) p := by
  have hself (hO : O name) : p.Shows O (nid :: vs) :=
    .cons ⟨Pool.ne_zero_of_get? hnid, Pool.sees_ident hnid hO⟩ hvs
  rw [Evaluator.visitName]
  cases hword : e.lookup? name with
  | none => exact ⟨.refl p, hself (hname.resolve_right (by simp [hword]))⟩
  | some word =>
    cases hcls : word.cls with
    | value =>
      obtain ⟨habsent, hpresent⟩ := he.values name word hword hcls
      simp only [hcls]
      refine ⟨.refl p, ?_⟩
      split
      · next hzero => exact hself (habsent hzero)
      · next hne => exact .cons ⟨hne, hpresent hne⟩ hvs
    | operator t =>
      simp only [hcls]
      trivial
    | function =>
      cases he.words name word hword with
      | intro self carried =>
        obtain ⟨hnid, closure, hclosure, hcallee⟩ := self hcls
        simp only [hcls, hclosure, if_neg hnid]
        exact showsAll_apply hinner he (fun nw hnw => carried hcls closure hclosure nw hnw) hcallee hvs

/-! ### Clauses -/

/-- What is below a node in the scopes of `e`, and everything where fewer scopes may still be opened. -/
structure ClosesBelow (M : String → Prop) (p₀ : Pool) (e : Environment) (nid : NodeId) : Prop where
  nodes : ∀ c < nid, Closes M p₀ e c
  scopes : ClosesWithin M p₀ e

/-- A pattern variable is opened, with a node or open itself. -/
theorem Resolves.openedCase {w : Word} (he : Resolves M O p₀ p e) (hO : ∀ x, O x → O' x) (hw : w.cls = .value)
    (hheld : w.Backed O O' p w.name) : Resolves M O' p₀ p (e.opened "case" [] [w]) :=
  he.opened "case" hO Lexicon.all_nil Lexicon.all_nil (by simpa using ⟨hw, hheld⟩)

theorem Clause.names_lt {names : NodeId} (hc : Machine.clause p cid = .ok c)
    (hvar : c.variable? p = some (name, names)) :
    p.get? c.pattern = some (.ident name) ∧ names < cid := by
  unfold Machine.clause at hc
  unfold Clause.variable? at hvar
  split at hc
  · cases hc
  · next n hn =>
    split at hc
    · cases hc
      cases hvar
    · next a b d helts =>
      cases hc
      simp only at hvar
      split at hvar
      · next name' heq hget =>
        cases hvar
        cases heq
        exact ⟨hget, Pool.lt_of_mem_elts hn (by simp [helts])⟩
      · cases hvar
    · cases hc

/-- The rebuilt clause is one of a case that sees the names. -/
abbrev ShowsClause (O : String → Prop) (f : PoolM NodeId) (p : Pool) : Prop :=
  Ensures f (fun id q => p.Extends q ∧ q.SeesClause O id) (fun _ _ => True) p

theorem showsClause_residualClause {hlt : c.pattern < nid ∧ c.body < nid} (hbelow : ClosesBelow M p₀ e nid)
    (he : Resolves M O p₀ p e) (hnid : p₀.get? nid = some (.branch .case (first :: clauses)))
    (hsees : p₀.Sees (e.Within O) nid) (hmem : cid ∈ clauses) (hc : Machine.clause p₀ cid = .ok c) :
    ShowsClause O (Evaluator.residualClause e nid c hlt) p := by
  obtain ⟨hnone, hsome⟩ := sees_of_clause hnid hsees hmem hc
  have hvariable := Machine.variable_eq_of_clause hc he.grown
  cases hvar : c.variable? p₀ with
  | none =>
    obtain ⟨hpattern, hbody⟩ := hnone hvar
    refine Ensures.congr ?_ (Evaluator.residualClause_of_none hlt (hvariable.trans hvar))
    refine (showsOne_operand (hbelow.nodes _ hlt.1) he hpattern).bind fun pattern q hpq _ hpattern => ?_
    refine (showsOne_operand (hbelow.nodes _ hlt.2) (he.grow hpq) hbody).bind fun body r hqr _ hbody => ?_
    have hpattern := hpattern.grow hqr
    refine Pattern.ensures_intern (by simpa [Node.elts] using ⟨hpattern.held, hbody.held⟩) fun id u hru hid => ?_
    exact ⟨hru, Pool.seesClause_pair hid (hpattern.grow hru) (hbody.grow hru)⟩
  | some found =>
    obtain ⟨name, names⟩ := found
    obtain ⟨hname, hnames⟩ := Clause.names_lt hc hvar
    have hle : names ≤ p₀.size := Nat.le_trans (Nat.le_of_lt hnames) (Machine.le_size_of_clause hc)
    have heq := Evaluator.residualClause_of_some (e := e) hlt (hvariable.trans hvar)
    by_cases hlimit : e.limit < e.depth
    · exact .of_error (heq.trans (if_pos hlimit)) trivial
    · refine Ensures.congr ?_ (heq.trans (if_neg hlimit))
      have hroom := Environment.room_opened_lt hlimit "case" [] [.value name 0]
      have hopened : Resolves M (fun x => O x ∨ x = name) p₀ p (e.opened "case" [] [.value name 0]) :=
        he.openedCase (fun _ => .inl) rfl ⟨fun _ => .inr rfl, fun hne => absurd rfl hne⟩
      have hbody : p₀.Sees ((e.opened "case" [] [.value name 0]).Within fun x => O x ∨ x = name) c.body :=
        (hsome name names hvar).mono fun x hx => by
          rcases hx with hx | rfl
          · exact hx.opened fun _ => .inl
          · exact .inl (.inr rfl)
      refine (showsOne_operand (hbelow.scopes _ hroom _) hopened hbody).bind fun body q hpq _ hbody => ?_
      have hgrown := he.grown.trans hpq
      refine Pattern.ensures_intern (by
        simpa [Node.elts] using ⟨Pool.le_size_of_get? (hgrown _ _ hname), hbody.held, hgrown.le_size hle⟩)
        fun id r hqr hid => ?_
      exact ⟨hqr, Pool.seesClause_variable hid (hqr _ _ (hgrown _ _ hname)) (hbody.grow hqr)⟩

theorem showsClauses_residualClauses {cs : List Clause} {hlt : ∀ c ∈ cs, c.pattern < nid ∧ c.body < nid}
    (hbelow : ClosesBelow M p₀ e nid) (he : Resolves M O p₀ p e)
    (hnid : p₀.get? nid = some (.branch .case (first :: clauses))) (hsees : p₀.Sees (e.Within O) nid)
    (hcs : ∀ c ∈ cs, ∃ cid ∈ clauses, Machine.clause p₀ cid = .ok c) :
    Ensures (Evaluator.residualClauses e nid cs hlt) (fun ids q => p.Extends q ∧ ∀ id ∈ ids, q.SeesClause O id)
      (fun _ _ => True) p := by
  induction cs generalizing p with
  | nil =>
    rw [Evaluator.residualClauses]
    exact ⟨.refl p, List.forall_mem_nil _⟩
  | cons c cs ih =>
    obtain ⟨⟨cid, hmem, hc⟩, hcs⟩ := List.forall_mem_cons.1 hcs
    rw [Evaluator.residualClauses]
    refine Ensures.bind_iff.2 ((showsClause_residualClause hbelow he hnid hsees hmem hc).mono ?_ fun _ _ h => h)
    rintro id q ⟨hpq, hid⟩
    refine Ensures.bind_iff.2 ((ih (he.grow hpq) hcs).mono ?_ fun _ _ h => h)
    rintro ids r ⟨hqr, hids⟩
    exact ⟨hpq.trans hqr, List.forall_mem_cons.2 ⟨hid.grow hqr, hids⟩⟩

theorem showsAll_residual {hlt : ∀ c ∈ clauses, c < nid} (hbelow : ClosesBelow M p₀ e nid)
    (he : Resolves M O p₀ p e) (hnid : p₀.get? nid = some (.branch .case (first :: clauses)))
    (hsees : p₀.Sees (e.Within O) nid) (hscrutinee : p.Sees O scrutinee) (hvs : p.Shows O vs) :
    ShowsAll O (Evaluator.residual e nid clauses hlt scrutinee vs) p := by
  cases hcs : clauses.mapM (Machine.clause p) with
  | error fault =>
    exact .of_error (Evaluator.residual_of_error hcs) trivial
  | ok cs =>
    have hclause : ∀ c ∈ cs, ∃ cid ∈ clauses, Machine.clause p₀ cid = .ok c := by
      refine Machine.forall_of_mapM hcs fun cid hmem c hc => ⟨cid, hmem, ?_⟩
      have hle : cid ≤ p₀.size := Nat.le_trans (Nat.le_of_lt (hlt cid hmem)) hsees.held
      exact (Machine.clause_eq_of_le he.grown hle).symm.trans hc
    refine Ensures.congr ?_ (Evaluator.residual_of_ok hcs)
    refine Ensures.bind_iff.2 ((showsClauses_residualClauses hbelow he hnid hsees hclause).mono ?_ fun _ _ h => h)
    rintro ids q ⟨hpq, hids⟩
    have hscrutinee := hscrutinee.grow hpq
    have hcase : ShowsOne O (PoolM.intern (.branch .case (scrutinee :: ids))) q :=
      showsOne_intern (List.forall_mem_cons.2 ⟨hscrutinee.held, fun id hid => (hids id hid).held⟩)
        fun id r hqr hid => Pool.sees_case hid (hscrutinee.grow hqr) fun c hc => (hids c hc).grow hqr
    exact (hcase.push (hvs.grow hpq)).mono (fun _ _ h => ⟨hpq.trans h.1, h.2⟩) fun _ _ h => h

theorem showsAll_select {left : List NodeId} {hclauses : ∀ c ∈ clauses, c < nid}
    {hleft : ∀ c ∈ left, c < nid} (hbelow : ClosesBelow M p₀ e nid) (he : Resolves M O p₀ p e)
    (hnid : p₀.get? nid = some (.branch .case (first :: clauses))) (hsees : p₀.Sees (e.Within O) nid)
    (hmem : ∀ c ∈ left, c ∈ clauses) (hne : scrutinee ≠ 0) (hscrutinee : p.Sees O scrutinee)
    (hvs : p.Shows O vs) :
    ShowsAll O (Evaluator.select e nid clauses hclauses scrutinee left hleft vs) p := by
  induction left generalizing p with
  | nil =>
    by_cases hground : p.isGround scrutinee
    · exact .of_error (Evaluator.select_nil.trans (if_pos hground)) trivial
    · exact (showsAll_residual hbelow he hnid hsees hscrutinee hvs).congr
        (Evaluator.select_nil.trans (if_neg hground))
  | cons id left ih =>
    obtain ⟨hid, hmem⟩ := List.forall_mem_cons.1 hmem
    have hle : id ≤ p₀.size := Nat.le_trans (Nat.le_of_lt (hleft id (.head _))) hsees.held
    cases hc : Machine.clause p id with
    | error fault =>
      exact .of_error (Evaluator.select_of_error hc) trivial
    | ok c =>
      have hc₀ := (Machine.clause_eq_of_le he.grown hle).symm.trans hc
      have hvariable := Machine.variable_eq_of_clause hc₀ he.grown
      obtain ⟨hnone, hsome⟩ := sees_of_clause hnid hsees hid hc₀
      obtain ⟨hpattern, hbody⟩ := Machine.lt_of_clause hc
      have hlt := hleft id (.head _)
      cases hvar : c.variable? p with
      | some found =>
        obtain ⟨name, names⟩ := found
        have heq : Evaluator.select e nid clauses hclauses scrutinee (id :: left) hleft vs p = _ :=
          Evaluator.select_of_some hc hvar
        by_cases hlimit : e.limit < e.depth
        · exact .of_error (heq.trans (if_pos hlimit)) trivial
        · refine Ensures.congr ?_ (heq.trans (if_neg hlimit))
          have hroom := Environment.room_opened_lt hlimit "case" [] [.bound name scrutinee]
          have hopened : Resolves M O p₀ p (e.opened "case" [] [.bound name scrutinee]) :=
            he.openedCase (fun _ hx => hx) rfl ⟨fun hzero => absurd hzero hne, fun _ => hscrutinee⟩
          have hbody : p₀.Sees ((e.opened "case" [] [.bound name scrutinee]).Within O) c.body :=
            (hsome name names (hvariable.symm.trans hvar)).mono fun x hx => by
              rcases hx with hx | rfl
              · exact hx.opened fun _ hx => hx
              · exact Environment.within_opened (.inr (.head _))
          exact hbelow.scopes _ hroom _ O p vs hopened hbody hvs
      | none =>
        obtain ⟨hpat, hbod⟩ := hnone (hvariable.symm.trans hvar)
        refine Ensures.congr ?_ (Evaluator.select_of_none hc hvar)
        refine (showsOne_operand (hbelow.nodes _ (Nat.lt_trans hpattern hlt)) he hpat).bind
          fun pattern q hpq _ _ => ?_
        refine Ensures.bind_iff.2 (.of_ok rfl ?_)
        have he := he.grow hpq
        have hscrutinee := hscrutinee.grow hpq
        have hvs := hvs.grow hpq
        split
        · exact hbelow.nodes _ (Nat.lt_trans hbody hlt) O q vs he hbod hvs
        · split
          · exact ih he hmem hscrutinee hvs
          · exact showsAll_residual hbelow he hnid hsees hscrutinee hvs

/-! ### Nodes -/

theorem Pool.operatorNode_cases {a b : NodeId} :
    (p.operatorNode t a b).isLiteral ∨ p.operatorNode t a b = .branch t [a, b] := by
  unfold operatorNode
  extract_lets result
  cases hr : result with
  | none => exact .inr rfl
  | some n =>
    left
    show n.isLiteral
    simp only [result] at hr
    split at hr
    · exact Node.isLiteral_of_concat hr
    all_goals first | exact Node.isLiteral_of_compare hr | exact Node.isLiteral_of_arithmetic hr

theorem showsOne_operator {a b : NodeId} (ht : t ≠ .lambda ∧ t ≠ .binding ∧ t ≠ .case) (ha : p.Sees O a)
    (hb : p.Sees O b) : ShowsOne O (do PoolM.intern ((← get).operatorNode t a b)) p := by
  refine Ensures.bind_iff.2 (.of_ok rfl ?_)
  rcases Pool.operatorNode_cases (p := p) (t := t) (a := a) (b := b) with h | h
  · exact showsOne_intern (by simp [Node.elts_of_isLiteral h]) fun _ _ _ hid => Pool.sees_literal hid h
  · rw [h]
    exact showsOne_branch ht (by simpa using ⟨ha, hb⟩)

theorem showsOne_negation {a : NodeId} (ha : p.Sees O a) :
    ShowsOne O (do PoolM.intern ((← get).negationNode a)) p := by
  refine Ensures.bind_iff.2 (.of_ok rfl ?_)
  unfold Pool.negationNode
  split
  · exact showsOne_intern nofun fun _ _ _ hid => Pool.sees_literal hid rfl
  · exact showsOne_branch (by decide) (by simpa using ha)

theorem showsAll_visitBranch {hlt : ∀ c ∈ es, c < nid} (hbelow : ClosesBelow M p₀ e nid)
    (he : Resolves M O p₀ p e) (hnid : p₀.get? nid = some (.branch t es)) (ht : t ≠ .lambda)
    (hsees : p₀.Sees (e.Within O) nid) (hvs : p.Shows O vs) :
    ShowsAll O (Evaluator.visitBranch e nid t es hlt vs) p := by
  have hes : ∀ c ∈ es, Closes M p₀ e c := fun c hc => hbelow.nodes c (hlt c hc)
  have hreverse : ∀ c ∈ es.reverse, Closes M p₀ e c := fun c hc => hes c (List.mem_reverse.1 hc)
  have hparts := sees_of_branch hnid hsees
  have hparts' (h) : ∀ c ∈ es.reverse, p₀.Sees (e.Within O) c := fun c hc => hparts h c (List.mem_reverse.1 hc)
  have hheld (c : NodeId) (hc : c ∈ es) : c ≤ p₀.size := Nat.le_trans (Nat.le_of_lt (hlt c hc)) hsees.held
  have hbranch {us : List NodeId} {q : Pool} (hs : t ≠ .lambda ∧ t ≠ .binding ∧ t ≠ .case)
      (hus : q.Shows O us) (hvs : q.Shows O vs) : ShowsAll O (do return (← PoolM.intern (.branch t us)) :: vs) q :=
    (showsOne_branch hs fun c hc => (hus c hc).2).push hvs
  rw [Evaluator.visitBranch.eq_def]
  cases t with
  | prog =>
    refine (showsAll_visitAll (fun c hc => hes c (List.mem_of_mem_take hc)) he (fun c hc =>
      hparts (by decide) c (List.mem_of_mem_take hc)) .nil).bind fun us q hpq hus => ?_
    refine (showsOne_branch (t := .exprs) (by decide) fun c hc => (hus c hc).2).bind fun u r hqr _ hu => ?_
    exact (showsOne_branch (by decide) (by simpa using hu)).push ((hvs.grow hpq).grow hqr)
  | exprs => exact showsAll_visitAll hreverse he (hparts' (by decide)) hvs
  | paren =>
    refine (showsAll_visitAll hreverse he (hparts' (by decide)) .nil).bind fun us q hpq hus => ?_
    refine (showsOne_single hus).bind fun u r hqr _ hu => ?_
    exact (showsOne_branch (by decide) (by simpa using hu)).push ((hvs.grow hpq).grow hqr)
  | list =>
    refine (showsAll_visitAll hreverse he (hparts' (by decide)) .nil).bind fun us q hpq hus => ?_
    exact hbranch (by decide) hus (hvs.grow hpq)
  | record | apply | val | arg | of =>
    refine (showsAll_operands hes he (hparts (by decide))).bind fun us q hpq hus => ?_
    exact hbranch (by decide) hus (hvs.grow hpq)
  | binding =>
    rcases es with _ | ⟨key, _ | ⟨value, _ | ⟨x, es⟩⟩⟩
    · trivial
    · trivial
    · have hvalue : p₀.Sees (e.Within O) value :=
        ⟨hheld value (.tail _ (.head _)), fun x hx => hsees.free x (.value hnid hx)⟩
      have hkey : key ≤ p.size := he.grown.le_size (hheld key (.head _))
      refine (showsOne_operand (hes value (.tail _ (.head _))) he hvalue).bind fun v q hpq _ hv => ?_
      refine (showsOne_intern (by simpa [Node.elts] using ⟨hpq.le_size hkey, hv.held⟩) fun id r hqr hid => ?_).push
        (hvs.grow hpq)
      exact Pool.sees_binding hid (hv.grow hqr)
    · trivial
  | case =>
    cases es with
    | nil => trivial
    | cons first clauses =>
      have hfirst : p₀.Sees (e.Within O) first :=
        ⟨hheld first (.head _), fun x hx => hsees.free x (.scrutinee hnid hx)⟩
      refine (showsOne_operand (hes first (.head _)) he hfirst).bind fun scrutinee q hpq hne hscrutinee => ?_
      exact showsAll_select hbelow (he.grow hpq) hnid hsees (fun _ hc => hc) hne hscrutinee (hvs.grow hpq)
  | add | sub | div | mod | pow | concat | eq | ne | lt | gt | le | ge =>
    rcases es with _ | ⟨x, _ | ⟨y, _ | ⟨z, es⟩⟩⟩
    · trivial
    · trivial
    · have hparts := hparts (by decide)
      refine (showsOne_operand (hes x (.head _)) he (hparts x (.head _))).bind fun a q hpq _ ha => ?_
      refine (showsOne_operand (hes y (.tail _ (.head _))) (he.grow hpq)
        (hparts y (.tail _ (.head _)))).bind fun b r hqr _ hb => ?_
      exact (showsOne_operator (by decide) (ha.grow hqr) hb).push ((hvs.grow hpq).grow hqr)
    · trivial
  | or | and => trivial
  | neg =>
    cases es with
    | nil => trivial
    | cons x es =>
      refine (showsOne_operand (hes x (.head _)) he (hparts (by decide) x (.head _))).bind fun a q hpq _ ha => ?_
      exact (showsOne_negation ha).push (hvs.grow hpq)
  | lambda => exact absurd rfl ht
  | num | str | ident | bool | null => trivial

/-- A function that stands where it is applied carries no words. -/
theorem lambda_closed {N : String → Prop} {callee : Callee} (htidy : p₀.Tidy M Op)
    (hnid : p₀.get? nid = some (.branch .lambda es)) (hsees : p₀.Sees N nid) (hgrown : p₀.Extends p)
    (hcallee : Machine.lambda p es = .ok callee) : callee.Closed M p₀ N := by
  have hlexicon : callee.lexicon = [] := Machine.lexicon_of_lambda hcallee
  refine ⟨lambda_contained hnid hsees hgrown hcallee, fun i hi => ?_, hlexicon ▸ Lexicon.all_nil⟩
  unfold Machine.lambda at hcallee
  split at hcallee
  · next names body pattern =>
    have hle : pattern ≤ p₀.size :=
      Nat.le_trans (Nat.le_of_lt (Pool.lt_of_get?_branch hnid (by simp))) hsees.held
    cases hpattern : p.get? pattern with
    | none =>
      rw [hpattern] at hcallee
      cases hcallee
    | some n =>
      rw [hpattern] at hcallee
      cases hcallee
      exact htidy.lambdas nid names body pattern n hnid ((hgrown.get?_eq hle).symm.trans hpattern) i hi
  · cases hcallee

theorem closes_of_below (htidy : p₀.Tidy M Op) (h : ClosesBelow M p₀ e nid) : Closes M p₀ e nid := by
  intro O p vs he hsees hvs
  have hget : p.get? nid = p₀.get? nid := he.grown.get?_eq hsees.held
  cases hn : p₀.get? nid with
  | none => exact .of_error (Evaluator.visit_of_none (hget.trans hn)) trivial
  | some n =>
    have hn' := hget.trans hn
    cases n with
    | ident name =>
      exact (showsAll_visitName h.scopes he hn' (hsees.free name (.name hn)) hvs).congr (Evaluator.visit_of_ident hn')
    | branch t es =>
      by_cases ht : t = .lambda
      · subst ht
        cases hcallee : Machine.lambda p es with
        | error fault => exact .of_error (by rw [Evaluator.visit_of_lambda hn', hcallee]) trivial
        | ok callee =>
          have hlambdas := lambda_closed htidy hn hsees he.grown hcallee
          have hlexicon : callee.lexicon = [] := Machine.lexicon_of_lambda hcallee
          have happly : ShowsAll O (Evaluator.apply e callee vs) p :=
            showsAll_apply h.scopes he (hlexicon ▸ Lexicon.all_nil) hlambdas hvs
          exact happly.congr (by rw [Evaluator.visit_of_lambda hn', hcallee])
      · exact (showsAll_visitBranch h he hn ht hsees hvs).congr (Evaluator.visit_of_branch hn' ht)
    | _ =>
      have hself : p.Shows O (nid :: vs) :=
        .cons ⟨Pool.ne_zero_of_get? hn', Pool.sees_literal hn' rfl⟩ hvs
      exact .of_ok (Evaluator.visit_of_leaf hn' (by simp) (by simp)) ⟨.refl p, hself⟩

/-- An evaluation in scopes that resolve all other names leaves open names only. -/
theorem closes (htidy : p₀.Tidy M Op) (e : Environment) (nid : NodeId) : Closes M p₀ e nid := by
  induction hroom : e.room using Nat.strongRecOn generalizing e nid with
  | ind room ihroom =>
    induction nid using Nat.strongRecOn with
    | ind nid ihnid =>
      exact closes_of_below htidy ⟨ihnid, fun f hlt c => ihroom f.room (hroom ▸ hlt) f c rfl⟩

end Linefold
