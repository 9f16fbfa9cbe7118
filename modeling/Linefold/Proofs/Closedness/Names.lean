import Linefold.Proofs.Evaluation.Clauses
import Linefold.Proofs.Scoping.Free

/-!
# Nodes and functions that see names

`p.Sees N id`: what is free in the node is one of the names `N`. That is a matter of the nodes below it, and
stays so as the pool grows. For each kind of node there is a lemma that says what its children have to see. A
function word is closed (`Word.Closed`) if it has a body that sees the names, the parameters and what it
carries, and if this holds of the functions that it carries in turn. The names in list patterns are kept
apart (`Pool.Listed`): a list pattern may be longer than the list that it meets, and then leaves names free.
-/

namespace Linefold

open Machine (Callee Clause)

attribute [local irreducible] Pool.intern

section

variable {p q : Pool} {M N N' : String → Prop} {id c : NodeId} {t : Tag} {es ids : List NodeId} {x : String}
  {n : Node}

/-! ### Growing pools -/

theorem Pool.Extends.le_size (hpq : p.Extends q) (hid : id ≤ p.size) : id ≤ q.size := by
  cases id with
  | zero => exact Nat.zero_le _
  | succ i =>
    have hget : p.get? (i + 1) = some p.nodes[i] := Array.getElem?_eq_getElem hid
    exact le_size_of_get? (hpq _ _ hget)

theorem Pool.Extends.params_eq (hpq : p.Extends q) (hids : ∀ id ∈ ids, id ≤ p.size) :
    q.params ids = p.params ids :=
  congrArg Pattern.identsOfAll (List.map_congr_left fun id hid => hpq.pattern_eq (hids id hid))

/-- What is free in a node was so when the node was made. -/
theorem Pool.Extends.free (hpq : p.Extends q) (hid : id ≤ p.size) (h : q.Free x id) : p.Free x id := by
  have below {id c : NodeId} {t : Tag} {es : List NodeId} (hid : id ≤ p.size)
      (h : p.get? id = some (.branch t es)) (hc : c ∈ es) : c ≤ p.size :=
    Nat.le_trans (Nat.le_of_lt (lt_of_get?_branch h hc)) hid
  induction h with
  | name h => exact .name (hpq.get?_eq hid ▸ h)
  | child h ht hc _ ih =>
    have h := (hpq.get?_eq hid).symm.trans h
    exact .child h ht hc (ih (below hid h hc))
  | value h _ ih =>
    have h := (hpq.get?_eq hid).symm.trans h
    exact .value h (ih (below hid h (by simp)))
  | lambda h hpattern hbound _ ih =>
    have h := (hpq.get?_eq hid).symm.trans h
    have hle := below hid h (c := _) (List.mem_cons_of_mem _ (List.mem_cons_of_mem _ (List.mem_singleton.2 rfl)))
    have hpattern := (hpq.get?_eq hle).symm.trans hpattern
    rw [hpq.params_eq fun i hi => Nat.le_trans (Nat.le_of_lt (lt_of_mem_elts hpattern hi)) hle] at hbound
    exact .lambda h hpattern hbound (ih (below hid h (by simp)))
  | scrutinee h _ ih =>
    have h := (hpq.get?_eq hid).symm.trans h
    exact .scrutinee h (ih (below hid h (by simp)))
  | pattern h hmem hc hnone _ ih =>
    have h := (hpq.get?_eq hid).symm.trans h
    have hle := below hid h (List.mem_cons_of_mem _ hmem)
    have hc := (Machine.clause_eq_of_le hpq hle).symm.trans hc
    have hlt := Machine.lt_of_clause hc
    exact .pattern h hmem hc ((Machine.variable_eq_of_clause hc hpq).symm.trans hnone)
      (ih (Nat.le_trans (Nat.le_of_lt hlt.1) hle))
  | body h hmem hc hbound _ ih =>
    have h := (hpq.get?_eq hid).symm.trans h
    have hle := below hid h (List.mem_cons_of_mem _ hmem)
    have hc := (Machine.clause_eq_of_le hpq hle).symm.trans hc
    have hlt := Machine.lt_of_clause hc
    rw [Machine.variable_eq_of_clause hc hpq] at hbound
    exact .body h hmem hc hbound (ih (Nat.le_trans (Nat.le_of_lt hlt.2) hle))

namespace Pool

theorem Sees.grow (h : p.Sees N id) (hpq : p.Extends q) : q.Sees N id :=
  ⟨hpq.le_size h.held, fun x hx => h.free x (hpq.free h.held hx)⟩

/-! ### What the children of a node see -/

theorem sees_ident (h : p.get? id = some (.ident x)) (hx : N x) : p.Sees N id := by
  refine ⟨le_size_of_get? h, fun y hy => ?_⟩
  cases hy <;> rename_i h' <;> cases h.symm.trans ‹p.get? id = _›
  exact hx

theorem sees_literal (h : p.get? id = some n) (hn : n.isLiteral) : p.Sees N id := by
  refine ⟨le_size_of_get? h, fun y hy => ?_⟩
  cases hy <;> rename_i h' <;> cases h.symm.trans ‹p.get? id = _› <;> cases hn

theorem sees_branch (h : p.get? id = some (.branch t es)) (ht : t ≠ .lambda ∧ t ≠ .binding ∧ t ≠ .case)
    (hes : ∀ c ∈ es, p.Sees N c) : p.Sees N id := by
  refine ⟨le_size_of_get? h, fun y hy => ?_⟩
  cases hy with
  | child h' _ hc hy =>
    cases h.symm.trans h'
    exact (hes _ hc).free y hy
  | name h' => cases h.symm.trans h'
  | value h' | lambda h' | scrutinee h' | pattern h' | body h' =>
    cases h.symm.trans h'
    simp at ht

theorem sees_binding {key v : NodeId} (h : p.get? id = some (.branch .binding [key, v])) (hv : p.Sees N v) :
    p.Sees N id := by
  refine ⟨le_size_of_get? h, fun y hy => ?_⟩
  cases hy with
  | value h' hy =>
    cases h.symm.trans h'
    exact hv.free y hy
  | child h' ht =>
    cases h.symm.trans h'
    simp at ht
  | name h' | lambda h' | scrutinee h' | pattern h' | body h' => cases h.symm.trans h'

theorem sees_lambda {names body pattern : NodeId} (h : p.get? id = some (.branch .lambda [names, body, pattern]))
    (hpattern : p.get? pattern = some n) (hbody : p.Sees (fun x => N x ∨ x ∈ p.params n.elts) body) :
    p.Sees N id := by
  refine ⟨le_size_of_get? h, fun y hy => ?_⟩
  cases hy with
  | lambda h' hpattern' hbound hy =>
    cases h.symm.trans h'
    cases hpattern.symm.trans hpattern'
    exact (hbody.free y hy).resolve_right hbound
  | child h' ht =>
    cases h.symm.trans h'
    simp at ht
  | name h' | value h' | scrutinee h' | pattern h' | body h' => cases h.symm.trans h'

/-- In a case, the parts of the clause see the names, its body also the variable of the pattern. -/
structure SeesClause (p : Pool) (N : String → Prop) (cid : NodeId) : Prop where
  held : cid ≤ p.size
  pattern : ∀ c, Machine.clause p cid = .ok c → c.variable? p = none → p.Sees N c.pattern
  body : ∀ c, Machine.clause p cid = .ok c →
    p.Sees (fun x => N x ∨ ∃ names, c.variable? p = some (x, names)) c.body

theorem SeesClause.mono {cid : NodeId} (h : p.SeesClause N cid) (hN : ∀ x, N x → N' x) : p.SeesClause N' cid :=
  ⟨h.held, fun c hc hnone => (h.pattern c hc hnone).mono hN,
    fun c hc => (h.body c hc).mono fun x hx => hx.imp_left (hN x)⟩

theorem SeesClause.grow {cid : NodeId} (h : p.SeesClause N cid) (hpq : p.Extends q) : q.SeesClause N cid := by
  have hback (c : Clause) (hc : Machine.clause q cid = .ok c) : Machine.clause p cid = .ok c ∧
      c.variable? q = c.variable? p := by
    have hc := (Machine.clause_eq_of_le hpq h.held).symm.trans hc
    exact ⟨hc, Machine.variable_eq_of_clause hc hpq⟩
  refine ⟨hpq.le_size h.held, fun c hc hnone => ?_, fun c hc => ?_⟩
  · obtain ⟨hc, hvar⟩ := hback c hc
    exact (h.pattern c hc (hvar ▸ hnone)).grow hpq
  · obtain ⟨hc, hvar⟩ := hback c hc
    rw [hvar]
    exact (h.body c hc).grow hpq

theorem sees_case {first : NodeId} {clauses : List NodeId}
    (h : p.get? id = some (.branch .case (first :: clauses))) (hfirst : p.Sees N first)
    (hclauses : ∀ cid ∈ clauses, p.SeesClause N cid) : p.Sees N id := by
  refine ⟨le_size_of_get? h, fun y hy => ?_⟩
  cases hy with
  | scrutinee h' hy =>
    cases h.symm.trans h'
    exact hfirst.free y hy
  | pattern h' hmem hc hnone hy =>
    cases h.symm.trans h'
    exact ((hclauses _ hmem).pattern _ hc hnone).free y hy
  | body h' hmem hc hbound hy =>
    cases h.symm.trans h'
    exact (((hclauses _ hmem).body _ hc).free y hy).resolve_right fun ⟨names, hvar⟩ => hbound names hvar
  | child h' ht =>
    cases h.symm.trans h'
    simp at ht
  | name h' | value h' | lambda h' => cases h.symm.trans h'

/-- The clause of a constant pattern. -/
theorem seesClause_pair {a b : NodeId} (h : p.get? id = some (.branch .of [a, b])) (ha : p.Sees N a)
    (hb : p.Sees N b) : p.SeesClause N id := by
  have hclause : Machine.clause p id = .ok ⟨a, b, none⟩ := by
    unfold Machine.clause
    rw [h]
    rfl
  refine ⟨le_size_of_get? h, fun c hc _ => ?_, fun c hc => ?_⟩
  · cases hclause.symm.trans hc
    exact ha
  · cases hclause.symm.trans hc
    exact hb.mono fun _ => .inl

/-- The clause of a variable. -/
theorem seesClause_variable {a b names : NodeId} (h : p.get? id = some (.branch .of [a, b, names]))
    (ha : p.get? a = some (.ident x)) (hb : p.Sees (fun y => N y ∨ y = x) b) : p.SeesClause N id := by
  have hclause : Machine.clause p id = .ok ⟨a, b, some names⟩ := by
    unfold Machine.clause
    rw [h]
    rfl
  have hvar : Clause.variable? ⟨a, b, some names⟩ p = some (x, names) := by
    unfold Clause.variable?
    simp only [ha]
  refine ⟨le_size_of_get? h, fun c hc hnone => ?_, fun c hc => ?_⟩
  · cases hclause.symm.trans hc
    cases hvar.symm.trans hnone
  · cases hclause.symm.trans hc
    exact hb.mono fun y hy => hy.imp_right fun (hy : y = x) => ⟨names, hy ▸ hvar⟩

/-! ### Patterns -/

/-- The names in the pattern, if it is that of a list, are among the given ones. -/
def Listed (p : Pool) (M : String → Prop) (id : NodeId) : Prop :=
  ∀ es, p.get? id = some (.branch .list es) → ∀ x ∈ (p.pattern id).idents, M x

theorem Listed.grow (h : p.Listed M id) (hid : id ≤ p.size) (hpq : p.Extends q) : q.Listed M id := by
  intro es hes x hx
  rw [hpq.pattern_eq hid] at hx
  exact h es ((hpq.get?_eq hid).symm.trans hes) x hx

end Pool

theorem Pattern.mem_identsOfAll {ps : List Pattern} :
    x ∈ Pattern.identsOfAll ps ↔ ∃ a ∈ ps, x ∈ a.idents := by
  induction ps with
  | nil => simp [identsOfAll]
  | cons a ps ih => simp [identsOfAll, ih]

theorem Pool.mem_params : x ∈ p.params ids ↔ ∃ id ∈ ids, x ∈ (p.pattern id).idents := by
  simp [params, Pattern.mem_identsOfAll]

theorem Pool.idents_ident (h : p.get? id = some (.ident x)) : (p.pattern id).idents = [x] := by
  rw [pattern_of_ident h, Pattern.idents]

theorem Pool.idents_list (h : p.get? id = some (.branch .list es)) :
    (p.pattern id).idents = p.params es := by
  rw [pattern_of_list h, Pattern.idents, params]

/-! ### Functions -/

/-- A contained function, the list patterns of which have names among `M`. Besides functions it carries the
words of its parameters, and no others. -/
structure Machine.Callee.Closed (M : String → Prop) (p : Pool) (N : String → Prop) (callee : Callee) : Prop
    extends callee.Contained p N where
  listed : ∀ i ∈ callee.pattern, p.Listed M i
  values : callee.lexicon.All fun x w => w.cls ≠ .function → w.cls = .value ∧ x ∈ p.params callee.pattern

/-- A function has a body, and it and all functions that it carries are closed. -/
inductive Word.Closed (M : String → Prop) (p : Pool) : (String → Prop) → String → Word → Prop where
  | intro {N : String → Prop} {name : String} {w : Word}
      (self : w.cls = .function → w.nid ≠ 0 ∧
        ∃ c, w.closure = some c ∧ Callee.Closed M p N ⟨name, w.nid, c.pattern, c.lexicon⟩)
      (carried : w.cls = .function → ∀ c, w.closure = some c → ∀ nw ∈ c.lexicon,
        Closed M p (fun x => N x ∨ x ∈ Lexicon.names c.lexicon) nw.1 nw.2) : Closed M p N name w

theorem Machine.Callee.Closed.mono {callee : Callee} (h : callee.Closed M p N) (hN : ∀ x, N x → N' x) :
    callee.Closed M p N' :=
  ⟨h.toContained.mono hN, h.listed, h.values⟩

theorem Machine.Callee.Closed.grow {callee : Callee} (h : callee.Closed M p N) (hpq : p.Extends q) :
    callee.Closed M q N := by
  have hparams := hpq.params_eq h.pattern
  refine ⟨⟨?_, fun i hi => hpq.le_size (h.pattern i hi)⟩, fun i hi => (h.listed i hi).grow (h.pattern i hi) hpq, ?_⟩
  · rw [hparams]
    exact h.body.grow hpq
  · rw [hparams]
    exact h.values

namespace Word.Closed

variable {w : Word} {name : String}

theorem mono (h : w.Closed M p N name) (hN : ∀ x, N x → N' x) : w.Closed M p N' name := by
  induction h generalizing N' with
  | intro self _ ih =>
    refine .intro (fun hcls => ?_) fun hcls c hc nw hnw => ih hcls c hc nw hnw fun x hx => hx.imp_left (hN x)
    obtain ⟨hnid, c, hc, hclosed⟩ := self hcls
    exact ⟨hnid, c, hc, hclosed.mono hN⟩

theorem grow (h : w.Closed M p N name) (hpq : p.Extends q) : w.Closed M q N name := by
  induction h with
  | intro self _ ih =>
    refine .intro (fun hcls => ?_) ih
    obtain ⟨hnid, c, hc, hclosed⟩ := self hcls
    exact ⟨hnid, c, hc, hclosed.grow hpq⟩

theorem of_ne (hw : w.cls ≠ .function) : w.Closed M p N name :=
  .intro (fun hcls => absurd hcls hw) fun hcls => absurd hcls hw

end Word.Closed

end

end Linefold
