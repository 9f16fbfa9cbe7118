import Linefold.Proofs.Interning
import Mathlib.Data.List.Forall2

/-!
# The shape of nodes

`Part`: what a node is as a part of another one. `Tag.Admits` lists the parts that the children of a
node with a given tag are, and `Pool.WellShaped` says that the pool holds such nodes only. Interning a
node over parts that fit keeps a pool so (`WellShaped.intern`).
-/

namespace Linefold

/-- What a node is as a child of another node. -/
inductive Part where
  /-- An expression: any node but a binding and a clause. -/
  | value
  | exprs
  /-- A name or a string. -/
  | key
  /-- A list of names. -/
  | names
  /-- A name or a list of patterns. -/
  | pattern
  /-- A list of patterns. -/
  | patterns
  | binding
  | clause
  deriving DecidableEq, Repr

/-- The parts that the children of a node with the tag can be. -/
def Tag.Admits (t : Tag) (parts : List Part) : Prop :=
  match t with
  | .prog => parts = [.exprs]
  | .exprs | .list | .apply | .val | .arg => ∀ part ∈ parts, part = .value
  | .paren | .neg => parts = [.value]
  | .record => ∀ part ∈ parts, part = .binding
  | .binding => parts = [.key, .value]
  | .lambda => parts = [.names, .value, .patterns]
  | .case => ∃ clauses, parts = .value :: clauses ∧ ∀ part ∈ clauses, part = .clause
  | .of => parts = [.value, .value] ∨ parts = [.value, .value, .names]
  | t => t.isOperator ∧ parts = [.value, .value]

namespace Pool

variable {p q : Pool} {id : NodeId} {ids : List NodeId} {part : Part} {parts : List Part} {n : Node}
  {span : Span}

/-! ### Parts -/

/-- A node is a name or a list of such nodes. -/
inductive IsPattern (p : Pool) : NodeId → Prop where
  | name {id : NodeId} {name : String} (h : p.get? id = some (.ident name)) : IsPattern p id
  | list {id : NodeId} {es : List NodeId} (h : p.get? id = some (.branch .list es))
      (hes : ∀ e ∈ es, IsPattern p e) : IsPattern p id

/-- The node is there and can be the part. -/
def Fits (p : Pool) (part : Part) (id : NodeId) : Prop :=
  match part with
  | .value => ∃ n, p.get? id = some n ∧ n.tag ≠ .binding ∧ n.tag ≠ .of
  | .exprs => ∃ es, p.get? id = some (.branch .exprs es)
  | .key => ∃ s, p.get? id = some (.ident s) ∨ p.get? id = some (.str s)
  | .names => ∃ es, p.get? id = some (.branch .list es) ∧ ∀ e ∈ es, ∃ s, p.get? e = some (.ident s)
  | .pattern => p.IsPattern id
  | .patterns => ∃ es, p.get? id = some (.branch .list es) ∧ ∀ e ∈ es, p.IsPattern e
  | .binding => ∃ es, p.get? id = some (.branch .binding es)
  | .clause => ∃ es, p.get? id = some (.branch .of es)

theorem IsPattern.mono (h : p.IsPattern id) (hpq : p.Extends q) : q.IsPattern id := by
  induction h with
  | name h => exact .name (hpq _ _ h)
  | list h _ ih => exact .list (hpq _ _ h) ih

theorem Fits.mono (h : p.Fits part id) (hpq : p.Extends q) : q.Fits part id := by
  cases part with
  | value =>
    obtain ⟨n, hn, ht⟩ := h
    exact ⟨n, hpq _ _ hn, ht⟩
  | key =>
    rcases h with ⟨s, h | h⟩
    · exact ⟨s, .inl (hpq _ _ h)⟩
    · exact ⟨s, .inr (hpq _ _ h)⟩
  | names =>
    obtain ⟨es, hn, hes⟩ := h
    refine ⟨es, hpq _ _ hn, fun e he => ?_⟩
    obtain ⟨s, hs⟩ := hes e he
    exact ⟨s, hpq _ _ hs⟩
  | pattern => exact IsPattern.mono h hpq
  | patterns =>
    obtain ⟨es, hn, hes⟩ := h
    exact ⟨es, hpq _ _ hn, fun e he => (hes e he).mono hpq⟩
  | exprs | binding | clause =>
    obtain ⟨es, hn⟩ := h
    exact ⟨es, hpq _ _ hn⟩

theorem Fits.exists_get? (h : p.Fits part id) : ∃ n, p.get? id = some n := by
  cases part with
  | value =>
    obtain ⟨n, hn, -⟩ := h
    exact ⟨n, hn⟩
  | key => obtain ⟨s, h | h⟩ := h <;> exact ⟨_, h⟩
  | names | patterns =>
    obtain ⟨es, hn, -⟩ := h
    exact ⟨_, hn⟩
  | pattern => cases h <;> exact ⟨_, ‹_›⟩
  | exprs | binding | clause =>
    obtain ⟨es, hn⟩ := h
    exact ⟨_, hn⟩

/-- Every part but a binding and a clause is an expression. -/
theorem Fits.value (h : p.Fits part id) (hb : part ≠ .binding) (hc : part ≠ .clause) :
    p.Fits .value id := by
  cases part with
  | value => exact h
  | key => obtain ⟨s, h | h⟩ := h <;> exact ⟨_, h, by simp [Node.tag]⟩
  | names | patterns =>
    obtain ⟨es, hn, -⟩ := h
    exact ⟨_, hn, by simp [Node.tag]⟩
  | pattern => cases h <;> exact ⟨_, ‹_›, by simp [Node.tag]⟩
  | exprs =>
    obtain ⟨es, hn⟩ := h
    exact ⟨_, hn, by simp [Node.tag]⟩
  | binding => exact absurd rfl hb
  | clause => exact absurd rfl hc

theorem forall₂_fits_mono (h : List.Forall₂ p.Fits parts ids) (hpq : p.Extends q) :
    List.Forall₂ q.Fits parts ids :=
  h.imp fun _ _ h => h.mono hpq

theorem Fits.le_size (h : p.Fits part id) : id ≤ p.size := by
  obtain ⟨n, hn⟩ := h.exists_get?
  exact le_size_of_get? hn

end Pool

/-! ### Well-shaped pools -/

/-- The children of the node are parts that its tag admits. -/
def Node.Shaped (p : Pool) : Node → Prop
  | .branch t es => ∃ parts, t.Admits parts ∧ List.Forall₂ p.Fits parts es
  | _ => True

def Pool.WellShaped (p : Pool) : Prop := ∀ id n, p.get? id = some n → n.Shaped p

section

variable {p q : Pool} {id : NodeId} {n : Node} {part : Part} {parts : List Part} {ids : List NodeId}

theorem forall_fits_of_forall₂ (h : List.Forall₂ p.Fits parts ids) (hparts : ∀ x ∈ parts, x = part) :
    ∀ id ∈ ids, p.Fits part id := by
  induction h with
  | nil => simp
  | cons hid _ ih =>
    rintro _ (_ | ⟨_, hmem⟩)
    · rw [← hparts _ (List.mem_cons_self ..)]
      exact hid
    · exact ih (fun x hx => hparts x (List.mem_cons_of_mem _ hx)) _ hmem

theorem forall₂_fits_replicate (h : ∀ id ∈ ids, p.Fits part id) :
    List.Forall₂ p.Fits (List.replicate ids.length part) ids := by
  induction ids with
  | nil => exact .nil
  | cons id ids ih =>
    exact .cons (h id (List.mem_cons_self ..)) (ih fun x hx => h x (List.mem_cons_of_mem _ hx))

theorem Node.Shaped.mono (h : n.Shaped p) (hpq : p.Extends q) : n.Shaped q := by
  cases n with
  | branch t es =>
    obtain ⟨parts, ht, hes⟩ := h
    exact ⟨parts, ht, Pool.forall₂_fits_mono hes hpq⟩
  | _ => trivial

/-- Every child is some part. -/
theorem Node.Shaped.exists_fits (h : n.Shaped p) {c : NodeId} (hc : c ∈ n.elts) :
    ∃ part, p.Fits part c := by
  cases n with
  | branch t es =>
    obtain ⟨parts, -, hes⟩ := h
    obtain ⟨i, hi, rfl⟩ := List.getElem_of_mem hc
    have hi' : i < parts.length := by
      rw [hes.length_eq]
      exact hi
    exact ⟨_, hes.get hi' hi⟩
  | _ => cases hc

theorem Node.Shaped.le_size (h : n.Shaped p) : ∀ c ∈ n.elts, c ≤ p.size := by
  intro c hc
  obtain ⟨part, hfits⟩ := h.exists_fits hc
  exact hfits.le_size

namespace Pool

theorem wellShaped_empty : Pool.empty.WellShaped := by
  intro id n h
  cases id <;> cases h

/-- What a node of a well-shaped pool has as children. -/
theorem WellShaped.admits {t : Tag} {es : List NodeId} (h : p.WellShaped)
    (hn : p.get? id = some (.branch t es)) :
    ∃ parts, t.Admits parts ∧ List.Forall₂ p.Fits parts es :=
  h id _ hn

theorem WellShaped.intern (h : p.WellShaped) (hn : n.Shaped p) : (p.intern n).2.WellShaped := by
  intro id m hm
  rcases of_get?_intern hm with hm | ⟨-, rfl⟩
  · exact (h id m hm).mono (p.extends_intern n)
  · rw [Node.within_eq_self hn.le_size]
    exact hn.mono (p.extends_intern n)

theorem WellShaped.internAt {span : Span} (h : p.WellShaped) (hn : n.Shaped p) :
    (p.internAt n span).2.WellShaped := by
  intro id m hm
  exact (h.intern hn id m hm).mono fun _ _ h => h

theorem get?_intern_of_shaped (hn : n.Shaped p) : (p.intern n).2.get? (p.intern n).1 = some n :=
  get?_intern hn.le_size

end Pool

end

/-! ### Kinds of nodes -/

section

variable {p : Pool} {id : NodeId} {ids : List NodeId} {n : Node} {part : Part}

theorem fits_value_of_isLiteral (hn : n.isLiteral) (h : p.get? id = some n) : p.Fits .value id := by
  refine ⟨n, h, ?_⟩
  cases n <;> simp_all [Node.isLiteral, Node.tag]

theorem shaped_of_isLiteral (hn : n.isLiteral) : n.Shaped p := by
  cases n <;> trivial

theorem admits_of_isOperator {tag : Tag} (h : tag.isOperator) : tag.Admits [.value, .value] := by
  cases tag <;> first | exact ⟨rfl, rfl⟩ | cases h

theorem shaped_of_forall {t : Tag}
    (ht : ∀ parts : List Part, (∀ x ∈ parts, x = .value) → t.Admits parts)
    (h : ∀ id ∈ ids, p.Fits .value id) : (Node.branch t ids).Shaped p :=
  ⟨_, ht _ fun _ hx => List.eq_of_mem_replicate hx, forall₂_fits_replicate h⟩

theorem shaped_list (h : ∀ id ∈ ids, p.Fits part id) (hb : part ≠ .binding) (hc : part ≠ .clause) :
    (Node.branch .list ids).Shaped p :=
  shaped_of_forall (fun _ h => h) fun id hid => (h id hid).value hb hc

theorem shaped_names (h : ∀ id ∈ ids, ∃ name, p.get? id = some (.ident name)) :
    (Node.branch .list ids).Shaped p := by
  have hkeys : ∀ id ∈ ids, p.Fits .key id := fun id hid => (h id hid).imp fun _ => .inl
  exact shaped_list hkeys (by decide) (by decide)

end

end Linefold
