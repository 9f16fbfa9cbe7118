import Linefold.Parser
import Linefold.Proofs.Twins.Alike
import Linefold.Table

/-!
# Computations that run in step

Two runs whose inputs differ in places only, that is in lines, columns and spans, intern the same nodes in
the same order. Their pools hold the same nodes under the same ids (`Pool.SameNodes`) but may locate them
elsewhere, and their errors are the same but for the places that they name (`Error.placeless`). `InStep S f g
R`: from states in relation `S`, `f` and `g` both succeed or both fail, in states in relation `S`.
-/

namespace Linefold

/-! ### Errors -/

/-- An error without the places that it names. -/
def Error.placeless : Error → Error
  | unexpected expected found _ => unexpected expected found .zero
  | nonExhaustiveCase scrutinee _ => nonExhaustiveCase scrutinee none
  | e => e

theorem Error.message_placeless (e : Error) : e.placeless.message = e.message := by
  cases e <;> rfl

theorem Error.message_eq {e f : Error} (h : e.placeless = f.placeless) : e.message = f.message := by
  rw [← e.message_placeless, h, f.message_placeless]

/-! ### Pools -/

namespace Pool

/-- The pools hold the same nodes under the same ids. -/
def SameNodes (p q : Pool) : Prop := p.nodes = q.nodes

namespace SameNodes

variable {p q r : Pool} {id i j : NodeId}

theorem refl (p : Pool) : p.SameNodes p := rfl

theorem get?_eq (h : p.SameNodes q) (id : NodeId) : p.get? id = q.get? id := by
  cases id with
  | zero => rfl
  | succ i => exact congrArg (fun nodes : Array Node => nodes[i]?) h

theorem index_eq (h : p.SameNodes q) (n : Node) : p.index[n]? = q.index[n]? := by
  ext i
  cases i with
  | zero => exact iff_of_false (p.index_ne_zero n) (q.index_ne_zero n)
  | succ i => rw [p.indexed, q.indexed, h]

/-- A node gets the same id in both. -/
theorem intern (h : p.SameNodes q) (n : Node) :
    (p.intern n).1 = (q.intern n).1 ∧ (p.intern n).2.SameNodes (q.intern n).2 := by
  have hsize : p.nodes.size = q.nodes.size := congrArg Array.size h
  have hindex : p.index[n.within p.nodes.size]? = q.index[n.within q.nodes.size]? := by
    rw [h.index_eq, hsize]
  unfold Pool.intern
  simp only
  split <;> rename_i hp <;> split <;> rename_i hq
  · exact ⟨Option.some.inj (hp.symm.trans (hindex.trans hq)), h⟩
  · exact absurd (hp.symm.trans (hindex.trans hq)) (by simp)
  · exact absurd (hp.symm.trans (hindex.trans hq)) (by simp)
  · refine ⟨congrArg (· + 1) hsize, ?_⟩
    show p.nodes.push _ = q.nodes.push _
    rw [show p.nodes = q.nodes from h]

theorem internAt (h : p.SameNodes q) (n : Node) (a b : Span) :
    (p.internAt n a).1 = (q.internAt n b).1 ∧ (p.internAt n a).2.SameNodes (q.internAt n b).2 :=
  h.intern n

/-! ### Views -/

theorem tag?_eq (h : p.SameNodes q) (id : NodeId) : p.tag? id = q.tag? id :=
  congrArg (Option.map Node.tag) (h.get?_eq id)

theorem elts_eq (h : p.SameNodes q) (id : NodeId) : p.elts id = q.elts id :=
  congrArg (fun n : Option Node => (n.map Node.elts).getD []) (h.get?_eq id)

theorem unwrapGroup_eq (h : p.SameNodes q) (id : NodeId) : p.unwrapGroup id = q.unwrapGroup id := by
  induction id using Nat.strongRecOn with
  | ind id ih =>
    by_cases hgroup : ∃ t c, p.get? id = some (.branch t [c]) ∧ (t = .paren ∨ t = .exprs)
    · obtain ⟨t, c, hp, ht⟩ := hgroup
      rw [unwrapGroup_of_group hp ht, unwrapGroup_of_group ((h.get?_eq id).symm.trans hp) ht]
      exact ih c (lt_of_get?_branch hp (.head _))
    · rw [unwrapGroup_eq_self fun t c hp ht => hgroup ⟨t, c, hp, ht⟩,
        unwrapGroup_eq_self fun t c hq ht => hgroup ⟨t, c, (h.get?_eq id).trans hq, ht⟩]

theorem literal?_eq (h : p.SameNodes q) (id : NodeId) : p.literal? id = q.literal? id := by
  unfold literal?
  rw [h.unwrapGroup_eq, h.get?_eq]

theorem number?_eq (h : p.SameNodes q) (id : NodeId) : p.number? id = q.number? id := by
  unfold number?
  rw [h.unwrapGroup_eq, h.get?_eq]

theorem listItems?_eq (h : p.SameNodes q) (id : NodeId) : p.listItems? id = q.listItems? id := by
  unfold listItems?
  rw [h.unwrapGroup_eq, h.get?_eq]

/-- A view is the same in both if it is on leaves and on nodes whose children it is the same for. -/
theorem view_eq {α : Type} {f g : NodeId → α} (h : p.SameNodes q)
    (hnone : ∀ id, p.get? id = none → q.get? id = none → f id = g id)
    (hleaf : ∀ id n, p.get? id = some n → q.get? id = some n → (∀ t es, n ≠ .branch t es) → f id = g id)
    (hbranch : ∀ id t es, p.get? id = some (.branch t es) → q.get? id = some (.branch t es) →
      (∀ c ∈ es, f c = g c) → f id = g id) (id : NodeId) : f id = g id := by
  induction id using Nat.strongRecOn with
  | ind id ih =>
    have hq := h.get?_eq id
    cases hp : p.get? id with
    | none => exact hnone id hp (hq.symm.trans hp)
    | some n =>
      rw [hp] at hq
      cases n with
      | branch t es =>
        exact hbranch id t es hp hq.symm fun c hc => ih c (lt_of_get?_branch hp hc)
      | _ => exact hleaf id _ hp hq.symm (by simp)

theorem tree?_eq (h : p.SameNodes q) (id : NodeId) : p.tree? id = q.tree? id := by
  refine h.view_eq (fun id hp hq => ?_) (fun id n hp hq hn => ?_) (fun id t es hp hq hes => ?_) id
  · rw [tree?_of_none hp, tree?_of_none hq]
  · rw [tree?_of_leaf hp hn, tree?_of_leaf hq hn]
  · rw [tree?_of_branch hp, tree?_of_branch hq, mapM_eq_mapM (List.forall₂_same.2 hes)]

theorem isGround_eq (h : p.SameNodes q) (id : NodeId) : p.isGround id = q.isGround id := by
  refine h.view_eq (fun id hp hq => ?_) (fun id n hp hq hn => ?_) (fun id t es hp hq hes => ?_) id
  · rw [isGround_of_none hp, isGround_of_none hq]
  · rw [isGround_of_leaf hp hn, isGround_of_leaf hq hn]
  · rw [isGround_of_branch hp, isGround_of_branch hq]
    have hes : List.Forall₂ (fun c d => p.isGround c = q.isGround d) es es := List.forall₂_same.2 hes
    have hparts := Pool.groundParts?_rel (t := t) hes
    generalize groundParts? t es = parts at hparts ⊢
    cases hparts with
    | none => rfl
    | some hparts => exact all_eq_all hparts

theorem pattern_eq (h : p.SameNodes q) (id : NodeId) : p.pattern id = q.pattern id := by
  refine h.view_eq (fun id hp hq => ?_) (fun id n hp hq hn => ?_) (fun id t es hp hq hes => ?_) id
  · rw [pattern_of_none hp, pattern_of_none hq]
  · cases n with
    | ident s => rw [pattern_of_ident hp, pattern_of_ident hq]
    | branch t es => exact absurd rfl (hn t es)
    | _ => rw [pattern_of_ne hp (by simp) (by simp), pattern_of_ne hq (by simp) (by simp)]
  · by_cases ht : t = .list
    · subst ht
      rw [pattern_of_list hp, pattern_of_list hq, List.map_congr_left hes]
    · rw [pattern_of_ne hp (by simp) (by simpa using ht), pattern_of_ne hq (by simp) (by simpa using ht)]

/-- The pools are written as the same table. -/
theorem toTable_eq (h : p.SameNodes q) (root : NodeId) (version : String) :
    p.toTable root version = q.toTable root version := by
  unfold toTable
  rw [show p.nodes = q.nodes from h]

end SameNodes

end Pool

/-! ### Computations -/

variable {σ α β : Type} {S : σ → σ → Prop} {R : α → α → Prop} {R' : β → β → Prop}

/-- Ends of two runs: results in relation, or errors that differ in places only. -/
inductive SameEnd (S : σ → σ → Prop) (R : α → α → Prop) :
    EStateM.Result Error σ α → EStateM.Result Error σ α → Prop where
  | ok {a b : α} {s t : σ} (hst : S s t) (h : R a b) : SameEnd S R (.ok a s) (.ok b t)
  | error {e f : Error} {s t : σ} (hst : S s t) (h : e.placeless = f.placeless) :
      SameEnd S R (.error e s) (.error f t)

def InStep (S : σ → σ → Prop) (f g : EStateM Error σ α) (R : α → α → Prop) : Prop :=
  ∀ s t, S s t → SameEnd S R (f s) (g t)

namespace InStep

variable {f f' : EStateM Error σ α} {g g' : α → EStateM Error σ β} {a b : α} {e e' : Error}

theorem bind (hf : InStep S f f' R) (hg : ∀ a b, R a b → InStep S (g a) (g' b) R') :
    InStep S (f >>= g) (f' >>= g') R' := by
  intro s t hst
  have hend := hf s t hst
  simp only [Bind.bind, EStateM.bind]
  generalize f s = left, f' t = right at hend ⊢
  cases hend with
  | ok hst h => exact hg _ _ h _ _ hst
  | error hst h => exact .error hst h

/-- The same result on both sides. -/
theorem bind_eq (hf : InStep S f f' Eq) (hg : ∀ a, InStep S (g a) (g' a) R') :
    InStep S (f >>= g) (f' >>= g') R' :=
  hf.bind fun a _ h => h ▸ hg a

theorem pure (h : R a b) : InStep S (Pure.pure a) (Pure.pure b) R := fun _ _ hst => .ok hst h

theorem throw (h : e.placeless = e'.placeless) :
    InStep S (MonadExcept.throw e : EStateM Error σ α) (MonadExcept.throw e') R :=
  fun _ _ hst => .error hst h

theorem ite {P : Prop} [Decidable P] {f f' k k' : EStateM Error σ α} (hf : P → InStep S f f' R)
    (hk : ¬P → InStep S k k' R) : InStep S (if P then f else k) (if P then f' else k') R := by
  split
  · next h => exact hf h
  · next h => exact hk h

end InStep

end Linefold
