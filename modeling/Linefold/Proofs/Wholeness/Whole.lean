import Linefold.Folder.Pattern
import Linefold.Proofs.Interning
import Linefold.Proofs.Outcome
import Linefold.Proofs.Views
import Linefold.Proofs.Words

/-!
# Pools without holes

A node is whole if its children are there, and if it has children only under a tag that takes them. An
absent id is a word's or an argument's, never a child's: `Keeps p f Q` says that a computation that is
given nodes of a whole pool leaves a whole pool, whether it succeeds or fails, and refers to nodes of that
pool only.
-/

namespace Linefold

namespace Pool

/-- There is a node under the id. -/
def Has (p : Pool) (id : NodeId) : Prop := ∃ n, p.get? id = some n

variable {p q : Pool} {id : NodeId}

theorem Has.mono (h : p.Has id) (hpq : p.Extends q) : q.Has id := h.imp fun _ hn => hpq _ _ hn

theorem Has.ne_zero (h : p.Has id) : id ≠ 0 := h.elim fun _ hn => ne_zero_of_get? hn

theorem Has.le_size (h : p.Has id) : id ≤ p.size := h.elim fun _ hn => le_size_of_get? hn

end Pool

/-! ### Nodes -/

structure Node.Whole (p : Pool) (n : Node) : Prop where
  has : ∀ c ∈ n.elts, p.Has c
  tag : ∀ t es, n = .branch t es → t.isLeaf = false

def Pool.Whole (p : Pool) : Prop := ∀ id n, p.get? id = some n → n.Whole p

section

variable {p q : Pool} {id value : NodeId} {ids es : List NodeId} {n : Node} {t : Tag}

theorem Pool.forall_has_mono (h : ∀ id ∈ ids, p.Has id) (hpq : p.Extends q) : ∀ id ∈ ids, q.Has id :=
  fun id hid => (h id hid).mono hpq

namespace Node.Whole

theorem mono (h : n.Whole p) (hpq : p.Extends q) : n.Whole q := ⟨Pool.forall_has_mono h.has hpq, h.tag⟩

theorem leaf (h : ∀ t es, n ≠ .branch t es) : n.Whole p := by
  refine ⟨?_, fun t es hn => absurd hn (h t es)⟩
  cases n with
  | branch t es => exact absurd rfl (h t es)
  | _ => nofun

theorem of_isLiteral (h : n.isLiteral) : n.Whole p := by
  apply leaf
  rintro t es rfl
  cases h

theorem branch (ht : t.isLeaf = false) (h : ∀ id ∈ es, p.Has id) : (Node.branch t es).Whole p := by
  refine ⟨h, ?_⟩
  rintro _ _ ⟨⟩
  exact ht

/-- A result is a literal, and without one there is the operator over its operands. -/
theorem getD {result : Option Node} {a b : NodeId} (hresult : ∀ n, result = some n → n.isLiteral)
    (ht : t.isLeaf = false) (ha : p.Has a) (hb : p.Has b) :
    (result.getD (.branch t [a, b])).Whole p := by
  cases result with
  | some n => exact of_isLiteral (hresult n rfl)
  | none => exact branch ht (by simp [ha, hb])

end Node.Whole

namespace Pool

theorem whole_empty : Pool.empty.Whole := by
  intro id n h
  cases id <;> cases h

theorem Whole.has (h : p.Whole) (hn : p.get? id = some n) : ∀ c ∈ n.elts, p.Has c := (h id n hn).has

/-- In a whole pool every child is older than its parent, and there. -/
theorem Whole.child (h : p.Whole) (hn : p.get? id = some n) : ∀ c ∈ n.elts, 0 < c ∧ c < id :=
  fun c hc => ⟨Nat.pos_of_ne_zero (h.has hn c hc).ne_zero, lt_of_mem_elts hn hc⟩

theorem Whole.intern (h : p.Whole) (hn : n.Whole p) :
    (p.intern n).2.Whole ∧ (p.intern n).2.Has (p.intern n).1 := by
  have hwithin : n.within p.size = n := Node.within_eq_self fun c hc => (hn.has c hc).le_size
  refine ⟨fun id m hm => ?_, _, p.get?_intern_within n⟩
  rcases of_get?_intern hm with hm | ⟨-, rfl⟩
  · exact (h id m hm).mono (p.extends_intern n)
  · rw [hwithin]
    exact hn.mono (p.extends_intern n)

/-- Where a node stands makes no difference. -/
theorem Whole.internAt (h : p.Whole) (hn : n.Whole p) (span : Span) :
    (p.internAt n span).2.Whole ∧ (p.internAt n span).2.Has (p.internAt n span).1 := by
  obtain ⟨hwhole, hhas⟩ := h.intern hn
  exact ⟨fun id m hm => (hwhole id m hm).mono fun _ _ h => h, hhas⟩

theorem Whole.listItems? (h : p.Whole) (hitems : p.listItems? value = some ids) :
    ∀ id ∈ ids, p.Has id := by
  unfold Pool.listItems? at hitems
  split at hitems
  · cases hitems
    nofun
  · split at hitems
    · next es hes =>
      cases hitems
      exact h.has hes
    · cases hitems

theorem ne_zero_of_listItems?_eq_none (h : p.listItems? value = none) : value ≠ 0 := by
  rintro rfl
  cases h

end Pool

end

/-! ### Words -/

/-- The word stands for no node or for one that is there. Only binary operators have words. -/
structure Word.Refers (p : Pool) (w : Word) : Prop where
  nid : w.nid = 0 ∨ p.Has w.nid
  operator : ∀ t, w.cls = .operator t → t.isOperator

/-- So do the word and the words that it carries with it. -/
def Word.Whole (p : Pool) (name : String) (w : Word) : Prop := w.Throughout (fun _ w => w.Refers p) name

section

variable {p q : Pool} {name : String} {w : Word} {id : NodeId} {offset : Nat} {e : Environment} {l : Lexicon}

theorem Word.Whole.mono (h : w.Whole p name) (hpq : p.Extends q) : w.Whole q name :=
  Throughout.mono h fun _ _ hw => ⟨hw.nid.imp_right fun h => h.mono hpq, hw.operator⟩

theorem Word.Whole.refers (h : w.Whole p name) : w.Refers p := h.self

theorem Word.whole_value (h : id = 0 ∨ p.Has id) :
    Word.Whole p name { Word.value name offset with nid := id } :=
  .of_ne nofun ⟨h, nofun⟩

theorem Word.whole_operator {t : Tag} (ht : t.isOperator) : Word.Whole p name (.operator name t) := by
  refine .of_ne nofun ⟨.inl rfl, ?_⟩
  rintro _ ⟨⟩
  exact ht

theorem Lexicon.all_whole_mono (h : l.All (Word.Whole p)) (hpq : p.Extends q) : l.All (Word.Whole q) :=
  h.mono fun _ _ h => h.mono hpq

theorem Environment.all_whole_mono (h : e.All (Word.Whole p)) (hpq : p.Extends q) :
    e.All (Word.Whole q) :=
  h.mono fun _ _ h => h.mono hpq

end

/-! ### Computations -/

/-- A state with a pool, and when that pool is whole and all of the state's nodes are there. -/
class Wholesome (σ : Type) where
  pool : σ → Pool
  Whole : σ → Prop

section

variable {σ α β : Type} [Wholesome σ]

open Wholesome (pool)

/-- The pool grows and stays whole. -/
structure Wholesome.Onward (s t : σ) : Prop where
  grows : (pool s).Extends (pool t)
  whole : Wholesome.Whole t

/-- The computation leaves its state whole if it is given one over a pool that has grown from `p`. -/
def Keeps (p : Pool) (f : EStateM Error σ α) (Q : Pool → α → Prop) : Prop :=
  ∀ s : σ, p.Extends (pool s) → Wholesome.Whole s →
    Ensures f (fun a t => Wholesome.Onward s t ∧ Q (pool t) a) (fun _ t => Wholesome.Onward s t) s

variable {p : Pool} {f : EStateM Error σ α} {Q : Pool → α → Prop} {R : Pool → β → Prop} {a : α}

theorem Keeps.bind {g : α → EStateM Error σ β} (hf : Keeps p f Q)
    (hg : ∀ q a, p.Extends q → Q q a → Keeps q (g a) R) : Keeps p (f >>= g) R := by
  intro s hp hs
  refine Ensures.bind_iff.2 ((hf s hp hs).mono ?_ fun _ _ h => h)
  rintro a t ⟨⟨hst, ht⟩, ha⟩
  refine (hg (pool t) a (hp.trans hst) ha t (.refl _) ht).mono ?_ ?_
  · exact fun b u h => ⟨⟨hst.trans h.1.grows, h.1.whole⟩, h.2⟩
  · exact fun e u h => ⟨hst.trans h.grows, h.whole⟩

theorem keeps_pure (h : ∀ q, p.Extends q → Q q a) : Keeps p (pure a : EStateM Error σ α) Q :=
  fun _ hp hs => ⟨⟨.refl _, hs⟩, h _ hp⟩

theorem keeps_throw {e : Error} : Keeps p (throw e : EStateM Error σ α) Q := fun _ _ hs => ⟨.refl _, hs⟩

end

end Linefold
