import Linefold.Proofs.Staging.Values
import Linefold.Token

/-!
# Chains of operators

A chain is a row of operands with operators between them. `Chain.Groups` says which tree it stands for: split it
at the rightmost of its operators that bind least, and group both sides alike. That is one tree only
(`Chain.Groups.unique`). A parse that has come to the middle of a chain has grouped some starts of it, each up to
an operator that waits for its right side; `Orderly` is what they have in common.
-/

namespace Linefold

/-- An operator over two operands. Arithmetic on two numbers is computed on the spot. -/
def Tree.joined (tag : Tag) (a b : Tree) : Tree :=
  (do return num (← Number.arithmetic? tag (← a.number?) (← b.number?)) : Option Tree).getD (node tag [a, b])

/-! ### Chains -/

/-- A number or a name, with a sign or without. -/
structure Operand where
  sign : Option Token
  atom : Token
  sign_kind : ∀ t ∈ sign, t.kind = .minus
  atom_kind : atom.kind = .num ∨ atom.kind = .ident

/-- An operator with the operand on its right. -/
structure Link where
  token : Token
  tag : Tag
  operand : Operand

structure Chain where
  first : Operand
  links : List Link

namespace Operand

/-- The first token of an operand. -/
def head (x : Operand) : Token := x.sign.getD x.atom

def tail (x : Operand) : List Token := if x.sign.isSome then [x.atom] else []

def atomTree (x : Operand) : Tree :=
  if x.atom.kind = .num then .num (.ofText x.atom.lexeme) else .ident x.atom.lexeme

/-- A sign is that of its operand only. -/
def tree (x : Operand) : Tree := if x.sign.isSome then x.atomTree.negated else x.atomTree

end Operand

/-- The tokens of a link. -/
def Link.tokens (l : Link) : List Token := l.token :: l.operand.head :: l.operand.tail

namespace Chain

/-- The tokens of a chain after the first one. -/
def tail (c : Chain) : List Token := c.first.tail ++ c.links.flatMap Link.tokens

def tokens (c : Chain) : List Token := c.first.head :: c.tail

/-- The chain with further links. -/
def append (c : Chain) (ls : List Link) : Chain := ⟨c.first, c.links ++ ls⟩

/-- The tree that a chain stands for. Operators that bind alike group to the left. -/
inductive Groups : Chain → Tree → Prop where
  | operand (x : Operand) : Groups ⟨x, []⟩ x.tree
  | split {first : Operand} (before : List Link) {after : List Link} {l : Link} {a b : Tree}
      (hbefore : ∀ k ∈ before, l.tag.precedence ≤ k.tag.precedence)
      (hafter : ∀ k ∈ after, l.tag.precedence < k.tag.precedence)
      (ha : Groups ⟨first, before⟩ a) (hb : Groups ⟨l.operand, after⟩ b) :
      Groups ⟨first, before ++ l :: after⟩ (.joined l.tag a b)

/-- There is one rightmost link among those that bind least. -/
theorem split_unique {before before' after after' : List Link} {l l' : Link}
    (heq : before ++ l :: after = before' ++ l' :: after')
    (hbefore : ∀ k ∈ before, l.tag.precedence ≤ k.tag.precedence)
    (hafter : ∀ k ∈ after, l.tag.precedence < k.tag.precedence)
    (hbefore' : ∀ k ∈ before', l'.tag.precedence ≤ k.tag.precedence)
    (hafter' : ∀ k ∈ after', l'.tag.precedence < k.tag.precedence) :
    before = before' ∧ l = l' ∧ after = after' := by
  rcases List.append_eq_append_iff.1 heq with ⟨us, rfl, hus⟩ | ⟨us, rfl, hus⟩
  · cases us with
    | nil =>
      obtain ⟨rfl, rfl⟩ := List.cons.inj hus
      exact ⟨(List.append_nil _).symm, rfl, rfl⟩
    | cons u us =>
      obtain ⟨rfl, rfl⟩ := List.cons.inj hus
      have := hafter l' (by simp)
      have := hbefore' l (by simp)
      omega
  · cases us with
    | nil =>
      obtain ⟨rfl, rfl⟩ := List.cons.inj hus
      exact ⟨List.append_nil _, rfl, rfl⟩
    | cons u us =>
      obtain ⟨rfl, rfl⟩ := List.cons.inj hus
      have := hafter' l (by simp)
      have := hbefore l' (by simp)
      omega

theorem Groups.unique {c : Chain} {a b : Tree} (h : c.Groups a) (h' : c.Groups b) : a = b := by
  induction h generalizing b with
  | operand x =>
    generalize hc : (⟨x, []⟩ : Chain) = c at h'
    cases h' with
    | operand y => cases hc; rfl
    | split => simp at hc
  | @split first before after l a b hbefore hafter _ _ iha ihb =>
    generalize hc : (⟨first, before ++ l :: after⟩ : Chain) = c at h'
    cases h' with
    | operand y => simp at hc
    | split before' hbefore' hafter' ha' hb' =>
      obtain ⟨rfl, heq⟩ := Chain.mk.inj hc
      obtain ⟨rfl, rfl, rfl⟩ := split_unique heq hbefore hafter hbefore' hafter'
      rw [iha ha', ihb hb']

end Chain

/-! ### Operators that wait -/

/-- The start of a chain up to an operator that waits for its right side. -/
structure Waiting where
  before : Chain
  tree : Tree
  token : Token
  tag : Tag

/-- The start of a chain with what comes after its last operator. -/
def Waiting.join (w : Waiting) (c : Chain) : Chain :=
  ⟨w.before.first, w.before.links ++ ⟨w.token, w.tag, c.first⟩ :: c.links⟩

/-- The chain of which the operators `ws` wait, innermost first, and the last part is `c`. -/
def wholeChain : List Waiting → Chain → Chain
  | [], c => c
  | w :: ws, c => wholeChain ws (w.join c)

/-- An operator waits as long as all that comes after it binds more tightly. What comes before it up to the next
one that waits is grouped, and binds at least as tightly. -/
def Orderly : List Waiting → Chain → Prop
  | [], _ => True
  | w :: ws, c => w.before.Groups w.tree ∧ (∀ k ∈ w.before.links, w.tag.precedence ≤ k.tag.precedence) ∧
      (∀ k ∈ c.links, w.tag.precedence < k.tag.precedence) ∧ Orderly ws (w.join c)

variable {w : Waiting} {ws : List Waiting} {c : Chain} {l : Link} {ls : List Link} {a b : Tree} {tag : Tag}

theorem Chain.append_append (ls' : List Link) : (c.append ls).append ls' = c.append (ls ++ ls') := by
  simp [append]

theorem Waiting.join_append : w.join (c.append ls) = (w.join c).append ls := by simp [join, Chain.append]

theorem wholeChain_append : wholeChain ws (c.append ls) = (wholeChain ws c).append ls := by
  induction ws generalizing c with
  | nil => rfl
  | cons w ws ih =>
    rw [wholeChain, Waiting.join_append]
    exact ih

namespace Orderly

theorem rest (h : Orderly (w :: ws) c) : Orderly ws (w.join c) := h.2.2.2

/-- The innermost operator gets its right side. -/
theorem groups_join (h : Orderly (w :: ws) c) (hc : c.Groups b) : (w.join c).Groups (.joined w.tag w.tree b) :=
  .split w.before.links h.2.1 h.2.2.1 h.1 hc

theorem append (h : Orderly ws c) (hl : ∀ w ∈ ws.head?, w.tag.precedence < l.tag.precedence) :
    Orderly ws (c.append [l]) := by
  induction ws generalizing c with
  | nil => trivial
  | cons w ws ih =>
    obtain ⟨hw, hbefore, hafter, h⟩ := h
    have hwl : w.tag.precedence < l.tag.precedence := hl w rfl
    refine ⟨hw, hbefore, fun k hk => ?_, ?_⟩
    · rcases List.mem_append.1 hk with hk | hk
      · exact hafter k hk
      · rw [List.mem_singleton.1 hk]
        exact hwl
    · rw [Waiting.join_append]
      refine ih h fun v hv => ?_
      -- The operator that waits before `w` binds less than `w`.
      cases ws with
      | nil => cases hv
      | cons v' ws =>
        cases hv
        exact Nat.lt_trans (h.2.2.1 ⟨w.token, w.tag, c.first⟩ (by simp [Waiting.join])) hwl

/-- A further operator waits. -/
theorem wait (h : Orderly ws c) (hc : c.Groups a) (token : Token) (x : Operand)
    (hlinks : ∀ k ∈ c.links, tag.precedence ≤ k.tag.precedence)
    (hws : ∀ w ∈ ws.head?, w.tag.precedence < tag.precedence) : Orderly (⟨c, a, token, tag⟩ :: ws) ⟨x, []⟩ :=
  ⟨hc, hlinks, List.forall_mem_nil _, h.append (l := ⟨token, tag, x⟩) hws⟩

end Orderly

end Linefold
