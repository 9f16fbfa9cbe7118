import Linefold.Proofs.Interning
import Linefold.Proofs.Views
import Mathlib.Data.List.Forall2

/-!
# Ids in two pools that denote the same tree

A `Twin` is two pools side by side, and `T.Alike i j` says that `i` in the left one and `j` in the right
one stand for the same tree, holes at absent nodes included. The ids themselves may be any: one pool may
hold nodes that the other has never seen. Since a pool holds each node once, being alike is one-to-one
(`Alike.right_unique`, `Alike.left_unique`), it is kept when the pools grow (`Alike.mono`), and nodes over
children that are alike are interned under ids that are alike (`alike_intern`).
-/

namespace Linefold

/-! ### Nodes with children in relation -/

/-- The nodes are the same but for their children, which are in relation one by one. -/
inductive Node.Matches (R : NodeId → NodeId → Prop) : Node → Node → Prop where
  | num (x : Number) : Matches R (.num x) (.num x)
  | str (s : String) : Matches R (.str s) (.str s)
  | ident (s : String) : Matches R (.ident s) (.ident s)
  | bool (b : Bool) : Matches R (.bool b) (.bool b)
  | null : Matches R .null .null
  | branch (t : Tag) {es fs : List NodeId} (h : List.Forall₂ R es fs) :
      Matches R (.branch t es) (.branch t fs)

theorem forall₂_imp_mem {α β : Type} {R S : α → β → Prop} {es : List α} {fs : List β}
    (h : List.Forall₂ R es fs) (hRS : ∀ a ∈ es, ∀ b, R a b → S a b) : List.Forall₂ S es fs := by
  induction h with
  | nil => exact .nil
  | cons hab _ ih =>
    obtain ⟨ha, hes⟩ := List.forall_mem_cons.1 hRS
    exact .cons (ha _ hab) (ih hes)

theorem forall_mem_left {α β : Type} {R : α → β → Prop} {P : α → Prop} {es : List α} {fs : List β}
    (h : List.Forall₂ R es fs) (hR : ∀ a b, R a b → P a) : ∀ a ∈ es, P a := by
  induction h with
  | nil => simp
  | cons hab _ ih => exact List.forall_mem_cons.2 ⟨hR _ _ hab, ih⟩

theorem mapM_eq_mapM {α β γ : Type} {es : List α} {fs : List β} {f : α → Option γ} {g : β → Option γ}
    (h : List.Forall₂ (fun a b => f a = g b) es fs) : es.mapM f = fs.mapM g := by
  induction h with
  | nil => rfl
  | cons hab _ ih => rw [List.mapM_cons, List.mapM_cons, hab, ih]

theorem all_eq_all {α β : Type} {es : List α} {fs : List β} {f : α → Bool} {g : β → Bool}
    (h : List.Forall₂ (fun a b => f a = g b) es fs) : es.all f = fs.all g := by
  induction h with
  | nil => rfl
  | cons hab _ ih => rw [List.all_cons, List.all_cons, hab, ih]

theorem forall₂_right_unique {α β : Type} {R : α → β → Prop} {es : List α} {fs gs : List β}
    (h : List.Forall₂ R es fs) (h' : List.Forall₂ R es gs)
    (hR : ∀ a ∈ es, ∀ b c, R a b → R a c → b = c) : fs = gs := by
  induction h generalizing gs with
  | nil =>
    cases h'
    rfl
  | cons hab _ ih =>
    cases h' with
    | cons hac h' =>
      obtain ⟨ha, hes⟩ := List.forall_mem_cons.1 hR
      rw [ha _ _ hab hac, ih h' hes]

namespace Node.Matches

variable {R S : NodeId → NodeId → Prop} {n m : Node} {i j : NodeId}

theorem imp_mem (h : n.Matches R m) (hRS : ∀ i ∈ n.elts, ∀ j, R i j → S i j) : n.Matches S m := by
  cases h with
  | branch t h => exact .branch t (forall₂_imp_mem h hRS)
  | _ => constructor

theorem imp (h : n.Matches R m) (hRS : ∀ i j, R i j → S i j) : n.Matches S m :=
  h.imp_mem fun i _ => hRS i

theorem flip (h : n.Matches R m) : m.Matches (fun j i => R i j) n := by
  cases h with
  | branch t h => exact .branch t h.flip
  | _ => constructor

theorem of_isLiteral (h : n.isLiteral) : n.Matches R n := by
  cases n with
  | ident | branch => cases h
  | _ => constructor

theorem self (h : ∀ c ∈ n.elts, R c c) : n.Matches R n := by
  cases n with
  | branch t es => exact .branch t (List.forall₂_same.2 h)
  | _ => constructor

/-- A result is the same node, and without one there is the operator over its operands. -/
theorem getD {t : Tag} {result : Option Node} (hresult : ∀ n, result = some n → n.isLiteral)
    {a a' b b' : NodeId} (ha : R a a') (hb : R b b') :
    (result.getD (.branch t [a, b])).Matches R (result.getD (.branch t [a', b'])) := by
  cases result with
  | some n => exact of_isLiteral (hresult n rfl)
  | none => exact .branch t (.cons ha (.cons hb .nil))

theorem forall₂_elts (h : n.Matches R m) : List.Forall₂ R n.elts m.elts := by
  cases h with
  | branch t h => exact h
  | _ => exact .nil

theorem tag_eq (h : n.Matches R m) : n.tag = m.tag := by
  cases h <;> rfl

theorem literal?_eq (h : n.Matches R m) : n.literal? = m.literal? := by
  cases h <;> rfl

theorem number?_eq (h : n.Matches R m) : n.number? = m.number? := by
  cases h <;> rfl

theorem isLiteral_eq (h : n.Matches R m) : n.isLiteral = m.isLiteral := by
  cases h <;> rfl

/-- A node matches one node only, by a relation that is a function on its children. -/
theorem right_unique {k : Node} (h : n.Matches R m) (h' : n.Matches R k)
    (hR : ∀ i ∈ n.elts, ∀ j k, R i j → R i k → j = k) : m = k := by
  cases h with
  | branch t h =>
    cases h' with
    | branch _ h' => exact congrArg _ (forall₂_right_unique h h' hR)
  | _ => cases h'; rfl

end Node.Matches

/-! ### Nodes of one form -/

theorem Pool.groundParts?_rel {R : NodeId → NodeId → Prop} {t : Tag} {es fs : List NodeId}
    (h : List.Forall₂ R es fs) : Option.Rel (List.Forall₂ R) (groundParts? t es) (groundParts? t fs) := by
  cases t
  case list | record | paren | exprs => exact .some h
  case binding =>
    rcases h with _ | ⟨hk, _ | ⟨hv, _ | ⟨hw, hes⟩⟩⟩
    · exact .none
    · exact .none
    · exact .some (.cons hv .nil)
    · exact .none
  all_goals exact .none

theorem Pool.subset_of_groundParts? {t : Tag} {es cs : List NodeId} (h : groundParts? t es = some cs) :
    cs ⊆ es := by
  unfold groundParts? at h
  split at h
  case h_5 =>
    split at h
    · cases h
      exact List.subset_cons_self _ _
    · cases h
  all_goals
    cases h
    try exact List.Subset.refl _

/-- The nodes look the same from outside: one literal, two names, or a tag over children of which those that
make the node ground are in relation. -/
inductive Node.Resembles (R : NodeId → NodeId → Prop) : Node → Node → Prop where
  | literal {n : Node} (h : n.isLiteral) : Resembles R n n
  | ident (x y : String) : Resembles R (.ident x) (.ident y)
  | branch (t : Tag) {es fs : List NodeId}
      (h : Option.Rel (List.Forall₂ R) (Pool.groundParts? t es) (Pool.groundParts? t fs)) :
      Resembles R (.branch t es) (.branch t fs)

theorem Node.Matches.resembles {R : NodeId → NodeId → Prop} {n m : Node} (h : n.Matches R m) :
    n.Resembles R m := by
  cases h with
  | ident s => exact .ident s s
  | branch t h => exact .branch t (Pool.groundParts?_rel h)
  | _ => exact .literal rfl

/-! ### Outcomes -/

/-- Both succeed, with results in relation, or both fail in the same way. -/
inductive SameOutcome {ε α β : Type} (R : α → β → Prop) : Except ε α → Except ε β → Prop where
  | ok {a : α} {b : β} (h : R a b) : SameOutcome R (.ok a) (.ok b)
  | error (e : ε) : SameOutcome R (.error e) (.error e)

namespace SameOutcome

variable {ε α α' β β' : Type} {R : α → β → Prop} {S : α' → β' → Prop} {x : Except ε α} {y : Except ε β}

theorem bind {f : α → Except ε α'} {g : β → Except ε β'} (h : SameOutcome R x y)
    (hfg : ∀ a b, R a b → SameOutcome S (f a) (g b)) : SameOutcome S (x >>= f) (y >>= g) := by
  cases h with
  | ok h => exact hfg _ _ h
  | error e => exact .error e

theorem mapM {es : List α} {fs : List β} {f : α → Except ε α'} {g : β → Except ε β'}
    (h : List.Forall₂ R es fs) (hfg : ∀ a b, R a b → SameOutcome S (f a) (g b)) :
    SameOutcome (List.Forall₂ S) (es.mapM f) (fs.mapM g) := by
  induction h with
  | nil => exact .ok .nil
  | cons hab _ ih =>
    rw [List.mapM_cons, List.mapM_cons]
    exact (hfg _ _ hab).bind fun _ _ h => ih.bind fun _ _ hs => .ok (.cons h hs)

end SameOutcome

/-! ### Ids -/

/-- Two pools side by side. -/
structure Twin where
  left : Pool
  right : Pool

namespace Twin

variable {T U : Twin} {i j k : NodeId} {n m : Node} {is js es fs : List NodeId}

/-- Both pools grow. -/
def Grows (T U : Twin) : Prop := T.left.Extends U.left ∧ T.right.Extends U.right

theorem Grows.refl (T : Twin) : T.Grows T := ⟨.refl _, .refl _⟩

theorem Grows.trans {V : Twin} (hTU : T.Grows U) (hUV : U.Grows V) : T.Grows V :=
  ⟨hTU.1.trans hUV.1, hTU.2.trans hUV.2⟩

/-- The two ids denote the same tree. -/
inductive Alike (T : Twin) : NodeId → NodeId → Prop where
  | absent : Alike T 0 0
  | node {i j : NodeId} {n m : Node} (hi : T.left.get? i = some n) (hj : T.right.get? j = some m)
      (h : n.Matches (Alike T) m) : Alike T i j

def flip (T : Twin) : Twin := ⟨T.right, T.left⟩

theorem Alike.flip (h : T.Alike i j) : T.flip.Alike j i := by
  induction i using Nat.strongRecOn generalizing j with
  | ind i ih =>
    cases h with
    | absent => exact .absent
    | node hi hj h =>
      exact .node hj hi (h.imp_mem fun c hc d hd => ih c (Pool.lt_of_mem_elts hi hc) hd).flip

theorem Alike.mono (h : T.Alike i j) (hTU : T.Grows U) : U.Alike i j := by
  induction i using Nat.strongRecOn generalizing j with
  | ind i ih =>
    cases h with
    | absent => exact .absent
    | node hi hj h =>
      refine .node (hTU.1 _ _ hi) (hTU.2 _ _ hj) (h.imp_mem fun c hc d hd => ?_)
      exact ih c (Pool.lt_of_mem_elts hi hc) hd

theorem Alike.le_left (h : T.Alike i j) : i ≤ T.left.size := by
  cases h with
  | absent => exact Nat.zero_le _
  | node hi => exact Pool.le_size_of_get? hi

theorem Alike.le_right (h : T.Alike i j) : j ≤ T.right.size := h.flip.le_left

/-- A node of a pool is itself in pools that have grown from it. -/
theorem alike_of_le {p : Pool} (hT : Grows ⟨p, p⟩ T) (hi : i ≤ p.size) : T.Alike i i := by
  induction i using Nat.strongRecOn with
  | ind i ih =>
    cases i with
    | zero => exact .absent
    | succ k =>
      have hget : p.get? (k + 1) = some p.nodes[k] := Array.getElem?_eq_getElem hi
      refine .node (hT.1 _ _ hget) (hT.2 _ _ hget) (.self fun c hc => ?_)
      have hlt := Pool.lt_of_mem_elts hget hc
      exact ih c hlt (Nat.le_trans (Nat.le_of_lt hlt) hi)

theorem Alike.right_unique (h : T.Alike i j) (h' : T.Alike i k) : j = k := by
  induction i using Nat.strongRecOn generalizing j k with
  | ind i ih =>
    cases h with
    | absent =>
      cases h' with
      | absent => rfl
      | node hi => cases hi
    | node hi hj h =>
      cases h' with
      | absent => cases hi
      | node hi' hk h' =>
        obtain rfl := Option.some.inj (hi.symm.trans hi')
        have heq := h.right_unique h' fun c hc a b => ih c (Pool.lt_of_mem_elts hi hc)
        exact Pool.eq_of_get? hj (heq ▸ hk)

theorem Alike.left_unique (h : T.Alike i k) (h' : T.Alike j k) : i = j :=
  h.flip.right_unique h'.flip

/-! ### Nodes and lists of ids -/

theorem forall₂_mono (h : List.Forall₂ T.Alike is js) (hTU : T.Grows U) : List.Forall₂ U.Alike is js :=
  h.imp fun _ _ h => h.mono hTU

theorem matches_mono (h : n.Matches T.Alike m) (hTU : T.Grows U) : n.Matches U.Alike m :=
  h.imp fun _ _ h => h.mono hTU

/-- What is found under ids that are alike. -/
theorem Alike.get?_cases (h : T.Alike i j) : (i = 0 ∧ j = 0) ∨
    ∃ n m, T.left.get? i = some n ∧ T.right.get? j = some m ∧ n.Matches T.Alike m := by
  cases h with
  | absent => exact .inl ⟨rfl, rfl⟩
  | node hi hj h => exact .inr ⟨_, _, hi, hj, h⟩

theorem Alike.get?_rel (h : T.Alike i j) :
    Option.Rel (Node.Matches T.Alike) (T.left.get? i) (T.right.get? j) := by
  cases h with
  | absent => exact .none
  | node hi hj h =>
    rw [hi, hj]
    exact .some h

theorem Alike.tag?_eq (h : T.Alike i j) : T.left.tag? i = T.right.tag? j := by
  unfold Pool.tag?
  cases h with
  | absent => rfl
  | node hi hj h => rw [hi, hj, Option.map_some, Option.map_some, h.tag_eq]

theorem Alike.forall₂_elts (h : T.Alike i j) :
    List.Forall₂ T.Alike (T.left.elts i) (T.right.elts j) := by
  unfold Pool.elts
  cases h with
  | absent => exact .nil
  | node hi hj h =>
    rw [hi, hj]
    exact h.forall₂_elts

/-- Equal trees are held under equal ids, in either pool. -/
theorem eq_iff_eq {i' j' : NodeId} (h : T.Alike i j) (h' : T.Alike i' j') : i = i' ↔ j = j' := by
  constructor
  · rintro rfl
    exact h.right_unique h'
  · rintro rfl
    exact h.left_unique h'

/-! ### Interning -/

theorem within_eq_left (h : n.Matches T.Alike m) : n.within T.left.size = n :=
  Node.within_eq_self (forall_mem_left h.forall₂_elts fun _ _ h => h.le_left)

theorem within_eq_right (h : n.Matches T.Alike m) : m.within T.right.size = m :=
  Node.within_eq_self (forall_mem_left h.forall₂_elts.flip fun _ _ h => h.le_right)

/-- The pools with a node interned in each. -/
def intern (T : Twin) (n m : Node) : Twin := ⟨(T.left.intern n).2, (T.right.intern m).2⟩

theorem grows_intern (T : Twin) (n m : Node) : T.Grows (T.intern n m) :=
  ⟨T.left.extends_intern n, T.right.extends_intern m⟩

theorem alike_intern (h : n.Matches T.Alike m) :
    (T.intern n m).Alike (T.left.intern n).1 (T.right.intern m).1 := by
  have hn := T.left.get?_intern_within n
  have hm := T.right.get?_intern_within m
  rw [within_eq_left h] at hn
  rw [within_eq_right h] at hm
  exact .node hn hm (matches_mono h (T.grows_intern n m))

/-! ### Views -/

theorem Alike.tree?_eq (h : T.Alike i j) : T.left.tree? i = T.right.tree? j := by
  induction i using Nat.strongRecOn generalizing j with
  | ind i ih =>
    cases h with
    | absent => rw [Pool.tree?_of_none rfl, Pool.tree?_of_none rfl]
    | node hi hj h =>
      cases h with
      | branch t h =>
        rw [Pool.tree?_of_branch hi, Pool.tree?_of_branch hj]
        congr 1
        exact mapM_eq_mapM (forall₂_imp_mem h fun c hc d hd => ih c (Pool.lt_of_get?_branch hi hc) hd)
      | _ => rw [Pool.tree?_of_leaf hi (by simp), Pool.tree?_of_leaf hj (by simp)]

theorem map_tree?_eq (h : List.Forall₂ T.Alike is js) :
    is.map T.left.tree? = js.map T.right.tree? := by
  induction h with
  | nil => rfl
  | cons hij _ ih => rw [List.map_cons, List.map_cons, hij.tree?_eq, ih]

/-- Ids in the relation are both absent, or stand for nodes that resemble each other. -/
def Resembling (T : Twin) (R : NodeId → NodeId → Prop) : Prop :=
  ∀ i j, R i j → (i = 0 ∧ j = 0) ∨
    ∃ n m, T.left.get? i = some n ∧ T.right.get? j = some m ∧ n.Resembles R m

section

variable {R : NodeId → NodeId → Prop} (hR : T.Resembling R) (h : R i j)

include hR h

namespace Resembling

theorem eq_zero_iff : i = 0 ↔ j = 0 := by
  rcases hR i j h with ⟨rfl, rfl⟩ | ⟨n, m, hi, hj, -⟩
  · exact Iff.rfl
  · exact ⟨fun h0 => absurd h0 (Pool.ne_zero_of_get? hi), fun h0 => absurd h0 (Pool.ne_zero_of_get? hj)⟩

theorem unwrapGroup : R (T.left.unwrapGroup i) (T.right.unwrapGroup j) := by
  induction i using Nat.strongRecOn generalizing j with
  | ind i ih =>
    have hself (hleft : ∀ t c, T.left.get? i = some (.branch t [c]) → ¬(t = .paren ∨ t = .exprs))
        (hright : ∀ t c, T.right.get? j = some (.branch t [c]) → ¬(t = .paren ∨ t = .exprs)) :
        R (T.left.unwrapGroup i) (T.right.unwrapGroup j) := by
      rw [Pool.unwrapGroup_eq_self hleft, Pool.unwrapGroup_eq_self hright]
      exact h
    rcases hR i j h with ⟨rfl, rfl⟩ | ⟨n, m, hi, hj, hnm⟩
    · exact hself (fun _ _ h => nomatch h) fun _ _ h => nomatch h
    · cases hnm with
      | literal hn =>
        apply hself <;> rintro t c hc
        · cases hi.symm.trans hc
          cases hn
        · cases hj.symm.trans hc
          cases hn
      | ident => apply hself <;> simp [hi, hj]
      | @branch t es fs hparts =>
        by_cases ht : t = .paren ∨ t = .exprs
        · have hes : List.Forall₂ R es fs := by
            rcases ht with rfl | rfl <;> cases hparts <;> assumption
          rcases hes with _ | ⟨hcd, _ | _⟩
          · apply hself <;> simp [hi, hj]
          · rw [Pool.unwrapGroup_of_group hi ht, Pool.unwrapGroup_of_group hj ht]
            exact ih _ (Pool.lt_of_get?_branch hi (.head _)) hcd
          · apply hself <;> simp [hi, hj]
        · apply hself
          · rintro u c hu
            rw [hi] at hu
            cases hu
            exact ht
          · rintro u c hu
            rw [hj] at hu
            cases hu
            exact ht

theorem literal?_eq : T.left.literal? i = T.right.literal? j := by
  unfold Pool.literal?
  rcases hR _ _ (hR.unwrapGroup h) with ⟨hi, hj⟩ | ⟨n, m, hi, hj, hnm⟩
  · rw [hi, hj]
    rfl
  · rw [hi, hj]
    cases hnm <;> rfl

theorem number?_eq : T.left.number? i = T.right.number? j := by
  unfold Pool.number?
  rcases hR _ _ (hR.unwrapGroup h) with ⟨hi, hj⟩ | ⟨n, m, hi, hj, hnm⟩
  · rw [hi, hj]
    rfl
  · rw [hi, hj]
    cases hnm <;> rfl

theorem isGround_eq : T.left.isGround i = T.right.isGround j := by
  induction i using Nat.strongRecOn generalizing j with
  | ind i ih =>
    rcases hR i j h with ⟨rfl, rfl⟩ | ⟨n, m, hi, hj, hnm⟩
    · rw [Pool.isGround_of_none rfl, Pool.isGround_of_none rfl]
    · cases hnm with
      | literal hn =>
        have hleaf : ∀ t es, n ≠ .branch t es := by
          rintro t es rfl
          cases hn
        rw [Pool.isGround_of_leaf hi hleaf, Pool.isGround_of_leaf hj hleaf]
      | ident => rw [Pool.isGround_of_leaf hi (by simp), Pool.isGround_of_leaf hj (by simp)]; rfl
      | @branch t es fs hparts =>
        rw [Pool.isGround_of_branch hi, Pool.isGround_of_branch hj]
        have hlt : ∀ cs, Pool.groundParts? t es = some cs → ∀ c ∈ cs, c < i := fun cs hcs c hc =>
          Pool.lt_of_get?_branch hi (Pool.subset_of_groundParts? hcs hc)
        generalize Pool.groundParts? t es = left, Pool.groundParts? t fs = right at hparts hlt ⊢
        cases hparts with
        | none => rfl
        | some hparts => exact all_eq_all (forall₂_imp_mem hparts fun c hc d hd => ih c (hlt _ rfl c hc) hd)

theorem listItems? : Option.Rel (List.Forall₂ R) (T.left.listItems? i) (T.right.listItems? j) := by
  unfold Pool.listItems?
  by_cases h0 : i = 0
  · rw [if_pos h0, if_pos ((hR.eq_zero_iff h).1 h0)]
    exact .some .nil
  · rw [if_neg h0, if_neg fun hj => h0 ((hR.eq_zero_iff h).2 hj)]
    rcases hR _ _ (hR.unwrapGroup h) with ⟨hi, hj⟩ | ⟨n, m, hi, hj, hnm⟩
    · rw [hi, hj]
      exact .none
    · rw [hi, hj]
      cases hnm with
      | literal hn => cases n <;> first | exact .none | cases hn
      | ident => exact .none
      | branch t h => cases t <;> first | exact h | exact .none

end Resembling

end

theorem resembling_alike (T : Twin) : T.Resembling T.Alike := fun i j h => by
  cases h with
  | absent => exact .inl ⟨rfl, rfl⟩
  | node hi hj h => exact .inr ⟨_, _, hi, hj, h.resembles⟩

theorem Alike.eq_zero_iff (h : T.Alike i j) : i = 0 ↔ j = 0 := T.resembling_alike.eq_zero_iff h

theorem Alike.unwrapGroup (h : T.Alike i j) : T.Alike (T.left.unwrapGroup i) (T.right.unwrapGroup j) :=
  T.resembling_alike.unwrapGroup h

theorem Alike.literal?_eq (h : T.Alike i j) : T.left.literal? i = T.right.literal? j :=
  T.resembling_alike.literal?_eq h

theorem Alike.number?_eq (h : T.Alike i j) : T.left.number? i = T.right.number? j :=
  T.resembling_alike.number?_eq h

theorem Alike.any_isLiteral_eq (h : T.Alike i j) :
    (T.left.get? i).any Node.isLiteral = (T.right.get? j).any Node.isLiteral := by
  rcases h.get?_cases with ⟨hi, hj⟩ | ⟨n, m, hi, hj, hm⟩
  · rw [hi, hj]
    rfl
  · rw [hi, hj, Option.any_some, Option.any_some, hm.isLiteral_eq]

theorem Alike.isGround_eq (h : T.Alike i j) : T.left.isGround i = T.right.isGround j :=
  T.resembling_alike.isGround_eq h

theorem Alike.listItems? (h : T.Alike i j) :
    Option.Rel (List.Forall₂ T.Alike) (T.left.listItems? i) (T.right.listItems? j) :=
  T.resembling_alike.listItems? h

end Twin

end Linefold
