import Linefold.Proofs.Renaming.Relation

/-!
# Nodes that differ in bound names only

`Alpha T N i j`: the nodes `i` and `j` of the two pools are the same but for the names of parameters and pattern
variables, where free names correspond as `N` says. A value with other names is one
such (`Twin.Value.alpha`).
-/

namespace Linefold

variable {N N' : String → String → Prop} {T : Twin} {xs ys : List String} {x y : String}

/-! ### Bound names -/

/-- The last `x` in the first list stands where the last `y` stands in the second one. -/
def BoundAlike : List String → List String → String → String → Prop
  | x' :: xs, y' :: ys, x, y => BoundAlike xs ys x y ∨ (x = x' ∧ y = y' ∧ x ∉ xs ∧ y ∉ ys)
  | _, _, _, _ => False

/-- Names correspond under binders for `xs` and `ys`: both are bound by the same one, or neither is bound. -/
def Under (xs ys : List String) (N : String → String → Prop) (x y : String) : Prop :=
  BoundAlike xs ys x y ∨ (x ∉ xs ∧ y ∉ ys ∧ N x y)

theorem boundAlike_self (h : x ∈ xs) : BoundAlike xs xs x x := by
  induction xs with
  | nil => cases h
  | cons z xs ih =>
    by_cases hx : x ∈ xs
    · exact .inl (ih hx)
    · exact .inr ⟨(List.mem_cons.1 h).resolve_right hx, (List.mem_cons.1 h).resolve_right hx, hx, hx⟩

theorem BoundAlike.mem (h : BoundAlike xs ys x y) : x ∈ xs ∧ y ∈ ys := by
  induction xs generalizing ys with
  | nil => cases h
  | cons x' xs ih =>
    cases ys with
    | nil => cases h
    | cons y' ys =>
      rcases h with h | ⟨rfl, rfl, -, -⟩
      · exact ⟨.tail _ (ih h).1, .tail _ (ih h).2⟩
      · exact ⟨.head _, .head _⟩

theorem BoundAlike.flip (h : BoundAlike xs ys x y) : BoundAlike ys xs y x := by
  induction xs generalizing ys with
  | nil => cases h
  | cons x' xs ih =>
    cases ys with
    | nil => cases h
    | cons y' ys =>
      rcases h with h | ⟨hx, hy, hxs, hys⟩
      · exact .inl (ih h)
      · exact .inr ⟨hy, hx, hys, hxs⟩

theorem BoundAlike.right_unique {z : String} (h : BoundAlike xs ys x y) (h' : BoundAlike xs ys x z) : y = z := by
  induction xs generalizing ys with
  | nil => cases h
  | cons x' xs ih =>
    cases ys with
    | nil => cases h
    | cons y' ys =>
      rcases h with h | ⟨-, rfl, hx, -⟩ <;> rcases h' with h' | ⟨-, rfl, hx', -⟩
      · exact ih h h'
      · exact absurd h.mem.1 hx'
      · exact absurd h'.mem.1 hx
      · rfl

theorem forall₂_boundAlike (hxs : xs.Nodup) (hys : ys.Nodup) (hlength : xs.length = ys.length) :
    List.Forall₂ (BoundAlike xs ys) xs ys := by
  induction xs generalizing ys with
  | nil =>
    cases ys with
    | nil => exact .nil
    | cons => cases hlength
  | cons x xs ih =>
    cases ys with
    | nil => cases hlength
    | cons y ys =>
      rw [List.nodup_cons] at hxs hys
      exact .cons (.inr ⟨rfl, rfl, hxs.1, hys.1⟩) ((ih hxs.2 hys.2 (Nat.succ.inj hlength)).imp fun _ _ => .inl)

theorem Under.flip (h : Under xs ys N x y) : Under ys xs (fun y x => N x y) y x :=
  h.imp .flip fun ⟨hx, hy, h⟩ => ⟨hy, hx, h⟩

theorem Under.right_unique {z : String} (hN : OneToOne N) (h : Under xs ys N x y) (h' : Under xs ys N x z) : y = z := by
  rcases h with h | ⟨hx, -, h⟩ <;> rcases h' with h' | ⟨hx', -, h'⟩
  · exact h.right_unique h'
  · exact absurd h.mem.1 hx'
  · exact absurd h'.mem.1 hx
  · exact hN.right_unique h h'

theorem OneToOne.under (hN : OneToOne N) (xs ys : List String) : OneToOne (Under xs ys N) :=
  ⟨fun h h' => h.right_unique hN h', fun h h' => h.flip.right_unique hN.flip h'.flip⟩

/-- Binders for names that are kept change nothing. -/
theorem under_of_kept (hN : OneToOne N) (hkept : ∀ z ∈ xs, N z z) (hNN' : ∀ x y, N x y → N' x y) (h : N x y) :
    Under xs xs N' x y := by
  by_cases hx : x ∈ xs
  · obtain rfl := hN.right_unique (hkept x hx) h
    exact .inl (boundAlike_self hx)
  · refine .inr ⟨hx, fun hy => hx ?_, hNN' _ _ h⟩
    rw [hN.left_unique h (hkept y hy)]
    exact hy

/-! ### Patterns -/

namespace Pattern

mutual

/-- A pattern without its names. -/
def shape : Pattern → Pattern
  | name _ _ => name 0 ""
  | list ps => list (shapes ps)
  | faulty fault => faulty fault

def shapes : List Pattern → List Pattern
  | [] => []
  | p :: ps => shape p :: shapes ps

end

theorem AllAlike.shapes_eq {ps qs : List Pattern} (h : AllAlike T ps qs) : shapes ps = shapes qs := by
  induction h using AllAlike.rec (motive_1 := fun x y _ => x.shape = y.shape) with
  | name => rfl
  | list _ ih => exact congrArg list ih
  | faulty => rfl
  | nil => rfl
  | cons _ _ ihx ihps => simp only [shapes, ihx, ihps]

end Pattern

/-! ### The relation -/

/-- The nodes list the bound names, or are the same. -/
def Twin.Lists (T : Twin) (xs ys : List String) (i j : NodeId) : Prop :=
  T.Alike i j ∨ ((T.left.pattern i).idents = xs ∧ (T.right.pattern j).idents = ys)

mutual

inductive Alpha (T : Twin) : (String → String → Prop) → NodeId → NodeId → Prop where
  /-- The same tree, the free names of which correspond to themselves. -/
  | same {N : String → String → Prop} {i j : NodeId} (h : T.Alike i j) (hi : ∀ x, T.left.Free x i → N x x) : Alpha T N i j
  | name {N : String → String → Prop} {i j : NodeId} {x y : String} (hi : T.left.get? i = some (.ident x))
      (hj : T.right.get? j = some (.ident y)) (h : N x y) : Alpha T N i j
  | branch {N : String → String → Prop} {i j : NodeId} {t : Tag} {es fs : List NodeId}
      (hi : T.left.get? i = some (.branch t es)) (hj : T.right.get? j = some (.branch t fs))
      (ht : t ≠ .lambda ∧ t ≠ .binding ∧ t ≠ .case) (h : AlphaAll T N es fs) : Alpha T N i j
  | entry {N : String → String → Prop} {i j k k' v v' : NodeId} (hi : T.left.get? i = some (.branch .binding [k, v]))
      (hj : T.right.get? j = some (.branch .binding [k', v'])) (hk : T.Alike k k') (hv : Alpha T N v v') : Alpha T N i j
  | lambda {N : String → String → Prop} {i j l l' b b' p p' : NodeId} {t u : Tag} {ps qs : List NodeId}
      (hi : T.left.get? i = some (.branch .lambda [l, b, p])) (hj : T.right.get? j = some (.branch .lambda [l', b', p']))
      (hp : T.left.get? p = some (.branch t ps)) (hq : T.right.get? p' = some (.branch u qs))
      (hshape : Pattern.shapes (ps.map T.left.pattern) = Pattern.shapes (qs.map T.right.pattern))
      (hl : T.Lists (T.left.params ps) (T.right.params qs) l l')
      (hb : Alpha T (Under (T.left.params ps) (T.right.params qs) N) b b') : Alpha T N i j
  | case {N : String → String → Prop} {i j a b : NodeId} {cs ds : List NodeId}
      (hi : T.left.get? i = some (.branch .case (a :: cs))) (hj : T.right.get? j = some (.branch .case (b :: ds)))
      (h : Alpha T N a b) (hcs : AlphaClauses T N cs ds) : Alpha T N i j

inductive AlphaAll (T : Twin) : (String → String → Prop) → List NodeId → List NodeId → Prop where
  | nil {N : String → String → Prop} : AlphaAll T N [] []
  | cons {N : String → String → Prop} {i j : NodeId} {is js : List NodeId} (h : Alpha T N i j) (hs : AlphaAll T N is js) :
      AlphaAll T N (i :: is) (j :: js)

inductive AlphaClauses (T : Twin) : (String → String → Prop) → List NodeId → List NodeId → Prop where
  | nil {N : String → String → Prop} : AlphaClauses T N [] []
  | plain {N : String → String → Prop} {i j p p' b b' : NodeId} {is js : List NodeId}
      (hi : T.left.get? i = some (.branch .of [p, b])) (hj : T.right.get? j = some (.branch .of [p', b']))
      (hp : Alpha T N p p') (hb : Alpha T N b b') (hs : AlphaClauses T N is js) : AlphaClauses T N (i :: is) (j :: js)
  | binder {N : String → String → Prop} {i j p p' b b' l l' : NodeId} {x y : String} {is js : List NodeId}
      (hi : T.left.get? i = some (.branch .of [p, b, l])) (hj : T.right.get? j = some (.branch .of [p', b', l']))
      (hp : T.left.get? p = some (.ident x)) (hq : T.right.get? p' = some (.ident y)) (hl : T.Lists [x] [y] l l')
      (hb : Alpha T (Under [x] [y] N) b b') (hs : AlphaClauses T N is js) : AlphaClauses T N (i :: is) (j :: js)

end

/-! ### Values -/

theorem alphaAll_of_forall₂ {R : NodeId → NodeId → Prop} {es fs : List NodeId} (h : List.Forall₂ R es fs)
    (hR : ∀ c ∈ es, ∀ d, R c d → Alpha T N c d) : AlphaAll T N es fs := by
  induction h with
  | nil => exact .nil
  | cons hcd _ ih =>
    obtain ⟨hc, hes⟩ := List.forall_mem_cons.1 hR
    exact .cons (hc _ hcd) (ih hes)

theorem alphaClauses_of_forall₂ {R : NodeId → NodeId → Prop} {cs ds : List NodeId}
    (h : List.Forall₂ (RenamedClause N R T) cs ds) (hR : ∀ c ∈ cs, ∀ e < c, ∀ f, R e f → Alpha T N' e f)
    (hkept : ∀ c ∈ cs, ∀ e < c, ∀ f x, N x x → R e f → Alpha T (Under [x] [x] N') e f) : AlphaClauses T N' cs ds := by
  induction h with
  | nil => exact .nil
  | cons hcd _ ih =>
    obtain ⟨hR, hRs⟩ := List.forall_mem_cons.1 hR
    obtain ⟨hkept, hkepts⟩ := List.forall_mem_cons.1 hkept
    have hrest := ih hRs hkepts
    cases hcd with
    | plain hi hj hp hb =>
      have hp := hR _ (Pool.lt_of_get?_branch hi (.head _)) _ hp
      exact .plain hi hj hp (hR _ (Pool.lt_of_get?_branch hi (by simp)) _ hb) hrest
    | binder hi hj hx hp hN hb hl =>
      cases hp with
      | absent => cases hx
      | node hx' hy hm =>
        cases hx.symm.trans hx'
        cases hm
        exact .binder hi hj hx hy (.inl hl) (hkept _ (Pool.lt_of_get?_branch hi (by simp)) _ _ hN hb) hrest

/-- Values with other names differ in bound names only, where the free ones correspond as they are replaced. -/
theorem Twin.Value.alpha (hN : OneToOne N) (hNN' : ∀ x y, N x y → N' x y) {i j : NodeId} (h : Twin.Value N T i j) :
    Alpha T N' i j := by
  induction i using Nat.strongRecOn generalizing j N' with
  | ind i ih =>
    cases h with
    | given h => exact .same h.alike fun x hx => hNN' _ _ (h.left.free x hx)
    | node hi hj h =>
      cases h with
      | literal hn => exact .same (.node hi hj (.of_isLiteral hn)) (Pool.sees_literal hi hn).free
      | ident h => exact .name hi hj (hNN' _ _ h)
      | branch ht h =>
        exact .branch hi hj ht (alphaAll_of_forall₂ h fun c hc d hcd => ih c (Pool.lt_of_get?_branch hi hc) hNN' hcd)
      | entry hk hv => exact .entry hi hj hk (ih _ (Pool.lt_of_get?_branch hi (by simp)) hNN' hv)
      | lambda hl hp hps hkept hb =>
        cases hp with
        | absent => cases hps
        | node hps' hqs hm =>
          cases hps.symm.trans hps'
          cases hm with
          | branch _ hes =>
            have hshape : Pattern.shapes _ = Pattern.shapes _ :=
              (Pattern.allAlike_map (hes.imp fun _ _ h => Alike.pattern h)).shapes_eq
            refine .lambda hi hj hps hqs hshape (.inl hl) ?_
            rw [← Twin.params_eq hes]
            exact ih _ (Pool.lt_of_get?_branch hi (by simp)) (fun x y => under_of_kept hN hkept hNN') hb
      | case h hcs =>
        have hbelow {c e : NodeId} (hc : c ∈ _ :: _) (he : e < c) : e < i :=
          Nat.lt_trans he (Pool.lt_of_get?_branch hi hc)
        refine .case hi hj (ih _ (Pool.lt_of_get?_branch hi (.head _)) hNN' h) ?_
        refine alphaClauses_of_forall₂ hcs (fun c hc e he f hef => ih e (hbelow (.tail _ hc) he) hNN' hef) ?_
        intro c hc e he f x hx hef
        exact ih e (hbelow (.tail _ hc) he) (fun _ _ => under_of_kept hN (by simpa using hx) hNN') hef

/-! ### Inversion -/

section

variable {i j : NodeId} {t u : Tag} {es fs : List NodeId}

theorem Twin.Alike.elts (h : T.Alike i j) (hi : T.left.get? i = some (.branch t es))
    (hj : T.right.get? j = some (.branch u fs)) : t = u ∧ List.Forall₂ T.Alike es fs := by
  cases h with
  | absent => cases hi
  | node hi' hj' hm =>
    cases hi.symm.trans hi'
    cases hm with
    | branch _ h =>
      cases hj.symm.trans hj'
      exact ⟨rfl, h⟩

theorem Alpha.name_inv (h : Alpha T N i j) (hi : T.left.get? i = some (.ident x)) (hj : T.right.get? j = some (.ident y)) :
    N x y := by
  cases h with
  | same h hfree =>
    cases h with
    | absent => cases hi
    | node hi' hj' hm =>
      cases hi.symm.trans hi'
      cases hm
      cases hj.symm.trans hj'
      exact hfree x (.name hi)
  | name hi' hj' h =>
    cases hi.symm.trans hi'
    cases hj.symm.trans hj'
    exact h
  | branch hi' | entry hi' | lambda hi' | case hi' => cases hi.symm.trans hi'

theorem Alpha.branch_inv (h : Alpha T N i j) (hi : T.left.get? i = some (.branch t es))
    (hj : T.right.get? j = some (.branch u fs)) (ht : t ≠ .lambda ∧ t ≠ .binding ∧ t ≠ .case) : AlphaAll T N es fs := by
  cases h with
  | same h hfree =>
    obtain ⟨rfl, hes⟩ := h.elts hi hj
    exact alphaAll_of_forall₂ hes fun c hc d hcd => .same hcd fun x hx => hfree x (.child hi ht hc hx)
  | branch hi' hj' _ h =>
    cases hi.symm.trans hi'
    cases hj.symm.trans hj'
    exact h
  | name hi' => cases hi.symm.trans hi'
  | entry hi' | lambda hi' | case hi' =>
    cases hi.symm.trans hi'
    simp at ht

theorem Alpha.lambda_inv {l b p l' b' p' : NodeId} (h : Alpha T N i j)
    (hi : T.left.get? i = some (.branch .lambda [l, b, p])) (hj : T.right.get? j = some (.branch .lambda [l', b', p']))
    (hp : T.left.get? p = some (.branch t es)) (hq : T.right.get? p' = some (.branch u fs)) :
    Alpha T (Under (T.left.params es) (T.right.params fs) N) b b' := by
  cases h with
  | same h hfree =>
    obtain ⟨-, hes⟩ := h.elts hi hj
    simp only [List.forall₂_cons] at hes
    obtain ⟨-, hb, hpatterns, -⟩ := hes
    rw [← Twin.params_eq (hpatterns.elts hp hq).2]
    refine .same hb fun x hx => ?_
    by_cases hbound : x ∈ T.left.params es
    · exact .inl (boundAlike_self hbound)
    · exact .inr ⟨hbound, hbound, hfree x (.lambda hi hp hbound hx)⟩
  | lambda hi' hj' hp' hq' _ _ hb =>
    cases hi.symm.trans hi'
    cases hj.symm.trans hj'
    cases hp.symm.trans hp'
    cases hq.symm.trans hq'
    exact hb
  | name hi' | entry hi' | case hi' => cases hi.symm.trans hi'
  | branch hi' _ ht =>
    cases hi.symm.trans hi'
    simp at ht

end

end Linefold
