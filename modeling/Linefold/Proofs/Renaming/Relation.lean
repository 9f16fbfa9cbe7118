import Linefold.Proofs.Closedness.Names
import Linefold.Proofs.Scoping.Mirrors
import Linefold.Proofs.Twins.Patterns

/-!
# Nodes with other names

`Renamed N F T i j`: the node `j` of the right pool is the node `i` of the left one with names replaced as the
relation `N` on names says, except in parts that are given in another way (`F`). A name that is bound inside,
by a function or by a clause, is one that `N` keeps; the keys of records are no names. Two uses are made of
it. In source text no parts are given (`Twin.Source`). A value may contain parts that come from elsewhere
and are the same in both pools, in which every name that `N` replaces is bound (`Twin.Value`).

If `N` is one-to-one, then so is the relation on values (`Value.eq_iff_eq`), which is what a fold finds out
about values beyond their form.
-/

namespace Linefold

attribute [local irreducible] Pool.intern

variable {N : String → String → Prop} {F F' R S : NodeId → NodeId → Prop} {T U : Twin} {i j k i' j' : NodeId}
  {n m : Node} {t : Tag} {es fs is js cs ds : List NodeId} {a b : NodeId}

/-! ### One-to-one names -/

/-- No name corresponds to two. -/
structure OneToOne (N : String → String → Prop) : Prop where
  right_unique {x y z : String} (h : N x y) (h' : N x z) : y = z
  left_unique {x y z : String} (h : N x z) (h' : N y z) : x = y

theorem OneToOne.flip (h : OneToOne N) : OneToOne fun y x => N x y := ⟨h.left_unique, h.right_unique⟩

theorem OneToOne.eq_iff (hN : OneToOne N) {x y z w : String} (h : N x y) (h' : N z w) : x = z ↔ y = w := by
  constructor
  · rintro rfl
    exact hN.right_unique h h'
  · rintro rfl
    exact hN.left_unique h h'

/-! ### Patterns -/

theorem Pattern.Alike.idents_eq {x y : Pattern} (h : x.Alike T y) : x.idents = y.idents := by
  induction h using Pattern.Alike.rec (motive_2 := fun ps qs _ => identsOfAll ps = identsOfAll qs) with
  | name => rfl
  | list _ ih => exact ih
  | faulty => rfl
  | nil => rfl
  | cons _ _ ihx ihps => simp only [identsOfAll, ihx, ihps]

theorem Twin.params_eq (h : List.Forall₂ T.Alike is js) : T.left.params is = T.right.params js := by
  induction h with
  | nil => rfl
  | cons hij _ ih =>
    simp only [Pool.params, List.map_cons, Pattern.identsOfAll] at ih ⊢
    rw [hij.pattern.idents_eq, ih]

/-! ### The relation -/

/-- Clauses with parts in relation; the variable of a pattern is kept. -/
inductive RenamedClause (N : String → String → Prop) (R : NodeId → NodeId → Prop) (T : Twin) : NodeId → NodeId → Prop where
  | plain {p p' b b' i j : NodeId} (hi : T.left.get? i = some (.branch .of [p, b]))
      (hj : T.right.get? j = some (.branch .of [p', b'])) (hp : R p p') (hb : R b b') : RenamedClause N R T i j
  | binder {x : String} {p p' b b' l l' i j : NodeId} (hi : T.left.get? i = some (.branch .of [p, b, l]))
      (hj : T.right.get? j = some (.branch .of [p', b', l'])) (hx : T.left.get? p = some (.ident x))
      (hp : T.Alike p p') (hN : N x x) (hb : R b b') (hl : T.Alike l l') : RenamedClause N R T i j

/-- Nodes of one form, over children in relation. -/
inductive Node.Renamed (N : String → String → Prop) (T : Twin) (R : NodeId → NodeId → Prop) : Node → Node → Prop where
  | literal {n : Node} (h : n.isLiteral) : Renamed N T R n n
  | ident {x y : String} (h : N x y) : Renamed N T R (.ident x) (.ident y)
  | branch {t : Tag} {es fs : List NodeId} (ht : t ≠ .lambda ∧ t ≠ .binding ∧ t ≠ .case)
      (h : List.Forall₂ R es fs) : Renamed N T R (.branch t es) (.branch t fs)
  | entry {k k' v v' : NodeId} (hk : T.Alike k k') (hv : R v v') :
      Renamed N T R (.branch .binding [k, v]) (.branch .binding [k', v'])
  | lambda {l l' b b' p p' : NodeId} {ps : List NodeId} {t : Tag} (hl : T.Alike l l') (hp : T.Alike p p')
      (hps : T.left.get? p = some (.branch t ps)) (hN : ∀ x ∈ T.left.params ps, N x x) (hb : R b b') :
      Renamed N T R (.branch .lambda [l, b, p]) (.branch .lambda [l', b', p'])
  | case {a b : NodeId} {cs ds : List NodeId} (h : R a b) (hcs : List.Forall₂ (RenamedClause N R T) cs ds) :
      Renamed N T R (.branch .case (a :: cs)) (.branch .case (b :: ds))

/-- The right node is the left one with names replaced, but for parts that are given otherwise. -/
inductive Renamed (N : String → String → Prop) (F : NodeId → NodeId → Prop) (T : Twin) : NodeId → NodeId → Prop where
  | given {i j : NodeId} (h : F i j) : Renamed N F T i j
  | node {i j : NodeId} {n m : Node} (hi : T.left.get? i = some n) (hj : T.right.get? j = some m)
      (h : n.Renamed N T (Renamed N F T) m) : Renamed N F T i j

theorem clause_of_pair {p : Pool} {c a b : NodeId} (h : p.get? c = some (.branch .of [a, b])) :
    Machine.clause p c = .ok ⟨a, b, none⟩ ∧ Machine.Clause.variable? ⟨a, b, none⟩ p = none := by
  unfold Machine.clause
  rw [h]
  exact ⟨rfl, rfl⟩

theorem clause_of_variable {p : Pool} {c a b l : NodeId} {x : String} (h : p.get? c = some (.branch .of [a, b, l]))
    (hx : p.get? a = some (.ident x)) :
    Machine.clause p c = .ok ⟨a, b, some l⟩ ∧ Machine.Clause.variable? ⟨a, b, some l⟩ p = some (x, l) := by
  unfold Machine.clause Machine.Clause.variable?
  rw [h, hx]
  exact ⟨rfl, rfl⟩

theorem sees_of_entry {p : Pool} {M : String → Prop} {k v : NodeId} (h : p.get? i = some (.branch .binding [k, v]))
    (hi : p.Sees M i) : p.Sees M v := by
  have hlt : v < i := Pool.lt_of_get?_branch h (by simp)
  exact ⟨Nat.le_trans (Nat.le_of_lt hlt) hi.held, fun x hx => hi.free x (.value h hx)⟩

/-! ### One relation inside another -/

theorem RenamedClause.imp (h : RenamedClause N R T i j) (hTU : T.Grows U)
    (hRS : ∀ c, c < i → ∀ d, R c d → S c d) : RenamedClause N S U i j := by
  cases h with
  | plain hi hj hp hb =>
    exact .plain (hTU.1 _ _ hi) (hTU.2 _ _ hj) (hRS _ (Pool.lt_of_get?_branch hi (.head _)) _ hp)
      (hRS _ (Pool.lt_of_get?_branch hi (by simp)) _ hb)
  | binder hi hj hx hp hN hb hl =>
    exact .binder (hTU.1 _ _ hi) (hTU.2 _ _ hj) (hTU.1 _ _ hx) (hp.mono hTU) hN
      (hRS _ (Pool.lt_of_get?_branch hi (by simp)) _ hb) (hl.mono hTU)

theorem Node.Renamed.imp (h : n.Renamed N T R m) (hn : ∀ c ∈ n.elts, c < k) (hTU : T.Grows U)
    (hRS : ∀ c, c < k → ∀ d, R c d → S c d) : n.Renamed N U S m := by
  cases h with
  | literal h => exact .literal h
  | ident h => exact .ident h
  | branch ht h => exact .branch ht (forall₂_imp_mem h fun c hc => hRS c (hn c hc))
  | entry hk hv => exact .entry (hk.mono hTU) (hRS _ (hn _ (by simp [Node.elts])) _ hv)
  | lambda hl hp hps hN hb =>
    have hle : ∀ c ∈ _, c ≤ T.left.size := fun c hc =>
      Nat.le_trans (Nat.le_of_lt (Pool.lt_of_get?_branch hps hc)) (Pool.le_size_of_get? hps)
    refine .lambda (hl.mono hTU) (hp.mono hTU) (hTU.1 _ _ hps) ?_ (hRS _ (hn _ (by simp [Node.elts])) _ hb)
    rw [hTU.1.params_eq hle]
    exact hN
  | case h hcs =>
    refine .case (hRS _ (hn _ (by simp [Node.elts])) _ h) (forall₂_imp_mem hcs fun c hc _ hcd => hcd.imp hTU ?_)
    exact fun e he => hRS e (Nat.lt_trans he (hn c (List.mem_cons_of_mem _ hc)))

namespace Renamed

theorem mono (h : Renamed N F T i j) (hTU : T.Grows U) (hF : ∀ i j, F i j → F' i j) : Renamed N F' U i j := by
  induction i using Nat.strongRecOn generalizing j with
  | ind i ih =>
    cases h with
    | given h => exact .given (hF _ _ h)
    | node hi hj h =>
      exact .node (hTU.1 _ _ hi) (hTU.2 _ _ hj) (h.imp (fun _ => Pool.lt_of_mem_elts hi) hTU fun c hc d hd => ih c hc hd)

theorem le_left (h : Renamed N F T i j) (hF : ∀ i j, F i j → T.Alike i j) : i ≤ T.left.size := by
  cases h with
  | given h => exact (hF _ _ h).le_left
  | node hi => exact Pool.le_size_of_get? hi

theorem le_right (h : Renamed N F T i j) (hF : ∀ i j, F i j → T.Alike i j) : j ≤ T.right.size := by
  cases h with
  | given h => exact (hF _ _ h).le_right
  | node _ hj => exact Pool.le_size_of_get? hj

end Renamed

theorem Node.Renamed.le_size (h : n.Renamed N T R m) (hR : ∀ i j, R i j → i ≤ T.left.size ∧ j ≤ T.right.size) :
    (∀ c ∈ n.elts, c ≤ T.left.size) ∧ ∀ c ∈ m.elts, c ≤ T.right.size := by
  cases h with
  | literal h => simp [elts_of_isLiteral h]
  | ident => simp [Node.elts]
  | branch _ h =>
    exact ⟨forall_mem_left h fun _ _ h => (hR _ _ h).1, forall_mem_left h.flip fun _ _ h => (hR _ _ h).2⟩
  | entry hk hv => simp [Node.elts, hk.le_left, hk.le_right, hR _ _ hv]
  | lambda hl hp _ _ hb => simp [Node.elts, hl.le_left, hl.le_right, hp.le_left, hp.le_right, hR _ _ hb]
  | case h hcs =>
    have hclause {c d : NodeId} (h : RenamedClause N R T c d) : c ≤ T.left.size ∧ d ≤ T.right.size := by
      cases h <;> exact ⟨Pool.le_size_of_get? ‹_›, Pool.le_size_of_get? ‹_›⟩
    exact ⟨List.forall_mem_cons.2 ⟨(hR _ _ h).1, forall_mem_left hcs fun _ _ h => (hclause h).1⟩,
      List.forall_mem_cons.2 ⟨(hR _ _ h).2, forall_mem_left hcs.flip fun _ _ h => (hclause h).2⟩⟩

/-! ### Source text and values -/

namespace Twin

/-- The same text with other names, none of which is bound inside. -/
abbrev Source (N : String → String → Prop) (T : Twin) : NodeId → NodeId → Prop := Renamed N (fun _ _ => False) T

/-- The same tree in both pools, with every name that is replaced bound in it. -/
structure Given (N : String → String → Prop) (T : Twin) (i j : NodeId) : Prop where
  alike : T.Alike i j
  left : T.left.Sees (fun x => N x x) i
  right : T.right.Sees (fun x => N x x) j

/-- Values in which names are replaced. -/
abbrev Value (N : String → String → Prop) (T : Twin) : NodeId → NodeId → Prop := Renamed N (Given N T) T

theorem Given.mono (h : Given N T i j) (hTU : T.Grows U) : Given N U i j :=
  ⟨h.alike.mono hTU, h.left.grow hTU.1, h.right.grow hTU.2⟩

theorem Given.flip (h : Given N T i j) : Given (fun y x => N x y) T.flip j i := ⟨h.alike.flip, h.right, h.left⟩

theorem Source.mono (h : Source N T i j) (hTU : T.Grows U) : Source N U i j := Renamed.mono h hTU fun _ _ h => h

theorem Source.value (h : Source N T i j) : Value N T i j := Renamed.mono h (.refl T) nofun

theorem Value.mono (h : Value N T i j) (hTU : T.Grows U) : Value N U i j :=
  Renamed.mono h hTU fun _ _ h => h.mono hTU

theorem Value.le_size (h : Value N T i j) : i ≤ T.left.size ∧ j ≤ T.right.size :=
  ⟨Renamed.le_left h fun _ _ h => h.alike, Renamed.le_right h fun _ _ h => h.alike⟩

theorem Value.absent (N : String → String → Prop) (T : Twin) : Value N T 0 0 := by
  have hsees (p : Pool) : p.Sees (fun x => N x x) 0 := by
    refine ⟨Nat.zero_le _, fun x hx => ?_⟩
    cases hx <;> rename_i h <;> cases ‹p.get? 0 = _›
  exact .given ⟨.absent, hsees _, hsees _⟩

/-- Nodes over values in relation are interned under ids in relation. -/
theorem value_intern (h : n.Renamed N T (Value N T) m) :
    Value N (T.intern n m) (T.left.intern n).1 (T.right.intern m).1 := by
  have hgrows := T.grows_intern n m
  obtain ⟨hn, hm⟩ := h.le_size fun _ _ h => h.le_size
  refine .node (Pool.get?_intern hn) (Pool.get?_intern hm) (h.imp (fun c hc => Nat.lt_succ_of_le (hn c hc)) hgrows ?_)
  exact fun _ _ _ h => h.mono hgrows

/-! ### The form of a value -/

theorem forall₂_given (h : List.Forall₂ T.Alike es fs) (hes : ∀ c ∈ es, T.left.Sees (fun x => N x x) c)
    (hfs : ∀ d ∈ fs, T.right.Sees (fun x => N x x) d) : List.Forall₂ (Given N T) es fs := by
  induction h with
  | nil => exact .nil
  | cons hcd _ ih =>
    obtain ⟨hc, hes⟩ := List.forall_mem_cons.1 hes
    obtain ⟨hd, hfs⟩ := List.forall_mem_cons.1 hfs
    exact .cons ⟨hcd, hc, hd⟩ (ih hes hfs)

theorem Given.groundParts (h : Given N T i j) (hi : T.left.get? i = some (.branch t es))
    (hj : T.right.get? j = some (.branch t fs)) (hes : List.Forall₂ T.Alike es fs) :
    Option.Rel (List.Forall₂ (Given N T)) (Pool.groundParts? t es) (Pool.groundParts? t fs) := by
  by_cases ht : t ≠ .lambda ∧ t ≠ .binding ∧ t ≠ .case
  · exact Pool.groundParts?_rel (forall₂_given hes (sees_of_branch hi h.left ht) (sees_of_branch hj h.right ht))
  · have htag : t = .lambda ∨ t = .binding ∨ t = .case := by grind
    rcases htag with rfl | rfl | rfl
    · exact .none
    · rcases hes with _ | ⟨-, _ | ⟨hv, _ | ⟨-, -⟩⟩⟩
      · exact .none
      · exact .none
      · exact .some (.cons ⟨hv, sees_of_entry hi h.left, sees_of_entry hj h.right⟩ .nil)
      · exact .none
    · exact .none

theorem resembling_value (N : String → String → Prop) (T : Twin) : T.Resembling (Value N T) := by
  intro i j h
  cases h with
  | given h =>
    cases h.alike with
    | absent => exact .inl ⟨rfl, rfl⟩
    | node hi hj hm =>
      refine .inr ⟨_, _, hi, hj, ?_⟩
      cases hm with
      | ident x => exact .ident x x
      | @branch t es fs hes =>
        have hparts := h.groundParts hi hj hes
        refine .branch t ?_
        generalize Pool.groundParts? t es = left, Pool.groundParts? t fs = right at hparts ⊢
        cases hparts with
        | none => exact .none
        | some hparts => exact .some (hparts.imp fun _ _ => .given)
      | _ => exact .literal rfl
  | node hi hj h =>
    refine .inr ⟨_, _, hi, hj, ?_⟩
    cases h with
    | literal h => exact .literal h
    | ident => exact .ident _ _
    | branch _ h => exact .branch _ (Pool.groundParts?_rel h)
    | entry _ hv => exact .branch _ (.some (.cons hv .nil))
    | lambda => exact .branch _ .none
    | case => exact .branch _ .none

/-- A value in which no name is replaced is the same in both pools. -/
theorem Value.alike (hN : OneToOne N) (h : Value N T i j) (hi : T.left.Sees (fun x => N x x) i) : T.Alike i j := by
  induction i using Nat.strongRecOn generalizing j with
  | ind i ih =>
    cases h with
    | given h => exact h.alike
    | node hget hj h =>
      have below {c : NodeId} {t : Tag} {es : List NodeId} (hes : T.left.get? i = some (.branch t es)) (hc : c ∈ es)
          {d : NodeId} (hcd : Value N T c d) (hfree : ∀ x, T.left.Free x c → N x x) : T.Alike c d := by
        have hlt := Pool.lt_of_get?_branch hes hc
        exact ih c hlt hcd ⟨Nat.le_trans (Nat.le_of_lt hlt) hi.held, hfree⟩
      cases h with
      | literal h => exact .node hget hj (.of_isLiteral h)
      | ident h =>
        obtain rfl := hN.right_unique (hi.free _ (.name hget)) h
        exact .node hget hj (.ident _)
      | branch ht h =>
        refine .node hget hj (.branch _ (forall₂_imp_mem h fun c hc d hcd => ?_))
        exact below hget hc hcd (sees_of_branch hget hi ht c hc).free
      | entry hk hv =>
        have hv := below hget (by simp) hv (sees_of_entry hget hi).free
        exact .node hget hj (.branch _ (.cons hk (.cons hv .nil)))
      | @lambda _ _ _ _ _ _ ps _ hl hp hps hfixed hb =>
        have hb := below hget (by simp) hb fun x hx => by
          by_cases hbound : x ∈ T.left.params ps
          · exact hfixed x hbound
          · exact hi.free x (.lambda hget hps hbound hx)
        exact .node hget hj (.branch _ (.cons hl (.cons hb (.cons hp .nil))))
      | @case _ _ cs _ h hcs =>
        have ha := below hget (.head _) h fun x hx => hi.free x (.scrutinee hget hx)
        refine .node hget hj (.branch _ (.cons ha (forall₂_imp_mem hcs fun c hc d hcd => ?_)))
        have hci : c < i := Pool.lt_of_get?_branch hget (List.mem_cons_of_mem _ hc)
        have part {e : NodeId} (he : e < c) {f : NodeId} (hef : Value N T e f)
            (hfree : ∀ x, T.left.Free x e → N x x) : T.Alike e f :=
          ih e (Nat.lt_trans he hci) hef ⟨Nat.le_trans (Nat.le_of_lt (Nat.lt_trans he hci)) hi.held, hfree⟩
        cases hcd with
        | plain hc' hd hp hb =>
          obtain ⟨hclause, hnone⟩ := clause_of_pair hc'
          obtain ⟨hsp, hsb⟩ := (sees_of_clause hget hi hc hclause).1 hnone
          have hp := part (Pool.lt_of_get?_branch hc' (.head _)) hp hsp.free
          have hb := part (Pool.lt_of_get?_branch hc' (by simp)) hb hsb.free
          exact .node hc' hd (.branch _ (.cons hp (.cons hb .nil)))
        | binder hc' hd hx hp hfixed hb hl =>
          obtain ⟨hclause, hsome⟩ := clause_of_variable hc' hx
          have hsb := (sees_of_clause hget hi hc hclause).2 _ _ hsome
          have hb := part (Pool.lt_of_get?_branch hc' (by simp)) hb fun y hy =>
            (hsb.free y hy).elim id fun h => h ▸ hfixed
          exact .node hc' hd (.branch _ (.cons hp (.cons hb (.cons hl .nil))))

end Twin

/-! ### The relation is one-to-one -/

theorem RenamedClause.flip (h : RenamedClause N R T i j) :
    RenamedClause (fun y x => N x y) (fun d c => R c d) T.flip j i := by
  cases h with
  | plain hi hj hp hb => exact .plain hj hi hp hb
  | binder hi hj hx hp hN hb hl =>
    refine .binder hj hi ?_ hp.flip hN hb hl.flip
    cases hp with
    | absent => cases hx
    | node hx' hy hm =>
      cases hx.symm.trans hx'
      cases hm
      exact hy

theorem Node.Renamed.flip (h : n.Renamed N T R m) :
    m.Renamed (fun y x => N x y) T.flip (fun d c => R c d) n := by
  cases h with
  | literal h => exact .literal h
  | ident h => exact .ident h
  | branch ht h => exact .branch ht h.flip
  | entry hk hv => exact .entry hk.flip hv
  | lambda hl hp hps hN hb =>
    cases hp with
    | absent => cases hps
    | node hps' hqs hm =>
      cases hps.symm.trans hps'
      cases hm with
      | branch _ hes =>
        refine .lambda hl.flip (Twin.Alike.node hps hqs (.branch _ hes)).flip hqs (fun x hx => hN x ?_) hb
        rw [Twin.params_eq hes]
        exact hx
  | case h hcs => exact .case h (hcs.flip.imp fun _ _ h => RenamedClause.flip h)

theorem RenamedClause.right_unique (h : RenamedClause N R T i j) (h' : RenamedClause N R T i k)
    (hR : ∀ c, c < i → ∀ d e, R c d → R c e → d = e) : j = k := by
  have hlt {c : NodeId} {t : Tag} {es : List NodeId} (hi : T.left.get? i = some (.branch t es)) (hc : c ∈ es) : c < i :=
    Pool.lt_of_get?_branch hi hc
  cases h with
  | plain hi hj hp hb =>
    cases h' with
    | plain hi' hk hp' hb' =>
      cases hi.symm.trans hi'
      rw [hR _ (hlt hi (by simp)) _ _ hp hp', hR _ (hlt hi (by simp)) _ _ hb hb'] at hj
      exact Pool.eq_of_get? hj hk
    | binder hi' => cases hi.symm.trans hi'
  | binder hi hj _ hp _ hb hl =>
    cases h' with
    | plain hi' => cases hi.symm.trans hi'
    | binder hi' hk _ hp' _ hb' hl' =>
      cases hi.symm.trans hi'
      rw [hp.right_unique hp', hl.right_unique hl', hR _ (hlt hi (by simp)) _ _ hb hb'] at hj
      exact Pool.eq_of_get? hj hk

theorem Node.Renamed.right_unique (hN : OneToOne N) {m' : Node} (h : n.Renamed N T R m) (h' : n.Renamed N T R m')
    (hn : ∀ c ∈ n.elts, c < k) (hR : ∀ c, c < k → ∀ d e, R c d → R c e → d = e) : m = m' := by
  cases h with
  | literal h =>
    cases h' with
    | literal => rfl
    | _ => cases h
  | ident h =>
    cases h' with
    | literal h' => cases h'
    | ident h' => rw [hN.right_unique h h']
  | branch ht h =>
    cases h' with
    | literal h' => cases h'
    | branch _ h' => rw [forall₂_right_unique h h' fun c hc => hR c (hn c hc)]
    | _ => simp at ht
  | entry hk hv =>
    cases h' with
    | literal h' => cases h'
    | branch ht => simp at ht
    | entry hk' hv' => rw [hk.right_unique hk', hR _ (hn _ (by simp [Node.elts])) _ _ hv hv']
  | lambda hl hp _ _ hb =>
    cases h' with
    | literal h' => cases h'
    | branch ht => simp at ht
    | lambda hl' hp' _ _ hb' =>
      rw [hl.right_unique hl', hp.right_unique hp', hR _ (hn _ (by simp [Node.elts])) _ _ hb hb']
  | case h hcs =>
    cases h' with
    | literal h' => cases h'
    | branch ht => simp at ht
    | case h' hcs' =>
      have hcs := forall₂_right_unique hcs hcs' fun c hc d e hd he => hd.right_unique he fun f hf =>
        hR f (Nat.lt_trans hf (hn c (List.mem_cons_of_mem _ hc)))
      rw [hR _ (hn _ (by simp [Node.elts])) _ _ h h', hcs]

namespace Twin

theorem Value.flip (h : Value N T i j) : Value (fun y x => N x y) T.flip j i := by
  induction i using Nat.strongRecOn generalizing j with
  | ind i ih =>
    cases h with
    | given h => exact .given h.flip
    | node hi hj h =>
      exact .node hj hi (Node.Renamed.flip (h.imp (fun _ => Pool.lt_of_mem_elts hi) (.refl T) fun c hc d hd => ih c hc hd))

theorem Value.right_unique (hN : OneToOne N) (h : Value N T i j) (h' : Value N T i k) : j = k := by
  induction i using Nat.strongRecOn generalizing j k with
  | ind i ih =>
    cases h with
    | given h => exact h.alike.right_unique (h'.alike hN h.left)
    | node hi hj hm =>
      cases h' with
      | given h' => exact (Value.alike hN (.node hi hj hm) h'.left).right_unique h'.alike
      | node hi' hk hm' =>
        cases hi.symm.trans hi'
        have heq := hm.right_unique hN hm' (fun _ => Pool.lt_of_mem_elts hi) fun c hc d e => ih c hc
        exact Pool.eq_of_get? hj (heq ▸ hk)

theorem Value.left_unique (hN : OneToOne N) (h : Value N T i k) (h' : Value N T j k) : i = j :=
  h.flip.right_unique hN.flip h'.flip

/-- Values are equal in both pools or in neither. -/
theorem Value.eq_iff_eq (hN : OneToOne N) (h : Value N T i j) (h' : Value N T i' j') : i = i' ↔ j = j' := by
  constructor
  · rintro rfl
    exact h.right_unique hN h'
  · rintro rfl
    exact h.left_unique hN h'

/-! ### Patterns of values -/

instance : Valued (Value N) where
  mono h hTU := h.mono hTU
  resembling := resembling_value N
  absent := Value.absent N
  number _ x := value_intern (.literal rfl)
  branch ht h := value_intern (.branch (by rcases ht with rfl | rfl <;> decide) h)

end Twin

/-- A result is the same node, and without one there is the operator over its operands. -/
theorem Node.Renamed.getD {result : Option Node} (hresult : ∀ n, result = some n → n.isLiteral)
    (ht : t ≠ .lambda ∧ t ≠ .binding ∧ t ≠ .case) (h : List.Forall₂ R es fs) :
    (result.getD (.branch t es)).Renamed N T R (result.getD (.branch t fs)) := by
  cases result with
  | some n => exact .literal (hresult n rfl)
  | none => exact .branch ht h

end Linefold
