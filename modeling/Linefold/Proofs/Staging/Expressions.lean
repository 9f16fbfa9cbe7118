import Linefold.Proofs.Staging.Values

/-!
# Folds in two stages

A tree is folded where some of its names are known, and what this leaves is folded again where the others are. Each node has
the value that it has with all names known, if its parts do (`Tree.Stages`), but for a case that is decided before it is known
whether its scrutinee has a value. So do expressions (`Tree.IsExpression.stages`).
-/

namespace Linefold

namespace Tree

/-! ### Expressions -/

/-- The tree is an expression without functions over some names. Bindings count as such. -/
inductive IsExpression (xs : List String) : Tree → Prop where
  | literal {t : Tree} (h : t.isLiteral) : IsExpression xs t
  | name {x : String} (h : x ∈ xs) : IsExpression xs (ident x)
  | group {tag : Tag} {t : Tree} (htag : tag = .paren ∨ tag = .exprs) (h : IsExpression xs t) : IsExpression xs (node tag [t])
  | items {tag : Tag} {ts : List Tree} (htag : tag = .list ∨ tag = .record) (h : ∀ t ∈ ts, IsExpression xs t) :
      IsExpression xs (node tag ts)
  | binding {key t : Tree} (h : IsExpression xs t) : IsExpression xs (node .binding [key, t])
  | negation {t : Tree} (h : IsExpression xs t) : IsExpression xs (node .neg [t])
  | operator {tag : Tag} {t u : Tree} (htag : tag.isOperator) (hlogical : tag ≠ .or ∧ tag ≠ .and) (ht : IsExpression xs t)
      (hu : IsExpression xs u) : IsExpression xs (node tag [t, u])
  | case {t : Tree} {cs : List Tree} (ht : IsExpression xs t) (hof : ∀ c ∈ cs, ∃ p u, c = node .of [p, u])
      (hp : ∀ p u, node .of [p, u] ∈ cs → IsExpression xs p) (hu : ∀ p u, node .of [p, u] ∈ cs → IsExpression xs u) :
      IsExpression xs (node .case (t :: cs))

mutual

def isCaseFree : Tree → Bool
  | node tag ts => decide (tag ≠ .case) && allCaseFree ts
  | _ => true

def allCaseFree : List Tree → Bool
  | [] => true
  | t :: ts => isCaseFree t && allCaseFree ts

end

/-- Of the scrutinee and any pattern one holds no case. -/
def areApart : List Tree → Bool
  | [] => true
  | s :: cs => cs.all fun c => s.isCaseFree || c.elts.head?.all isCaseFree

mutual

/-- No case has cases both in its scrutinee and in a pattern. -/
def isApart : Tree → Bool
  | node tag ts => (decide (tag ≠ .case) || areApart ts) && allApart ts
  | _ => true

def allApart : List Tree → Bool
  | [] => true
  | t :: ts => isApart t && allApart ts

end

variable {n m : Nat} {σ τ υ : String → Option Tree} {s t u v w r p key : Tree} {ts us vs rs cs ds : List Tree} {tag : Tag}
  {xs : List String} {x : String} {P : Prop}

theorem isCaseFree_node : (node tag ts).isCaseFree ↔ tag ≠ .case ∧ ∀ t ∈ ts, t.isCaseFree := by
  have hall : allCaseFree ts ↔ ∀ t ∈ ts, t.isCaseFree := by
    induction ts with
    | nil => simp [allCaseFree]
    | cons t ts ih => simp [allCaseFree, ih]
  rw [isCaseFree, Bool.and_eq_true, decide_eq_true_iff, hall]

theorem allCaseFree_of_isCaseFree (h : (node tag ts).isCaseFree) : allCaseFree ts := (Bool.and_eq_true_iff.1 h).2

theorem isApart_of_mem (h : (node tag ts).isApart) : ∀ t ∈ ts, t.isApart := by
  have hall {us : List Tree} (h : allApart us) : ∀ t ∈ us, t.isApart := by
    induction us with
    | nil => simp
    | cons t ts ih =>
      obtain ⟨ht, hts⟩ := Bool.and_eq_true_iff.1 h
      exact List.forall_mem_cons.2 ⟨ht, ih hts⟩
  exact hall (Bool.and_eq_true_iff.1 h).2

theorem isCaseFree_or_of_areApart (h : areApart (s :: cs)) (hc : node .of [t, u] ∈ cs) : s.isCaseFree ∨ t.isCaseFree :=
  Bool.or_eq_true_iff.1 (List.all_eq_true.1 h _ hc)

/-- A clause of a case that keeps cases apart. -/
theorem isCaseFree_or_of_isApart (h : (node .case (s :: cs)).isApart) (hc : node .of [t, u] ∈ cs) :
    s.isCaseFree ∨ t.isCaseFree :=
  isCaseFree_or_of_areApart (Bool.and_eq_true_iff.1 h).1 hc

theorem IsExpression.isFunction_eq_false (h : t.IsExpression xs) : t.isFunction = false := by
  cases h with
  | literal h => exact isFunction_eq_false_of_isLiteral h
  | group htag | items htag => rcases htag with rfl | rfl <;> rfl
  | @operator tag => cases tag <;> rfl
  | _ => rfl

/-- Without cases nothing goes wrong. -/
theorem IsExpression.exists_value? (h : t.IsExpression xs) (hfree : t.isCaseFree) : ∃ v, value? n σ t = some v := by
  induction h with
  | literal h => exact ⟨_, value?_of_isLiteral h⟩
  | name => exact ⟨_, rfl⟩
  | @group tag t htag h ih =>
    obtain ⟨v, hv⟩ := ih ((isCaseFree_node.1 hfree).2 t (.head _))
    rcases htag with rfl | rfl
    · exact ⟨node .paren [v], by rw [value?, hv]; rfl⟩
    · exact ⟨v, by rw [value?_exprs, hv]⟩
  | @items tag ts htag h ih =>
    have hts := (isCaseFree_node.1 hfree).2
    obtain ⟨vs, hvs⟩ : ∃ vs, values? n σ ts = some vs := by
      clear htag hfree
      induction ts with
      | nil => exact ⟨[], rfl⟩
      | cons t ts ihts =>
        obtain ⟨ht, hts⟩ := List.forall_mem_cons.1 hts
        obtain ⟨iht, ih⟩ := List.forall_mem_cons.1 ih
        obtain ⟨v, hv⟩ := iht ht
        obtain ⟨vs, hvs⟩ := ihts (fun t ht => h t (.tail _ ht)) ih hts
        exact ⟨v :: vs, by rw [values?_cons (h t (.head _)).isFunction_eq_false, hv, hvs]; rfl⟩
    rcases htag with rfl | rfl
    · exact ⟨node .list vs, by rw [value?, hvs]; rfl⟩
    · exact ⟨node .record vs, by rw [value?, hvs]; rfl⟩
  | @binding key t h ih =>
    obtain ⟨v, hv⟩ := ih ((isCaseFree_node.1 hfree).2 t (.tail _ (.head _)))
    exact ⟨node .binding [key, v], by rw [value?, hv]; rfl⟩
  | @negation t h ih =>
    obtain ⟨v, hv⟩ := ih ((isCaseFree_node.1 hfree).2 t (.head _))
    exact ⟨negated v, by rw [value?, hv]; rfl⟩
  | @operator tag t u htag hlogical ht hu iht ihu =>
    obtain ⟨htfree, hufree⟩ := List.forall_mem_cons.1 (isCaseFree_node.1 hfree).2
    obtain ⟨v, hv⟩ := iht htfree
    obtain ⟨w, hw⟩ := ihu (hufree u (.head _))
    exact ⟨outcome tag v w, by rw [value?_operator htag, hv, hw]; rfl⟩
  | case => exact absurd rfl (isCaseFree_node.1 hfree).1

/-! ### Outcomes that lag -/

/-- The outcomes are the same, but the first may be missing unless `P`. -/
def Lags {α : Type} (P : Prop) (a b : Option α) : Prop := a = b ∨ a = none ∧ ¬ P

namespace Lags

variable {α β : Type} {P Q : Prop} {a b : Option α} {f g : α → Option β} {v : α}

theorem refl : Lags P a a := .inl rfl

theorem mono (h : Lags Q a b) (hPQ : P → Q) : Lags P a b := h.imp_right fun h => ⟨h.1, mt hPQ h.2⟩

theorem bind (h : Lags P a b) (hk : ∀ v, b = some v → Lags P (f v) (g v)) : Lags P (a >>= f) (b >>= g) := by
  rcases h with rfl | ⟨rfl, hP⟩
  · cases a with
    | none => exact .refl
    | some v => exact hk v rfl
  · exact .inr ⟨rfl, hP⟩

end Lags

end Tree

/-! ### A second stage -/

/-- Nodes whose parts are looked at in one way. -/
def Tag.isUniform : Tag → Bool
  | .paren | .exprs | .list | .record | .neg | .case => true
  | t => t.isOperator

/-- A second fold, of what a first one leaves: this is read as a tree over some names, and folded with the trees of `known`
for them. -/
structure Second where
  names : List String
  room : Nat
  known : String → Option Tree
  read : Tree → Tree
  read_of_isLiteral : ∀ t : Tree, t.isLiteral → read t = t
  read_node : ∀ tag ts, tag.isUniform → read (.node tag ts) = .node tag (ts.map read)
  read_binding : ∀ key t, read (.node .binding [key, t]) = .node .binding [key, read t]
  read_clause : ∀ p u, read (.node .of [p, u]) = .node .of [read p, read u]

namespace Second

variable {S : Second} {t u v w key : Tree} {ts : List Tree} {tag : Tag}

/-- What is left comes to this in the second stage. -/
def value? (S : Second) (t : Tree) : Option Tree := (S.read t).value? S.room S.known

def values? (S : Second) (ts : List Tree) : Option (List Tree) := Tree.values? S.room S.known (ts.map S.read)

/-- What is left is an expression for the second stage, and a known value stays as it is. -/
structure Reads (S : Second) (t : Tree) : Prop where
  expression : (S.read t).IsExpression S.names
  ground : t.isGround → S.value? t = some t

theorem ungroup_read : (S.read t).ungroup = (S.read t.ungroup).ungroup := by
  fun_induction Tree.ungroup t with
  | case1 t ih =>
    rw [← ih, S.read_node _ _ rfl]
    rfl
  | case2 t ih =>
    rw [← ih, S.read_node _ _ rfl]
    rfl
  | case3 => rfl

theorem ungroup_read_of_isLiteral (h : t.ungroup.isLiteral) : (S.read t).ungroup = t.ungroup := by
  rw [ungroup_read, S.read_of_isLiteral _ h, Tree.ungroup_of_isLiteral h]

/-- The second stage has the outcome of the values. -/
theorem value?_outcome (htag : tag.isOperator) : S.value? (.outcome tag t u) = (do
    let v ← S.value? t
    return .outcome tag v (← S.value? u)) := by
  have huniform : tag.isUniform := by cases tag <;> first | rfl | cases htag
  have hparts : S.value? (.outcome tag t u) = (Tree.outcome tag (S.read t) (S.read u)).value? S.room S.known := by
    rw [value?]
    cases h : Tree.result? tag t u with
    | none =>
      have hnode : Tree.outcome tag t u = .node tag [t, u] := by rw [Tree.outcome, h, Option.getD_none]
      rw [hnode, S.read_node _ _ huniform, Tree.value?_outcome htag]
      exact Tree.value?_operator htag
    | some r =>
      obtain ⟨hr, ht, hu⟩ := Tree.isLiteral_of_result? h
      have hread : Tree.result? tag (S.read t) (S.read u) = some r :=
        (Tree.result?_congr (ungroup_read_of_isLiteral ht) (ungroup_read_of_isLiteral hu)).trans h
      rw [Tree.outcome, h, Option.getD_some, S.read_of_isLiteral r hr, Tree.outcome, hread, Option.getD_some]
  rw [hparts, Tree.value?_outcome htag]
  rfl

theorem value?_negated : S.value? t.negated = (do return (← S.value? t).negated) := by
  have hpart : S.value? t.negated = (S.read t).negated.value? S.room S.known := by
    rw [value?]
    cases h : t.number? with
    | none =>
      have hnode : t.negated = .node .neg [t] := by rw [Tree.negated, h]
      rw [hnode, S.read_node _ _ rfl, Tree.value?_negated]
      rfl
    | some x =>
      have hread : (S.read t).number? = some x := by
        rw [Tree.number?, ungroup_read_of_isLiteral (Tree.isLiteral_ungroup_of_number? h), ← Tree.number?, h]
      rw [Tree.negated, h, S.read_of_isLiteral _ rfl, Tree.negated, hread]
  rw [hpart, Tree.value?_negated]
  rfl

theorem value?_paren : S.value? (.node .paren [t]) = (do return .node .paren [← S.value? t]) := by
  rw [value?, S.read_node _ _ rfl]
  rfl

theorem value?_list : S.value? (.node .list ts) = (do return .node .list (← S.values? ts)) := by
  rw [value?, S.read_node _ _ rfl]
  rfl

theorem value?_record : S.value? (.node .record ts) = (do return .node .record (← S.values? ts)) := by
  rw [value?, S.read_node _ _ rfl]
  rfl

theorem value?_binding : S.value? (.node .binding [key, t]) = (do return .node .binding [key, ← S.value? t]) := by
  rw [value?, S.read_binding]
  rfl

theorem values?_cons (h : S.Reads t) : S.values? (t :: ts) = (do
    let v ← S.value? t
    return v :: (← S.values? ts)) := by
  rw [values?, List.map_cons, Tree.values?_cons h.expression.isFunction_eq_false]
  rfl

/-- Trees that are one, seen through groups, have values together. -/
theorem exists_value?_of_ungroup_eq (h : t.ungroup = u.ungroup) (hv : S.value? t = some v) :
    ∃ w, S.value? u = some w ∧ v.ungroup = w.ungroup := by
  have hread : (S.read t).ungroup = (S.read u).ungroup := by rw [ungroup_read, h, ← ungroup_read]
  have hmap : (S.value? u).map Tree.ungroup = some v.ungroup := by
    rw [value?, Tree.map_ungroup_value?, ← hread, ← Tree.map_ungroup_value?, ← value?, hv, Option.map_some]
  obtain ⟨w, hw, hvw⟩ := Option.map_eq_some_iff.1 hmap
  exact ⟨w, hw, hvw.symm⟩

end Second
/-! ### Two stages -/

namespace Tree

variable {S : Second} {n : Nat} {σ υ : String → Option Tree} {s t u r p key : Tree} {ts rs cs ds : List Tree} {tag : Tag}
  {x : String} {P : Prop} {Q Q' : Tree → Prop}

/-- What the first stage leaves is fit for the second. -/
def Leaves (S : Second) (n : Nat) (σ : String → Option Tree) (t : Tree) : Prop := ∀ r, value? n σ t = some r → S.Reads r

/-- Folded in a second stage, what is left of the tree comes to its value with all names known. -/
def Stages (P : Prop) (S : Second) (n : Nat) (σ υ : String → Option Tree) (t : Tree) : Prop :=
  ∀ r, value? n σ t = some r → Lags P (value? n υ t) (S.value? r)

def LeavesAll (S : Second) (n : Nat) (σ : String → Option Tree) (ts : List Tree) : Prop :=
  ∀ rs, values? n σ ts = some rs → ∀ r ∈ rs, S.Reads r

def StagesAll (P : Prop) (S : Second) (n : Nat) (σ υ : String → Option Tree) (ts : List Tree) : Prop :=
  ∀ rs, values? n σ ts = some rs → Lags P (values? n υ ts) (S.values? rs)

/-- What has a value where some names are known has one with all names known. -/
def Survives (n : Nat) (σ υ : String → Option Tree) (t : Tree) : Prop := ∀ r, value? n σ t = some r → ∃ v, value? n υ t = some v

/-- Clauses without variables, over parts with a property. -/
def Clauses (Q : Tree → Prop) (cs : List Tree) : Prop := ∀ c ∈ cs, ∃ p u, c = node .of [p, u] ∧ Q p ∧ Q u

/-! #### What is left -/

theorem reads_of_isLiteral (h : t.isLiteral) : S.Reads t where
  expression := by
    rw [S.read_of_isLiteral t h]
    exact .literal h
  ground _ := by rw [Second.value?, S.read_of_isLiteral t h, value?_of_isLiteral h]

theorem leaves_of_isLiteral (h : t.isLiteral) : Leaves S n σ t := by
  intro r hr
  cases (value?_of_isLiteral h).symm.trans hr
  exact reads_of_isLiteral h

theorem leaves_name (h : S.Reads ((σ x).getD (ident x))) : Leaves S n σ (ident x) := by
  intro r hr
  cases hr
  exact h

theorem LeavesAll.exprs (h : LeavesAll S n σ ts) : Leaves S n σ (node .exprs ts) := by
  intro r hr
  rw [value?] at hr
  obtain ⟨rs, hrs, hr⟩ := Option.bind_eq_some_iff.1 hr
  obtain rfl := eq_of_only? hr
  exact h _ hrs r (.head _)

theorem Leaves.paren (h : Leaves S n σ t) : Leaves S n σ (node .paren [t]) := by
  intro r hr
  obtain ⟨v, hv, hr⟩ := Option.bind_eq_some_iff.1 hr
  cases hr
  refine ⟨?_, fun hground => ?_⟩
  · rw [S.read_node _ _ rfl]
    exact .group (.inl rfl) (h v hv).expression
  · rw [S.value?_paren, (h v hv).ground (isGround_of_mem hground v (.head _))]
    rfl

theorem values?_of_isGround (h : ∀ r ∈ rs, S.Reads r) (hground : allGround rs) : S.values? rs = some rs := by
  induction rs with
  | nil => rfl
  | cons r rs ih =>
    obtain ⟨hr, hrs⟩ := List.forall_mem_cons.1 h
    obtain ⟨hrground, hrsground⟩ := Bool.and_eq_true_iff.1 hground
    rw [Second.values?_cons hr, hr.ground hrground, ih hrs hrsground]
    rfl

theorem reads_items (htag : tag = .list ∨ tag = .record) (h : ∀ r ∈ rs, S.Reads r) : S.Reads (node tag rs) := by
  refine ⟨?_, fun hground => ?_⟩
  · rw [S.read_node _ _ (by rcases htag with rfl | rfl <;> rfl)]
    exact .items htag (List.forall_mem_map.2 fun r hr => (h r hr).expression)
  · rcases htag with rfl | rfl
    · rw [S.value?_list, values?_of_isGround h hground]
      rfl
    · rw [S.value?_record, values?_of_isGround h hground]
      rfl

theorem LeavesAll.list (h : LeavesAll S n σ ts) : Leaves S n σ (node .list ts) := by
  intro r hr
  obtain ⟨rs, hrs, hr⟩ := Option.bind_eq_some_iff.1 hr
  cases hr
  exact reads_items (.inl rfl) (h rs hrs)

theorem LeavesAll.record (h : LeavesAll S n σ ts) : Leaves S n σ (node .record ts) := by
  intro r hr
  obtain ⟨rs, hrs, hr⟩ := Option.bind_eq_some_iff.1 hr
  cases hr
  exact reads_items (.inr rfl) (h rs hrs)

theorem Leaves.binding (h : Leaves S n σ t) : Leaves S n σ (node .binding [key, t]) := by
  intro r hr
  obtain ⟨v, hv, hr⟩ := Option.bind_eq_some_iff.1 hr
  cases hr
  refine ⟨?_, fun hground => ?_⟩
  · rw [S.read_binding]
    exact .binding (h v hv).expression
  · rw [S.value?_binding, (h v hv).ground hground]
    rfl

theorem Leaves.negation (h : Leaves S n σ t) : Leaves S n σ (node .neg [t]) := by
  intro r hr
  obtain ⟨v, hv, hr⟩ := Option.bind_eq_some_iff.1 hr
  cases hr
  rcases negated_cases (t := v) with hnode | hlit
  · rw [hnode]
    refine ⟨?_, nofun⟩
    rw [S.read_node _ _ rfl]
    exact .negation (h v hv).expression
  · exact reads_of_isLiteral hlit

theorem Leaves.operator (htag : tag.isOperator) (hlogical : tag ≠ .or ∧ tag ≠ .and) (ht : Leaves S n σ t)
    (hu : Leaves S n σ u) : Leaves S n σ (node tag [t, u]) := by
  intro r hr
  rw [value?_operator htag] at hr
  obtain ⟨v, hv, hr⟩ := Option.bind_eq_some_iff.1 hr
  obtain ⟨w, hw, hr⟩ := Option.bind_eq_some_iff.1 hr
  cases hr
  rcases outcome_cases tag v w with hnode | hlit
  · rw [hnode]
    refine ⟨?_, fun hground => ?_⟩
    · rw [S.read_node _ _ (by cases tag <;> first | rfl | cases htag)]
      exact .operator htag hlogical (ht v hv).expression (hu w hw).expression
    · rw [isGround_operator htag] at hground
      cases hground
  · exact reads_of_isLiteral hlit

theorem Clauses.tail {c : Tree} (h : Clauses Q (c :: cs)) : Clauses Q cs := fun c hc => h c (.tail _ hc)

theorem Clauses.head (h : Clauses Q (node .of [p, u] :: cs)) : Q p ∧ Q u := by
  obtain ⟨_, _, ⟨⟩, hp⟩ := h _ (.head _)
  exact hp

theorem Clauses.isFunction_eq_false (h : Clauses Q cs) : ∀ c ∈ cs, c.isFunction = false := by
  intro c hc
  obtain ⟨p, u, rfl, -⟩ := h c hc
  rfl

/-- The values of clauses are clauses over values. -/
theorem Clauses.values (h : Clauses (Leaves S n σ) cs) (hds : values? n σ cs = some ds) : Clauses S.Reads ds := by
  rw [values?_eq_some h.isFunction_eq_false] at hds
  induction hds with
  | nil => nofun
  | @cons c d cs ds hcd _ ih =>
    obtain ⟨p, u, rfl, hp, hu⟩ := h c (.head _)
    obtain ⟨v, hv, hcd⟩ := Option.bind_eq_some_iff.1 hcd
    obtain ⟨w, hw, hcd⟩ := Option.bind_eq_some_iff.1 hcd
    cases hcd
    exact List.forall_mem_cons.2 ⟨⟨v, w, rfl, hp v hv, hu w hw⟩, ih h.tail⟩

/-- The value of a case is that of a clause. -/
theorem Clauses.reads_of_choice? (h : Clauses (Leaves S n σ) cs) (hr : choice? n σ s cs = some (some r)) : S.Reads r := by
  induction cs with
  | nil =>
    rw [choice?] at hr
    · split at hr <;> cases hr
    · intro _ _ _ hnil
      cases hnil
  | cons c cs ih =>
    obtain ⟨p, u, rfl, -, hu⟩ := h c (.head _)
    obtain ⟨w, -, hr⟩ := Option.bind_eq_some_iff.1 hr
    split at hr
    · obtain ⟨w', hw', hr⟩ := Option.bind_eq_some_iff.1 hr
      cases hr
      exact hu _ hw'
    · split at hr
      · exact ih h.tail hr
      · cases hr

theorem Leaves.case (ht : Leaves S n σ t) (hcs : Clauses (Leaves S n σ) cs) : Leaves S n σ (node .case (t :: cs)) := by
  intro r hr
  rw [value?_case] at hr
  obtain ⟨s, hs, hr⟩ := Option.bind_eq_some_iff.1 hr
  obtain ⟨_ | w, hw, hr⟩ := Option.bind_eq_some_iff.1 hr
  · obtain ⟨ds, hds, hr⟩ := Option.bind_eq_some_iff.1 hr
    cases hr
    have hds := hcs.values hds
    refine ⟨?_, nofun⟩
    rw [S.read_node _ _ rfl]
    refine .case (ht s hs).expression (fun c hc => ?_) (fun p u hc => ?_) fun p u hc => ?_ <;>
      obtain ⟨d, hd, hdc⟩ := List.mem_map.1 hc <;> obtain ⟨p', u', rfl, hp, hu⟩ := hds d hd <;> rw [S.read_clause] at hdc <;>
      cases hdc
    · exact ⟨_, _, rfl⟩
    · exact hp.expression
    · exact hu.expression
  · cases hr
    exact hcs.reads_of_choice? hw

/-! #### What this comes to -/

theorem stages_of_isLiteral (h : t.isLiteral) : Stages P S n σ υ t := by
  intro r hr
  cases (value?_of_isLiteral h).symm.trans hr
  exact .inl (by rw [value?_of_isLiteral h, Second.value?, S.read_of_isLiteral t h, value?_of_isLiteral h])

theorem stages_name (h : S.value? ((σ x).getD (ident x)) = some ((υ x).getD (ident x))) : Stages P S n σ υ (ident x) := by
  intro r hr
  cases hr
  exact .inl h.symm

theorem StagesAll.exprs (h : StagesAll P S n σ υ ts) (hleaves : LeavesAll S n σ ts) : Stages P S n σ υ (node .exprs ts) := by
  intro r hr
  rw [value?] at hr ⊢
  obtain ⟨rs, hrs, hr⟩ := Option.bind_eq_some_iff.1 hr
  obtain rfl := eq_of_only? hr
  have hone : S.value? r = (do only? (← S.values? [r])) := by
    rw [Second.values?_cons (hleaves _ hrs r (.head _))]
    cases S.value? r <;> rfl
  rw [hone]
  exact (h _ hrs).bind fun _ _ => .refl

theorem Stages.paren (h : Stages P S n σ υ t) : Stages P S n σ υ (node .paren [t]) := by
  intro r hr
  obtain ⟨v, hv, hr⟩ := Option.bind_eq_some_iff.1 hr
  cases hr
  rw [S.value?_paren]
  exact (h v hv).bind fun _ _ => .refl

theorem StagesAll.list (h : StagesAll P S n σ υ ts) : Stages P S n σ υ (node .list ts) := by
  intro r hr
  obtain ⟨rs, hrs, hr⟩ := Option.bind_eq_some_iff.1 hr
  cases hr
  rw [S.value?_list]
  exact (h rs hrs).bind fun _ _ => .refl

theorem StagesAll.record (h : StagesAll P S n σ υ ts) : Stages P S n σ υ (node .record ts) := by
  intro r hr
  obtain ⟨rs, hrs, hr⟩ := Option.bind_eq_some_iff.1 hr
  cases hr
  rw [S.value?_record]
  exact (h rs hrs).bind fun _ _ => .refl

theorem Stages.binding (h : Stages P S n σ υ t) : Stages P S n σ υ (node .binding [key, t]) := by
  intro r hr
  obtain ⟨v, hv, hr⟩ := Option.bind_eq_some_iff.1 hr
  cases hr
  rw [S.value?_binding]
  exact (h v hv).bind fun _ _ => .refl

theorem Stages.negation (h : Stages P S n σ υ t) : Stages P S n σ υ (node .neg [t]) := by
  intro r hr
  obtain ⟨v, hv, hr⟩ := Option.bind_eq_some_iff.1 hr
  cases hr
  rw [S.value?_negated]
  exact (h v hv).bind fun _ _ => .refl

theorem Stages.operator (htag : tag.isOperator) (ht : Stages P S n σ υ t) (hu : Stages P S n σ υ u) :
    Stages P S n σ υ (node tag [t, u]) := by
  intro r hr
  rw [value?_operator htag] at hr ⊢
  obtain ⟨v, hv, hr⟩ := Option.bind_eq_some_iff.1 hr
  obtain ⟨w, hw, hr⟩ := Option.bind_eq_some_iff.1 hr
  cases hr
  rw [S.value?_outcome htag]
  exact (ht v hv).bind fun _ _ => (hu w hw).bind fun _ _ => .refl

/-! #### Cases -/

/-- Clauses that were left open come to the clauses themselves. -/
theorem Clauses.open (h : Clauses (Stages P S n σ υ) cs) (hds : values? n σ cs = some ds) :
    Lags P (values? n υ cs) (S.values? ds) ∧
      ∀ s, Lags P (choice? n υ s cs) (choice? S.room S.known s (ds.map S.read)) := by
  rw [values?_eq_some h.isFunction_eq_false] at hds
  induction hds with
  | nil => exact ⟨.refl, fun s => .refl⟩
  | @cons c d cs ds hcd _ ih =>
    obtain ⟨p, u, rfl, hp, hu⟩ := h c (.head _)
    obtain ⟨p', hp', hcd⟩ := Option.bind_eq_some_iff.1 hcd
    obtain ⟨u', hu', hcd⟩ := Option.bind_eq_some_iff.1 hcd
    cases hcd
    have hp := hp p' hp'
    have hu := hu u' hu'
    obtain ⟨hvalues, hchoice⟩ := ih h.tail
    refine ⟨?_, fun s => ?_⟩
    · rw [Second.values?, List.map_cons, S.read_clause]
      exact Lags.bind (hp.bind fun v _ => hu.bind fun w _ => .refl) fun v _ => hvalues.bind fun vs _ => .refl
    · rw [List.map_cons, S.read_clause]
      refine hp.bind fun v _ => ?_
      split
      · exact hu.bind fun w _ => .refl
      · split
        · exact hchoice s
        · exact .refl

/-- A case that is decided comes to the clause that decides it. -/
theorem Clauses.decided (h : Clauses (Stages P S n σ υ) cs) (hleaves : Clauses (Leaves S n σ) cs) (ht : Stages P S n σ υ t)
    (hsurvives : P → ∀ p u, node .of [p, u] ∈ cs → Survives n σ υ t ∨ Survives n σ υ p) (hs : value? n σ t = some s)
    (hreads : S.Reads s) (hr : choice? n σ s cs = some (some r)) :
    Lags P (do choice? n υ (← value? n υ t) cs) (do return some (← S.value? r)) := by
  rcases ht s hs with hts | ⟨hnone, hP⟩
  swap
  · exact .inr ⟨by rw [hnone]; rfl, hP⟩
  have hscrutinee : Survives n σ υ t → ∃ v, S.value? s = some v := fun h => hts ▸ h s hs
  rw [hts]
  induction cs with
  | nil =>
    rw [choice?] at hr
    · split at hr <;> cases hr
    · intro _ _ _ hnil
      cases hnil
  | cons c cs ih =>
    obtain ⟨p, u, rfl, hp, hu⟩ := h c (.head _)
    obtain ⟨p', hp', hr⟩ := Option.bind_eq_some_iff.1 hr
    have hpp := hp p' hp'
    split at hr
    · rename_i heq
      obtain ⟨r', hr', hr⟩ := Option.bind_eq_some_iff.1 hr
      cases hr
      cases hv : S.value? s with
      | none =>
        -- Neither has a value, which takes a case in each of them.
        refine .inr ⟨rfl, fun hP => ?_⟩
        rcases hsurvives hP p u (.head _) with ht | hp
        · obtain ⟨v, hv'⟩ := hscrutinee ht
          cases hv.symm.trans hv'
        · obtain ⟨w, hw⟩ := hp p' hp'
          have hw' : S.value? p' = some w := hw ▸ (hpp.resolve_right fun hnone => hnone.2 hP).symm
          obtain ⟨v, hv', -⟩ := Second.exists_value?_of_ungroup_eq heq hw'
          cases hv.symm.trans hv'
      | some v =>
        obtain ⟨w, hw, hvw⟩ := Second.exists_value?_of_ungroup_eq heq.symm hv
        rw [hw] at hpp
        rcases hpp with hpp | ⟨hnone, hP⟩
        · simp only [Option.bind_eq_bind, Option.bind_some, choice?, hpp, hvw, if_true]
          exact (hu r hr').bind fun _ _ => .refl
        · refine .inr ⟨?_, hP⟩
          simp only [Option.bind_eq_bind, Option.bind_some, choice?, hnone, Option.bind_none]
    · split at hr
      · rename_i hne hground
        -- Both are known and stay different.
        obtain ⟨hsground, hpground⟩ := Bool.and_eq_true_iff.1 hground
        have hv := hreads.ground hsground
        rw [(hleaves.head.1 p' hp').ground hpground] at hpp
        have hih := ih h.tail hleaves.tail (fun hP p u hc => hsurvives hP p u (.tail _ hc)) hr
        rw [hv] at hih ⊢
        rcases hpp with hpp | ⟨hnone, hP⟩
        · simpa only [Option.bind_eq_bind, Option.bind_some, choice?, hpp, if_neg hne, if_pos hground] using hih
        · refine .inr ⟨?_, hP⟩
          simp only [Option.bind_eq_bind, Option.bind_some, choice?, hnone, Option.bind_none]
      · cases hr

/-- Once a clause is the choice, its body is the value of the case. -/
theorem Lags.case {o : Option Tree} (h : Lags P (do choice? n υ (← value? n υ t) cs) (do return some (← o))) :
    Lags P (value? n υ (node .case (t :: cs))) o := by
  have hnone (h : (do choice? n υ (← value? n υ t) cs) = none) : value? n υ (node .case (t :: cs)) = none := by
    rw [value?]
    refine Option.bind_eq_none_iff.2 fun s hs => ?_
    exact Option.bind_eq_none_iff.2 fun o ho =>
      (Option.some_ne_none o (ho.symm.trans (Option.bind_eq_none_iff.1 h s hs))).elim
  have hsome {w : Tree} (h : (do choice? n υ (← value? n υ t) cs) = some (some w)) :
      value? n υ (node .case (t :: cs)) = some w := by
    obtain ⟨s, hs, h⟩ := Option.bind_eq_some_iff.1 h
    rw [value?]
    exact Option.bind_eq_some_iff.2 ⟨s, hs, Option.bind_eq_some_iff.2 ⟨some w, h, rfl⟩⟩
  rcases h with h | ⟨h, hP⟩
  · cases o with
    | none => exact .inl (hnone h)
    | some w => exact .inl (hsome h)
  · exact .inr ⟨hnone h, hP⟩

theorem Stages.case (ht : Stages P S n σ υ t) (htl : Leaves S n σ t) (hcs : Clauses (Stages P S n σ υ) cs)
    (hcsl : Clauses (Leaves S n σ) cs) (hsurvives : P → ∀ p u, node .of [p, u] ∈ cs → Survives n σ υ t ∨ Survives n σ υ p) :
    Stages P S n σ υ (node .case (t :: cs)) := by
  intro r hr
  rw [value?_case] at hr
  obtain ⟨s, hs, hr⟩ := Option.bind_eq_some_iff.1 hr
  obtain ⟨_ | w, hw, hr⟩ := Option.bind_eq_some_iff.1 hr
  · obtain ⟨ds, hds, hr⟩ := Option.bind_eq_some_iff.1 hr
    cases hr
    obtain ⟨hvalues, hchoice⟩ := hcs.open hds
    rw [Second.value?, S.read_node _ _ rfl, List.map_cons]
    refine (ht s hs).bind fun v _ => (hchoice v).bind fun o _ => ?_
    cases o with
    | none => exact hvalues.bind fun _ _ => .refl
    | some w => exact .refl
  · cases hr
    exact (hcs.decided hcsl ht hsurvives hs (htl s hs) hw).case

/-! #### Expressions -/

/-- Items that are expressions leave a value each. -/
theorem leavesAll_of_forall (hts : ∀ t ∈ ts, t.isFunction = false) (h : ∀ t ∈ ts, Leaves S n σ t) : LeavesAll S n σ ts := by
  intro rs hrs
  rw [values?_eq_some hts] at hrs
  induction hrs with
  | nil => nofun
  | cons hr _ ih =>
    obtain ⟨ht, hts⟩ := List.forall_mem_cons.1 hts
    obtain ⟨hleaves, h⟩ := List.forall_mem_cons.1 h
    exact List.forall_mem_cons.2 ⟨hleaves _ hr, ih hts h⟩

theorem stagesAll_of_forall (hts : ∀ t ∈ ts, t.isFunction = false) (hleaves : ∀ t ∈ ts, Leaves S n σ t)
    (h : ∀ t ∈ ts, Stages P S n σ υ t) : StagesAll P S n σ υ ts := by
  intro rs hrs
  rw [values?_eq_some hts] at hrs
  induction hrs with
  | nil => exact .refl
  | cons hr _ ih =>
    obtain ⟨ht, hts⟩ := List.forall_mem_cons.1 hts
    obtain ⟨hl, hleaves⟩ := List.forall_mem_cons.1 hleaves
    obtain ⟨hs, h⟩ := List.forall_mem_cons.1 h
    rw [values?_cons ht, Second.values?_cons (hl _ hr)]
    exact (hs _ hr).bind fun _ _ => (ih hts hleaves h).bind fun _ _ => .refl

/-- What an expression leaves is an expression over the names that are left. -/
theorem IsExpression.leaves (h : t.IsExpression xs) (hnames : ∀ x ∈ xs, S.Reads ((σ x).getD (ident x))) : Leaves S n σ t := by
  induction h with
  | literal h => exact leaves_of_isLiteral h
  | name h => exact leaves_name (hnames _ h)
  | group htag h ih =>
    rcases htag with rfl | rfl
    · exact ih.paren
    · exact fun r hr => ih r (value?_exprs ▸ hr)
  | items htag h ih =>
    have hts := leavesAll_of_forall (fun t ht => (h t ht).isFunction_eq_false) ih
    rcases htag with rfl | rfl
    · exact hts.list
    · exact hts.record
  | binding _ ih => exact ih.binding
  | negation _ ih => exact ih.negation
  | operator htag hlogical _ _ iht ihu => exact iht.operator htag hlogical ihu
  | case _ hof _ _ iht ihp ihu =>
    refine iht.case fun c hc => ?_
    obtain ⟨p, u, rfl⟩ := hof c hc
    exact ⟨p, u, rfl, ihp p u hc, ihu p u hc⟩

/-- Folded in a second stage, what the first leaves of an expression comes to the value with all names known. A case that
the first stage decides may lose a scrutinee without a value, where both this and a pattern hold a case. -/
theorem IsExpression.stages (h : t.IsExpression xs) (hnames : ∀ x ∈ xs, S.Reads ((σ x).getD (ident x)))
    (hvalues : ∀ x ∈ xs, S.value? ((σ x).getD (ident x)) = some ((υ x).getD (ident x))) (hP : P → t.isApart) :
    Stages P S n σ υ t := by
  have hparts {tag : Tag} {ts : List Tree} (hP : P → (node tag ts).isApart) : ∀ t ∈ ts, P → t.isApart :=
    fun t ht h => isApart_of_mem (hP h) t ht
  induction h with
  | literal h => exact stages_of_isLiteral h
  | name h => exact stages_name (hvalues _ h)
  | @group tag t htag h ih =>
    have ih := ih (hparts hP t (.head _))
    rcases htag with rfl | rfl
    · exact ih.paren
    · intro r hr
      rw [value?_exprs] at hr ⊢
      exact ih r hr
  | items htag h ih =>
    have hfun := fun t ht => (h t ht).isFunction_eq_false
    have hts := stagesAll_of_forall hfun (fun t ht => (h t ht).leaves hnames) fun t ht => ih t ht (hparts hP t ht)
    rcases htag with rfl | rfl
    · exact hts.list
    · exact hts.record
  | binding _ ih => exact (ih (hparts hP _ (.tail _ (.head _)))).binding
  | negation _ ih => exact (ih (hparts hP _ (.head _))).negation
  | operator htag hlogical _ _ iht ihu =>
    exact (iht (hparts hP _ (.head _))).operator htag (ihu (hparts hP _ (.tail _ (.head _))))
  | @case t cs ht hof hp hu iht ihp ihu =>
    have hclauses (p u : Tree) (hc : node .of [p, u] ∈ cs) : ∀ v ∈ [p, u], P → v.isApart :=
      hparts (hparts hP _ (.tail _ hc))
    have hleaves : Clauses (Leaves S n σ) cs := by
      intro c hc
      obtain ⟨p, u, rfl⟩ := hof c hc
      exact ⟨p, u, rfl, (hp p u hc).leaves hnames, (hu p u hc).leaves hnames⟩
    have hstages : Clauses (Stages P S n σ υ) cs := by
      intro c hc
      obtain ⟨p, u, rfl⟩ := hof c hc
      exact ⟨p, u, rfl, ihp p u hc (hclauses p u hc p (.head _)), ihu p u hc (hclauses p u hc u (.tail _ (.head _)))⟩
    refine (iht (hparts hP _ (.head _))).case (ht.leaves hnames) hstages hleaves fun h p u hc => ?_
    rcases isCaseFree_or_of_isApart (hP h) hc with hfree | hfree
    · exact .inl fun _ _ => ht.exists_value? hfree
    · exact .inr fun _ _ => (hp p u hc).exists_value? hfree

end Tree

end Linefold
