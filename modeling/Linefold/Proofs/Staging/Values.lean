import Linefold.Proofs.Interning.History
import Linefold.Proofs.Staging.Patterns

/-!
# Values of trees

`Tree.value? n σ t` is what a tree folds to when the trees of `σ` stand for its names and `n` more scopes can be opened, if it
folds at all. `Tree.values? n σ ts` are the values that the trees of a frame leave there: these are folded from the last one to
the first, and a function takes its arguments from the values of what follows it.
-/

namespace Linefold

/-- Trees are equal if they are interned under one id. -/
instance : DecidableEq Tree := fun _ u => decidable_of_iff _ (Pool.internTree_eq_iff (p := .empty) (.refl _) u)

namespace Tree

mutual

/-- The tree is built from literals by lists, records and groups only. -/
def isGround : Tree → Bool
  | node .list ts | node .record ts | node .paren ts | node .exprs ts => allGround ts
  | node .binding [_, t] => isGround t
  | node _ _ | ident _ => false
  | _ => true

def allGround : List Tree → Bool
  | [] => true
  | t :: ts => isGround t && allGround ts

end

/-- The literal that a tree is, seen through groups. -/
def literal? (t : Tree) : Option Literal :=
  match t.ungroup with
  | num x => some (.text x.text)
  | str s => some (.text s)
  | bool b => some (.bool b)
  | null => some .null
  | _ => none

def number? (t : Tree) : Option Number :=
  match t.ungroup with
  | num x => some x
  | _ => none

/-- The literal that a binary operator makes of its operands. -/
def result? (tag : Tag) (t u : Tree) : Option Tree :=
  match tag with
  | .concat => do return str ((← t.literal?).toText ++ (← u.literal?).toText)
  | .eq | .ne | .lt | .gt | .le | .ge => do return bool (← Literal.compare? tag (← t.literal?) (← u.literal?))
  | _ => do return num (← Number.arithmetic? tag (← t.number?) (← u.number?))

/-- The outcome of a binary operator: a literal, or the operator over its operands. -/
def outcome (tag : Tag) (t u : Tree) : Tree :=
  (result? tag t u).getD (node tag [t, u])

/-- A negated number, or the negation of anything else. -/
def negated (t : Tree) : Tree :=
  match t.number? with
  | some x => num x.neg
  | none => node .neg [t]

/-- The one entry of a list. -/
def only? : List Tree → Option Tree
  | [t] => some t
  | _ => none

theorem eq_of_only? {ts : List Tree} {t : Tree} (h : only? ts = some t) : ts = [t] := by
  obtain _ | ⟨_, _ | _⟩ := ts <;> cases h
  rfl

mutual

/-- What a tree folds to with the trees of `σ` for its names. -/
def value? (n : Nat) (σ : String → Option Tree) : Tree → Option Tree
  | ident x => some ((σ x).getD (ident x))
  | node .exprs ts => do only? (← values? n σ ts)
  | node .paren [t] => do return node .paren [← value? n σ t]
  | node .list ts => do return node .list (← values? n σ ts)
  | node .record ts => do return node .record (← values? n σ ts)
  | node .binding [key, t] => do return node .binding [key, ← value? n σ t]
  | node .of [t, u] => do
    let v ← value? n σ t
    return node .of [v, ← value? n σ u]
  | node .neg [t] => do return negated (← value? n σ t)
  | node .case (t :: cs) => do
    let s ← value? n σ t
    match ← choice? n σ s cs with
    | some v => return v
    | none => return node .case (s :: (← values? n σ cs))
  | node .lambda [_, body, node .list ps] =>
    if n = 0 then none else do return applied ps (← value? (n - 1) (bound ps [] σ) body) []
  | node tag [t, u] => do
    let v ← value? n σ t
    return outcome tag v (← value? n σ u)
  | t => some t

/-- The values that trees leave in a frame. -/
def values? (n : Nat) (σ : String → Option Tree) : List Tree → Option (List Tree)
  | [] => some []
  | node .lambda [_, body, node .list ps] :: ts => do
    let vs ← values? n σ ts
    if n = 0 then none else do
      let v ← value? (n - 1) (bound ps (vs.take ps.length) σ) body
      return applied ps v (vs.take ps.length) :: vs.drop ps.length
  | t :: ts => do
    let v ← value? n σ t
    return v :: (← values? n σ ts)

/-- The value of the first clause whose pattern has the value `s`, if all before it are known not to have it. With what is
known the clauses may leave the case open; there is nothing if none of them can match. -/
def choice? (n : Nat) (σ : String → Option Tree) (s : Tree) : List Tree → Option (Option Tree)
  | node .of [t, u] :: cs => do
    let v ← value? n σ t
    if v.ungroup = s.ungroup then return some (← value? n σ u)
    else if s.isGround && v.isGround then choice? n σ s cs
    else return none
  | _ => if s.isGround then none else some none

end

/-- What a case comes to: the choice among its clauses, or a case over the values of its parts. -/
def selected? (n : Nat) (σ : String → Option Tree) (s : Tree) (cs : List Tree) (o : Option (Option Tree)) : Option Tree := do
  match ← o with
  | some v => return v
  | none => return node .case (s :: (← values? n σ cs))

variable {n : Nat} {σ : String → Option Tree} {s t u v w r : Tree} {ts us vs ps cs : List Tree} {tag : Tag}

theorem isGround_of_mem (h : allGround ts) : ∀ t ∈ ts, t.isGround := by
  induction ts with
  | nil => simp
  | cons t ts ih =>
    obtain ⟨ht, hts⟩ := Bool.and_eq_true_iff.1 h
    exact List.forall_mem_cons.2 ⟨ht, ih hts⟩

/-! ### Values of groups and literals -/

theorem value?_of_isLiteral (h : t.isLiteral) : value? n σ t = some t := by
  cases t with
  | ident | node => cases h
  | _ => rfl

theorem ungroup_of_isLiteral (h : t.isLiteral) : t.ungroup = t := by
  cases t with
  | ident | node => cases h
  | _ => rfl

theorem value?_operator (htag : tag.isOperator) : value? n σ (node tag [t, u]) = (do
    let v ← value? n σ t
    return outcome tag v (← value? n σ u)) := by
  cases tag with
  | add | sub | div | mod | pow | concat | or | and | eq | ne | lt | gt | le | ge => rfl
  | _ => cases htag

theorem value?_case : value? n σ (node .case (t :: cs)) = (do
    let s ← value? n σ t
    selected? n σ s cs (choice? n σ s cs)) := by
  rw [value?]
  rfl

theorem selected?_choice?_cons {ds : List Tree} : selected? n σ s cs (choice? n σ s (node .of [t, u] :: ds)) = (do
    let v ← value? n σ t
    if v.ungroup = s.ungroup then value? n σ u
    else if s.isGround && v.isGround then selected? n σ s cs (choice? n σ s ds)
    else selected? n σ s cs (some none)) := by
  rw [choice?]
  cases value? n σ t with
  | none => rfl
  | some v =>
    simp only [Option.bind_eq_bind, Option.bind_some]
    split
    · cases value? n σ u <;> rfl
    · split <;> rfl

theorem isGround_operator (htag : tag.isOperator) : (node tag [t, u]).isGround = false := by
  cases tag with
  | add | sub | div | mod | pow | concat | or | and | eq | ne | lt | gt | le | ge => rfl
  | _ => cases htag

/-- Trees that are no functions leave a value each. -/
theorem values?_cons (h : t.isFunction = false) : values? n σ (t :: ts) = (do
    let v ← value? n σ t
    return v :: (← values? n σ ts)) := by
  rw [values?]
  rintro _ body ps rfl
  cases h

/-- A function leaves its value in the place of its arguments. -/
theorem values?_function {names body : Tree} : values? n σ (node .lambda [names, body, node .list ps] :: ts) = (do
    let vs ← values? n σ ts
    if n = 0 then none else do
      let v ← value? (n - 1) (bound ps (vs.take ps.length) σ) body
      return applied ps v (vs.take ps.length) :: vs.drop ps.length) := rfl

theorem value?_exprs : value? n σ (node .exprs [t]) = value? n σ t := by
  rw [value?]
  cases h : t.isFunction with
  | false =>
    rw [values?_cons h]
    cases value? n σ t <;> rfl
  | true =>
    obtain ⟨names, body, ps, rfl⟩ := exists_of_isFunction h
    simp only [value?, values?, Option.bind_eq_bind, Option.bind_some, List.take_nil, List.drop_nil]
    split
    · rfl
    · cases value? (n - 1) (bound ps [] σ) body <;> rfl

/-- Groups around an expression are groups around its value. -/
theorem map_ungroup_value? : (value? n σ t).map ungroup = (value? n σ t.ungroup).map ungroup := by
  fun_induction ungroup t with
  | case1 t ih =>
    rw [← ih, value?]
    cases value? n σ t <;> rfl
  | case2 t ih => rw [← ih, value?_exprs]
  | case3 => rfl

/-- What is a literal, seen through groups, keeps it. -/
theorem exists_value?_of_literal (h : t.ungroup.isLiteral) : ∃ v, value? n σ t = some v ∧ v.ungroup = t.ungroup := by
  have hmap := map_ungroup_value? (n := n) (σ := σ) (t := t)
  rw [value?_of_isLiteral h, Option.map_some, ungroup_of_isLiteral h] at hmap
  exact Option.map_eq_some_iff.1 hmap

theorem values?_eq_some (hts : ∀ t ∈ ts, t.isFunction = false) :
    values? n σ ts = some vs ↔ List.Forall₂ (fun t v => value? n σ t = some v) ts vs := by
  constructor
  · intro h
    induction ts generalizing vs with
    | nil =>
      cases h
      exact .nil
    | cons t ts ih =>
      obtain ⟨ht, hts⟩ := List.forall_mem_cons.1 hts
      rw [values?_cons ht] at h
      obtain ⟨v, hv, h⟩ := Option.bind_eq_some_iff.1 h
      obtain ⟨us, hus, h⟩ := Option.bind_eq_some_iff.1 h
      cases h
      exact .cons hv (ih hts hus)
  · intro h
    induction h with
    | nil => rfl
    | cons hv _ ih =>
      obtain ⟨ht, hts⟩ := List.forall_mem_cons.1 hts
      rw [values?_cons ht, hv, ih hts]
      rfl

theorem isLiteral_ungroup_of_literal? {l : Literal} (h : t.literal? = some l) : t.ungroup.isLiteral := by
  unfold literal? at h
  split at h <;> first | rw [‹t.ungroup = _›]; rfl | cases h

theorem isLiteral_ungroup_of_number? {x : Number} (h : t.number? = some x) : t.ungroup.isLiteral := by
  unfold number? at h
  split at h
  · rw [‹t.ungroup = _›]
    rfl
  · cases h

/-- What comes of literals is a literal. -/
theorem isLiteral_of_result? (h : result? tag t u = some v) : v.isLiteral ∧ t.ungroup.isLiteral ∧ u.ungroup.isLiteral := by
  unfold result? at h
  split at h <;> obtain ⟨_, ht, h⟩ := Option.bind_eq_some_iff.1 h <;> obtain ⟨_, hu, h⟩ := Option.bind_eq_some_iff.1 h
  · cases h
    exact ⟨rfl, isLiteral_ungroup_of_literal? ht, isLiteral_ungroup_of_literal? hu⟩
  all_goals
    obtain ⟨_, -, h⟩ := Option.bind_eq_some_iff.1 h
    cases h
    refine ⟨rfl, ?_⟩
  iterate 6 exact ⟨isLiteral_ungroup_of_literal? ht, isLiteral_ungroup_of_literal? hu⟩
  exact ⟨isLiteral_ungroup_of_number? ht, isLiteral_ungroup_of_number? hu⟩

/-- Operators look at their operands through groups. -/
theorem result?_congr {t' u' : Tree} (ht : t.ungroup = t'.ungroup) (hu : u.ungroup = u'.ungroup) :
    result? tag t u = result? tag t' u' := by
  simp only [result?, literal?, number?, ht, hu]

theorem outcome_cases (tag : Tag) (t u : Tree) : outcome tag t u = node tag [t, u] ∨ (outcome tag t u).isLiteral := by
  unfold outcome
  cases h : result? tag t u with
  | none => exact .inl rfl
  | some v => exact .inr (isLiteral_of_result? h).1

theorem negated_cases : negated t = node .neg [t] ∨ (negated t).isLiteral := by
  unfold negated
  split
  · exact .inr rfl
  · exact .inl rfl

/-- The value of an outcome is the outcome of the values. -/
theorem value?_outcome (htag : tag.isOperator) : value? n σ (outcome tag t u) = (do
    let v ← value? n σ t
    return outcome tag v (← value? n σ u)) := by
  cases h : result? tag t u with
  | none => rw [outcome, h, Option.getD_none, value?_operator htag]
  | some r =>
    obtain ⟨hr, ht, hu⟩ := isLiteral_of_result? h
    obtain ⟨v, hv, hvt⟩ := exists_value?_of_literal (n := n) (σ := σ) ht
    obtain ⟨w, hw, hwu⟩ := exists_value?_of_literal (n := n) (σ := σ) hu
    have hvw : result? tag v w = some r := (result?_congr hvt hwu).trans h
    rw [outcome, h, Option.getD_some, value?_of_isLiteral hr, hv, hw]
    exact congrArg (fun o => some (o.getD (node tag [v, w]))) hvw.symm

theorem value?_negated : value? n σ (negated t) = (do return negated (← value? n σ t)) := by
  cases h : t.number? with
  | none => simp only [negated, h, value?]
  | some x =>
    obtain ⟨v, hv, hvt⟩ := exists_value?_of_literal (n := n) (σ := σ) (isLiteral_ungroup_of_number? h)
    have hx : v.number? = some x := by rw [number?, hvt, ← number?, h]
    simp [negated, h, hv, hx, value?]

end Tree

end Linefold
