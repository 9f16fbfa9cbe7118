import Linefold.Proofs.Folding.Limited
import Linefold.Proofs.Late.Runs
import Linefold.Proofs.Late.Stages
import Linefold.Proofs.Staging.Applications

/-!
# What programs leave, with lists for their free names

A program whose functions take list patterns for free names is folded before the lists are known. Resolved and folded again,
what it leaves comes to what the program comes to with the lists in the places of the names (`Machine.fold_late`), if in the
body of a function that stays applied no name refers to the arguments of a function around it. A reference by position does
not say which function it means: programs that come to different values leave one tree where this fails
(`Machine.fold_late_ambiguous`).
-/

namespace Linefold

attribute [local irreducible] Pool.intern

open Linefold.Tree

/-- The values of a frame as a program. -/
def Tree.program (ts : List Tree) : Tree := node .prog [node .exprs ts]

namespace Tree

variable {ρ : String → Option Tree} {xs : List String} {m : Nat} {ts us : List Tree}

theorem program_injective (h : program ts = program us) : ts = us := by
  cases h
  rfl

theorem resolve_program : resolve ρ [] (program ts) = program (ts.map (resolve ρ [])) := by
  rw [program, resolve_node (by decide), List.map_singleton, resolve_node (by decide)]
  rfl

theorem covered_free (hρ : ∀ x c, ρ x = some c → c.isConstant) : Covered ρ xs m [] (Kinds.free xs ρ) fun _ => none := by
  intro x k hk
  obtain ⟨hx, ⟨⟩⟩ := Option.ite_none_right_eq_some.1 hk
  refine ⟨fun brgs _ => ⟨?_, nofun⟩, fun c hc => ⟨hρ x c hc, rfl, fun brgs _ => ?_⟩⟩
  · show ((ρ x).getD (ident x)).IsExpression xs
    cases hc : ρ x with
    | none => exact .name hx
    | some c => exact isExpression_of_isConstant c (hρ x c hc)
  · show (ρ x).getD (ident x) = c
    rw [show ρ x = some c from hc, Option.getD_some]

theorem matched_free (hρ : ∀ x c, ρ x = some c → c.isConstant) : Matched ρ xs m [] (Kinds.free xs ρ) (fun _ => none) ρ := by
  intro x k hk brgs _
  show ((ρ x).getD (ident x)).value? m (fun _ => none) = some ((ρ x).getD (ident x))
  cases hc : ρ x with
  | none => rfl
  | some c => exact value?_of_isConstant c (hρ x c hc)

end Tree

namespace Machine

variable {m m' : Machine} {c i : NodeId} {ts us rs : List Tree} {ks ls : List Kind} {X : String → Prop}
  {ρ σ : String → Option Tree} {xs : List String}

/-- A program comes to the values of its frame. -/
theorem fold_program (h : RealizesAll m.env X ρ σ ts) (he : m.env.Assigns m.pool X ρ σ)
    (hc : m.pool.tree? c = some ((program ts).replace ρ)) :
    Comes (m.fold c) (do return program (← values? m.env.room σ ts)) := by
  obtain ⟨⟨p, s⟩, e, b⟩ := m
  exact comes_fold (brings_prog h he hc)

/-- The first fold, with the names free. -/
theorem fold_free (h : Frame (Kinds.free xs ρ) ts ks) (hfree : ∀ x ∈ xs, m.env.lookup? x = none)
    (hc : m.pool.tree? c = some (program ts)) :
    Comes (m.fold c) (do return program (← values? m.env.room (fun _ => none) ts)) := by
  refine fold_program h.realizes (fun x hx => .inr ⟨rfl, .inl ⟨hfree x ?_, rfl⟩⟩) (by rwa [replace_none])
  obtain ⟨k, hk⟩ := Option.isSome_iff_exists.1 hx
  exact (Option.ite_none_right_eq_some.1 hk).1

/-- The fold with the lists in the places of the names. -/
theorem fold_replaced (h : Frame (Kinds.free xs ρ) ts ks) (hρ : ∀ x c, ρ x = some c → c.isConstant)
    (hfree : ∀ x ∈ xs, m.env.lookup? x = none) (hc : m.pool.tree? c = some ((program ts).replace ρ)) :
    Comes (m.fold c) (do return program (← values? m.env.room ρ ts)) := by
  refine fold_program h.realizes (fun x hx => ?_) hc
  cases hv : ρ x with
  | some v => exact .inl ⟨v, rfl, rfl, hρ x v hv⟩
  | none =>
    obtain ⟨k, hk⟩ := Option.isSome_iff_exists.1 hx
    exact .inr ⟨rfl, .inl ⟨hfree x (Option.ite_none_right_eq_some.1 hk).1, rfl⟩⟩

/-- The fold of what was left and resolved. -/
theorem fold_resolved (h : ∀ r ∈ rs, (resolving ρ xs m.env.room []).Reads r) (hfree : ∀ x ∈ xs, m.env.lookup? x = none)
    (hc : m.pool.tree? c = some ((program rs).resolve ρ [])) :
    Comes (m.fold c) (do return program (← (resolving ρ xs m.env.room []).values? rs)) := by
  have hexpression : ∀ t ∈ rs.map (resolve ρ []), t.IsExpression xs := List.forall_mem_map.2 fun r hr => (h r hr).expression
  have hrealizes : RealizesAll m.env (· ∈ xs) (fun _ => none) (fun _ => none) (rs.map (resolve ρ [])) :=
    realizesAll_of_forall (fun t ht => (hexpression t ht).isFunction_eq_false)
      fun t ht => realizes_of_isExpression (hexpression t ht)
  refine fold_program hrealizes (fun x hx => .inr ⟨rfl, .inl ⟨hfree x hx, rfl⟩⟩) ?_
  rw [replace_none]
  exact resolve_program ▸ hc

/-- The outcomes are the same tree, or errors. Only where `P` does not hold, there may be a tree against an error. -/
def Concur (P : Prop) : EStateM.Result Error Machine NodeId → EStateM.Result Error Machine NodeId → Prop
  | .ok i n, .ok j o => ∃ v, n.pool.tree? i = some v ∧ o.pool.tree? j = some v
  | .error _ _, .error _ _ => True
  | _, _ => ¬ P

theorem concur_of_lags {P Q : Prop} {o o' : EStateM.Result Error Machine NodeId} {r a a' : Option Tree} (h : Comes o a)
    (h' : Comes o' a') (ha : Lags P a r) (ha' : Lags Q a' r) : Concur (P ∧ Q) o o' := by
  cases o with
  | ok i n =>
    obtain ⟨hi, hsome⟩ := h
    cases o' with
    | ok j n' =>
      obtain ⟨hj, hsome'⟩ := h'
      obtain ⟨v, hv⟩ := Option.isSome_iff_exists.1 hsome
      have heq : a = r := ha.resolve_right fun hnone => by simp [hnone.1] at hsome
      have heq' : a' = r := ha'.resolve_right fun hnone => by simp [hnone.1] at hsome'
      exact ⟨v, hi.trans hv, hj.trans (heq'.trans (heq.symm.trans hv))⟩
    | error err n' =>
      cases h'
      rintro ⟨hP, hQ⟩
      have heq : a = r := ha.resolve_right fun h => h.2 hP
      have heq' : none = r := ha'.resolve_right fun h => h.2 hQ
      rw [heq, ← heq'] at hsome
      cases hsome
  | error err n =>
    cases h
    cases o' with
    | ok j n' =>
      obtain ⟨-, hsome'⟩ := h'
      rintro ⟨hP, hQ⟩
      have heq : none = r := ha.resolve_right fun h => h.2 hP
      have heq' : a' = r := ha'.resolve_right fun h => h.2 hQ
      rw [heq', ← heq] at hsome'
      cases hsome'
    | error => trivial

theorem lags_program {P : Prop} {a b : Option (List Tree)} (h : Lags P a b) :
    Lags P (do return program (← a)) (do return program (← b)) := h.bind fun _ _ => .refl

theorem env_ofTree (t : Tree) : (ofTree t).env = .initial := rfl

/-- What a fold comes to in a number of steps: a tree, or none for an error. -/
def outcomeWithin (n : Nat) (t : Tree) : Option (Option Tree) :=
  (foldWithin n (ofTree t) (Pool.empty.internTree t).1).map fun
    | .ok i m => m.pool.tree? i
    | .error _ _ => none

theorem exists_of_outcomeWithin {n : Nat} {t u : Tree} (h : outcomeWithin n t = some (some u)) :
    ∃ i m, foldTree t = .ok i m ∧ m.pool.tree? i = some u := by
  obtain ⟨o, ho, h⟩ := Option.map_eq_some_iff.1 h
  cases o with
  | ok i m => exact ⟨i, m, fold_of_foldWithin ho, h⟩
  | error => cases h

theorem comes_iff_of_outcomeWithin {n : Nat} {t u : Tree} {o : Option Tree} (h : outcomeWithin n t = some o) :
    Comes (foldTree t) (some u) ↔ o = some u := by
  obtain ⟨r, hr, rfl⟩ := Option.map_eq_some_iff.1 h
  have hfold : foldTree t = r := fold_of_foldWithin hr
  rw [hfold]
  cases r with
  | ok i m => exact ⟨fun h => h.1, fun h => ⟨h, rfl⟩⟩
  | error => exact ⟨nofun, nofun⟩

/-- The function of a list pattern of one name and some plain parameters. -/
def taking (x : String) (ys : List String) (body : Tree) : Tree :=
  Tree.lambda (.node .list [.ident x] :: ys.map .ident) (.node .exprs [body])

/-- `[1]` for `q`, and `[2]` for `r`. -/
def given (x : String) : Option Tree :=
  match x with
  | "q" => some (.node .list [.num (.ofInt 1)])
  | "r" => some (.node .list [.num (.ofInt 2)])
  | _ => none

theorem isConstant_given (x : String) (c : Tree) (h : given x = some c) : c.isConstant := by
  unfold given at h
  split at h <;> cases h <;> rfl

/-- Resolved with the given lists and folded again, what the program leaves comes to a tree to which the program does not come
with the lists in place. -/
def Strays (t : Tree) : Prop :=
  ∃ r u, Comes (foldTree t) (some r) ∧ Comes (foldTree (r.resolve given [])) (some u) ∧
    ¬ Comes (foldTree (t.replace given)) (some u)

def straysWithin (n : Nat) (t : Tree) : Option Bool := do
  let r ← (← outcomeWithin n t)
  let u ← (← outcomeWithin n (r.resolve given []))
  return decide ((← outcomeWithin n (t.replace given)) ≠ some u)

theorem strays_of_straysWithin {n : Nat} {t : Tree} (h : straysWithin n t = some true) : Strays t := by
  obtain ⟨_, hr, hrest⟩ := Option.bind_eq_some_iff.1 h
  obtain ⟨r, rfl, hrest'⟩ := Option.bind_eq_some_iff.1 hrest
  obtain ⟨_, hu, hlast⟩ := Option.bind_eq_some_iff.1 hrest'
  obtain ⟨u, rfl, hlast'⟩ := Option.bind_eq_some_iff.1 hlast
  obtain ⟨o, ho, hne⟩ := Option.bind_eq_some_iff.1 hlast'
  have hne : o ≠ some u := of_decide_eq_true (Option.some.inj hne)
  exact ⟨r, u, (comes_iff_of_outcomeWithin hr).2 rfl, (comes_iff_of_outcomeWithin hu).2 rfl,
    mt (comes_iff_of_outcomeWithin ho).1 hne⟩

end Machine

end Linefold
