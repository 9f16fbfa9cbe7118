import Linefold.Proofs.Staging.Expressions
import Linefold.Proofs.Tables.Numbers

/-!
# Late applications resolved

A function with a list pattern that meets a free name stays applied: the elements of the list are only known when
there is a list for the name. `Tree.resolve ρ [] t` is the tree `t` with the trees of `ρ` in place of free names, and with
each application that stayed replaced by the body of its function, in which a position stands for an argument and a
projection out of a literal list for the element.
-/

namespace Linefold

/-- The position that a number stands for. -/
def Number.position? (x : Number) : Option Nat := x.toInt?.map Int.toNat

theorem Number.position?_ofInt {n : Nat} (h : n < 2 ^ 53) : (ofInt n).position? = some n := by
  rw [position?, toInt?_ofInt h]
  rfl

namespace Tree

/-- The element that a number is the position of. -/
def element? (x : Number) : Tree → Option Tree
  | node .list ts => x.position?.bind (ts[·]?)
  | _ => none

theorem element?_ofInt {n : Nat} {ts : List Tree} (h : n < 2 ^ 53) : element? (.ofInt n) (node .list ts) = ts[n]? := by
  rw [element?, Number.position?_ofInt h]
  rfl

mutual

/-- The first tree is a pattern, and the second one is a literal list, or literal, that is long enough for it. -/
def fits : Tree → Tree → Bool
  | ident _, t => t.isConstant
  | node .list ps, node .list ts => decide (ps.length < 2 ^ 53) && fitsAll ps ts
  | _, _ => false

def fitsAll : List Tree → List Tree → Bool
  | [], ts => allConstant ts
  | p :: ps, t :: ts => fits p t && fitsAll ps ts
  | _ :: _, [] => false

end

mutual

/-- A tree with the trees of `ρ` for its free names and `args` for the arguments that it refers to by position. An
application that stayed is the body of its function, which refers to the arguments of this application. -/
def resolve (ρ : String → Option Tree) (args : List Tree) : Tree → Tree
  | ident x => (ρ x).getD (ident x)
  | node .arg [num x] => (x.position?.bind (args[·]?)).getD (node .arg [num x])
  | node .val [num x, t] => (element? x (resolve ρ args t)).getD (node .val [num x, resolve ρ args t])
  | node .apply (node .lambda [_, body, _] :: ts) => resolve ρ (resolveAll ρ args ts) body
  | node .lambda [names, body, pattern] => node .lambda [names, resolve (without ρ pattern.idents) args body, pattern]
  | node .of [ident x, body, names] => node .of [ident x, resolve (without ρ [x]) args body, names]
  | node .binding [key, t] => node .binding [key, resolve ρ args t]
  | node t ts => node t (resolveAll ρ args ts)
  | t => t

def resolveAll (ρ : String → Option Tree) (args : List Tree) : List Tree → List Tree
  | [] => []
  | t :: ts => resolve ρ args t :: resolveAll ρ args ts

end

variable {ρ : String → Option Tree} {args ts us : List Tree} {t v names pattern : Tree} {tag : Tag} {n : Nat}

theorem resolveAll_eq_map : resolveAll ρ args ts = ts.map (resolve ρ args) := by
  induction ts with
  | nil => rfl
  | cons t ts ih => rw [resolveAll, ih, List.map_cons]

theorem resolve_of_isLiteral (h : t.isLiteral) : resolve ρ args t = t := by
  cases t with
  | ident | node => cases h
  | _ => rfl

/-- The parts of most nodes are resolved one by one. -/
theorem resolve_node (h : tag ∉ [Tag.arg, .val, .apply, .lambda, .of, .binding]) :
    resolve ρ args (node tag ts) = node tag (ts.map (resolve ρ args)) := by
  rw [← resolveAll_eq_map]
  cases tag <;> first | rfl | exact absurd (by decide) h

theorem resolve_apply : resolve ρ args (node .apply (node .lambda [names, t, pattern] :: ts)) =
    resolve ρ (ts.map (resolve ρ args)) t := by
  rw [← resolveAll_eq_map]
  rfl

theorem resolve_arg (h : n < 2 ^ 53) (hn : args[n]? = some t) : resolve ρ args (node .arg [.num (.ofInt n)]) = t := by
  have hget : resolve ρ args (node .arg [.num (.ofInt n)]) =
      ((Number.ofInt n).position?.bind (args[·]?)).getD (node .arg [.num (.ofInt n)]) := rfl
  rw [hget, Number.position?_ofInt h, Option.bind_some, hn]
  rfl

theorem resolve_val (h : n < 2 ^ 53) (ht : resolve ρ args t = node .list us) (hn : us[n]? = some v) :
    resolve ρ args (node .val [.num (.ofInt n), t]) = v := by
  have hget : resolve ρ args (node .val [.num (.ofInt n), t]) =
      (element? (.ofInt n) (resolve ρ args t)).getD (node .val [.num (.ofInt n), resolve ρ args t]) := rfl
  rw [hget, ht, element?_ofInt h, hn]
  rfl

/-- What was left is resolved, and folded again. -/
def resolving (ρ : String → Option Tree) (xs : List String) (n : Nat) (args : List Tree) : Second where
  names := xs
  room := n
  known _ := none
  read := resolve ρ args
  read_of_isLiteral _ := resolve_of_isLiteral
  read_node tag _ h := resolve_node (by cases tag <;> first | decide | cases h)
  read_binding _ _ := rfl
  read_clause p _ := by cases p <;> rfl

end Tree

end Linefold
