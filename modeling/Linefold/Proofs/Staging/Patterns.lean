import Linefold.Tree

/-!
# Parameters and their arguments, as trees

A pattern that is bound to the tree of a value gives trees to its names: the value, elements of a literal list, or
projections out of a value whose elements are not known. `Tree.applied` is what a function leaves: the value of its body,
a function of the parameters without an argument, or the function before its arguments if a list pattern met a value
whose elements are not known.
-/

namespace Linefold.Tree

def isLiteral : Tree → Bool
  | num _ | str _ | bool _ | null => true
  | _ => false

/-- The tree that a group stands for. -/
def ungroup : Tree → Tree
  | node .paren [t] | node .exprs [t] => ungroup t
  | t => t

/-! ### Patterns -/

/-- The elements of a literal list, seen through groups. -/
def items? (t : Tree) : Option (List Tree) :=
  match t.ungroup with
  | node .list ts => some ts
  | _ => none

/-- An element of a literal list, or a projection out of a value whose elements are not known. -/
def part? (i : Nat) (t : Tree) : Option Tree :=
  match t.items? with
  | some ts => ts[i]?
  | none => some (node .val [num (.ofInt i), t])

mutual

/-- The tree is a name or a list of patterns. -/
def isPattern : Tree → Bool
  | ident _ => true
  | node .list ps => allPatterns ps
  | _ => false

def allPatterns : List Tree → Bool
  | [] => true
  | p :: ps => isPattern p && allPatterns ps

end

mutual

/-- The names that a pattern binds, in source order. -/
def idents : Tree → List String
  | ident x => [x]
  | node .list ps => identsAll ps
  | _ => []

def identsAll : List Tree → List String
  | [] => []
  | p :: ps => idents p ++ identsAll ps

end

mutual

/-- What a pattern that is bound to a value gives to its names. -/
def bindings (v : Option Tree) : Tree → List (String × Option Tree)
  | ident x => [(x, v)]
  | node .list ps => bindingsFrom v 0 ps
  | _ => []

/-- What patterns give to their names that are bound to the parts of a value from position `i` on. -/
def bindingsFrom (v : Option Tree) (i : Nat) : List Tree → List (String × Option Tree)
  | [] => []
  | p :: ps => bindings (v.bind (part? i)) p ++ bindingsFrom v (i + 1) ps

end

/-! ### Functions -/

/-- The pattern asks for the elements of a value that are not known. -/
def isOpen (p v : Tree) : Bool := decide (p.tag = .list) && v.items?.isNone

/-- What stands for an argument in the body of a function: the argument, or a reference to its position. -/
def referred (i : Nat) (p v : Tree) : Tree := if isOpen p v then node .arg [num (.ofInt i)] else v

/-- What parameters give to their names that are bound to arguments from position `i` on. -/
def parameters (i : Nat) : List Tree → List Tree → List (String × Option Tree)
  | [], _ => []
  | p :: ps, vs => bindings (vs.head?.map (referred i p)) p ++ parameters (i + 1) ps vs.tail

/-- The trees for the names in the body of a function. -/
def bound (ps vs : List Tree) (σ : String → Option Tree) : String → Option Tree :=
  fun x => ((parameters 0 ps vs).lookup x).getD (σ x)

/-- The function of some patterns. -/
def lambda (ps : List Tree) (body : Tree) : Tree :=
  node .lambda [node .list ((identsAll ps).map ident), body, node .list ps]

def isLate (ps vs : List Tree) : Bool := (ps.zip vs).any fun (p, v) => isOpen p v

/-- What a function whose body comes to `v` leaves of its arguments. -/
def applied (ps : List Tree) (v : Tree) (vs : List Tree) : Tree :=
  if isLate ps vs then node .apply (lambda ps v :: vs)
  else if vs.length = ps.length then v
  else lambda (ps.drop vs.length) v

/-- The tree is a function of patterns. -/
def isFunction : Tree → Bool
  | node .lambda [_, _, node .list _] => true
  | _ => false

/-! ### Trees for names -/

/-- Trees for names, but none for the given ones. -/
def without (ρ : String → Option Tree) (xs : List String) : String → Option Tree := fun x => if x ∈ xs then none else ρ x

mutual

/-- The tree with the trees of `ρ` in the places of free names. -/
def replace (ρ : String → Option Tree) : Tree → Tree
  | ident x => (ρ x).getD (ident x)
  | node .lambda [names, body, pattern] => node .lambda [names, replace (without ρ pattern.idents) body, pattern]
  | node .of [ident x, body, names] => node .of [ident x, replace (without ρ [x]) body, names]
  | node .binding [key, t] => node .binding [key, replace ρ t]
  | node tag ts => node tag (replaceAll ρ ts)
  | t => t

def replaceAll (ρ : String → Option Tree) : List Tree → List Tree
  | [] => []
  | t :: ts => replace ρ t :: replaceAll ρ ts

end

mutual

/-- The tree is a literal or a list of such trees. -/
def isConstant : Tree → Bool
  | node .list ts => allConstant ts
  | t => t.isLiteral

def allConstant : List Tree → Bool
  | [] => true
  | t :: ts => isConstant t && allConstant ts

end

variable {i : Nat} {p t u v : Tree} {ps qs ts vs : List Tree} {o : Option Tree} {x : String} {xs : List String}
  {ρ σ : String → Option Tree} {tag : Tag}

mutual

theorem map_fst_bindings : ∀ (p : Tree) (o : Option Tree), (bindings o p).map Prod.fst = p.idents
  | ident _, _ => rfl
  | node .list ps, o => map_fst_bindingsFrom ps o 0
  | num _, _ | str _, _ | bool _, _ | null, _ => rfl
  | node tag ps, o => by cases tag <;> first | rfl | exact map_fst_bindingsFrom ps o 0

theorem map_fst_bindingsFrom : ∀ (ps : List Tree) (o : Option Tree) (i : Nat),
    (bindingsFrom o i ps).map Prod.fst = identsAll ps
  | [], _, _ => rfl
  | p :: ps, o, i => by
    rw [bindingsFrom, List.map_append, map_fst_bindings p, map_fst_bindingsFrom ps, identsAll]

end

theorem map_fst_parameters : (parameters i ps vs).map Prod.fst = identsAll ps := by
  induction ps generalizing i vs with
  | nil => rfl
  | cons p ps ih => rw [parameters, List.map_append, map_fst_bindings, ih, identsAll]

theorem identsAll_map_ident : identsAll (xs.map ident) = xs := by
  induction xs with
  | nil => rfl
  | cons x xs ih => rw [List.map_cons, identsAll, ih, idents, List.singleton_append]

theorem isLate_cons : isLate (p :: ps) (v :: vs) = (isOpen p v || isLate ps vs) := rfl

theorem isLate_map_ident : isLate (xs.map ident) vs = false := by
  refine List.any_eq_false.2 fun pv h => ?_
  obtain ⟨x, -, hx⟩ := List.mem_map.1 (List.of_mem_zip h).1
  simp [isOpen, ← hx, tag]

theorem exists_of_isFunction (h : t.isFunction) : ∃ names body ps, t = node .lambda [names, body, node .list ps] := by
  unfold isFunction at h
  split at h
  · exact ⟨_, _, _, rfl⟩
  · cases h

theorem isFunction_eq_false_of_isLiteral (h : t.isLiteral) : t.isFunction = false := by
  cases t with
  | ident | node => cases h
  | _ => rfl

theorem isFunction_eq_false_of_isConstant (h : t.isConstant) : t.isFunction = false := by
  cases t with
  | node tag ts => cases tag <;> first | rfl | cases h
  | _ => rfl

theorem without_eq (h : ∀ x ∈ xs, ρ x = none) : without ρ xs = ρ := by
  funext x
  unfold without
  split
  · next hx => exact (h x hx).symm
  · rfl

theorem replaceAll_eq_map : replaceAll ρ ts = ts.map (replace ρ) := by
  induction ts with
  | nil => rfl
  | cons t ts ih => rw [replaceAll, ih, List.map_cons]

theorem replace_of_isLiteral (h : t.isLiteral) : replace ρ t = t := by
  cases t with
  | ident | node => cases h
  | _ => rfl

/-- The names in the parts of most nodes are those of the node. -/
theorem replace_node (h : tag ∉ [Tag.lambda, .of, .binding]) : replace ρ (node tag ts) = node tag (ts.map (replace ρ)) := by
  rw [← replaceAll_eq_map]
  cases tag <;> first | rfl | exact absurd (by decide) h

theorem replace_clause : replace ρ (node .of [t, v]) = node .of [replace ρ t, replace ρ v] := by
  cases t <;> rfl

theorem without_none : without (fun _ => none) xs = fun _ => none := without_eq fun _ _ => rfl

mutual

theorem replace_none (t : Tree) : replace (fun _ => none) t = t := by
  unfold replace
  split
  · rfl
  · next body _ => rw [without_none, replace_none body]
  · next body _ => rw [without_none, replace_none body]
  · next t => rw [replace_none t]
  · next ts _ _ _ => rw [replaceAll_none ts]
  · rfl
termination_by sizeOf t

theorem replaceAll_none (ts : List Tree) : replaceAll (fun _ => none) ts = ts := by
  cases ts with
  | nil => rfl
  | cons t ts => rw [replaceAll, replace_none t, replaceAll_none ts]
termination_by sizeOf ts

end

end Linefold.Tree
