import Linefold.Node
import Linefold.Span
import Linefold.Tree
import Std.Data.TreeMap

/-!
# The node pool

A pool holds each node once. Nodes are numbered from one in the order in which they were first
interned, and are never changed or removed. Two facts come with every pool: children are older than
their parents, so that recursion on ids ends, and the index knows exactly the nodes that are held.
-/

namespace Linefold

/-- An append-only store of distinct nodes. -/
structure Pool where
  nodes : Array Node
  index : Std.TreeMap Node NodeId
  coords : Std.TreeMap NodeId Span
  older : ∀ (i : Nat) (h : i < nodes.size), ∀ c ∈ nodes[i].elts, c ≤ i
  indexed : ∀ (n : Node) (i : Nat), index[n]? = some (i + 1) ↔ nodes[i]? = some n
  index_ne_zero : ∀ n : Node, index[n]? ≠ some 0

namespace Pool

/-! ### Contents -/

def empty : Pool where
  nodes := #[]
  index := ∅
  coords := ∅
  older := fun i h => absurd h (Nat.not_lt_zero i)
  indexed := by simp
  index_ne_zero := by simp

instance : Inhabited Pool := ⟨empty⟩

/-- The number of nodes, which is also the last id. -/
def size (p : Pool) : Nat := p.nodes.size

/-- The node with a given id. -/
def get? (p : Pool) : NodeId → Option Node
  | 0 => none
  | i + 1 => p.nodes[i]?

theorem le_size_of_get? {p : Pool} {id : NodeId} {n : Node} (h : p.get? id = some n) :
    id ≤ p.size := by
  cases id with
  | zero => exact Nat.zero_le _
  | succ i => exact (Array.getElem?_eq_some_iff.1 h).1

/-- Children are older than their parents. -/
theorem lt_of_mem_elts {p : Pool} {id c : NodeId} {n : Node} (h : p.get? id = some n)
    (hc : c ∈ n.elts) : c < id := by
  cases id with
  | zero => simp [get?] at h
  | succ i =>
    obtain ⟨hi, rfl⟩ := Array.getElem?_eq_some_iff.1 h
    exact Nat.lt_succ_of_le (p.older i hi c hc)

theorem lt_of_get?_branch {p : Pool} {id c : NodeId} {t : Tag} {es : List NodeId}
    (h : p.get? id = some (.branch t es)) (hc : c ∈ es) : c < id :=
  lt_of_mem_elts h hc

def tag? (p : Pool) (id : NodeId) : Option Tag := (p.get? id).map Node.tag

/-- The children of a node, none if it is absent. -/
def elts (p : Pool) (id : NodeId) : List NodeId := ((p.get? id).map Node.elts).getD []

/-- The span of the first interning that had one. -/
def coord? (p : Pool) (id : NodeId) : Option Span := p.coords[id]?

/-! ### Interning -/

/-- Adds a node that is not held yet. -/
def push (p : Pool) (n : Node) (older : ∀ c ∈ n.elts, c ≤ p.nodes.size)
    (new : p.index[n]? = none) : Pool where
  nodes := p.nodes.push n
  index := p.index.insert n (p.nodes.size + 1)
  coords := p.coords
  older := by
    intro i h c hc
    rw [Array.getElem_push] at hc
    split at hc
    · exact p.older i _ c hc
    · have : i = p.nodes.size := by simp at h; omega
      exact this ▸ older c hc
  indexed := by
    intro m i
    rw [Std.TreeMap.getElem?_insert, Array.getElem?_push]
    by_cases hm : n = m
    · subst hm
      have hn : ¬ p.nodes[i]? = some n := by rw [← p.indexed, new]; simp
      by_cases hi : i = p.nodes.size
      · simp [hi]
      · simp [hi, hn]; omega
    · by_cases hi : i = p.nodes.size
      · subst hi
        have : ¬ p.index[m]? = some (p.nodes.size + 1) := by rw [p.indexed]; simp
        simp [hm, this]
      · simp [hm, hi, p.indexed]
  index_ne_zero := by
    intro m
    rw [Std.TreeMap.getElem?_insert]
    split
    · simp
    · exact p.index_ne_zero m

/-- The id of a node, which is added if the pool does not hold it yet. A child that is no node of
the pool is absent. -/
def intern (p : Pool) (node : Node) : NodeId × Pool :=
  let n := node.within p.nodes.size
  match h : p.index[n]? with
  | some id => (id, p)
  | none => (p.nodes.size + 1, p.push n (fun _ => Node.le_of_mem_elts_within) h)

/-- Records the place of a node, unless it has one. -/
def locate (p : Pool) (id : NodeId) (span : Span) : Pool :=
  { p with coords := p.coords.insertIfNew id span }

/-- Interns a node that occurs at the given place. -/
def internAt (p : Pool) (node : Node) (span : Span) : NodeId × Pool :=
  let (id, p) := p.intern node
  (id, p.locate id span)

mutual

/-- Interns a tree, children first. -/
def internTree (p : Pool) : Tree → NodeId × Pool
  | .num x => p.intern (.num x)
  | .str s => p.intern (.str s)
  | .ident name => p.intern (.ident name)
  | .bool b => p.intern (.bool b)
  | .null => p.intern .null
  | .node t ts =>
    let (es, p) := internTrees p ts
    p.intern (.branch t es)

/-- Interns trees from left to right. -/
def internTrees (p : Pool) : List Tree → List NodeId × Pool
  | [] => ([], p)
  | t :: ts =>
    let (id, p) := internTree p t
    let (ids, p) := internTrees p ts
    (id :: ids, p)

end

/-! ### Views -/

/-- The tree of a node; none if an absent node occurs in it. -/
def tree? (p : Pool) (id : NodeId) : Option Tree :=
  match h : p.get? id with
  | none => none
  | some (.num x) => some (.num x)
  | some (.str s) => some (.str s)
  | some (.ident name) => some (.ident name)
  | some (.bool b) => some (.bool b)
  | some .null => some .null
  | some (.branch t es) =>
    let ts : Option (List Tree) := es.attach.mapM fun ⟨c, hc⟩ =>
      have := lt_of_get?_branch h hc
      p.tree? c
    ts.map (.node t)
termination_by id

/-- The node that a group stands for: a `PAREN` or `EXPRS` over one child stands for the child. -/
def unwrapGroup (p : Pool) (id : NodeId) : NodeId :=
  match h : p.get? id with
  | some (.branch .paren [c]) | some (.branch .exprs [c]) =>
    have := lt_of_get?_branch h (List.mem_singleton.2 rfl)
    p.unwrapGroup c
  | _ => id
termination_by id

/-- The literal that a node is, seen through groups. -/
def literal? (p : Pool) (id : NodeId) : Option Literal :=
  (p.get? (p.unwrapGroup id)).bind Node.literal?

/-- The number that a node is, seen through groups. -/
def number? (p : Pool) (id : NodeId) : Option Number :=
  (p.get? (p.unwrapGroup id)).bind Node.number?

def isLiteral (p : Pool) (id : NodeId) : Bool :=
  (p.get? (p.unwrapGroup id)).any Node.isLiteral

/-- The node is built from literals by lists, records and groups only, so that it is its own value.
The key of a binding is a name and is not looked at. -/
def isGround (p : Pool) (id : NodeId) : Bool :=
  match h : p.get? id with
  | none => false
  | some (.branch t es) =>
    match t with
    | .list | .record | .paren | .exprs =>
      es.attach.all fun ⟨c, hc⟩ =>
        have := lt_of_get?_branch h hc
        p.isGround c
    | .binding =>
      match es with
      | [_, v] =>
        have := lt_of_get?_branch h (List.mem_cons_of_mem _ (List.mem_singleton.2 rfl))
        p.isGround v
      | _ => false
    | _ => false
  | some n => n.isLiteral
termination_by id

end Pool

end Linefold
