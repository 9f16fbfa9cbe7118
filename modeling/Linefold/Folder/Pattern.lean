import Linefold.Environment
import Linefold.Pool

/-!
# Parameter patterns

A parameter is a name or a list of patterns. Binding a pattern to a value gives words to its names;
where the value of a list pattern is not known yet, the names stand for projections out of it.
-/

namespace Linefold

/-- The shape of a parameter. -/
inductive Pattern where
  /-- A name, with its node. -/
  | name (id : NodeId) (name : String)
  | list (elts : List Pattern)
  /-- Something that is no pattern. -/
  | faulty (fault : InternalFault)

namespace Pool

/-- The pattern that a node describes. -/
def pattern (p : Pool) (id : NodeId) : Pattern :=
  match h : p.get? id with
  | none => .faulty (.missingNode id)
  | some (.ident name) => .name id name
  | some (.branch .list es) =>
    .list (es.attach.map fun ⟨c, hc⟩ =>
      have := lt_of_get?_branch h hc
      p.pattern c)
  | some _ => .faulty .malformedPattern
termination_by id

/-- The elements of a literal list, seen through groups. An absent value has none. -/
def listItems? (p : Pool) (value : NodeId) : Option (List NodeId) :=
  if value = 0 then some []
  else match p.get? (p.unwrapGroup value) with
    | some (.branch .list es) => some es
    | _ => none

end Pool

namespace Pattern

mutual

/-- The nodes of all names in a pattern, in source order. -/
def names : Pattern → Except InternalFault (List NodeId)
  | name id _ => .ok [id]
  | list ps => namesOfAll ps
  | faulty fault => .error fault

def namesOfAll : List Pattern → Except InternalFault (List NodeId)
  | [] => .ok []
  | p :: ps => do
    let ids ← names p
    let rest ← namesOfAll ps
    return ids ++ rest

end

/-- A computation that adds nodes to a pool, also if it fails. -/
abbrev PoolM := EStateM Error Pool

def PoolM.intern (n : Node) : PoolM NodeId := fun p =>
  let (id, p) := p.intern n
  .ok id p

def PoolM.listItems? (value : NodeId) : PoolM (Option (List NodeId)) := fun p =>
  .ok (p.listItems? value) p

/-- The node for element `i` of a value that is not known yet. -/
def projection (i : Nat) (value : NodeId) : PoolM NodeId := do
  let index ← PoolM.intern (.num (.ofInt i))
  PoolM.intern (.branch .val [index, value])

mutual

/-- The words that a pattern gives to its names when it is bound to a value, in source order. -/
def words (value : NodeId) (offset : Nat) : Pattern → PoolM (List Word)
  | name _ s => return [{ Word.value s offset with nid := value }]
  | list ps => do
    match ← PoolM.listItems? value with
    | some items => wordsOfItems items 0 ps
    | none => wordsOfParts value 0 ps
  | faulty fault => throw (.internal fault)

/-- Binds patterns to the elements of a literal list from position `i` on; there may be fewer. -/
def wordsOfItems (items : List NodeId) (i : Nat) : List Pattern → PoolM (List Word)
  | [] => return []
  | p :: ps => do
    let ws ← words (items.head?.getD 0) i p
    let rest ← wordsOfItems items.tail (i + 1) ps
    return ws ++ rest

/-- Binds patterns to projections out of a value from position `i` on. -/
def wordsOfParts (value : NodeId) (i : Nat) : List Pattern → PoolM (List Word)
  | [] => return []
  | p :: ps => do
    let part ← projection i value
    let ws ← words part i p
    let rest ← wordsOfParts value (i + 1) ps
    return ws ++ rest

end

/-- How the parameters of a function were bound to its arguments. -/
structure Binding where
  words : List Word
  /-- A list pattern met an argument whose elements are known only at the call. -/
  late : Bool

/-- Binds parameters to arguments from position `i` on. A missing argument is absent. A list pattern
takes an argument that is no literal list by its position. -/
def bindAll (args : List NodeId) (i : Nat) : List NodeId → PoolM Binding
  | [] => return ⟨[], false⟩
  | pattern :: patterns => do
    let p ← get
    let arg := args.head?.getD 0
    let late := arg ≠ 0 && p.tag? pattern = some .list && (p.listItems? arg).isNone
    let shape := p.pattern pattern
    let source ←
      if late then do
        let index ← PoolM.intern (.num (.ofInt i))
        PoolM.intern (.branch .arg [index])
      else pure arg
    let ws ← words source i shape
    let rest ← bindAll args.tail (i + 1) patterns
    return ⟨ws ++ rest.words, late || rest.late⟩

/-- The list nodes of the names and of the patterns of some parameters. -/
def lambdaParts (patterns : List NodeId) : PoolM (NodeId × NodeId) := do
  let p ← get
  match namesOfAll (patterns.map p.pattern) with
  | .error fault => throw (.internal fault)
  | .ok names =>
    let names ← PoolM.intern (.branch .list names)
    let pattern ← PoolM.intern (.branch .list patterns)
    return (names, pattern)

end Pattern

end Linefold
