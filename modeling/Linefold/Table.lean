import Linefold.Error
import Linefold.Json
import Linefold.Pool

/-!
# Tables

A table is a pool as one JSON object: a field for each node, named by its id, and the fields `root`
and `version`. Numbers and strings stand for themselves, every other node is an object with its tag
and its children's ids or its payload.

`Pool.toTable` writes a table. `Pool.ofTable?` rebuilds a pool: the ids must be dense and every child
older than its parent. Equal entries become one node, so ids may shift.
-/

namespace Linefold

/-! ### Writing -/

namespace Table

/-- A node that is written as an object. -/
def tagged (tag : Tag) (elts : List Json) : Json :=
  .ofFields [("tag", .string tag.name), ("elts", .array elts)]

/-- The largest whole number below which all whole numbers are binary64 values. -/
def maxExact : Nat := Nat.pow 2 53 - 1

/-- A whole number of moderate size is written as such, another finite number with its digits, and
the rest by their texts. -/
def ofNumber (x : Number) : Json :=
  match x.toInt?.filter fun n => n.natAbs ≤ maxExact with
  | some n => .integer n
  | none => if x.isFinite then .float x else tagged .num [.string x.text]

/-- The entry of a node. -/
def ofNode : Node → Json
  | .num x => ofNumber x
  | .str s => .string s
  | .ident name => tagged .ident [.string name]
  | .bool b => tagged .bool [.bool b]
  | .null => tagged .null []
  | .branch t es => tagged t (es.map .ofNat)

end Table

/-- The nodes of a pool with a root and a version. -/
def Pool.toTable (p : Pool) (root : NodeId) (version : String) : Json :=
  let entries := p.nodes.toList.zipIdx.map fun (n, i) => ((i + 1).repr, Table.ofNode n)
  .ofFields (entries ++ [("root", .ofNat root), ("version", .string version)])

/-! ### Reading -/

namespace Table

/-- The id that a field name stands for: a whole number of 64 bits, after an optional plus sign. -/
def idOfKey? (key : String) : Option Nat :=
  let ds := match key.toList with
    | '+' :: ds => ds
    | ds => ds
  if ds.isEmpty || !ds.all Char.isDigit then none
  else
    let n := ds.foldl (fun n c => 10 * n + (c.toNat - '0'.toNat)) 0
    if n < Nat.pow 2 64 then some n else none

/-- The node that the child `x` of entry `id` means. Only older entries can be children. -/
def child (ids : Array NodeId) (id : Nat) (x : Json) : Except EntryFault NodeId :=
  match x.nat? with
  | none => .error .childNotAnId
  | some c => if c = 0 ∨ id ≤ c then .error .childOutOfRange else .ok (ids[c]?.getD 0)

/-- The first element of an entry. -/
def payload : List Json → Except EntryFault Json
  | [] => .error .missingPayload
  | x :: _ => .ok x

/-- The payload of an entry in the form that its tag asks for. -/
def payloadAs {α : Type} (form : Json → Option α) (fault : EntryFault) (elts : List Json) :
    Except EntryFault α := do
  match form (← payload elts) with
  | some a => .ok a
  | none => .error fault

/-- A number in a tagged entry may also be given by its text. -/
def taggedNumber? : Json → Option Number
  | .string s => some (.ofText s)
  | x => x.number?

/-- The node that entry `id` describes, where `ids` gives the nodes of the older entries. -/
def nodeOfEntry (ids : Array NodeId) (id : Nat) : Json → Except EntryFault Node
  | .integer n => .ok (.num (.ofInt n))
  | .float x => .ok (.num x)
  | .string s => .ok (.str s)
  | .object fields =>
    match ((Json.object fields).field? "tag").bind Json.string? with
    | none => .error .missingTag
    | some name =>
      let elts := (((Json.object fields).field? "elts").bind Json.array?).getD []
      match Tag.ofName? name with
      | none => .error .unknownTag
      | some .null => .ok .null
      | some .bool => (payloadAs Json.bool? .boolPayload elts).map .bool
      | some .ident => (payloadAs Json.string? .identPayload elts).map .ident
      | some .str => (payloadAs Json.string? .strPayload elts).map .str
      | some .num => (payloadAs taggedNumber? .numPayload elts).map .num
      | some t => (elts.mapM (child ids id)).map (.branch t)
  | _ => .error .notANode

/-- Interns entries in turn. `ids` gives the node of each entry so far, with the absent node at zero,
so that its size is the id that comes next. -/
def addEntries (p : Pool) (ids : Array NodeId) :
    List (Nat × Json) → Except ImportFault (Pool × Array NodeId)
  | [] => .ok (p, ids)
  | (id, x) :: entries =>
    if id ≠ ids.size then .error (.gap id)
    else match nodeOfEntry ids id x with
      | .error fault => .error (.entry id fault)
      | .ok n =>
        let (nid, p) := p.intern n
        addEntries p (ids.push nid) entries

/-- The entries of a table by id; fields with one id stay in the order of their names. -/
def entries (fields : List (String × Json)) : List (Nat × Json) :=
  ((Json.sortFields fields).filterMap fun (key, x) => (idOfKey? key).map (·, x)).mergeSort
    fun e f => e.1 ≤ f.1

end Table

/-- The pool that a table describes, and its root. -/
def Pool.ofTable? (table : Json) : Except ImportFault (Pool × NodeId) :=
  match table with
  | .object fields => do
    let (p, ids) ← Table.addEntries .empty #[0] (Table.entries fields)
    match (table.field? "root").bind Json.nat? with
    | none => .error .missingRoot
    | some root =>
      match ids[root]? with
      | none => .error (.rootOutside root)
      | some id => .ok (p, id)
  | _ => .error .notAnObject

end Linefold
