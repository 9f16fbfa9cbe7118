/-!
# Node tags

A tag names the kind of a node. Five tags belong to leaves, the others to nodes with children; the
fourteen binary operators among them have a precedence.
-/

namespace Linefold

/-- The kind of a node. -/
inductive Tag where
  | num | str | ident | bool | null
  | prog | exprs | paren | lambda | apply | list | record | binding | case | of
  | add | sub | div | mod | pow | concat
  | or | and
  | eq | ne | lt | gt | le | ge
  | neg
  /-- Element `i` of a value that is known only at the call: children are the index and the value. -/
  | val
  /-- The argument in a given position, known only at the call. -/
  | arg
  deriving DecidableEq, Repr

namespace Tag

/-- Every tag, in the order of declaration. -/
def all : List Tag :=
  [num, str, ident, bool, null, prog, exprs, paren, lambda, apply, list, record, binding, case, of,
    add, sub, div, mod, pow, concat, or, and, eq, ne, lt, gt, le, ge, neg, val, arg]

/-- The written form of a tag. -/
def name : Tag → String
  | num => "NUM"
  | str => "STR"
  | ident => "IDENT"
  | bool => "BOOL"
  | null => "NULL"
  | prog => "PROG"
  | exprs => "EXPRS"
  | paren => "PAREN"
  | lambda => "LAMBDA"
  | apply => "APPLY"
  | list => "LIST"
  | record => "RECORD"
  | binding => "BINDING"
  | case => "CASE"
  | of => "OF"
  | add => "ADD"
  | sub => "SUB"
  | div => "DIV"
  | mod => "MOD"
  | pow => "POW"
  | concat => "CONCAT"
  | or => "OR"
  | and => "AND"
  | eq => "EQ"
  | ne => "NE"
  | lt => "LT"
  | gt => "GT"
  | le => "LE"
  | ge => "GE"
  | neg => "NEG"
  | val => "VAL"
  | arg => "ARG"

/-- The tag written `s`, if there is one. -/
def ofName? (s : String) : Option Tag :=
  all.find? fun t => t.name = s

theorem mem_all (t : Tag) : t ∈ all := by
  cases t <;> decide

theorem ofName?_name (t : Tag) : ofName? t.name = some t := by
  cases t <;> decide

theorem name_of_ofName? {s : String} {t : Tag} (h : ofName? s = some t) : t.name = s := by
  simpa using List.find?_some h

theorem name_injective {s t : Tag} (h : s.name = t.name) : s = t := by
  have := ofName?_name s
  rw [h, ofName?_name t] at this
  exact (Option.some.inj this).symm

/-- Leaves carry a payload, or nothing, in place of children. -/
def isLeaf : Tag → Bool
  | num | str | ident | bool | null => true
  | _ => false

/-- How tightly a binary operator binds; other tags have no precedence. -/
def precedence? : Tag → Option Nat
  | or => some 1
  | and => some 2
  | eq | ne => some 3
  | lt | gt | le | ge => some 4
  | concat | add | sub => some 5
  | div | mod => some 6
  | pow => some 7
  | _ => none

/-- The precedence of an operator, zero for any other tag. -/
def precedence (t : Tag) : Nat := t.precedence?.getD 0

def isOperator (t : Tag) : Bool := t.precedence?.isSome

theorem isLeaf_eq_false_of_isOperator {t : Tag} (h : t.isOperator = true) : t.isLeaf = false := by
  cases t <;> first | rfl | simp [isOperator, precedence?] at h

end Tag

end Linefold
