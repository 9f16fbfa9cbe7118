import Linefold.Literal

/-!
# Trees

A node with its children spelled out, and its text: `(ADD 1 x)`, `"str"`, `true`, `null`.
-/

namespace Linefold

/-- A fully nested node. -/
inductive Tree where
  | num (x : Number)
  | str (s : String)
  | ident (name : String)
  | bool (b : Bool)
  | null
  | node (tag : Tag) (elts : List Tree)

namespace Tree

def tag : Tree → Tag
  | num _ => .num
  | str _ => .str
  | ident _ => .ident
  | bool _ => .bool
  | null => .null
  | node t _ => t

/-- The children of a tree, none for a leaf. -/
def elts : Tree → List Tree
  | node _ ts => ts
  | _ => []

/-! ### Text -/

/-- A character inside quotes. -/
def escape : Char → List Char
  | '\n' => ['\\', 'n']
  | '\t' => ['\\', 't']
  | '\\' => ['\\', '\\']
  | '"' => ['\\', '"']
  | c => [c]

mutual

/-- The text of a tree, followed by `rest`. -/
def write (rest : List Char) : Tree → List Char
  | num x => x.chars ++ rest
  | str s => '"' :: (s.toList.flatMap escape ++ '"' :: rest)
  | ident name => name.toList ++ rest
  | bool b => (if b then "true" else "false").toList ++ rest
  | null => "null".toList ++ rest
  | node t ts => '(' :: (t.name.toList ++ writeAll (')' :: rest) ts)

/-- The texts of some trees, each after a space, followed by `rest`. -/
def writeAll (rest : List Char) : List Tree → List Char
  | [] => rest
  | t :: ts => ' ' :: write (writeAll rest ts) t

end

/-- The written form of a tree. -/
def text (t : Tree) : String := String.ofList (t.write [])

end Tree

end Linefold
