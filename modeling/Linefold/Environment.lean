import Linefold.Config
import Linefold.Error
import Linefold.Node

/-!
# The environment

A stack of scopes over a global scope that is never popped. A scope maps names to words: values,
functions and, in the global scope, the words of the binary operators. Names are kept in the order
in which a scope first saw them.
-/

namespace Linefold

/-! ### Words -/

/-- What a name stands for. -/
inductive WordClass where
  /-- A parameter or a pattern variable. -/
  | value
  /-- A `let` definition. -/
  | function
  /-- A binary operator. -/
  | operator (tag : Tag)
  deriving DecidableEq, Repr

/-- What a function keeps of the scope that it was defined in. -/
structure Closure (W : Type) where
  lexicon : List (String × W)
  /-- The names of the parameters by offset. -/
  params : List String
  /-- The patterns of the parameters in source order. -/
  pattern : List NodeId

/-- The meaning of a name. -/
structure Word where
  cls : WordClass
  name : String
  /-- The place among the parameters that were introduced together. -/
  offset : Nat := 0
  /-- The node that the name is bound to, absent while unknown. -/
  nid : NodeId := 0
  arity : Nat := 0
  closure : Option (Closure Word) := none
  /-- The pattern nodes that introduced a value. -/
  patterns : List NodeId := []

namespace Word

def value (name : String) (offset : Nat) : Word := { cls := .value, name, offset }

def function (name : String) : Word := { cls := .function, name }

def operator (name : String) (tag : Tag) : Word := { cls := .operator tag, name, arity := 2 }

def isValue (w : Word) : Bool := w.cls = .value

def isOperator (w : Word) : Bool := w.cls matches .operator _

end Word

/-! ### Lexicons -/

/-- Words by name. -/
abbrev Lexicon := List (String × Word)

namespace Lexicon

def find? (l : Lexicon) (name : String) : Option Word :=
  match l with
  | [] => none
  | (n, w) :: l => if n = name then some w else find? l name

/-- Gives a name a word, in the place of the word that it had. -/
def insert (l : Lexicon) (name : String) (word : Word) : Lexicon :=
  match l with
  | [] => [(name, word)]
  | (n, w) :: l => if n = name then (name, word) :: l else (n, w) :: insert l name word

/-- Gives every name of `m` its word there. -/
def extend (l m : Lexicon) : Lexicon := m.foldl (fun l (n, w) => l.insert n w) l

def names (l : Lexicon) : List String := l.map Prod.fst

theorem find?_insert (l : Lexicon) (name : String) (word : Word) (n : String) :
    (l.insert name word).find? n = if n = name then some word else l.find? n := by
  induction l with
  | nil => simp [insert, find?, eq_comm]
  | cons p l ih => grind [insert, find?]

/-- The names of the value words by offset. -/
def params (l : Lexicon) : List String :=
  ((l.map Prod.snd).filter Word.isValue).mergeSort (fun v w => v.offset ≤ w.offset) |>.map Word.name

end Lexicon

/-! ### Scopes -/

/-- A named lexicon. -/
structure Scope where
  name : String
  lexicon : Lexicon

namespace Scope

def get? (s : Scope) (name : String) : Option Word := s.lexicon.find? name

def bind (s : Scope) (name : String) (word : Word) : Scope :=
  { s with lexicon := s.lexicon.insert name word }

/-- The names of the value words by offset. -/
def params (s : Scope) : List String := s.lexicon.params

/-- The tag of an operator word. -/
def operator? (s : Scope) (name : String) : Option Tag :=
  match s.get? name with
  | some { cls := .operator t, .. } => some t
  | _ => none

end Scope

/-! ### Environments -/

/-- Nested scopes, innermost first, over the global one. -/
structure Environment where
  inner : List Scope
  globals : Scope
  limit : Nat

namespace Environment

/-- The operator words of every environment. -/
def operatorWords : List (String × Tag) :=
  [("add", .add), ("sub", .sub), ("div", .div), ("mod", .mod), ("pow", .pow), ("concat", .concat),
    ("or", .or), ("and", .and), ("eq", .eq), ("ne", .ne), ("lt", .lt), ("gt", .gt), ("le", .le),
    ("ge", .ge), ("+", .add), ("/", .div), ("%", .mod), ("^", .pow)]

def operatorLexicon (words : List (String × Tag)) : Lexicon :=
  words.foldl (fun l (n, t) => l.insert n (.operator n t)) []

/-- The global scope alone. -/
def initial : Environment where
  inner := []
  globals := ⟨"global", operatorLexicon operatorWords⟩
  limit := ({} : Config).recursionLimit

instance : Inhabited Environment := ⟨initial⟩

/-- The capital ASCII letter that is the upper case of a character, or else the character. Besides
the small ASCII letters the long s and the dotless i have one. -/
def upperChar (c : Char) : Char :=
  if c = '\u017f' then 'S' else if c = '\u0131' then 'I' else c.toUpper

/-- The operator that a tag name means, whatever the case of its letters. -/
def operatorTag? (tagName : String) : Option Tag :=
  (Tag.ofName? (String.ofList (tagName.toList.map upperChar))).filter Tag.isOperator

/-- Adds operator words to the global scope. -/
def addOperators (e : Environment) : List (String × String) → Except Error Environment
  | [] => .ok e
  | (name, tagName) :: rest =>
    match operatorTag? tagName with
    | some t => addOperators { e with globals := e.globals.bind name (.operator name t) } rest
    | none => .error (.notBinaryOperator tagName)

/-- The environment with the configured limit and operator words. -/
def ofConfig (config : Config) : Except Error Environment :=
  addOperators { initial with limit := config.recursionLimit } config.operators

/-- The number of scopes, with the global one. -/
def depth (e : Environment) : Nat := e.inner.length + 1

/-- The innermost scope. -/
def top (e : Environment) : Scope := e.inner.head?.getD e.globals

/-- Opens a scope, unless there are more than the limit already. -/
def enter (e : Environment) (name : String) : Except Error Environment :=
  if e.limit < e.depth then .error (.recursion e.limit)
  else .ok { e with inner := ⟨name, []⟩ :: e.inner }

/-- Closes the innermost scope; the global scope stays. -/
def exit (e : Environment) : Option Scope × Environment :=
  match e.inner with
  | [] => (none, e)
  | s :: inner => (some s, { e with inner })

/-- Closes scopes until at most `depth` are left, or only the global one. -/
def exitTo (e : Environment) (depth : Nat) : Environment :=
  { e with inner := e.inner.drop (e.depth - depth) }

/-- Changes the innermost scope. -/
def modifyTop (e : Environment) (f : Scope → Scope) : Environment :=
  match e.inner with
  | [] => { e with globals := f e.globals }
  | s :: inner => { e with inner := f s :: inner }

/-- Defines a name in the innermost scope. -/
def bind (e : Environment) (name : String) (word : Word) : Environment :=
  e.modifyTop (·.bind name word)

/-- Defines a name in the scope at a depth, the global scope being at zero; nothing happens beyond
the innermost scope. -/
def bindAt (e : Environment) (depth : Nat) (name : String) (word : Word) : Environment :=
  if depth = 0 then { e with globals := e.globals.bind name word }
  else if depth ≤ e.inner.length then
    { e with inner := e.inner.modify (e.inner.length - depth) (·.bind name word) }
  else e

/-- Defines every name of a lexicon in the innermost scope. -/
def extend (e : Environment) (lexicon : Lexicon) : Environment :=
  e.modifyTop fun s => { s with lexicon := s.lexicon.extend lexicon }

/-- The word of a name in the innermost of some scopes that defines it, with the number of scopes
around that one. -/
def find (globals : Scope) (name : String) : List Scope → Option (Nat × Word)
  | [] => (globals.get? name).map (0, ·)
  | s :: outer =>
    match s.get? name with
    | some w => some (outer.length + 1, w)
    | none => find globals name outer

/-- The word of a name and the depth of the scope that defines it. -/
def lookupDepth? (e : Environment) (name : String) : Option (Nat × Word) :=
  find e.globals name e.inner

/-- The word of a name, from the innermost scope that defines it. -/
def lookup? (e : Environment) (name : String) : Option Word :=
  (e.inner.findSome? (·.get? name)).or (e.globals.get? name)

end Environment

end Linefold
