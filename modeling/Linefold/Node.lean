import Linefold.Literal

/-!
# Nodes

A node of the pool: a leaf with its payload or a tag over the ids of its children. A node is its
own key, so two nodes are the same entry of a pool exactly when they are equal. Nodes are ordered by
their form, then by their payload or their children, so that a pool can find them.
-/

namespace Linefold

/-- The number of a node in its pool. Ids start at one; zero is the absent node. -/
abbrev NodeId := Nat

/-- A node over children that are given by id. -/
inductive Node where
  | num (x : Number)
  | str (s : String)
  | ident (name : String)
  | bool (b : Bool)
  | null
  | branch (tag : Tag) (elts : List NodeId)
  deriving DecidableEq

namespace Node

def tag : Node → Tag
  | num _ => .num
  | str _ => .str
  | ident _ => .ident
  | bool _ => .bool
  | null => .null
  | branch t _ => t

/-- The children of a node, none for a leaf. -/
def elts : Node → List NodeId
  | branch _ es => es
  | _ => []

/-- The payload of a literal. -/
def literal? : Node → Option Literal
  | num x => some (.text x.text)
  | str s => some (.text s)
  | bool b => some (.bool b)
  | null => some .null
  | _ => none

/-- The node is a number, a string, a boolean or null. -/
def isLiteral : Node → Bool
  | num _ | str _ | bool _ | null => true
  | _ => false

theorem isSome_literal? (n : Node) : n.literal?.isSome = n.isLiteral := by
  cases n <;> rfl

def number? : Node → Option Number
  | num x => some x
  | _ => none

/-- The node with every child beyond `size` made absent. -/
def within (size : Nat) : Node → Node
  | branch t es => branch t (es.map fun c => if c ≤ size then c else 0)
  | n => n

theorem le_of_mem_elts_within {size : Nat} {n : Node} {c : NodeId}
    (h : c ∈ (n.within size).elts) : c ≤ size := by
  cases n with
  | branch t es =>
    obtain ⟨d, _, rfl⟩ := List.mem_map.1 h
    split
    · assumption
    · exact Nat.zero_le _
  | _ => simp [within, elts] at h

theorem within_eq_self {size : Nat} {n : Node} (h : ∀ c ∈ n.elts, c ≤ size) :
    n.within size = n := by
  cases n with
  | branch t es =>
    have : es.map (fun c => if c ≤ size then c else 0) = es.map id :=
      List.map_congr_left fun c hc => by simp [h c hc]
    simp [within, this]
  | _ => rfl

/-! ### Order -/

/-- What nodes are ordered by: a number for the form, then the payload or the children. -/
def key : Node → List Nat
  | num x => [0, x.bits.toNat]
  | str s => 1 :: s.toList.map Char.toNat
  | ident name => 2 :: name.toList.map Char.toNat
  | bool b => [3, b.toNat]
  | null => [4]
  | branch t es => 5 :: t.ctorIdx :: es

theorem chars_inj {s t : String} (h : s.toList.map Char.toNat = t.toList.map Char.toNat) : s = t :=
  String.toList_inj.1 ((List.map_inj_right fun _ _ => Char.toNat_inj.1).1 h)

theorem key_inj {m n : Node} (h : m.key = n.key) : m = n := by
  cases m <;> cases n <;> simp only [key, List.cons.injEq, and_true, true_and] at h
  case num.num x y => exact congrArg num (Number.mk.injEq .. ▸ UInt64.toNat_inj.1 h)
  case str.str s t => rw [chars_inj h]
  case ident.ident s t => rw [chars_inj h]
  case bool.bool b c => cases b <;> cases c <;> first | rfl | cases h
  case null.null => rfl
  case branch.branch t es u fs => rw [h.2, ← Tag.ofNat_ctorIdx t, h.1, Tag.ofNat_ctorIdx]
  all_goals exact absurd h.1 (by decide)

instance : Ord Node := ⟨compareOn key⟩

instance : Std.TransOrd Node := inferInstanceAs (Std.TransCmp (compareOn key))

instance : Std.LawfulEqOrd Node where
  compare_self := (inferInstance : Std.ReflCmp (compareOn key)).compare_self
  eq_of_compare h := key_inj (Std.LawfulEqCmp.eq_of_compare h)

end Node

end Linefold
