import Linefold.Text.Cluster

/-!
# Backspaces

A backspace takes back the cluster before it. Clusters are taken back by their widths in bytes, and a
width is kept in one byte, so of a cluster of 256 bytes or more only the rest beyond a multiple of 256
goes. `typed?_of_not_mem` says that a text without backspaces stays as it is.
-/

namespace Linefold.Text

def backspace : Char := '\x08'

/-- The number of bytes of a text. -/
def byteWidth (s : List Char) : Nat := s.foldr (fun c n => c.utf8Size + n) 0

/-- Drops `n` bytes of a text; none if that cuts a character in two. -/
def dropBytes? : Nat → List Char → Option (List Char)
  | 0, s => some s
  | _ + 1, [] => none
  | n + 1, c :: s => if c.utf8Size ≤ n + 1 then dropBytes? (n + 1 - c.utf8Size) s else none

/-- What is typed after some text, by its clusters. `kept` holds that text backwards, and `widths` the
widths of its clusters, last first. -/
def typedFrom (kept : List Char) (widths : List Nat) : List (List Char) → Option (List Char)
  | [] => some kept.reverse
  | g :: gs =>
    if g = [backspace] then
      match widths with
      | [] => typedFrom kept [] gs
      | w :: widths =>
        match dropBytes? w kept with
        | some kept => typedFrom kept widths gs
        | none => none
    else typedFrom (g.reverse ++ kept) (byteWidth g % 256 :: widths) gs

/-- A text as it stands after its backspaces; none if one cuts a character in two. -/
def typed? (s : String) : Option String :=
  (typedFrom [] [] (clusters s.toList)).map String.ofList

theorem typedFrom_of_not_mem {gs : List (List Char)} (h : backspace ∉ gs.flatten)
    (kept : List Char) (widths : List Nat) :
    typedFrom kept widths gs = some (kept.reverse ++ gs.flatten) := by
  induction gs generalizing kept widths with
  | nil => simp [typedFrom]
  | cons g gs ih =>
    simp only [List.flatten_cons, List.mem_append, not_or] at h
    have hg : g ≠ [backspace] := fun hg => h.1 (hg ▸ List.mem_singleton.2 rfl)
    cases widths <;> simp [typedFrom, hg, ih h.2]

/-- Without backspaces a text stays as it is. -/
theorem typed?_of_not_mem {s : String} (h : backspace ∉ s.toList) : typed? s = some s := by
  rw [typed?, typedFrom_of_not_mem (by rwa [flatten_clusters]), flatten_clusters]
  simp

example : typedFrom [] [] (clusters "12\x08".toList) = some ['1'] := by decide +kernel

example : typedFrom [] [] (clusters "a\x08\x08b".toList) = some ['b'] := by decide +kernel

end Linefold.Text
