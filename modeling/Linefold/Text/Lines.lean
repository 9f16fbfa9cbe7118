/-!
# Lines

A line ends at a line feed, and a carriage return right before the line feed belongs to the ending.
A text that ends in a line feed has no empty last line.
-/

namespace Linefold

/-- Drops a carriage return at the end of a line that is held backwards. -/
def dropReturn : List Char → List Char
  | '\r' :: cs => cs
  | cs => cs

/-- The lines of a text; `line` holds the current one backwards. -/
def splitLines (line : List Char) : List Char → List (List Char)
  | [] => if line.isEmpty then [] else [line.reverse]
  | c :: cs => if c = '\n' then (dropReturn line).reverse :: splitLines [] cs
    else splitLines (c :: line) cs

/-- The lines of a text, without their endings. -/
def linesOf (text : String) : List String :=
  (splitLines [] text.toList).map String.ofList

example : splitLines [] "a\r\n\nb\r".toList = ["a".toList, [], "b\r".toList] := by decide

example : splitLines [] "a\n".toList = ["a".toList] := by decide

end Linefold
