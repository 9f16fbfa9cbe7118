import Linefold.Json.Printer
import Linefold.Session

/-!
# What editors are shown

Diagnostics, highlights and spans as JSON, with their fields in a fixed order.
-/

namespace Linefold

def Position.toJson (p : Position) : Json :=
  .object [("line", .ofNat p.line), ("ch", .ofNat p.column)]

def Span.toJson (s : Span) : Json :=
  .object [("line", .ofNat s.line), ("start", .ofNat s.start), ("end", .ofNat s.stop)]

def Diagnostic.toJson (d : Diagnostic) : Json :=
  .object [("from", d.first.toJson), ("to", d.last.toJson), ("message", .string d.message),
    ("severity", .string "error")]

def Highlight.toJson (h : Highlight) : Json :=
  .object [("span", h.span.toJson), ("class", .string h.cls.name)]

end Linefold
