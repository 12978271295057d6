import Fexpr.Span

/-!
# Diagnostics

What an error says to a reader: a message, a code, perhaps some advice, and labels that point at the
source text.
-/

namespace Fexpr

structure Label where
  text : String
  offset : Nat
  size : Nat
deriving DecidableEq, Repr

structure Diagnostic where
  message : String
  code : String
  help : Option String
  labels : List Label
deriving DecidableEq, Repr

def Span.label (s : Span) (text : String) : Label := ⟨text, s.start, s.size⟩

end Fexpr
