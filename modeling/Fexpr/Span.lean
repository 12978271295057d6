/-!
# Spans of source text

A span is a half-open range of byte offsets into the UTF-8 form of a text. Spans built by hand may
run backwards; such a span is empty.
-/

namespace Fexpr

structure Span where
  start : Nat
  stop : Nat
deriving DecidableEq, Repr, Inhabited

namespace Span

/-- The number of bytes covered, zero for a span that runs backwards. -/
def size (s : Span) : Nat := s.stop - s.start

def isEmpty (s : Span) : Bool := s.size == 0

def point (offset : Nat) : Span := ⟨offset, offset⟩

def merge (a b : Span) : Span := ⟨min a.start b.start, max a.stop b.stop⟩

/-- The same range in a text with `n` more bytes in front. -/
def shift (s : Span) (n : Nat) : Span := ⟨s.start + n, s.stop + n⟩

end Span

end Fexpr
