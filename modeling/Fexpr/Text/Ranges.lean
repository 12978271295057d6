/-!
# Ranges of code points

Tables of characters are arrays of closed ranges.
-/

namespace Fexpr.Text

def inRanges (ranges : Array (Nat × Nat)) (n : Nat) : Bool :=
  ranges.any fun (first, last) => first ≤ n && n ≤ last

end Fexpr.Text
