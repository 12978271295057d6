import Fexpr.Number.Shortest

/-!
# Numbers as text

Whole numbers below 10^15 are written as integers, so that zero has no sign. All others are written
with the fewest digits that read back, without an exponent.
-/

namespace Fexpr

/-- Digits without an exponent, and with a point only in front of a fraction. -/
def Digits.positionalText (d : Digits) : String :=
  match d.positional with
  | (whole, []) => String.ofList whole
  | (whole, fraction) => String.ofList (whole ++ '.' :: fraction)

namespace Number

def sign (negative : Bool) : String := if negative then "-" else ""

def display : Number → String
  | nan => "NaN"
  | infinity negative => sign negative ++ "inf"
  | finite negative rank =>
    if isWhole rank ∧ wholePart rank < Nat.pow 10 15 then
      sign (negative && rank.val != 0) ++ toString (wholePart rank)
    else sign negative ++ (Digits.shortest .up rank).positionalText

end Number

end Fexpr
