import Fexpr.Number.Basic

/-!
# Decimal numerals

Reading a decimal numeral gives the nearest number.
-/

namespace Fexpr

structure Decimal where
  negative : Bool
  digits : Nat
  exponent : Int
deriving DecidableEq, Repr

namespace Decimal

/--
The rank nearest to `digits · 10^exponent`. Since ten is at least eight, the binary logarithm alone
shows that a numeral is beyond every finite number, or less than half of the least positive one;
the power is computed only for the others.
-/
def rank (digits : Nat) : Int → Nat
  | .ofNat e =>
    if digits = 0 then 0
    else if 1024 ≤ digits.log2 + 3 * e then Number.finiteCount
    else Number.nearestRank (digits * Nat.pow 10 e) 1
  | .negSucc e =>
    if digits = 0 then 0
    else if digits.log2 + 1077 ≤ 3 * (e + 1) then 0
    else Number.nearestRank digits (Nat.pow 10 (e + 1))

def toNumber (d : Decimal) : Number := Number.ofRank d.negative (rank d.digits d.exponent)

def digitsValue (cs : List Char) : Nat := Nat.ofDigitChars 10 cs 0

def splitSign : List Char → Bool × List Char
  | '-' :: cs => (true, cs)
  | '+' :: cs => (false, cs)
  | cs => (false, cs)

def splitFraction : List Char → List Char × List Char
  | '.' :: cs => (cs.takeWhile Char.isDigit, cs.dropWhile Char.isDigit)
  | cs => ([], cs)

/-- The value of an exponent that is a whole text. No text is exponent zero. -/
def exponentValue? : List Char → Option Int
  | [] => some 0
  | mark :: cs =>
    let (negative, digits) := splitSign cs
    if (mark = 'e' ∨ mark = 'E') ∧ digits ≠ [] ∧ digits.all Char.isDigit then
      some (if negative then -(digitsValue digits : Int) else digitsValue digits)
    else none

/-- The numeral that a text is: a sign, digits, a fraction and an exponent, of which only some digits
are needed. -/
def ofChars? (cs : List Char) : Option Decimal :=
  let (negative, cs) := splitSign cs
  let whole := cs.takeWhile Char.isDigit
  let (fraction, rest) := splitFraction (cs.dropWhile Char.isDigit)
  if whole = [] ∧ fraction = [] then none
  else (exponentValue? rest).map fun e =>
    ⟨negative, digitsValue (whole ++ fraction), e - fraction.length⟩

end Decimal

def Number.ofText? (text : String) : Option Number :=
  (Decimal.ofChars? text.toList).map Decimal.toNumber

end Fexpr
