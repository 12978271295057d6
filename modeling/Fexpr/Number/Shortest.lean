import Fexpr.Number.Decimal

/-!
# Shortest decimal digits

The digits written for a number are the fewest that read back as it. Among as many digits the
nearest are taken. They are found by trying the two neighbours of the number on the grids of one,
two, … seventeen digits; the exact digits stand last.
-/

namespace Fexpr

inductive Tie where
  | up
  | even
deriving DecidableEq, Repr

structure Digits where
  chars : List Char
  leading : Int
deriving DecidableEq, Repr

namespace Digits

def ofScaled (n : Nat) (exponent : Int) : Digits :=
  let cs := Nat.toDigits 10 n
  ⟨(cs.reverse.dropWhile (· == '0')).reverse, exponent + cs.length - 1⟩

def leadingPower (rank : Nat) : Int :=
  (Nat.toDigits 10 (Number.units rank * Nat.pow 10 400 / Number.unitsPerOne)).length - 401

/-- The better neighbour of a magnitude among the multiples of `10^exponent`, if one reads back. -/
def onGrid? (tie : Tie) (rank : Nat) (exponent : Int) : Option Digits :=
  let exact := Number.units rank * Nat.pow 10 (-exponent).toNat
  let step := Number.unitsPerOne * Nat.pow 10 exponent.toNat
  let low := exact / step
  let rest := exact % step
  let lowReads := Decimal.rank low exponent = rank
  let highReads := Decimal.rank (low + 1) exponent = rank
  let preferLow := 2 * rest < step ∨ (2 * rest = step ∧ tie = .even ∧ low % 2 = 0)
  if lowReads ∧ (preferLow ∨ ¬ highReads) then some (ofScaled low exponent)
  else if highReads then some (ofScaled (low + 1) exponent)
  else none

def exact (rank : Nat) : Digits := ofScaled (Number.units rank * Nat.pow 5 1074) (-1074)

/-- The fewest digits that read back as a positive magnitude. -/
def shortest (tie : Tie) (rank : Nat) : Digits :=
  let p := leadingPower rank
  ((List.range 17).findSome? fun (k : Nat) => onGrid? tie rank (p - k)).getD (exact rank)

def zeros (n : Nat) : List Char := List.replicate n '0'

def positional (d : Digits) : List Char × List Char :=
  match d.leading with
  | .negSucc e => (['0'], zeros e ++ d.chars)
  | .ofNat e =>
    if d.chars.length ≤ e + 1 then (d.chars ++ zeros (e + 1 - d.chars.length), [])
    else (d.chars.take (e + 1), d.chars.drop (e + 1))

end Digits

end Fexpr
