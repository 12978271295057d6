import Fexpr.Number.Basic

/-!
# Arithmetic

Each operation gives the number nearest to the exact result. Magnitudes are counted in units, so
the exact results are fractions of natural numbers.
-/

namespace Fexpr.Number

def mulRank (r s : Nat) : Nat := nearestRank (units r * units s) (unitsPerOne * unitsPerOne)

def divRank (r s : Nat) : Nat := nearestRank (units r) (units s)

def signedUnits (negative : Bool) (rank : Nat) : Int :=
  if negative then -(units rank : Int) else units rank

def neg : Number → Number
  | nan => nan
  | infinity negative => infinity (!negative)
  | finite negative rank => finite (!negative) rank

/-- A sum of zero is negative only if both terms are. -/
def add : Number → Number → Number
  | nan, _ | _, nan => nan
  | infinity a, infinity b => if a = b then infinity a else nan
  | infinity a, finite _ _ => infinity a
  | finite _ _, infinity b => infinity b
  | finite a r, finite b s =>
    let sum := signedUnits a r + signedUnits b s
    let negative := if sum = 0 then a && b else decide (sum < 0)
    ofRank negative (nearestRank sum.natAbs unitsPerOne)

def sub (x y : Number) : Number := add x (neg y)

def mul : Number → Number → Number
  | nan, _ | _, nan => nan
  | infinity a, infinity b => infinity (a ^^ b)
  | infinity a, finite b s => if s.val = 0 then nan else infinity (a ^^ b)
  | finite a r, infinity b => if r.val = 0 then nan else infinity (a ^^ b)
  | finite a r, finite b s => ofRank (a ^^ b) (mulRank r s)

def div : Number → Number → Number
  | nan, _ | _, nan | infinity _, infinity _ => nan
  | infinity a, finite b _ => infinity (a ^^ b)
  | finite a _, infinity b => ofRank (a ^^ b) 0
  | finite a r, finite b s =>
    if s.val = 0 then
      if r.val = 0 then nan else infinity (a ^^ b)
    else ofRank (a ^^ b) (divRank r s)

def lt : Number → Number → Bool
  | nan, _ | _, nan => false
  | infinity a, infinity b => a && !b
  | infinity a, finite _ _ => a
  | finite _ _, infinity b => !b
  | finite a r, finite b s => decide (signedUnits a r < signedUnits b s)

/-- A number as a count up to `most`: the part after the point is dropped, and what is below zero or
no number counts as zero. -/
def count (most : Nat) : Number → Nat
  | nan => 0
  | infinity negative => if negative then 0 else most
  | finite negative rank => if negative then 0 else min most (wholePart rank)

end Fexpr.Number
