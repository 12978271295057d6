/-!
# Numbers

The numbers of the language are those of binary floating point with 53 significant bits. A finite
number has a sign and a magnitude, and the magnitude is given by its rank: its place in the list of
all magnitudes, which are the multiples `units` of the least positive one, `2^-1074`.

The 2^52 magnitudes of rank below 2^52 and the next 2^52 are adjacent multiples of the unit; after
that, every further stretch of 2^52 ranks has twice the spacing of the one before.
-/

namespace Fexpr

def Number.finiteCount : Nat := 2047 * Nat.pow 2 52

inductive Number where
  | nan
  | infinity (negative : Bool)
  | finite (negative : Bool) (rank : Fin Number.finiteCount)
deriving DecidableEq, Repr

namespace Number

def significand (rank : Nat) : Nat :=
  if rank < Nat.pow 2 52 then rank else Nat.pow 2 52 + rank % Nat.pow 2 52

def scale (rank : Nat) : Nat := rank / Nat.pow 2 52 - 1

/-- The magnitude of a rank in multiples of `2^-1074`. -/
def units (rank : Nat) : Nat := significand rank * Nat.pow 2 (scale rank)

def unitsPerOne : Nat := Nat.pow 2 1074

/-- The number with a given sign and rank; the rank after the last finite one is infinity. -/
def ofRank (negative : Bool) (rank : Nat) : Number :=
  if h : rank < finiteCount then .finite negative ⟨rank, h⟩ else .infinity negative

def zero : Number := ofRank false 0

instance : Inhabited Number := ⟨zero⟩

/--
The rank of the magnitude nearest to the fraction `num / den`, the even one of two that are equally
near. Too large a fraction gets a rank that is not finite.
-/
def nearestRank (num den : Nat) : Nat :=
  let exact := num * unitsPerOne
  let s := (exact / den).log2 - 52
  let spacing := Nat.pow 2 s * den
  let m := exact / spacing
  let rest := exact % spacing
  let up := spacing < 2 * rest ∨ (spacing = 2 * rest ∧ m % 2 = 1)
  s * Nat.pow 2 52 + m + (if up then 1 else 0)

def ofNat (n : Nat) : Number := ofRank false (nearestRank n 1)

def ofInt (n : Int) : Number := ofRank (decide (n < 0)) (nearestRank n.natAbs 1)

/-- Numerical equality: not-a-number equals nothing, and the two zeros are equal. -/
def equal : Number → Number → Bool
  | infinity a, infinity b => a == b
  | finite a r, finite b s => r == s && (a == b || r.val == 0)
  | _, _ => false

def isFinite : Number → Bool
  | finite _ _ => true
  | _ => false

def wholePart (rank : Nat) : Nat := units rank / unitsPerOne

def isWhole (rank : Nat) : Bool := units rank % unitsPerOne == 0

/-- The 64 bits of a number: sign, biased exponent and fraction. There are none for not-a-number. -/
def bits? : Number → Option Nat
  | nan => none
  | infinity negative => some ((if negative then Nat.pow 2 63 else 0) + finiteCount)
  | finite negative rank => some ((if negative then Nat.pow 2 63 else 0) + rank)

end Number

end Fexpr
