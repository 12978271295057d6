import Fexpr.Number.Arithmetic
import Fexpr.Number.Shortest

/-!
# JSON values
-/

namespace Fexpr

namespace Json

structure Numeral where
  negative : Bool
  whole : List Char
  fraction : List Char
  exponent : Option (Bool × List Char)
deriving DecidableEq, Repr

end Json

/--
A JSON value. The fields of an object keep their order. A string whose escapes name half of a
surrogate pair has no text.
-/
inductive Json where
  | null
  | bool (value : Bool)
  | number (value : Json.Numeral)
  | string (text : Option String)
  | array (items : List Json)
  | object (fields : List (Option String × Json))
deriving Repr

namespace Json

def nestingLimit : Nat := 127

def text (s : String) : Json := .string (some s)

def record (fields : List (String × Json)) : Json := .object (fields.map fun (k, v) => (some k, v))

/--
The values of the named fields. An object has every one of them exactly once, and may have others;
an array has just their values, in order.
-/
def fields? (names : List String) : Json → Option (List Json)
  | .array items => if items.length = names.length then some items else none
  | .object fields =>
    if fields.all (·.1.isSome) then
      names.mapM fun name =>
        match fields.filter (·.1 == some name) with
        | [(_, value)] => some value
        | _ => none
    else none
  | _ => none

namespace Numeral

def ofNat (n : Nat) : Numeral := ⟨false, Nat.toDigits 10 n, [], none⟩

def toNat? (n : Numeral) : Option Nat :=
  let value := Decimal.digitsValue n.whole
  if !n.negative && n.fraction.isEmpty && n.exponent.isNone && value < Nat.pow 2 64 then some value
  else none

/--
A finite number with the fewest digits that read back, of two that are equally near the even one. It
is written with a point if its first digit is at a power of ten from -5 to 15, and with an exponent
otherwise.
-/
def ofFinite (negative : Bool) (rank : Nat) : Numeral :=
  if rank = 0 then ⟨negative, ['0'], ['0'], none⟩ else
    let d := Digits.shortest .even rank
    if -5 ≤ d.leading ∧ d.leading < 16 then
      match d.positional with
      | (whole, []) => ⟨negative, whole, ['0'], none⟩
      | (whole, fraction) => ⟨negative, whole, fraction, none⟩
    else
      ⟨negative, d.chars.take 1, d.chars.drop 1,
        some (decide (d.leading < 0), Nat.toDigits 10 d.leading.natAbs)⟩

def accumulate (n : Nat) : List Char → Nat × List Char
  | [] => (n, [])
  | c :: cs =>
    let next := 10 * n + (c.toNat - '0'.toNat)
    if next < Nat.pow 2 64 then accumulate next cs else (n, c :: cs)

def exponentValue (n : Numeral) : Int :=
  match n.exponent with
  | none => 0
  | some (negative, digits) =>
    if negative then -(Decimal.digitsValue digits : Int) else Decimal.digitsValue digits

def powerRank (exponent : Nat) : Nat := Number.nearestRank (Nat.pow 10 exponent) 1

/--
The magnitude of a rank times a power of ten, rounded after each step: one multiplication or
division by a power up to 10^308, and before that divisions by 10^308. There is none if the result
is not finite.
-/
def scaled (rank : Nat) (exponent : Int) : Option Nat :=
  if rank = 0 then some 0
  else if 308 < exponent then none
  else if exponent < -308 then scaled (Number.divRank rank (powerRank 308)) (exponent + 308)
  else if exponent < 0 then some (Number.divRank rank (powerRank exponent.natAbs))
  else
    let product := Number.mulRank rank (powerRank exponent.natAbs)
    if product < Number.finiteCount then some product else none
termination_by exponent.natAbs

/--
The number that a numeral is read as. Its leading digits are taken as an integer, as far as that
fits into 64 bits, and the rest of the numeral as a power of ten; integer and product are rounded one
after the other, so the result is near the exact one but not always nearest.
-/
def toNumber? (n : Numeral) : Option Number :=
  let (whole, dropped) := accumulate 0 n.whole
  let (digits, unread) := accumulate whole n.fraction
  let places : Int := dropped.length - (n.fraction.length - unread.length : Nat)
  (scaled (Number.nearestRank digits 1) (places + n.exponentValue)).map (Number.ofRank n.negative)

end Numeral

/-- Numbers that are not finite are written as null. -/
def ofNumber : Number → Json
  | .finite negative rank => .number (.ofFinite negative rank)
  | _ => .null

def ofNat (n : Nat) : Json := .number (.ofNat n)

end Json

end Fexpr
