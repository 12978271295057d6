import Fexpr.Code.Basic
import Fexpr.Number.Display

/-!
# Values

Functions are known by their place in the store, and objects of the embedding program by a number
that it gives them; both are equal only to themselves.
-/

namespace Fexpr

/-- An object of the embedding program: its number, the name of its type, and a byte if it holds one
that the program may read. -/
structure HostObject where
  id : Nat
  typeName : String
  byte? : Option UInt8
deriving DecidableEq, Repr

inductive Value where
  | null
  | number (value : Number)
  | string (value : String)
  | boolean (value : Bool)
  | function (index : Nat)
  | keyword (keyword : Keyword)
  | host (object : HostObject)
deriving DecidableEq, Repr, Inhabited

namespace Value

def ofLiteral : Literal → Value
  | .number n => .number n
  | .string s => .string s

def typeName : Value → String
  | null => "null"
  | number _ => "number"
  | string _ => "string"
  | boolean _ => "boolean"
  | function _ => "function"
  | keyword _ => "keyword"
  | host _ => "host object"

/-- Everything but null and false counts as true. -/
def isTruthy : Value → Bool
  | null | boolean false => false
  | _ => true

/-- Equality in programs: by value for numbers, texts and truth values, by identity for the rest. -/
def equal : Value → Value → Bool
  | null, null => true
  | number a, number b => a.equal b
  | string a, string b => a == b
  | boolean a, boolean b => a == b
  | function a, function b => a == b
  | keyword a, keyword b => a == b
  | host a, host b => a == b
  | _, _ => false

end Value

end Fexpr
