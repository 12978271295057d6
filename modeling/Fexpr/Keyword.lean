import Fexpr.Bindings

/-!
# Keywords

A keyword is an operation that receives its arguments unevaluated. Eight are built in; an embedding
program can add its own, which it tells apart by numbers.
-/

namespace Fexpr

inductive Builtin where
  | var
  | set
  | cond
  | function
  | eq
  | not
  | any
  | all
deriving DecidableEq, Repr

namespace Builtin

def name : Builtin → String
  | var => "var"
  | set => "set"
  | cond => "if"
  | function => "function"
  | eq => "eq"
  | not => "not"
  | any => "any"
  | all => "all"

def every : List Builtin := [var, set, cond, function, eq, not, any, all]

end Builtin

/--
A keyword with its identity. Built-in keywords belong to the table they were made for, and tables
made apart have keywords of their own. A keyword of the embedding program has a number and a name.
-/
inductive Keyword where
  | builtin (table : Nat) (which : Builtin)
  | host (id : Nat) (name : String)
deriving DecidableEq, Repr

namespace Keyword

def name : Keyword → String
  | builtin _ which => which.name
  | host _ name => name

end Keyword

abbrev Keywords := Bindings Keyword

def Keywords.builtins (table : Nat) : Keywords :=
  ⟨Builtin.every.map fun b => (b.name, .builtin table b)⟩

def constantNames : List String := ["null", "true", "false"]

def isReserved (name : String) : Bool :=
  constantNames.contains name || Builtin.every.any (·.name == name)

end Fexpr
