import Fexpr.Store.Basic
import Fexpr.Text.Quoted

/-!
# Values as text

A value is displayed as itself, a string as its bare text. Debug texts differ for strings only,
which they show in quotes. The parameters of a function are read from the store.
-/

namespace Fexpr.Store

def params (σ : Store) (index : Nat) : List String :=
  match σ.function? index with
  | some f => f.params
  | none => []

def display (σ : Store) : Value → String
  | .null => "null"
  | .number n => n.display
  | .string s => s
  | .boolean b => if b then "true" else "false"
  | .function index => "<function(" ++ ", ".intercalate ((σ.params index).map ("@" ++ ·)) ++ ")>"
  | .keyword k => "<keyword " ++ k.name ++ ">"
  | .host o => "<host " ++ o.typeName ++ ">"

def debug (σ : Store) : Value → String
  | .string s => Text.quoted s
  | v => σ.display v

end Fexpr.Store
