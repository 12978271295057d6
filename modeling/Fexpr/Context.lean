import Fexpr.Diagnostic
import Fexpr.Store.Basic
import Fexpr.Token.Lexeme

/-!
# Contexts

What a program can rely on: the keywords known while it is compiled, and the values that its root
scope starts with. An embedding program adds to a context under names that a program can write and
that are not reserved.
-/

namespace Fexpr

inductive NameError where
  | reserved (name : String)
  | invalid (name : String)
deriving DecidableEq, Repr

def NameError.diagnostic : NameError → Diagnostic
  | reserved name =>
    ⟨s!"`{name}` is a built-in keyword and cannot be redefined", "host::reserved", none, []⟩
  | invalid name => ⟨s!"`{name}` is not a valid identifier", "host::invalid_name", none, []⟩

def isName (s : String) : Bool :=
  match s.toList with
  | [] => false
  | c :: cs => Lexeme.isNameStart c && cs.all Lexeme.isNamePart

def checkName (name : String) : Except NameError Unit :=
  if !isName name then .error (.invalid name)
  else if isReserved name then .error (.reserved name)
  else .ok ()

structure Context where
  keywords : Keywords
  values : Bindings Value
deriving Repr

namespace Context

def constants : Bindings Value :=
  ⟨[("null", .null), ("true", .boolean true), ("false", .boolean false)]⟩

def ofKeywords (keywords : Keywords) : Context := ⟨keywords, constants⟩

/-- The context of the built-in keywords, told apart from others by a number. -/
def builtin (table : Nat) : Context := ofKeywords (.builtins table)

/-- Adds a keyword, in place of an earlier one of the same name. -/
def register (c : Context) (name : String) (k : Keyword) : Except NameError Context := do
  checkName name
  return { c with keywords := c.keywords.insert name k }

def define (c : Context) (name : String) (v : Value) : Except NameError Context := do
  checkName name
  return { c with values := c.values.insert name v }

def newScope (c : Context) (σ : Store) : Scope × Store := σ.addRoot c.keywords c.values

end Context

end Fexpr
