import Fexpr.Eval.Basic

/-!
# Calls

What a keyword is given: its name, the scope of the call and the arguments as code. Arguments are
counted from zero here, and from one in errors.
-/

namespace Fexpr

structure Call where
  name : String
  scope : Scope
  args : List Code
  span : Span

namespace Call

variable {α : Type}

def fail (c : Call) (message : String) : Eval α := Eval.fail (.host c.name message c.span)

/-- An argument of the wrong kind, reported at the argument, or at the call if it is missing. -/
def mismatch (c : Call) (index : Nat) (expected found : String) : Eval α :=
  let span := match c.args[index]? with
    | some code => code.span
    | none => c.span
  Eval.fail (.mismatch c.name (index + 1) expected found span)

def checkArity (c : Call) (a : Arity) : Eval Unit :=
  if a.accepts c.args.length then pure () else
    Eval.fail (.arity c.name a c.args.length c.span)

def describe (c : Call) (index : Nat) : String :=
  match c.args[index]? with
  | some code => code.describe
  | none => "nothing"

def reference (c : Call) (index : Nat) : Eval String :=
  match c.args[index]?.bind Code.referenceName? with
  | some name => pure name
  | none => c.mismatch index "an @reference" (c.describe index)

def referencesFrom (c : Call) (index : Nat) : Eval (List String) :=
  (List.range' index (c.args.length - index)).mapM c.reference

def block (c : Call) (index : Nat) : Eval Body :=
  match c.args[index]?.bind Code.body? with
  | some body => pure body
  | none => c.mismatch index "a block" (c.describe index)

/-- The value of an argument in a scope, null if there is none. -/
def evalIn (c : Call) (ev : Evaluator) (s : Scope) (index : Nat) : Eval Value :=
  match c.args[index]? with
  | some code => ev code s
  | none => pure .null

def eval (c : Call) (ev : Evaluator) (index : Nat) : Eval Value := c.evalIn ev c.scope index

def evalAll (c : Call) (ev : Evaluator) : Eval (List Value) := c.args.mapM (ev · c.scope)

end Call

namespace Function

/--
Binds parameters to the values of arguments, one after the other. A parameter without an argument is
null, and arguments without a parameter are evaluated all the same.
-/
def bindParams (ev : Evaluator) (caller frame : Scope) : List String → List Code → Eval Unit
  | [], [] => pure ()
  | [], arg :: args => do
    let _ ← ev arg caller
    bindParams ev caller frame [] args
  | param :: params, [] => do
    Eval.declare frame param .null
    bindParams ev caller frame params []
  | param :: params, arg :: args => do
    let v ← ev arg caller
    Eval.declare frame param v
    bindParams ev caller frame params args
termination_by params args => params.length + args.length

def call (ev : Evaluator) (f : Function) (caller : Scope) (args : List Code) : Eval Value := do
  let frame ← Eval.child f.captured
  bindParams ev caller frame f.params args
  runItems ev frame f.body.items

end Function

end Fexpr
