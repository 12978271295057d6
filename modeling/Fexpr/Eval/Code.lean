import Fexpr.Eval.Builtin

/-!
# Evaluation

Evaluation is given by one step, in which the parts of code are evaluated by an evaluator that is a
parameter, and closed by counting how deeply steps are nested.
-/

namespace Fexpr

structure Interpreter where
  eval : Evaluator
  invoke : Value → Call → Eval Value

abbrev Host := Nat → Interpreter → Call → Eval Value

namespace Interpreter

/-- Runs a keyword; it is called by its own name. -/
def runKeyword (I : Interpreter) (host : Host) (k : Keyword) (c : Call) : Eval Value :=
  let c := { c with name := k.name }
  match k with
  | .builtin _ b => b.run I.eval c
  | .host id _ => host id I c

def invokeStep (I : Interpreter) (host : Host) (v : Value) (c : Call) : Eval Value := do
  match v with
  | .keyword k => I.runKeyword host k c
  | .function index =>
    match ← Eval.read (·.function? index) with
    | some f => f.call I.eval c.scope c.args
    | none => Eval.fail (.notCallable c.name v.typeName c.span)
  | _ => Eval.fail (.notCallable c.name v.typeName c.span)

def evalStep (I : Interpreter) (host : Host) (code : Code) (s : Scope) : Eval Value :=
  match code with
  | .literal _ l => pure (.ofLiteral l)
  | .lookup span name | .reference span name => Eval.resolve s name span
  | .block _ items => do
    let inner ← Eval.child s
    runItems I.eval inner items
  | .call span (.keyword k) args => I.runKeyword host k ⟨k.name, s, args, span⟩
  | .call span (.name name) args => do
    let v ← Eval.resolve s name span
    I.invokeStep host v ⟨name, s, args, span⟩

end Interpreter

mutual

/-- Evaluates code with at most so many steps nested. -/
def Code.eval (host : Host) : Nat → Code → Scope → Eval Value
  | 0, _, _ => Eval.tooDeep
  | n + 1, code, s =>
    Interpreter.evalStep ⟨Code.eval host n, Value.invoke host n⟩ host code s

def Value.invoke (host : Host) : Nat → Value → Call → Eval Value
  | 0, _, _ => Eval.tooDeep
  | n + 1, v, c =>
    Interpreter.invokeStep ⟨Code.eval host n, Value.invoke host n⟩ host v c

end

def Body.run (host : Host) (limit : Nat) (body : Body) (s : Scope) : Eval Value :=
  runItems (Code.eval host limit) s body.items

def Host.absent : Host := fun _ _ c => c.fail "no such keyword"

end Fexpr
