import Fexpr.Code.Lower
import Fexpr.Context
import Fexpr.Eval.Code
import Fexpr.Expr.Parser

/-!
# Programs
-/

namespace Fexpr

structure Source where
  name : String
  text : String
deriving DecidableEq, Repr

inductive Failure where
  | compile (e : CompileError)
  | runtime (e : RuntimeError)
  | tooDeep
deriving DecidableEq, Repr

/-- Too deep a nesting is not an error of the language: it ends the process, which says so. -/
def Failure.message : Failure → String
  | compile e => e.diagnostic.message
  | runtime e => e.diagnostic.message
  | tooDeep => "\nthread 'main' has overflowed its stack\nfatal runtime error: stack overflow"

def Outcome.toExcept {α : Type} : Outcome α → Except Failure α
  | .value a => .ok a
  | .error e => .error (.runtime e)
  | .tooDeep => .error .tooDeep

structure Program where
  source : Source
  context : Context
  body : Body
deriving Repr

namespace Program

def compile (source : Source) (context : Context) : Except CompileError Program := do
  let tree ← parse source.text
  return ⟨source, context, ← tree.lowerProgram context.keywords⟩

def runIn (p : Program) (host : Host) (limit : Nat) (s : Scope) : Eval Value :=
  p.body.run host limit s

def run (p : Program) (host : Host) (limit : Nat) : Eval Value := do
  let s ← Eval.update p.context.newScope
  p.runIn host limit s

end Program

def defaultLimit : Nat := 1000000

def evaluate (limit : Nat) (source : Source) : Except Failure Value × Store :=
  match Program.compile source (.builtin 0) with
  | .error e => (.error (.compile e), .empty)
  | .ok p =>
    let (outcome, σ) := p.run Host.absent limit .empty
    (outcome.toExcept, σ)

end Fexpr
