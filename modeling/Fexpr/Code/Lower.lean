import Fexpr.Code.Basic
import Fexpr.CompileError

/-!
# From trees to code

A callee that is a bare name and a keyword at this time is bound to the keyword. Any other callee is
looked up when the call is run. Trees that no source has may have callees that are neither name nor
reference; the first such callee is an error, and a call comes before its arguments.
-/

namespace Fexpr

namespace Expr

def callee (keywords : Keywords) : Expr → Except CompileError Callee
  | lookup _ name =>
    match keywords.find? name with
    | some k => .ok (.keyword k)
    | none => .ok (.name name)
  | reference _ name => .ok (.name name)
  | e => .error (.invalidCallee e.span)

mutual

def lower (keywords : Keywords) : Expr → Except CompileError Code
  | literal span value => .ok (.literal span value)
  | lookup span name => .ok (.lookup span name)
  | reference span name => .ok (.reference span name)
  | invocation span e args => do
    let c ← callee keywords e
    return .call span c (← lowerAll keywords args)
  | block span items => return .block span (← lowerAll keywords items)

def lowerAll (keywords : Keywords) : List Expr → Except CompileError (List Code)
  | [] => .ok []
  | e :: es => do
    let c ← lower keywords e
    return c :: (← lowerAll keywords es)

end

/-- The body of a program: the items of a block, or a single expression. -/
def lowerProgram (keywords : Keywords) (e : Expr) : Except CompileError Body :=
  match e with
  | block span items => return ⟨← lowerAll keywords items, span⟩
  | e => return ⟨[← lower keywords e], e.span⟩

end Expr

end Fexpr
