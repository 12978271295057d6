import Fexpr.Eval.Call

/-!
# The built-in keywords
-/

namespace Fexpr.Builtin

/-- Whether some value of the arguments, taken from left to right up to the first such, is as sought. -/
def search (sought : Value → Bool) (ev : Evaluator) (s : Scope) : List Code → Eval Bool
  | [] => pure false
  | code :: rest => do
    let v ← ev code s
    if sought v then pure true else search sought ev s rest

def arity : Builtin → Arity
  | var => ⟨1, some 2⟩
  | set => .exactly 2
  | cond => ⟨2, some 3⟩
  | function => ⟨1, none⟩
  | eq => .exactly 2
  | not => .exactly 1
  | any | all => ⟨0, none⟩

def apply (b : Builtin) (ev : Evaluator) (c : Call) : Eval Value :=
  match b with
  | var => do
    let name ← c.reference 0
    let v ← c.eval ev 1
    Eval.declare c.scope name v
    return v
  | set => do
    let name ← c.reference 0
    let v ← c.eval ev 1
    if ← Eval.assign c.scope name v then return v
    else Eval.fail (.unresolved name c.span)
  | cond => do
    let v ← c.eval ev 0
    if v.isTruthy then c.eval ev 1 else c.eval ev 2
  | function => do
    let body ← c.block 0
    let params ← c.referencesFrom 1
    Eval.update (·.addFunction ⟨params, body, c.scope⟩)
  | eq => do
    let a ← c.eval ev 0
    let b ← c.eval ev 1
    return .boolean (a.equal b)
  | not => do
    let v ← c.eval ev 0
    return .boolean (!v.isTruthy)
  | any => return .boolean (← search Value.isTruthy ev c.scope c.args)
  | all => return .boolean (!(← search (!·.isTruthy) ev c.scope c.args))

def run (b : Builtin) (ev : Evaluator) (c : Call) : Eval Value := do
  c.checkArity b.arity
  b.apply ev c

end Fexpr.Builtin
