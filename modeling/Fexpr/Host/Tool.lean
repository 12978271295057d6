import Fexpr.Eval.Code
import Fexpr.Number.Arithmetic
import Fexpr.Store.Display

/-!
# Tools of an embedding program

Keywords that an embedding program can offer: arithmetic, texts, and looks at arguments, scopes and
functions that show how keywords receive them.
-/

namespace Fexpr

inductive Operator where
  | add
  | sub
  | mul
  | div
  | lt
deriving DecidableEq, Repr

def Operator.apply : Operator → Number → Number → Value
  | add, a, b => .number (a.add b)
  | sub, a, b => .number (a.sub b)
  | mul, a, b => .number (a.mul b)
  | div, a, b => .number (a.div b)
  | lt, a, b => .boolean (a.lt b)

inductive Tool where
  | const (value : Value)
  | log
  | join (separator : String)
  /-- Evaluates from right to left and returns the value of the first argument. -/
  | reverse
  /-- Evaluates the second argument as often as the first one says. -/
  | times
  | eval (index : Nat)
  | evalInChild (index : Nat)
  | depth
  | names
  | fail (message : String)
  | mismatch (index : Nat) (expected found : String)
  | arity (arity : Arity)
  | has (index : Nat)
  | reference (index : Nat)
  /-- Runs an argument that is a block in the scope of the call itself. -/
  | block (index : Nat)
  | blockInfo (index : Nat)
  | shape
  | info
  | typeName
  | debug
  | operator (op : Operator)
  | declare
  | assign
  | lookup
  | lookupLocal
  | keyword
  | call
  /-- Whether a function was made in this very scope. -/
  | capturedHere
  | byte
deriving Repr

namespace Tool

def timesLimit : Nat := 1000

def boolText (b : Bool) : String := if b then "true" else "false"

def spanText (s : Span) : String := toString s.start ++ ".." ++ toString s.stop

def asNumber (c : Call) (index : Nat) : Value → Eval Number
  | .number n => pure n
  | v => c.mismatch index "a number" v.typeName

def asString (c : Call) (index : Nat) : Value → Eval String
  | .string s => pure s
  | v => c.mismatch index "a string" v.typeName

def evalString (I : Interpreter) (c : Call) (index : Nat) : Eval String := do
  asString c index (← c.eval I.eval index)

def repeated (x : Eval Value) : Nat → Value → Eval Value
  | 0, last => pure last
  | n + 1, _ => do repeated x n (← x)

def byName (I : Interpreter) (c : Call) (find : Store → String → Option Value) : Eval Value := do
  c.checkArity (.exactly 1)
  let name ← evalString I c 0
  return (← Eval.read (find · name)).getD .null

def run (t : Tool) (I : Interpreter) (c : Call) : Eval Value :=
  match t with
  | const v => pure v
  | log => do
    c.checkArity (.exactly 1)
    let v ← c.eval I.eval 0
    let line ← Eval.read (·.debug v)
    Eval.update fun σ => (v, σ.note line)
  | join separator => do
    let values ← c.evalAll I.eval
    return .string (separator.intercalate (← Eval.read fun σ => values.map σ.display))
  | reverse => do
    let values ← c.args.reverse.mapM (I.eval · c.scope)
    return values.getLast?.getD .null
  | times => do
    c.checkArity (.exactly 2)
    let n ← asNumber c 0 (← c.eval I.eval 0)
    repeated (c.eval I.eval 1) (n.count timesLimit) .null
  | eval index => c.eval I.eval index
  | evalInChild index => do
    let inner ← Eval.child c.scope
    c.evalIn I.eval inner index
  | depth => return .number (.ofNat (← Eval.read (·.depth c.scope)))
  | names => return .string (",".intercalate (← Eval.read (·.bindings c.scope)).names)
  | fail message => c.fail message
  | mismatch index expected found => c.mismatch index expected found
  | arity a => do
    c.checkArity a
    return .number (.ofNat c.args.length)
  | has index => return .boolean (decide (index < c.args.length))
  | reference index => return .string (← c.reference index)
  | block index => do
    let body ← c.block index
    runItems I.eval c.scope body.items
  | blockInfo index => do
    let body ← c.block index
    return .string (toString body.items.length ++ " " ++ spanText body.span ++ " " ++
      boolText body.items.isEmpty)
  | shape =>
    return .string (",".intercalate (c.args.map fun a => a.describe ++ "@" ++ spanText a.span))
  | info =>
    return .string (c.name ++ " " ++ spanText c.span ++ " " ++ toString c.args.length ++ " " ++
      boolText c.args.isEmpty)
  | typeName => do
    c.checkArity (.exactly 1)
    return .string (← c.eval I.eval 0).typeName
  | debug => do
    c.checkArity (.exactly 1)
    let v ← c.eval I.eval 0
    return .string (← Eval.read (·.debug v))
  | operator op => do
    c.checkArity (.exactly 2)
    let a ← c.eval I.eval 0
    let b ← c.eval I.eval 1
    let a ← asNumber c 0 a
    let b ← asNumber c 1 b
    return op.apply a b
  | declare => do
    c.checkArity (.exactly 2)
    let name ← evalString I c 0
    let v ← c.eval I.eval 1
    Eval.declare c.scope name v
    return v
  | assign => do
    c.checkArity (.exactly 2)
    let name ← evalString I c 0
    let v ← c.eval I.eval 1
    return .boolean (← Eval.assign c.scope name v)
  | lookup => byName I c fun σ name => σ.lookup c.scope name
  | lookupLocal => byName I c fun σ name => σ.lookupLocal c.scope name
  | keyword => byName I c fun σ name => (σ.keyword? c.scope name).map .keyword
  | call => do
    c.checkArity ⟨1, none⟩
    let v ← c.eval I.eval 0
    I.invoke v ⟨"<call>", c.scope, c.args.drop 1, c.span⟩
  | capturedHere => do
    c.checkArity (.exactly 1)
    let v ← c.eval I.eval 0
    match v with
    | .function index =>
      let captured ← Eval.read fun σ => (σ.function? index).map (·.captured)
      return .boolean (captured == some c.scope)
    | v => c.mismatch 0 "a function" v.typeName
  | byte => do
    c.checkArity (.exactly 1)
    let v ← c.eval I.eval 0
    match v with
    | .host ⟨_, _, some b⟩ => return .number (.ofNat b.toNat)
    | v => c.mismatch 0 "a u8" v.typeName

end Tool

def Host.ofTools (tools : Array Tool) : Host := fun id I c =>
  match tools[id]? with
  | some t => t.run I c
  | none => Host.absent id I c

end Fexpr
