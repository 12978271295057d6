import Fexpr.Eval.Code

/-!
# The meaning of trees

Evaluation of an expression as it is written, without code. The keywords that were known when the
expression was compiled are a parameter, and a function keeps its body as expressions together with
the keywords known where it was written. Evaluation counts how deeply it is nested; keywords of an
embedding program are given their arguments as expressions.
-/

namespace Fexpr.Tree

structure Function where
  params : List String
  items : List Expr
  span : Span
  keywords : Keywords
  captured : Scope

structure Store where
  frames : Array Frame
  functions : Array Function
  journal : Array String

inductive Halt where
  | error (e : RuntimeError)
  | tooDeep

abbrev Eval := ExceptT Halt (StateM Store)

def fail {α : Type} (e : RuntimeError) : Eval α := throw (.error e)

def lookup (frames : Array Frame) (s : Scope) (name : String) : Option Value :=
  match frames[s.index]? with
  | none => none
  | some f =>
    match f.bindings.find? name, f.outer with
    | some v, _ => some v
    | none, .root keywords => (keywords.find? name).map .keyword
    | none, .child parent => if parent.index < s.index then lookup frames parent name else none
termination_by s.index

def binder? (frames : Array Frame) (s : Scope) (name : String) : Option Scope :=
  match frames[s.index]? with
  | none => none
  | some f =>
    match f.bindings.find? name, f.outer with
    | some _, _ => some s
    | none, .root _ => none
    | none, .child parent => if parent.index < s.index then binder? frames parent name else none
termination_by s.index

def resolve (s : Scope) (name : String) (span : Span) : Eval Value := do
  match lookup (← get).frames s name with
  | some v => return v
  | none => fail (.unresolved name span)

def child (s : Scope) : Eval Scope :=
  modifyGet fun T => (⟨T.frames.size⟩, { T with frames := T.frames.push ⟨.empty, .child s⟩ })

def declare (s : Scope) (name : String) (v : Value) : Eval Unit :=
  modify fun T => { T with frames := T.frames.modify s.index fun f =>
    { f with bindings := f.bindings.insert name v } }

def assign (s : Scope) (name : String) (v : Value) : Eval Bool := do
  match binder? (← get).frames s name with
  | some t =>
    declare t name v
    return true
  | none => return false

def newFunction (f : Function) : Eval Value :=
  modifyGet fun T => (.function T.functions.size, { T with functions := T.functions.push f })

def shape : Expr → String
  | .literal _ _ => "a literal"
  | .lookup _ _ => "a symbol"
  | .reference _ _ => "an @reference"
  | .invocation _ _ _ => "an invocation"
  | .block _ _ => "a block"

def mismatch {α : Type} (keyword : String) (position : Nat) (expected : String) (e : Expr) :
    Eval α :=
  fail (.mismatch keyword position expected (shape e) e.span)

def names (keyword : String) (position : Nat) : List Expr → Eval (List String)
  | [] => return []
  | .reference _ name :: es => return name :: (← names keyword (position + 1) es)
  | e :: _ => mismatch keyword position "an @reference" e

section

variable (ev : Expr → Scope → Eval Value) (s : Scope)

def sequence : Value → List Expr → Eval Value
  | last, [] => return last
  | _, e :: es => do sequence (← ev e s) es

def disjunction : List Expr → Eval Bool
  | [] => return false
  | e :: es => do if (← ev e s).isTruthy then return true else disjunction es

def conjunction : List Expr → Eval Bool
  | [] => return true
  | e :: es => do if (← ev e s).isTruthy then conjunction es else return false

/-- A built-in keyword by the forms of its arguments. `keywords` go into functions, and `span` is
the place of the call. -/
def builtin (keywords : Keywords) (span : Span) : Builtin → List Expr → Eval Value
  | .var, [.reference _ name] => do
    declare s name .null
    return .null
  | .var, [.reference _ name, e] => do
    let v ← ev e s
    declare s name v
    return v
  | .var, [e] | .var, [e, _] => mismatch "var" 1 "an @reference" e
  | .var, args => fail (.arity "var" ⟨1, some 2⟩ args.length span)
  | .set, [.reference _ name, e] => do
    let v ← ev e s
    if ← assign s name v then return v else fail (.unresolved name span)
  | .set, [e, _] => mismatch "set" 1 "an @reference" e
  | .set, args => fail (.arity "set" ⟨2, some 2⟩ args.length span)
  | .cond, [c, e] => do
    if (← ev c s).isTruthy then ev e s else return .null
  | .cond, [c, e, e'] => do
    if (← ev c s).isTruthy then ev e s else ev e' s
  | .cond, args => fail (.arity "if" ⟨2, some 3⟩ args.length span)
  | .function, .block bodySpan items :: params => do
    let params ← names "function" 2 params
    newFunction ⟨params, items, bodySpan, keywords, s⟩
  | .function, e :: _ => mismatch "function" 1 "a block" e
  | .function, [] => fail (.arity "function" ⟨1, none⟩ 0 span)
  | .eq, [e, e'] => do
    let v ← ev e s
    let v' ← ev e' s
    return .boolean (v.equal v')
  | .eq, args => fail (.arity "eq" ⟨2, some 2⟩ args.length span)
  | .not, [e] => return .boolean (!(← ev e s).isTruthy)
  | .not, args => fail (.arity "not" ⟨1, some 1⟩ args.length span)
  | .any, args => return .boolean (← disjunction ev s args)
  | .all, args => return .boolean (← conjunction ev s args)

/-- Binds parameters in a frame to the values of arguments in the scope of the call. Parameters
without an argument are null, and arguments without a parameter are evaluated all the same. -/
def bindParams (frame : Scope) : List String → List Expr → Eval Unit
  | params, [] => params.forM (declare frame · .null)
  | [], e :: es => do
    let _ ← ev e s
    bindParams frame [] es
  | param :: params, e :: es => do
    let v ← ev e s
    declare frame param v
    bindParams frame params es

end

structure Call where
  name : String
  scope : Scope
  args : List Expr
  keywords : Keywords
  span : Span

structure Interpreter where
  eval : Keywords → Expr → Scope → Eval Value
  invoke : Value → Call → Eval Value

abbrev Host := Nat → Interpreter → Call → Eval Value

namespace Interpreter

variable (I : Interpreter) (host : Host)

def runKeyword (k : Keyword) (c : Call) : Eval Value :=
  match k with
  | .builtin _ b => builtin (I.eval c.keywords) c.scope c.keywords c.span b c.args
  | .host id name => host id I { c with name }

def callFunction (f : Function) (c : Call) : Eval Value := do
  let frame ← child f.captured
  bindParams (I.eval c.keywords) c.scope frame f.params c.args
  sequence (I.eval f.keywords) frame .null f.items

def invokeValue (v : Value) (c : Call) : Eval Value :=
  match v with
  | .keyword k => I.runKeyword host k c
  | .function index => do
    match (← get).functions[index]? with
    | some f => I.callFunction f c
    | none => fail (.notCallable c.name "function" c.span)
  | v => fail (.notCallable c.name v.typeName c.span)

def callName (c : Call) : Eval Value := do
  I.invokeValue host (← resolve c.scope c.name c.span) c

end Interpreter

mutual

/-- The value of an expression. A bare callee that names a keyword is that keyword; what is neither
a name nor a reference cannot be called. -/
def eval (host : Host) : Nat → Keywords → Expr → Scope → Eval Value
  | 0, _, _, _ => throw .tooDeep
  | n + 1, keywords, e, s =>
    let I : Interpreter := ⟨eval host n, invoke host n⟩
    match e with
    | .literal _ l => return .ofLiteral l
    | .lookup span name | .reference span name => resolve s name span
    | .block _ items => do sequence (I.eval keywords) (← child s) .null items
    | .invocation span (.lookup _ name) args =>
      match keywords.find? name with
      | some k => I.runKeyword host k ⟨name, s, args, keywords, span⟩
      | none => I.callName host ⟨name, s, args, keywords, span⟩
    | .invocation span (.reference _ name) args => I.callName host ⟨name, s, args, keywords, span⟩
    | .invocation span e _ => fail (.notCallable e.describe (shape e) span)

def invoke (host : Host) : Nat → Value → Call → Eval Value
  | 0, _, _ => throw .tooDeep
  | n + 1, v, c => Interpreter.invokeValue ⟨eval host n, invoke host n⟩ host v c

end

def run (host : Host) (limit : Nat) (keywords : Keywords) (e : Expr) (s : Scope) : Eval Value :=
  match e with
  | .block _ items => sequence (eval host limit keywords) s .null items
  | e => sequence (eval host limit keywords) s .null [e]

end Fexpr.Tree
