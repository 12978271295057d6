import Fexpr.Expr.Basic
import Fexpr.Json.Printer
import Fexpr.Json.Reader

/-!
# Trees as JSON

A node is written as an object with its kind and its span, and a kind as an object whose one field
is named for it. Reading takes fields in any order and passes over fields that it does not know.
-/

namespace Fexpr

namespace Span

def toJson (s : Span) : Json :=
  .record [("start", .ofNat s.start), ("end", .ofNat s.stop)]

def ofJson? (j : Json) : Option Span :=
  match j.fields? ["start", "end"] with
  | some [.number start, .number stop] => return ⟨← start.toNat?, ← stop.toNat?⟩
  | _ => none

end Span

namespace Literal

def toJson : Literal → Json
  | .number n => .record [("Number", .ofNumber n)]
  | .string s => .record [("String", .text s)]

def ofJson? : Json → Option Literal
  | .object [(some "Number", .number n)] => n.toNumber?.map .number
  | .object [(some "String", .string (some s))] => some (.string s)
  | _ => none

end Literal

namespace Expr

def nodeJson (kind : String) (content : Json) (span : Span) : Json :=
  .record [("kind", .record [(kind, content)]), ("span", span.toJson)]

mutual

def toJson : Expr → Json
  | literal span value => nodeJson "Literal" value.toJson span
  | lookup span name => nodeJson "Lookup" (.text name) span
  | reference span name => nodeJson "Reference" (.text name) span
  | invocation span callee args =>
    nodeJson "Invocation" (.record [("callee", toJson callee), ("args", .array (toJsonAll args))]) span
  | block span items => nodeJson "Block" (.array (toJsonAll items)) span

def toJsonAll : List Expr → List Json
  | [] => []
  | e :: es => toJson e :: toJsonAll es

end

/--
The tree that a JSON value describes. The number bounds how many arrays and objects may be nested: a
node has one of its own, one for its kind, and more in its content.
-/
def ofJsonWithin? : Nat → Json → Option Expr
  | n + 2, j =>
    match j.fields? ["kind", "span"] with
    | some [.object [(some kind, content)], span] => do
      let span ← Span.ofJson? span
      match kind, content, n with
      | "Lookup", .string name, _ => name.map (.lookup span)
      | "Reference", .string name, _ => name.map (.reference span)
      | "Literal", content, _ + 1 => (Literal.ofJson? content).map (.literal span)
      | "Block", .array items, m + 1 => (items.mapM (ofJsonWithin? m)).map (.block span)
      | "Invocation", content, m + 1 =>
        match content.fields? ["callee", "args"], m with
        | some [callee, .array args], k + 1 =>
          return .invocation span (← ofJsonWithin? (k + 1) callee) (← args.mapM (ofJsonWithin? k))
        | _, _ => none
      | _, _, _ => none
    | _ => none
  | _, _ => none

def ofJson? (j : Json) : Option Expr := ofJsonWithin? Json.nestingLimit j

end Expr

end Fexpr
