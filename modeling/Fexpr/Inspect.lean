import Fexpr.Store.Display

/-!
# Texts for inspection

How functions, keywords, scopes and code show themselves to a developer of an embedding program.
-/

namespace Fexpr

def fieldsText (name : String) (fields : List String) : String :=
  name ++ " \x7b " ++ ", ".intercalate fields ++ " \x7d"

def listText (items : List String) : String := "[" ++ ", ".intercalate items ++ "]"

def Span.inspect (s : Span) : String :=
  fieldsText "Span" ["start: " ++ toString s.start, "end: " ++ toString s.stop]

def bodyText (items : List String) (span : Span) : String :=
  fieldsText "Body" ["items: " ++ listText items, "span: " ++ span.inspect]

namespace Code

def inspectShape (span : Span) (shape : String) : String :=
  fieldsText "Thunk" ["span: " ++ span.inspect, "shape: " ++ shape, ".."]

mutual

def inspect : Code → String
  | literal span _ => inspectShape span "Literal"
  | lookup span name => inspectShape span ("Lookup(" ++ Text.quoted name ++ ")")
  | reference span name => inspectShape span ("Reference(" ++ Text.quoted name ++ ")")
  | call span _ _ => inspectShape span "Invocation"
  | block span items => inspectShape span ("Block(" ++ bodyText (inspectAll items) span ++ ")")

def inspectAll : List Code → List String
  | [] => []
  | code :: rest => inspect code :: inspectAll rest

end

end Code

def Body.inspect (body : Body) : String := bodyText (Code.inspectAll body.items) body.span

def Function.inspect (f : Function) : String :=
  fieldsText "Function" ["params: " ++ listText (f.params.map Text.quoted),
    "body_len: " ++ toString f.body.items.length, ".."]

def Keyword.inspect (k : Keyword) : String := "Keyword(" ++ k.name ++ ")"

def HostObject.inspect (o : HostObject) : String := "HostObject<" ++ o.typeName ++ ">"

def Store.inspectScope (σ : Store) (s : Scope) : String :=
  fieldsText "Scope" ["depth: " ++ toString (σ.depth s),
    "names: " ++ listText ((σ.bindings s).names.map Text.quoted)]

end Fexpr
