import Fexpr.Diagnostic

/-!
# Errors of running programs
-/

namespace Fexpr

structure Arity where
  least : Nat
  most : Option Nat
deriving DecidableEq, Repr

namespace Arity

def exactly (n : Nat) : Arity := ⟨n, some n⟩

def accepts (a : Arity) (n : Nat) : Bool :=
  a.least ≤ n && (match a.most with
    | some most => n ≤ most
    | none => true)

def text (a : Arity) : String :=
  match a.most with
  | none => "at least " ++ toString a.least
  | some most =>
    if a.least = most then toString most else toString a.least ++ " to " ++ toString most

end Arity

inductive RuntimeError where
  | unresolved (name : String) (span : Span)
  | notCallable (name found : String) (span : Span)
  | arity (keyword : String) (expected : Arity) (got : Nat) (span : Span)
  /-- An argument of the wrong kind; positions count from one. -/
  | mismatch (keyword : String) (position : Nat) (expected found : String) (span : Span)
  | host (keyword message : String) (span : Span)
deriving DecidableEq, Repr

namespace RuntimeError

def span : RuntimeError → Span
  | unresolved _ s | notCallable _ _ s | arity _ _ _ s | mismatch _ _ _ _ s | host _ _ s => s

def diagnostic : RuntimeError → Diagnostic
  | unresolved name span =>
    ⟨s!"Unresolved symbol `{name}`", "runtime::unresolved_symbol",
      some s!"declare it first with `var(@{name})`", [span.label "not bound in this scope"]⟩
  | notCallable name found span =>
    ⟨s!"`{name}` is not callable (found {found})", "runtime::not_callable", none,
      [span.label "invoked here"]⟩
  | arity keyword expected got span =>
    let wanted := expected.text
    ⟨s!"`{keyword}` expects {wanted} arguments, got {got}", "runtime::arity", none,
      [span.label "called here"]⟩
  | mismatch keyword position expected found span =>
    ⟨s!"`{keyword}` expects {expected} as argument {position}, found {found}",
      "runtime::type_mismatch", none, [span.label "wrong kind of argument"]⟩
  | host keyword message span =>
    ⟨s!"`{keyword}` failed: {message}", "runtime::host", none, [span.label "raised here"]⟩

end RuntimeError

end Fexpr
