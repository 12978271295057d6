import Fexpr.Diagnostic
import Fexpr.Token.Basic

/-!
# Errors in source text
-/

theorem Except.map_eq_ok_iff {ε α β : Type} {x : Except ε α} {f : α → β} {b : β} :
    x.map f = .ok b ↔ ∃ a, x = .ok a ∧ f a = b := by
  cases x <;> simp [Except.map]

theorem Except.map_eq_error_iff {ε α β : Type} {x : Except ε α} {f : α → β} {e : ε} :
    x.map f = .error e ↔ x = .error e := by
  cases x <;> simp [Except.map]

namespace Fexpr

inductive Expectation where
  | expression
  | argument
  | commaOrParen
  | closingBrace
  | nameAfterAt
deriving DecidableEq, Repr

def Expectation.text : Expectation → String
  | expression => "an expression"
  | argument => "an argument"
  | commaOrParen => "`,` or `)`"
  | closingBrace => "`\x7d`"
  | nameAfterAt => "a name after `@`"

inductive CompileError where
  | strayText (found : String) (span : Span)
  /-- A string literal without its closing quote; `start` is the offset of the opening one. -/
  | unterminatedString (start : Nat)
  | unexpectedToken (expected : Expectation) (found : Token)
  | unexpectedEnd (expected : Expectation) (offset : Nat)
  | invalidCallee (span : Span)
deriving DecidableEq, Repr

namespace CompileError

/-- Whether more text could mend the error. -/
def isIncomplete : CompileError → Bool
  | unterminatedString _ | unexpectedEnd _ _ => true
  | _ => false

def diagnostic : CompileError → Diagnostic
  | strayText found span =>
    ⟨s!"Unexpected character `{found}`", "lex::unexpected_char", none,
      [span.label "not valid here"]⟩
  | unterminatedString start =>
    ⟨"Unterminated string literal", "lex::unterminated_string",
      some "close the string with a matching quote", [⟨"string starts here", start, 1⟩]⟩
  | unexpectedToken expected found =>
    let (wanted, text) := (expected.text, found.text)
    ⟨s!"Unexpected token: expected {wanted}, found `{text}`", "syntax::unexpected_token", none,
      [found.span.label "unexpected token here"]⟩
  | unexpectedEnd expected offset =>
    let wanted := expected.text
    ⟨s!"Unexpected end of input: expected {wanted}", "syntax::unexpected_eof", none,
      [(Span.point offset).label "input ends here"]⟩
  | invalidCallee span =>
    ⟨"Only a name or an `@name` reference can be invoked", "syntax::invalid_callee",
      some "bind the value with `var(@name, ...)` and invoke it as `@name(...)`",
      [span.label "this expression cannot be invoked"]⟩

end CompileError

end Fexpr
