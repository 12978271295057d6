import Fexpr.Expr.Basic
import Fexpr.Number.Decimal
import Fexpr.Text.Escape
import Fexpr.Token.Scan

/-!
# Parsing

A program is a sequence of expressions:

* an expression is a number, a string, a name, a reference, a call or a block;
* a reference is `@` and a name;
* a call is a name or a reference and, in parentheses, expressions with commas between them;
* a block is a sequence of expressions in braces.

The parser takes one token at a time and keeps the brackets that are still open, so it stops at the
first token that no program could have there.
-/

namespace Fexpr

namespace Parser

inductive Bracket where
  | brace (opening : Span)
  | paren (callee : Expr)
deriving Repr

/-- A promise made by the last token. -/
inductive Pending where
  | nothing
  | argument
  | name (sign : Span)
deriving DecidableEq, Repr

/--
`items` are the expressions read so far since the innermost open bracket, the last one first. Each
open bracket stands with the expressions that were read before it.
-/
structure State where
  items : List Expr
  pending : Pending
  brackets : List (Bracket × List Expr)
deriving Repr

inductive Phase where
  | sequence
  | argument
  | separator
deriving DecidableEq, Repr

namespace State

def start : State := ⟨[], .nothing, []⟩

def phase (s : State) : Phase :=
  match s.brackets with
  | (.paren _, _) :: _ =>
    if s.items.isEmpty || s.pending == .argument then .argument else .separator
  | _ => .sequence

def push (s : State) (e : Expr) : State := ⟨e :: s.items, .nothing, s.brackets⟩

def openBrace (s : State) (opening : Span) : State :=
  ⟨[], .nothing, (.brace opening, s.items) :: s.brackets⟩

def openParen (s : State) (callee : Expr) (before : List Expr) : State :=
  ⟨[], .nothing, (.paren callee, before) :: s.brackets⟩

def expectation (s : State) : Expectation :=
  match s.phase with
  | .sequence => .expression
  | .argument => .argument
  | .separator => .commaOrParen

def unexpected (s : State) (t : Token) : Except CompileError State :=
  .error (.unexpectedToken s.expectation t)

/-- An expression may begin anywhere but directly after an argument. -/
def begin (s : State) (t : Token) (next : State) : Except CompileError State :=
  if s.phase = .separator then s.unexpected t else .ok next

/-- A parenthesis belongs to the expression in front of it. -/
def call (s : State) (t : Token) : Except CompileError State :=
  match s.phase, s.items with
  | .argument, _ | _, [] => s.unexpected t
  | _, callee :: before =>
    if callee.isCallable then .ok (s.openParen callee before) else .error (.invalidCallee callee.span)

def closeBrace (s : State) (t : Token) : Except CompileError State :=
  match s.brackets with
  | (.brace opening, before) :: outer =>
    .ok (State.mk before .nothing outer |>.push (.block (opening.merge t.span) s.items.reverse))
  | _ => s.unexpected t

def closeParen (s : State) (t : Token) : Except CompileError State :=
  match s.brackets with
  | (.paren callee, before) :: outer =>
    if s.pending = .argument then s.unexpected t else
      .ok (State.mk before .nothing outer
        |>.push (.invocation (callee.span.merge t.span) callee s.items.reverse))
  | _ => s.unexpected t

/-- The number of a token; every number token is a numeral. -/
def numberOf (t : Token) : Number := (Number.ofText? t.text).getD .zero

def feed (s : State) (t : Token) : Except CompileError State :=
  match s.pending with
  | .name sign =>
    if t.kind = .ident then .ok (s.push (.reference (sign.merge t.span) t.text))
    else .error (.unexpectedToken .nameAfterAt t)
  | _ =>
    match t.kind with
    | .number => s.begin t (s.push (.literal t.span (.number (numberOf t))))
    | .string => s.begin t (s.push (.literal t.span (.string (Text.unescape t.text))))
    | .ident => s.begin t (s.push (.lookup t.span t.text))
    | .atSign => s.begin t { s with pending := .name t.span }
    | .leftBrace => s.begin t (s.openBrace t.span)
    | .leftParen => s.call t
    | .rightBrace => s.closeBrace t
    | .rightParen => s.closeParen t
    | .comma => if s.phase = .separator then .ok { s with pending := .argument } else s.unexpected t
    | .unterminated | .endOfInput => s.unexpected t

def finish (s : State) : Except Expectation (List Expr) :=
  match s.pending, s.brackets with
  | .name _, _ => .error .nameAfterAt
  | _, [] => .ok s.items.reverse
  | _, (.brace _, _) :: _ => .error .closingBrace
  | _, (.paren _, _) :: _ => .error s.expectation

end State

end Parser

/--
The tree of a source: a block of all its expressions. Of several errors the one that stands first in
the text is reported; the end of the tokens is looked at last.
-/
def parse (source : String) : Except CompileError Expr := do
  let s := scan source
  let state ← s.tokens.foldlM Parser.State.feed Parser.State.start
  match s.error?, state.finish with
  | some e, _ => .error e
  | none, .error expected => .error (.unexpectedEnd expected source.utf8ByteSize)
  | none, .ok items => .ok (.block ⟨0, source.utf8ByteSize⟩ items)

end Fexpr
