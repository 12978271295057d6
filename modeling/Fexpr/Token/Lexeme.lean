import Fexpr.Token.Basic
import Fexpr.Text.Bytes

/-!
# Lexemes

A source falls apart into lexemes: tokens, stretches of blank (white space and comments) and
characters that belong to nothing. `munch` measures the longest lexeme at the front of a text and
`lexemes` cuts a whole text into them, so that their texts in order are the text itself.
-/

namespace Fexpr

namespace Lexeme

inductive Class where
  | token (kind : Token.Kind)
  | blank
  | stray
deriving DecidableEq, Repr

def isSpace (c : Char) : Bool :=
  c == ' ' || c == '\t' || c == '\r' || c == '\n' || c == '\x0c'

def isNameStart (c : Char) : Bool := c.isAlpha || c == '_'

def isNamePart (c : Char) : Bool := isNameStart c || c.isDigit

def punctuation? : Char → Option Token.Kind
  | '(' => some .leftParen
  | ')' => some .rightParen
  | '\x7b' => some .leftBrace
  | '\x7d' => some .rightBrace
  | ',' => some .comma
  | '@' => some .atSign
  | _ => none

def fractionLength : List Char → Nat
  | '.' :: cs => if Text.run Char.isDigit cs = 0 then 0 else 1 + Text.run Char.isDigit cs
  | _ => 0

def signLength : List Char → Nat
  | c :: _ => if c = '+' ∨ c = '-' then 1 else 0
  | [] => 0

def exponentLength : List Char → Nat
  | c :: cs =>
    if c = 'e' ∨ c = 'E' then
      let digits := Text.run Char.isDigit (cs.drop (signLength cs))
      if digits = 0 then 0 else 1 + signLength cs + digits
    else 0
  | [] => 0

def numberLength (cs : List Char) : Nat :=
  let whole := Text.run Char.isDigit cs
  let fraction := fractionLength (cs.drop whole)
  whole + fraction + exponentLength (cs.drop (whole + fraction))

/--
The length of the rest of a string literal after its opening quote, and whether it is closed. A
backslash takes the character after it along, unless that is a line feed or missing; then the
literal ends, unclosed, with the backslash.
-/
def stringLength (quote : Char) : List Char → Bool × Nat
  | [] => (false, 0)
  | '\\' :: [] => (false, 1)
  | '\\' :: c :: cs =>
    if c = '\n' then (false, 1) else
      let (closed, n) := stringLength quote cs
      (closed, n + 2)
  | c :: cs =>
    if c = quote then (true, 1) else
      let (closed, n) := stringLength quote cs
      (closed, n + 1)

def commentLength? : List Char → Option Nat
  | '*' :: '/' :: _ => some 2
  | _ :: cs => (commentLength? cs).map (· + 1)
  | [] => none

/--
The class of the lexeme that begins with `c`, and how many of the characters `cs` after it belong to
it. A block comment that is never closed is one stray lexeme to the end of the text.
-/
def munch (c : Char) (cs : List Char) : Class × Nat :=
  if isSpace c then (.blank, Text.run isSpace cs)
  else if isNameStart c then (.token .ident, Text.run isNamePart cs)
  else if c.isDigit then (.token .number, numberLength cs)
  else if c = '-' then
    match cs with
    | d :: ds => if d.isDigit then (.token .number, 1 + numberLength ds) else (.stray, 0)
    | [] => (.stray, 0)
  else if c = '"' ∨ c = '\'' then
    match stringLength c cs with
    | (true, n) => (.token .string, n)
    | (false, n) => (.token .unterminated, n)
  else if c = '/' then
    match cs with
    | '/' :: rest => (.blank, 1 + Text.run (· != '\n') rest)
    | '*' :: rest =>
      match commentLength? rest with
      | some n => (.blank, 1 + n)
      | none => (.stray, cs.length)
    | _ => (.stray, 0)
  else
    match punctuation? c with
    | some kind => (.token kind, 0)
    | none => (.stray, 0)

end Lexeme

structure Lexeme where
  cls : Lexeme.Class
  text : List Char
  start : Nat
deriving DecidableEq, Repr

namespace Lexeme

def span (l : Lexeme) : Span := ⟨l.start, l.start + Text.byteSize l.text⟩

def lexemesFrom (offset : Nat) (cs : List Char) : List Lexeme :=
  match cs with
  | [] => []
  | c :: cs =>
    let (cls, n) := munch c cs
    let text := c :: cs.take n
    ⟨cls, text, offset⟩ :: lexemesFrom (offset + Text.byteSize text) (cs.drop n)
termination_by cs.length
decreasing_by
  simp only [List.length_drop, List.length_cons]
  omega

def lexemes (cs : List Char) : List Lexeme := lexemesFrom 0 cs

/-- Nothing of a text is lost or repeated. -/
theorem flatMap_text_lexemesFrom (offset : Nat) (cs : List Char) :
    (lexemesFrom offset cs).flatMap text = cs := by
  fun_induction lexemesFrom offset cs with
  | case1 => rfl
  | case2 offset c cs cls n h text ih =>
    rw [List.flatMap_cons, ih, List.cons_append, List.take_append_drop]

end Lexeme

end Fexpr
