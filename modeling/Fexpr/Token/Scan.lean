import Fexpr.CompileError
import Fexpr.Token.Lexeme

/-!
# Scanning

`pieces` reads a source to its end and keeps what is not blank, going on after errors. `scan` stops
at the first error; it is what a parser reads.
-/

namespace Fexpr

/-- A lexeme as a token or as the error it is; blanks are neither. -/
def Lexeme.piece? (l : Lexeme) : Option (Except CompileError Token) :=
  match l.cls with
  | .blank => none
  | .stray => some (.error (.strayText (String.ofList l.text) l.span))
  | .token .unterminated => some (.error (.unterminatedString l.start))
  | .token kind => some (.ok ⟨kind, String.ofList l.text, l.span⟩)

def pieces (source : String) : List (Except CompileError Token) :=
  (Lexeme.lexemes source.toList).filterMap Lexeme.piece?

structure Scan where
  tokens : List Token
  error? : Option CompileError
deriving Repr

namespace Scan

def ofPieces : List (Except CompileError Token) → Scan
  | [] => ⟨[], none⟩
  | .error e :: _ => ⟨[], some e⟩
  | .ok t :: rest =>
    let s := ofPieces rest
    ⟨t :: s.tokens, s.error?⟩

end Scan

def scan (source : String) : Scan := Scan.ofPieces (pieces source)

def Token.endOf (source : String) : Token := ⟨.endOfInput, "", Span.point source.utf8ByteSize⟩

/-- All tokens of a source with the end marker, or the first lexical error. -/
def lex (source : String) : Except CompileError (List Token) :=
  let s := scan source
  match s.error? with
  | some e => .error e
  | none => .ok (s.tokens ++ [Token.endOf source])

end Fexpr
