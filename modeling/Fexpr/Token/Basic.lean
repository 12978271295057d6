import Fexpr.Span

/-!
# Tokens
-/

namespace Fexpr

namespace Token

inductive Kind where
  | number
  | string
  | unterminated
  | ident
  | leftParen
  | rightParen
  | leftBrace
  | rightBrace
  | comma
  | atSign
  | endOfInput
deriving DecidableEq, Repr, Inhabited

namespace Kind

/-- The name of a kind in listings: its own text if it has only one. -/
def text : Kind → String
  | number => "<number>"
  | string => "<string>"
  | unterminated => "<unterminated string>"
  | ident => "<ident>"
  | leftParen => "("
  | rightParen => ")"
  | leftBrace => "\x7b"
  | rightBrace => "\x7d"
  | comma => ","
  | atSign => "@"
  | endOfInput => "<eof>"

def isLiteral : Kind → Bool
  | number | string => true
  | _ => false

def startsExpr : Kind → Bool
  | number | string | ident | atSign | leftBrace => true
  | _ => false

end Kind

end Token

structure Token where
  kind : Token.Kind
  text : String
  span : Span
deriving DecidableEq, Repr, Inhabited

end Fexpr
