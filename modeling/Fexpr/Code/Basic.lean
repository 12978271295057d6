import Fexpr.Expr.Basic
import Fexpr.Keyword

/-!
# Code

A program in the form in which it is run. Code follows the tree; it differs in its calls, where a
callee that named a keyword has been replaced by that keyword.
-/

namespace Fexpr

/-- What a call goes to: a keyword that is known, or whatever a name stands for when it is run. -/
inductive Callee where
  | keyword (keyword : Keyword)
  | name (name : String)
deriving DecidableEq, Repr

inductive Code where
  | literal (span : Span) (value : Literal)
  | lookup (span : Span) (name : String)
  | reference (span : Span) (name : String)
  | call (span : Span) (callee : Callee) (args : List Code)
  | block (span : Span) (items : List Code)
deriving Repr

structure Body where
  items : List Code
  span : Span
deriving Repr

namespace Code

def span : Code → Span
  | literal s _ | lookup s _ | reference s _ | call s _ _ | block s _ => s

def describe : Code → String
  | literal _ _ => "a literal"
  | lookup _ _ => "a symbol"
  | reference _ _ => "an @reference"
  | call _ _ _ => "an invocation"
  | block _ _ => "a block"

def referenceName? : Code → Option String
  | reference _ name => some name
  | _ => none

def body? : Code → Option Body
  | block span items => some ⟨items, span⟩
  | _ => none

end Code

end Fexpr
