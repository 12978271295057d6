import Fexpr.Span
import Fexpr.Number.Basic

/-!
# Expressions

The tree of a program. Every node carries the span of its text.
-/

namespace Fexpr

inductive Literal where
  | number (value : Number)
  | string (value : String)
deriving DecidableEq, Repr

inductive Expr where
  | literal (span : Span) (value : Literal)
  | lookup (span : Span) (name : String)
  | reference (span : Span) (name : String)
  | invocation (span : Span) (callee : Expr) (args : List Expr)
  | block (span : Span) (items : List Expr)
deriving Repr

namespace Expr

def span : Expr → Span
  | literal s _ | lookup s _ | reference s _ | invocation s _ _ | block s _ => s

def isCallable : Expr → Bool
  | lookup _ _ | reference _ _ => true
  | _ => false

def describe : Expr → String
  | literal _ (.number _) => "number literal"
  | literal _ (.string _) => "string literal"
  | lookup _ _ => "symbol"
  | reference _ _ => "@reference"
  | invocation _ _ _ => "invocation"
  | block _ _ => "block"

mutual

/-- The nodes of a tree with their depths, a node before its parts and a callee before its
arguments. -/
def preorder (depth : Nat) : Expr → List (Nat × Expr)
  | e@(literal _ _) | e@(lookup _ _) | e@(reference _ _) => [(depth, e)]
  | e@(invocation _ callee args) =>
    (depth, e) :: preorder (depth + 1) callee ++ preorderAll (depth + 1) args
  | e@(block _ items) => (depth, e) :: preorderAll (depth + 1) items

def preorderAll (depth : Nat) : List Expr → List (Nat × Expr)
  | [] => []
  | e :: es => preorder depth e ++ preorderAll depth es

end

end Expr

end Fexpr
