import Fexpr.Program

/-!
# Sessions

A session compiles and runs one entry after another in the same root scope. Entries are numbered
from one, those that fail too.
-/

namespace Fexpr

structure Session where
  context : Context
  scope : Scope
  entries : Nat
deriving Repr

namespace Session

def start (context : Context) (σ : Store) : Session × Store :=
  let (scope, σ) := context.newScope σ
  (⟨context, scope, 0⟩, σ)

def sourceName (s : Session) : String := "<repl:" ++ toString s.entries ++ ">"

def enter (s : Session) (host : Host) (limit : Nat) (text : String) (σ : Store) :
    Except Failure Value × Session × Store :=
  let s := { s with entries := s.entries + 1 }
  match Program.compile ⟨s.sourceName, text⟩ s.context with
  | .error e => (.error (.compile e), s, σ)
  | .ok p =>
    let (outcome, σ) := p.runIn host limit s.scope σ
    (outcome.toExcept, s, σ)

end Session

/-- Whether a text is the beginning of an entry that more lines could complete. -/
def isIncomplete (text : String) : Bool :=
  match parse text with
  | .error e => e.isIncomplete
  | .ok _ => false

end Fexpr
