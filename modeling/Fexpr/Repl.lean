import Fexpr.Expr.Json
import Fexpr.Line
import Fexpr.Session
import Fexpr.Store.Display
import Fexpr.Text.Blank

/-!
# The interactive loop

The loop reads lines. Between entries, blank lines are skipped and lines that begin with a colon are
commands. All other lines are gathered into entries: an entry goes on for as long as its text is the
beginning of something that more lines could complete.
-/

namespace Fexpr

namespace Repl

inductive Command where
  | quit
  | help
  | scope
  | tree (source : String)
  | unknown (text : String)
deriving DecidableEq, Repr

def Command.ofText (text : String) : Command :=
  match text with
  | ":quit" | ":q" => .quit
  | ":help" | ":h" => .help
  | ":scope" => .scope
  | text =>
    match text.toList with
    | ':' :: 'a' :: 's' :: 't' :: ' ' :: source => .tree (String.ofList source)
    | _ => .unknown text

inductive Item where
  | blank (line : String)
  | command (line : String) (command : Command)
  | entry (lines : List String)
deriving DecidableEq, Repr

def entryText (lines : List String) : String := Text.unlines lines

/-- Takes a line in, after the lines of an entry that is not complete. -/
def absorb (pending : List String) (line : String) : List String × Option Item :=
  let gather : List String × Option Item :=
    let lines := pending ++ [line]
    if isIncomplete (entryText lines) then (lines, none) else ([], some (.entry lines))
  if pending.isEmpty then
    let text := Text.trim line
    match text.toList with
    | [] => ([], some (.blank line))
    | ':' :: _ => ([], some (.command line (.ofText text)))
    | _ => gather
  else gather

structure Output where
  out : String
  err : String
deriving Repr

def Output.append (a b : Output) : Output := ⟨a.out ++ b.out, a.err ++ b.err⟩

def printed (text : String) : Output := ⟨text ++ "\n", ""⟩

def failed (message : String) : Output := ⟨"", message ++ "\n"⟩

structure State where
  session : Session
  store : Store

def start (context : Context) : State :=
  let (session, σ) := Session.start context .empty
  ⟨session, σ⟩

def banner : String := "Sprig REPL v0.3.0\nType :help for help, :quit to exit\n\n"

def farewell : String := "Goodbye!\n"

def helpText : String := Text.unlines [
  "Commands:",
  "  :help, :h      Show this help",
  "  :quit, :q      Exit the REPL",
  "  :scope         List bindings declared in this session",
  "  :ast <source>  Show the parsed expression tree"]

def scopeText (σ : Store) (s : Scope) : String :=
  Text.unlines ((σ.bindings s).entries.map fun (name, v) => "  " ++ name ++ " = " ++ σ.debug v)

def respond (host : Host) (limit : Nat) (state : State) : Item → Output × State
  | .blank _ => (⟨"", ""⟩, state)
  | .command _ .quit => (⟨"", ""⟩, state)
  | .command _ .help => (printed helpText, state)
  | .command _ .scope => (⟨scopeText state.store state.session.scope, ""⟩, state)
  | .command _ (.tree source) =>
    match parse source with
    | .ok tree => (printed tree.toJson.pretty, state)
    | .error e => (failed e.diagnostic.message, state)
  | .command _ (.unknown text) => (printed ("Unknown command " ++ text ++ "; try :help"), state)
  | .entry lines =>
    let (result, session, σ) := state.session.enter host limit (entryText lines) state.store
    let output := match result with
      | .ok v => printed (σ.display v)
      | .error e => failed e.message
    (output, ⟨session, σ⟩)

def failureCode : Nat := 101

/-- The loop between two lines: the lines of an entry that is not complete, and the state. -/
structure Loop where
  pending : List String
  state : State

inductive Turn where
  | next (output : Output) (loop : Loop)
  | quit
  | unreadable

def Loop.turn (host : Host) (limit : Nat) (loop : Loop) (typed : String) : Turn :=
  match Line.ofTyped? typed with
  | none => .unreadable
  | some line =>
    match absorb loop.pending line with
    | (pending, none) => .next ⟨"", ""⟩ { loop with pending }
    | (_, some (.command _ .quit)) => .quit
    | (pending, some item) =>
      let (output, state) := respond host limit loop.state item
      .next output ⟨pending, state⟩

/-- What the loop prints for lines, and whether it comes to its end: it does not if it has to read a
line that cannot be read. -/
def Loop.run (host : Host) (limit : Nat) (loop : Loop) : List String → Output × Bool
  | [] => (⟨"", ""⟩, true)
  | typed :: rest =>
    match loop.turn host limit typed with
    | .next output loop =>
      let (more, complete) := loop.run host limit rest
      (output.append more, complete)
    | .quit => (⟨"", ""⟩, true)
    | .unreadable => (⟨"", ""⟩, false)

def transcript (context : Context) (typed : List String) : Output × Bool :=
  let (answers, complete) := Loop.run Host.absent defaultLimit ⟨[], start context⟩ typed
  (⟨banner ++ answers.out ++ (if complete then farewell else ""), answers.err⟩, complete)

end Repl

end Fexpr
