import Fexpr.Cli.Arguments
import Fexpr.Repl

/-!
# Carrying out commands

A command is answered by what it prints and by an exit code: 0 for success, 1 for an error in a file
or a program, 2 for a wrong command line, 101 for a line that cannot be read. A program that is
nested too deeply for the stack of the process ends it without a code. What was printed before an
error stays printed.
-/

namespace Fexpr.Cli

open Repl (Output)

inductive Exit where
  | code (n : Nat)
  | overflow
deriving DecidableEq, Repr

structure Report where
  output : Output
  exit : Exit
deriving Repr

abbrev Files := String → Option ByteArray

def success (text : String) : Report := ⟨⟨text, ""⟩, .code 0⟩

def failure (text message : String) : Report := ⟨⟨text, message ++ "\n"⟩, .code 1⟩

def overflow : Report := ⟨⟨"", Failure.tooDeep.message ++ "\n"⟩, .overflow⟩

def versionText : String := "sprig 0.3.0\n"

def usageText : String := Text.unlines [
  "Compile and run Sprig programs",
  "",
  "Usage: sprig [OPTIONS] <COMMAND>",
  "",
  "Commands:",
  "  run    Compile and run a Sprig source file",
  "  eval   Compile and run source given on the command line",
  "  check  Parse and compile a source file without running it",
  "  repl   Start the interactive REPL",
  "  info   Show information about the compiler",
  "  help   Print this message or the help of the given subcommand(s)",
  "",
  "Options:",
  "  -v, --verbose  Enable verbose output",
  "  -h, --help     Print help",
  "  -V, --version  Print version"]

def infoText : String := Text.unlines (
  ["Sprig Compiler", "Version: 0.3.0", "", "Keywords:"] ++
    (Keywords.builtins 0).sortedNames.map ("  - " ++ ·) ++
    ["", "Truthiness: only `null` and `false` are falsy"])

/-- The text of a file, which must be UTF-8. -/
def readText (files : Files) (path : String) : Option String := (files path).bind String.fromUTF8?

def unreadable : Report := failure "" "Failed to read input file"

def runSource (limit : Nat) (source : Source) : Report :=
  match evaluate limit source with
  | (.ok .null, _) => success ""
  | (.ok v, σ) => success (σ.display v ++ "\n")
  | (.error .tooDeep, _) => overflow
  | (.error e, _) => failure "" e.message

def tokenLine (t : Token) : String :=
  "  " ++ Text.padLeft 4 (toString t.span.start) ++ ".." ++
    Text.padRight 4 (toString t.span.stop) ++ " " ++ Text.padRight 8 t.kind.text ++ " " ++
    t.text ++ "\n"

/-- The listing of the tokens of a text, and the lexical error that cut it short. -/
def tokenListing (text : String) : String × Option CompileError :=
  let s := scan text
  let title := "=== Tokens ===\n"
  match s.error? with
  | some e => (title ++ String.join (s.tokens.map tokenLine), some e)
  | none => (title ++ String.join ((s.tokens ++ [Token.endOf text]).map tokenLine) ++ "\n", none)

def treeListing (tree : Expr) : String := "=== AST ===\n" ++ tree.toJson.pretty ++ "\n\n"

def checkSource (source : Source) (showTokens showTree : Bool) : Report :=
  let (tokens, lexical) := if showTokens then tokenListing source.text else ("", none)
  match lexical, parse source.text with
  | some e, _ | none, .error e => failure tokens e.diagnostic.message
  | none, .ok tree =>
    let listing := tokens ++ (if showTree then treeListing tree else "")
    match Program.compile source (.builtin 0) with
    | .error e => failure listing e.diagnostic.message
    | .ok p =>
      success (listing ++ "All checks passed: " ++ source.name ++ " (" ++
        toString p.body.items.length ++ " top-level expressions)\n")

def Command.report (limit : Nat) (files : Files) (input : String) : Command → Report
  | .run path =>
    match readText files path with
    | some text => runSource limit ⟨path, text⟩
    | none => unreadable
  | .eval source => runSource limit ⟨"<eval>", source⟩
  | .check path showTokens showTree =>
    match readText files path with
    | some text => checkSource ⟨path, text⟩ showTokens showTree
    | none => unreadable
  | .repl =>
    match Repl.transcript (.builtin 0) (Line.split input) with
    | (output, true) => ⟨output, .code 0⟩
    | (output, false) => ⟨output, .code Repl.failureCode⟩
  | .info => success infoText

def Stop.report : Stop → Report
  | .usage => ⟨⟨"", usageText⟩, .code 2⟩
  | .help => success usageText
  | .version => success versionText

def answer (files : Files) (input : String) (args : List String) : Report :=
  match Command.ofArgs args with
  | .ok command => command.report defaultLimit files input
  | .error stop => stop.report

end Fexpr.Cli
