import Fexpr.Cli.Run

/-!
# The program

Reads files and lines, and prints what the command line answers.
-/

namespace Fexpr

def put (output : Repl.Output) : IO Unit := do
  IO.print output.out
  IO.eprint output.err

def readFile? (path : String) : IO (Option ByteArray) := do
  try
    return some (← IO.FS.readBinFile path)
  catch _ =>
    return none

/-- Answers lines as they come, and tells whether all of them could be read. -/
partial def converse (input : IO.FS.Stream) (loop : Repl.Loop) : IO Bool := do
  match Line.split (← input.getLine) with
  | [] => return true
  | typed :: _ =>
    match loop.turn Host.absent defaultLimit typed with
    | .next output loop =>
      put output
      converse input loop
    | .quit => return true
    | .unreadable => return false

/-- A process that overflows its stack is ended by a signal, which shells show as 134. -/
def exitCode : Cli.Exit → UInt32
  | .code n => n.toUInt32
  | .overflow => 134

def carryOut (command : Cli.Command) : IO UInt32 := do
  match command with
  | .repl =>
    IO.print Repl.banner
    if ← converse (← IO.getStdin) ⟨[], Repl.start (.builtin 0)⟩ then
      IO.print Repl.farewell
      return 0
    else
      return Repl.failureCode.toUInt32
  | command =>
    let path := match command with
      | .run path | .check path _ _ => path
      | _ => ""
    let contents ← readFile? path
    let report := command.report defaultLimit (fun _ => contents) ""
    put report.output
    return exitCode report.exit

end Fexpr

def main (args : List String) : IO UInt32 := do
  match Fexpr.Cli.Command.ofArgs args with
  | .ok command => Fexpr.carryOut command
  | .error stop =>
    Fexpr.put stop.report.output
    return Fexpr.exitCode stop.report.exit
