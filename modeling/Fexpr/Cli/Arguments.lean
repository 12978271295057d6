/-!
# Command line arguments

A command is a word with options and operands after it; options may also stand before it. Options
begin with a hyphen: `--` and a word, or a hyphen and letters. After `--` everything is an operand.
Reading stops at the first argument that is wrong, or that asks for help or the version.
-/

namespace Fexpr.Cli

inductive Command where
  | run (path : String)
  | eval (source : String)
  | check (path : String) (showTokens showTree : Bool)
  | repl
  | info
deriving DecidableEq, Repr

inductive Stop where
  | usage
  | help
  | version
deriving DecidableEq, Repr

inductive Flag where
  | verbose
  | showTokens
  | showTree
  | help
  | version
deriving DecidableEq, Repr

def Flag.ofWord? : String → Option Flag
  | "verbose" => some .verbose
  | "show-tokens" => some .showTokens
  | "show-ast" => some .showTree
  | "help" => some .help
  | "version" => some .version
  | _ => none

def Flag.ofLetter? : Char → Option Flag
  | 'v' => some .verbose
  | 'h' => some .help
  | 'V' => some .version
  | _ => none

def flags? (arg : String) : Option (List (Option Flag)) :=
  match arg.toList with
  | '-' :: '-' :: word => some [Flag.ofWord? (String.ofList word)]
  | '-' :: c :: cs => some ((c :: cs).map Flag.ofLetter?)
  | _ => none

def addFlag (allowed seen : List Flag) : Option Flag → Except Stop (List Flag)
  | none => .error .usage
  | some f =>
    if !allowed.contains f then .error .usage
    else if f = .help then .error .help
    else if f = .version then .error .version
    else if seen.contains f then .error .usage
    else .ok (f :: seen)

def addFlags (allowed seen : List Flag) (fs : List (Option Flag)) : Except Stop (List Flag) :=
  fs.foldlM (addFlag allowed) seen

def splitCommand (seen : List Flag) : List String → Except Stop (String × List String)
  | [] => .error .usage
  | arg :: rest =>
    if arg = "--" then .error .usage else
      match flags? arg with
      | some fs => do
        let seen ← addFlags [.verbose, .help, .version] seen fs
        splitCommand seen rest
      | none => .ok (arg, rest)

/-- The options and operands of a command. Each operand must be accepted, in its turn. -/
def readOperands (allowed : List Flag) (accepts : Nat → String → Bool) (seen : List Flag)
    (operands : List String) : List String → Except Stop (List Flag × List String)
  | [] => .ok (seen, operands)
  | arg :: rest =>
    if arg = "--" then
      let all := operands ++ rest
      if all.zipIdx.all fun (operand, i) => accepts i operand then .ok (seen, all)
      else .error .usage
    else
      match flags? arg with
      | some fs => do
        let seen ← addFlags allowed seen fs
        readOperands allowed accepts seen operands rest
      | none =>
        if accepts operands.length arg then
          readOperands allowed accepts seen (operands ++ [arg]) rest
        else .error .usage

def onePath (index : Nat) (operand : String) : Bool := index == 0 && !operand.isEmpty

def oneText (index : Nat) (_ : String) : Bool := index == 0

def noOperand (_ : Nat) (_ : String) : Bool := false

def commandWords : List String := ["run", "eval", "check", "repl", "info", "help"]

/-- What the words after `help` ask for: nothing, or one command. Options have no meaning there. -/
def helpOn : List String → Stop
  | [] => .help
  | [topic] => if commandWords.contains topic then .help else .usage
  | _ => .usage

def ofCommandWord (word : String) (args : List String) : Except Stop Command :=
  match word with
  | "run" => do
    match ← readOperands [.verbose, .help] onePath [] [] args with
    | (_, [path]) => .ok (.run path)
    | _ => .error .usage
  | "eval" => do
    match ← readOperands [.verbose, .help] oneText [] [] args with
    | (_, [source]) => .ok (.eval source)
    | _ => .error .usage
  | "check" => do
    match ← readOperands [.verbose, .showTokens, .showTree, .help] onePath [] [] args with
    | (seen, [path]) => .ok (.check path (seen.contains .showTokens) (seen.contains .showTree))
    | _ => .error .usage
  | "repl" => do
    let _ ← readOperands [.verbose, .help] noOperand [] [] args
    return .repl
  | "info" => do
    let _ ← readOperands [.verbose, .help] noOperand [] [] args
    return .info
  | "help" => .error (helpOn args)
  | _ => .error .usage

def Command.ofArgs (args : List String) : Except Stop Command := do
  let (word, rest) ← splitCommand [] args
  ofCommandWord word rest

end Fexpr.Cli
