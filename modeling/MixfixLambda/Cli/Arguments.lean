/-!
# Command line arguments

Which command some arguments ask for. Arguments are read from left to right, and the first one that asks
for help or is out of place decides. Behind `--` every argument is a path.
-/
namespace MixfixLambda.Cli

structure RunFlags where
  /-- Lists every step. -/
  trace : Bool
  /-- Reports the counters of the run. -/
  profile : Bool
  /-- Faults name the globals that led to them. -/
  backtrace : Bool
  /-- Reports have no places. -/
  test : Bool
  deriving DecidableEq, Repr, Inhabited

inductive Command where
  /-- Runs a program; without a path, the one on the standard input. -/
  | run (path : Option String) (flags : RunFlags)
  /-- Prints a source as it was understood. -/
  | parse (path : String)
  /-- Prints the lexemes of every line of the input. -/
  | lexLines
  /-- Prints every line of the input as it was understood. -/
  | parseLines
  deriving DecidableEq, Repr

inductive Request where
  | command (command : Command)
  | help
  /-- No command has these arguments. -/
  | wrong
  deriving DecidableEq, Repr

/-- One argument, as far as the commands have it in common. -/
inductive Argument where
  | help
  /-- A name after two hyphens. -/
  | flag (name : String)
  | path (path : String)
  /-- `--` -/
  | divider
  | wrong
  deriving DecidableEq, Repr

namespace Argument

def ofString (s : String) : Argument :=
  match s.toList with
  | ['-', '-'] => .divider
  | '-' :: '-' :: name =>
    if name = "help".toList then .help else .flag (String.ofList name)
  | '-' :: 'h' :: _ => .help
  | '-' :: _ :: _ => .wrong
  | [] => .wrong
  | _ => .path s

/-- An argument behind the divider. -/
def literal (s : String) : Argument :=
  if s.isEmpty then .wrong else .path s

/-- The arguments of a command; those behind the divider are paths. -/
def ofStrings : List String → List Argument
  | [] => []
  | s :: rest =>
    match ofString s with
    | .divider => rest.map literal
    | argument => argument :: ofStrings rest

end Argument

/-- Sets a flag. A flag can be given once. -/
def RunFlags.set? (flags : RunFlags) : String → Option RunFlags
  | "trace" => if flags.trace then none else some { flags with trace := true }
  | "profile" => if flags.profile then none else some { flags with profile := true }
  | "backtrace" => if flags.backtrace then none else some { flags with backtrace := true }
  | "test" => if flags.test then none else some { flags with test := true }
  | _ => none

namespace Request

/-- The arguments of `run`, with what the ones before them have given. -/
def ofRunArguments (path : Option String) (flags : RunFlags) : List Argument → Request
  | [] => .command (.run path flags)
  | .help :: _ => .help
  | .flag name :: rest =>
    match flags.set? name with
    | some flags => ofRunArguments path flags rest
    | none => .wrong
  | .path p :: rest =>
    match path with
    | none => ofRunArguments (some p) flags rest
    | some _ => .wrong
  | .divider :: _ | .wrong :: _ => .wrong

/-- The arguments of `parse`, which needs a path. -/
def ofParseArguments (path : Option String) : List Argument → Request
  | [] =>
    match path with
    | none => .wrong
    | some path => .command (.parse path)
  | .help :: _ => .help
  | .path p :: rest =>
    match path with
    | none => ofParseArguments (some p) rest
    | some _ => .wrong
  | .flag _ :: _ | .divider :: _ | .wrong :: _ => .wrong

/-- The arguments of a command that takes none. -/
def ofNoArguments (command : Command) : List Argument → Request
  | [] => .command command
  | .help :: _ => .help
  | _ :: _ => .wrong

def commandNames : List String :=
  ["run", "parse", "rlpl", "rppl", "help"]

/-- Help about the named command, or about all of them. -/
def ofHelpArguments : List String → Request
  | [] => .help
  | [name] => if commandNames.contains name then .help else .wrong
  | _ => .wrong

def ofArguments : List String → Request
  | [] => .wrong
  | "run" :: rest => ofRunArguments none ⟨false, false, false, false⟩ (Argument.ofStrings rest)
  | "parse" :: rest => ofParseArguments none (Argument.ofStrings rest)
  | "rlpl" :: rest => ofNoArguments .lexLines (Argument.ofStrings rest)
  | "rppl" :: rest => ofNoArguments .parseLines (Argument.ofStrings rest)
  | "help" :: rest => ofHelpArguments rest
  | s :: _ =>
    match Argument.ofString s with
    | .help => .help
    | _ => .wrong

end Request

/-- What is printed for help, and for arguments that are wrong. -/
def usage : String :=
  "Usage: mixfix-lambda <COMMAND>\n\n"
    ++ "Commands:\n"
    ++ "  run [PATH] [--trace] [--profile] [--backtrace] [--test]\n"
    ++ "              Runs a program; without a path or with `-`, the one on the standard input\n"
    ++ "  parse PATH  Prints a source as it was understood\n"
    ++ "  rlpl        Prints the lexemes of every line of the input\n"
    ++ "  rppl        Prints every line of the input as it was understood\n"
    ++ "  help        Prints this text\n"

end MixfixLambda.Cli
