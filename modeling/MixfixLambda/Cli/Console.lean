import MixfixLambda.Cli.Execution

/-!
# A console made of data

Surroundings that are known beforehand: a directory of files and the whole input. What a command writes is
kept.
-/
namespace MixfixLambda.Cli

structure Console where
  /-- Paths, relative to the directory, and contents. -/
  files : List (String × List UInt8)
  /-- What has not been read of the input. -/
  input : List UInt8
  output : Array UInt8
  errors : Array UInt8
  deriving DecidableEq, Repr, Inhabited

namespace Console

/-- The longest path, and the longest name in it, in bytes. -/
def pathLimit : Nat :=
  4095

def nameLimit : Nat :=
  255

/-- The names along the path of a file. -/
def names (path : String) : List String :=
  path.splitOn "/"

/-- The bytes of the file that names lead to from a directory, which is known by its own path. Outside of
the console's directory there are only further directories above it. -/
def find (c : Console) : Option (List String) → List String → Except StreamError (List UInt8)
  | _, [] => .error .isDirectory
  | directory, name :: rest =>
    if name = "" ∨ name = "." then c.find directory rest
    else if name = ".." then
      c.find (directory.bind fun path => if path.isEmpty then none else some path.dropLast) rest
    else if nameLimit < name.utf8ByteSize then .error .invalidName
    else
      match directory with
      | none => .error .notFound
      | some path =>
        let path := path ++ [name]
        match c.files.find? (names ·.1 == path) with
        | some (_, bytes) => if rest.isEmpty then .ok bytes else .error .notDirectory
        | none =>
          if c.files.any (path.isPrefixOf <| names ·.1) then c.find (some path) rest
          else .error .notFound

/-- The bytes of a file. -/
def readFile (c : Console) (path : String) : Except StreamError (List UInt8) :=
  if pathLimit < path.utf8ByteSize then .error .invalidName
  else c.find (if path.startsWith "/" then none else some []) (names path)

def write (target : Target) (bytes : List UInt8) (c : Console) : Console :=
  match target, c with
  | .output, ⟨files, input, output, errors⟩ => ⟨files, input, output ++ bytes, errors⟩
  | .errors, ⟨files, input, output, errors⟩ => ⟨files, input, output, errors ++ bytes⟩

/-- The console as the surroundings of a command. Its clock stands still. -/
def host (colour : Bool) : Host (StateM Console) where
  readFile path := return (← get).readFile path
  readInput := modifyGet fun c => (.ok c.input, { c with input := [] })
  write target bytes := modifyGet fun c => (.ok (), c.write target bytes)
  elapsed := return 0
  colour := colour

/-- Does what some arguments ask for; the answer is the exit status and the console afterwards. -/
def perform (c : Console) (colour : Bool) (arguments : List String) : Nat × Console :=
  ((host colour).perform arguments).run c

end Console

end MixfixLambda.Cli
