import MixfixLambda.Machine.Stream

/-!
# Surroundings

What the command line asks of the system it runs on. All else that a command does is decided without
looking outside, so that a command can also be run on data.
-/
namespace MixfixLambda.Cli

structure Host (m : Type → Type) where
  /-- The bytes of a file. -/
  readFile : String → m (Except StreamError (List UInt8))
  /-- The next bytes of the standard input; none at its end. -/
  readInput : m (Except StreamError (List UInt8))
  /-- Sends bytes to the standard output or to the error stream. -/
  write : Target → List UInt8 → m (Except StreamError Unit)
  /-- Milliseconds since the command began. -/
  elapsed : m Nat
  /-- Reports on the error stream are coloured. -/
  colour : Bool

/-- More rounds than any loop over the input or over a run goes through. -/
def unlimited : Nat :=
  Nat.pow 2 64

variable {m : Type → Type} [Monad m]

namespace Host

def writeText (host : Host m) (target : Target) (text : String) : m (Except StreamError Unit) :=
  host.write target text.toUTF8.toList

/-- Writes to the error stream. If that fails, what was to be reported is lost. -/
def note (host : Host m) (text : String) : m Unit := do
  let _ ← host.writeText .errors text
  return ()

/-- The rest of the input. `done` are the pieces so far, last one first. -/
def readAllFrom (host : Host m) (done : List (List UInt8)) :
    Nat → m (Except StreamError (List UInt8))
  | 0 => return .ok done.reverse.flatten
  | rounds + 1 => do
    match ← host.readInput with
    | .error error => return .error error
    | .ok [] => return .ok done.reverse.flatten
    | .ok bytes => host.readAllFrom (bytes :: done) rounds

/-- All of the input. -/
def readAll (host : Host m) : m (Except StreamError (List UInt8)) :=
  host.readAllFrom [] unlimited

end Host

/-- The bytes up to a line feed and those behind it, if there is one. `done` are bytes of the line before
these, last one first. -/
def splitLine (done : List UInt8) : List UInt8 → Except (List UInt8) (List UInt8 × List UInt8)
  | [] => .error done
  | b :: bs => if b = 0x0a then .ok ((b :: done).reverse, bs) else splitLine (b :: done) bs

/-- The next line with its line feed, and bytes that were read behind it. The line is empty at the end of
the input. `done` are bytes of the line, last one first, and `bytes` follow them. -/
def Host.readLineFrom (host : Host m) (done bytes : List UInt8) :
    Nat → m (Except StreamError (List UInt8 × List UInt8))
  | 0 => return .ok (done.reverse, bytes)
  | rounds + 1 => do
    match splitLine done bytes with
    | .ok found => return .ok found
    | .error done =>
      match ← host.readInput with
      | .error error => return .error error
      | .ok [] => return .ok (done.reverse, [])
      | .ok bytes => host.readLineFrom done bytes rounds

/-- The next line, where some bytes have been read already. -/
def Host.readLine (host : Host m) (bytes : List UInt8) :
    m (Except StreamError (List UInt8 × List UInt8)) :=
  host.readLineFrom [] bytes unlimited

end MixfixLambda.Cli
