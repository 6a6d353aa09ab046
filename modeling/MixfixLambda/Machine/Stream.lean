/-!
# Streams

A program reads one stream of bytes and writes two. What the outside does is data: the reader and both
sinks follow scripts, and every call on a stream is recorded in the order in which it was made. Bytes
that have been read are kept, so that every demand for one position is answered alike.
-/
namespace MixfixLambda

/-- Why a call on a stream fails. -/
inductive StreamError where
  | brokenPipe | permissionDenied | unexpectedEof | timedOut | notFound | invalidData | writeZero
  | interrupted | isDirectory | notDirectory | invalidName | other
  deriving DecidableEq, Repr, Inhabited

def StreamError.message : StreamError → String
  | .brokenPipe => "broken pipe"
  | .permissionDenied => "permission denied"
  | .unexpectedEof => "unexpected end of file"
  | .timedOut => "timed out"
  | .notFound => "entity not found"
  | .invalidData => "invalid data"
  | .writeZero => "write zero"
  | .interrupted => "operation interrupted"
  | .isDirectory => "is a directory"
  | .notDirectory => "not a directory"
  | .invalidName => "invalid filename"
  | .other => "other error"

/-- What one call to read a byte comes to. -/
inductive ReadEvent where
  | byte (value : UInt8)
  /-- There is no byte, and none will be asked for any more. -/
  | ending
  | failure (error : StreamError)
  deriving DecidableEq, Repr, Inhabited

/-- What successive calls come to: the listed outcomes in turn, then the last one for ever. -/
structure Script (α : Type) where
  first : List α
  rest : α
  deriving DecidableEq, Repr, Inhabited

def Script.always (outcome : α) : Script α :=
  ⟨[], outcome⟩

/-- The outcome of the next call, and the script behind it. -/
def Script.next (s : Script α) : α × Script α :=
  match s.first with
  | [] => (s.rest, s)
  | outcome :: first => (outcome, { s with first })

/-- A stream that is written to. -/
structure Sink where
  /-- The bytes that have been written. -/
  stored : Array UInt8
  /-- How calls to write a byte fail. -/
  writes : Script (Option StreamError)
  /-- How calls to flush fail. -/
  flushes : Script (Option StreamError)
  deriving Repr, Inhabited

/-- A sink that never fails. -/
def Sink.working : Sink :=
  ⟨#[], .always none, .always none⟩

/-- Calls to write a byte until one succeeds or fails for good: a call that was only interrupted is made
again. `first` are the listed outcomes, and `calls` is the number of calls so far. -/
def Sink.writeFrom (byte : UInt8) (sink : Sink) (calls : Nat) :
    List (Option StreamError) → (Except StreamError Unit × Nat) × Sink
  | [] =>
    match sink, sink.writes.rest with
    | { stored, writes, flushes }, none =>
      ((.ok (), calls + 1), ⟨stored.push byte, { writes with first := [] }, flushes⟩)
    | { stored, writes, flushes }, some error =>
      ((.error error, calls + 1), ⟨stored, { writes with first := [] }, flushes⟩)
  | none :: first =>
    match sink with
    | { stored, writes, flushes } =>
      ((.ok (), calls + 1), ⟨stored.push byte, { writes with first }, flushes⟩)
  | some .interrupted :: first => sink.writeFrom byte (calls + 1) first
  | some error :: first =>
    ((.error error, calls + 1), { sink with writes := { sink.writes with first } })

/-- Writes one byte; answers the outcome and the number of calls that it took. -/
def Sink.write (byte : UInt8) (sink : Sink) : (Except StreamError Unit × Nat) × Sink :=
  sink.writeFrom byte 0 sink.writes.first

def Sink.flush (sink : Sink) : Except StreamError Unit × Sink :=
  let (outcome, flushes) := sink.flushes.next
  match outcome with
  | none => (.ok (), { sink with flushes })
  | some error => (.error error, { sink with flushes })

inductive Target where
  | output | errors
  deriving DecidableEq, Repr, Inhabited

/-- A call on a stream. -/
inductive StreamCall where
  | read
  | write (target : Target) (byte : UInt8)
  | flush (target : Target)
  deriving DecidableEq, Repr, Inhabited

structure Streams where
  /-- What the calls to read come to; behind the last one the input has ended. -/
  reader : List ReadEvent
  /-- The bytes that have been read. -/
  cache : Array UInt8
  /-- The end of the input has been seen. -/
  exhausted : Bool
  /-- Number of calls to read. -/
  reads : Nat
  output : Sink
  errors : Sink
  /-- Every call so far, in order. -/
  calls : Array StreamCall
  deriving Repr, Inhabited

namespace Streams

/-- Streams with a given input whose sinks never fail. -/
def ofReader (reader : List ReadEvent) : Streams :=
  { reader, cache := #[], exhausted := false, reads := 0, output := .working, errors := .working,
    calls := #[] }

/-- Streams on which nothing has happened and nothing will. -/
def idle : Streams :=
  ofReader []

def record (s : Streams) (call : StreamCall) : Streams :=
  { s with calls := s.calls.push call }

def sink (s : Streams) : Target → Sink
  | .output => s.output
  | .errors => s.errors

/-- Lets one sink do something. -/
def onSink (target : Target) (work : Sink → α × Sink) (s : Streams) : α × Streams :=
  match target, s with
  | .output, { reader, cache, exhausted, reads, output, errors, calls } =>
    let (answer, output) := work output
    (answer, { reader, cache, exhausted, reads, output, errors, calls })
  | .errors, { reader, cache, exhausted, reads, output, errors, calls } =>
    let (answer, errors) := work errors
    (answer, { reader, cache, exhausted, reads, output, errors, calls })

/-- Writes one byte. A call that was only interrupted is made again, so that there may be several. -/
def write (target : Target) (byte : UInt8) (s : Streams) : Except StreamError Unit × Streams :=
  let (answer, s) := s.onSink target (·.write byte)
  (answer.1, (List.replicate answer.2 (StreamCall.write target byte)).foldl record s)

def flush (target : Target) (s : Streams) : Except StreamError Unit × Streams :=
  let (answer, s) := s.onSink target Sink.flush
  (answer, s.record (.flush target))

/-- Calls to read until one yields a byte, the end, or a failure other than an interruption. -/
def readFrom (reader : List ReadEvent) (s : Streams) : Except StreamError Unit × Streams :=
  let s := s.record .read
  let s := { s with reads := s.reads + 1 }
  match reader with
  | [] => (.ok (), { s with reader := [], exhausted := true })
  | .byte value :: reader => (.ok (), { s with reader, cache := s.cache.push value })
  | .ending :: reader => (.ok (), { s with reader, exhausted := true })
  | .failure .interrupted :: reader => readFrom reader s
  | .failure error :: reader => (.error error, { s with reader })

/-- Reads one byte more into the cache, or sees the end of the input. -/
def readByte (s : Streams) : Except StreamError Unit × Streams :=
  readFrom s.reader s

/-- Reads up to `count` bytes more. The output is flushed before every byte that is asked for. -/
def fetch : Nat → Streams → Except StreamError Unit × Streams
  | 0, s => (.ok (), s)
  | count + 1, s =>
    if s.exhausted then (.ok (), s)
    else
      match s.flush .output with
      | (.error error, s) => (.error error, s)
      | (.ok (), s) =>
        match s.readByte with
        | (.error error, s) => (.error error, s)
        | (.ok (), s) => fetch count s

/-- The byte at a position of the input, or `-1` if there is none. -/
def get (index : Int) (s : Streams) : Except StreamError Int × Streams :=
  match index with
  | .negSucc _ => (.ok (-1), s)
  | .ofNat position =>
    match s.fetch (position + 1 - s.cache.size) with
    | (.error error, s) => (.error error, s)
    | (.ok (), s) =>
      match s.cache[position]? with
      | some byte => (.ok byte.toNat, s)
      | none => (.ok (-1), s)

end Streams

end MixfixLambda
