import Mathlib.Logic.Function.Basic
import MixfixLambda.Machine.Stream

/-!
# Calls on streams and their outcomes

What the streams record are calls; how each of them turns out is laid down by the scripts of the reader and
of the sinks. `Logs` relates the streams before and after some calls to the list of these calls with their
outcomes: the calls are recorded in this order, every outcome is the next one of its script, and a sink has
stored one byte for each call to write that succeeded. Every operation on streams is described by the shape
of its log.
-/
namespace MixfixLambda

/-- A call on a stream, and how it failed if it did. -/
structure Outcome where
  call : StreamCall
  failure : Option StreamError
  deriving DecidableEq, Repr

/-- A call that is made again while it is only interrupted. -/
def attempts (call : StreamCall) (retries : Nat) (failure : Option StreamError) : List Outcome :=
  List.replicate retries ⟨call, some .interrupted⟩ ++ [⟨call, failure⟩]

theorem call_of_mem_attempts {outcome : Outcome} {call : StreamCall} {retries : Nat}
    {failure : Option StreamError} (member : outcome ∈ attempts call retries failure) : outcome.call = call := by
  rcases List.mem_append.mp member with repeated | last
  · rw [List.eq_of_mem_replicate repeated]
  · rw [List.mem_singleton.mp last]

/-- What is still to come from the outside. -/
structure Outlook where
  reader : List ReadEvent
  writes : Target → Script (Option StreamError)
  flushes : Target → Script (Option StreamError)

def ReadEvent.failure? : ReadEvent → Option StreamError
  | .failure error => some error
  | _ => none

namespace Outlook

/-- How a call fails, if it does, and what is to come afterwards. -/
def answer (o : Outlook) : StreamCall → Option StreamError × Outlook
  | .read => (o.reader.head?.bind ReadEvent.failure?, { o with reader := o.reader.tail })
  | .write target _ =>
    ((o.writes target).next.1, { o with writes := Function.update o.writes target (o.writes target).next.2 })
  | .flush target =>
    ((o.flushes target).next.1, { o with flushes := Function.update o.flushes target (o.flushes target).next.2 })

/-- The outcomes of some calls are the ones that were to come. -/
def Answers : Outlook → List Outcome → Outlook → Prop
  | before, [], after => after = before
  | before, outcome :: rest, after =>
    outcome.failure = (before.answer outcome.call).1 ∧ Answers (before.answer outcome.call).2 rest after

/-- The outcomes that some calls will have. -/
def log : Outlook → List StreamCall → List Outcome
  | _, [] => []
  | o, call :: rest => ⟨call, (o.answer call).1⟩ :: (o.answer call).2.log rest

theorem Answers.log_eq {before after : Outlook} {outcomes : List Outcome}
    (answers : Answers before outcomes after) : before.log (outcomes.map Outcome.call) = outcomes := by
  induction outcomes generalizing before with
  | nil => rfl
  | cons outcome rest ih => rw [List.map_cons, log, ← answers.1, ih answers.2]

theorem Answers.append {before middle after : Outlook} {log log' : List Outcome}
    (first : Answers before log middle) (second : Answers middle log' after) :
    Answers before (log ++ log') after := by
  induction log generalizing before with
  | nil =>
    cases first
    exact second
  | cons outcome rest ih => exact ⟨first.1, ih first.2⟩

end Outlook

/-- The bytes that calls to write have brought to a sink. -/
def written (target : Target) (log : List Outcome) : List UInt8 :=
  log.filterMap fun outcome =>
    match outcome with
    | ⟨.write sink byte, none⟩ => if sink = target then some byte else none
    | _ => none

@[simp]
theorem written_append (target : Target) (log log' : List Outcome) :
    written target (log ++ log') = written target log ++ written target log' :=
  List.filterMap_append

theorem written_attempts (target other : Target) (byte : UInt8) (retries : Nat) (failure : Option StreamError) :
    written other (attempts (.write target byte) retries failure) =
      if failure = none ∧ target = other then [byte] else [] := by
  rw [attempts, written_append]
  cases failure with
  | none => by_cases here : target = other <;> simp [written, here]
  | some error => simp [written]

/-- Where there is no call to write there are no bytes. -/
theorem written_eq_nil {sink : Target} {log : List Outcome}
    (quiet : ∀ byte failure, ⟨.write sink byte, failure⟩ ∉ log) : written sink log = [] := by
  refine List.filterMap_eq_nil_iff.mpr fun outcome member => ?_
  split
  · next other byte =>
    split
    · next same =>
      subst same
      exact absurd member (quiet byte none)
    · rfl
  · rfl

/-- How an operation failed, if it did. -/
def failure? (result : Except StreamError α) : Option StreamError :=
  match result with
  | .ok _ => none
  | .error error => some error

/-- The next outcomes of a script, and the script behind them. -/
def Script.Yields : Script α → List α → Script α → Prop
  | before, [], after => after = before
  | before, outcome :: rest, after => outcome = before.next.1 ∧ Yields before.next.2 rest after

/-- Calls to write a byte turn out as the script of the sink says. -/
theorem Outlook.answers_of_yields (o : Outlook) (target : Target) (byte : UInt8)
    {failures : List (Option StreamError)} {script : Script (Option StreamError)}
    (yields : (o.writes target).Yields failures script) :
    o.Answers (failures.map (Outcome.mk (.write target byte)))
      { o with writes := Function.update o.writes target script } := by
  induction failures generalizing o with
  | nil =>
    cases yields
    exact congrArg (fun writes => Outlook.mk o.reader writes o.flushes) (Function.update_eq_self ..)
  | cons failure rest ih =>
    refine ⟨yields.1, ?_⟩
    have next := ih (o.answer (.write target byte)).2 (by simpa [Outlook.answer] using yields.2)
    simpa [Outlook.answer] using next

theorem Sink.writeFrom_failure {byte : UInt8} {sink : Sink} {calls : Nat} {error : StreamError}
    {first : List (Option StreamError)} (final : error ≠ .interrupted) :
    sink.writeFrom byte calls (some error :: first) =
      ((.error error, calls + 1), { sink with writes := { sink.writes with first } }) := by
  cases error with
  | interrupted => exact absurd rfl final
  | _ => rfl

/-- A call to write is repeated while it is only interrupted. -/
theorem Sink.writeFrom_yields (byte : UInt8) (sink : Sink) (calls : Nat) (first : List (Option StreamError)) :
    ∃ retries, (sink.writeFrom byte calls first).1.2 = calls + (retries + 1) ∧
      Script.Yields ⟨first, sink.writes.rest⟩
        (List.replicate retries (some .interrupted) ++ [failure? (sink.writeFrom byte calls first).1.1])
        (sink.writeFrom byte calls first).2.writes ∧
      (sink.writeFrom byte calls first).2.stored.toList = sink.stored.toList ++
        (if failure? (sink.writeFrom byte calls first).1.1 = none then [byte] else []) ∧
      (sink.writeFrom byte calls first).2.flushes = sink.flushes := by
  obtain ⟨stored, ⟨listed, always⟩, flushes⟩ := sink
  induction first generalizing calls with
  | nil =>
    cases always with
    | none => exact ⟨0, rfl, ⟨rfl, rfl⟩, Array.toList_push, rfl⟩
    | some error => exact ⟨0, rfl, ⟨rfl, rfl⟩, (List.append_nil _).symm, rfl⟩
  | cons outcome first ih =>
    match outcome with
    | none => exact ⟨0, rfl, ⟨rfl, rfl⟩, Array.toList_push, rfl⟩
    | some error =>
      by_cases again : error = .interrupted
      · subst again
        obtain ⟨retries, count, outcomes, rest⟩ := ih (calls + 1)
        exact ⟨retries + 1, count.trans (by omega), ⟨rfl, outcomes⟩, rest⟩
      · rw [Sink.writeFrom_failure again]
        exact ⟨0, rfl, ⟨rfl, rfl⟩, (List.append_nil _).symm, rfl⟩

namespace Streams

/-- What is still to come from the streams. -/
def outlook (s : Streams) : Outlook where
  reader := s.reader
  writes target := (s.sink target).writes
  flushes target := (s.sink target).flushes

/-- The calls of the log have been made, in this order and with these outcomes. -/
structure Logs (before : Streams) (log : List Outcome) (after : Streams) : Prop where
  calls : after.calls.toList = before.calls.toList ++ log.map Outcome.call
  outcomes : Outlook.Answers before.outlook log after.outlook
  stored : ∀ target,
    (after.sink target).stored.toList = (before.sink target).stored.toList ++ written target log

/-- The outcomes of the calls that have been made since. -/
def fresh (before after : Streams) : List Outcome :=
  before.outlook.log (after.calls.toList.drop before.calls.size)

variable {before middle after s : Streams} {log log' : List Outcome} {target : Target} {byte : UInt8}

theorem Logs.refl (s : Streams) : Logs s [] s where
  calls := by simp
  outcomes := rfl
  stored target := by simp [written]

theorem Logs.fresh_eq (logs : Logs before log after) : fresh before after = log := by
  rw [fresh, logs.calls, ← Array.length_toList, List.drop_left, logs.outcomes.log_eq]

theorem Logs.trans (first : Logs before log middle) (second : Logs middle log' after) :
    Logs before (log ++ log') after where
  calls := by rw [second.calls, first.calls, List.map_append, List.append_assoc]
  outcomes := first.outcomes.append second.outcomes
  stored target := by rw [second.stored, first.stored, written_append, List.append_assoc]

/-- The streams with another sink. -/
def withSink (s : Streams) (target : Target) (sink : Sink) : Streams :=
  match target with
  | .output => { s with output := sink }
  | .errors => { s with errors := sink }

theorem onSink_eq (target : Target) (work : Sink → α × Sink) (s : Streams) :
    s.onSink target work = ((work (s.sink target)).1, s.withSink target (work (s.sink target)).2) := by
  cases target <;> rfl

theorem flush_eq (target : Target) (s : Streams) :
    s.flush target = ((s.sink target).flush.1,
      (s.withSink target (s.sink target).flush.2).record (.flush target)) := by
  rw [flush, onSink_eq]

theorem foldl_record (s : Streams) (calls : List StreamCall) :
    calls.foldl record s = { s with calls := s.calls ++ calls.toArray } := by
  induction calls generalizing s with
  | nil => simp
  | cons call rest ih =>
    rw [List.foldl_cons, ih]
    simp [record]

theorem write_eq (target : Target) (byte : UInt8) (s : Streams) :
    s.write target byte = (((s.sink target).write byte).1.1,
      { s.withSink target ((s.sink target).write byte).2 with
        calls := (s.withSink target ((s.sink target).write byte).2).calls ++
          (List.replicate ((s.sink target).write byte).1.2 (StreamCall.write target byte)).toArray }) := by
  rw [write, onSink_eq, ← foldl_record]

theorem withSink_calls (s : Streams) (target : Target) (sink : Sink) :
    (s.withSink target sink).calls = s.calls := by
  cases target <;> rfl

theorem withSink_outlook (s : Streams) (target : Target) (sink : Sink) :
    (s.withSink target sink).outlook = { s.outlook with
      writes := Function.update s.outlook.writes target sink.writes
      flushes := Function.update s.outlook.flushes target sink.flushes } := by
  simp only [outlook, Outlook.mk.injEq]
  refine ⟨by cases target <;> rfl, ?_, ?_⟩ <;> funext other <;> cases target <;> cases other <;> rfl

theorem withSink_stored (s : Streams) (target other : Target) (sink : Sink) :
    ((s.withSink target sink).sink other).stored =
      if target = other then sink.stored else (s.sink other).stored := by
  cases target <;> cases other <;> rfl

theorem flush_logs (target : Target) (s : Streams) :
    Logs s [⟨.flush target, failure? (s.flush target).1⟩] (s.flush target).2 := by
  have same : failure? (s.sink target).flush.1 = (s.sink target).flushes.next.1 ∧
      (s.sink target).flush.2 = { s.sink target with flushes := (s.sink target).flushes.next.2 } := by
    unfold Sink.flush
    dsimp only
    split <;> simp_all [failure?]
  rw [flush_eq]
  refine ⟨?_, ⟨same.1, ?_⟩, fun other => ?_⟩
  · simp [record, withSink_calls]
  · change (s.withSink target _).outlook = _
    rw [withSink_outlook, same.2]
    exact congrArg (fun writes => Outlook.mk s.reader writes _)
      (Function.update_eq_self target s.outlook.writes)
  · change ((s.withSink target _).sink other).stored.toList = _
    rw [withSink_stored, same.2]
    split
    · next here => simp [written, here]
    · simp [written]

theorem write_logs (target : Target) (byte : UInt8) (s : Streams) :
    ∃ retries, Logs s (attempts (.write target byte) retries (failure? (s.write target byte).1))
      (s.write target byte).2 := by
  obtain ⟨retries, count, outcomes, stored, flushes⟩ :=
    (s.sink target).writeFrom_yields byte 0 (s.sink target).writes.first
  refine ⟨retries, ?_⟩
  rw [write_eq]
  refine ⟨?_, ?_, fun other => ?_⟩
  · simp [attempts, withSink_calls, Sink.write, count, List.replicate_succ']
  · have answers := s.outlook.answers_of_yields target byte outcomes
    rw [List.map_append, List.map_replicate] at answers
    change Outlook.Answers _ _ (s.withSink target _).outlook
    have same : Function.update s.outlook.flushes target (s.sink target).flushes = s.outlook.flushes :=
      Function.update_eq_self target s.outlook.flushes
    rw [withSink_outlook, Sink.write, flushes, same]
    exact answers
  · change ((s.withSink target _).sink other).stored.toList = _
    rw [withSink_stored, written_attempts, Sink.write]
    split
    · next here =>
      subst here
      simp [stored]
    · next elsewhere => simp [elsewhere]

theorem readFrom_failure {error : StreamError} {reader : List ReadEvent} (final : error ≠ .interrupted) :
    readFrom (.failure error :: reader) s =
      (.error error, { s with reader, reads := s.reads + 1, calls := s.calls.push .read }) := by
  cases error with
  | interrupted => exact absurd rfl final
  | _ => rfl

/-- One call to read, which leaves the sinks alone. -/
theorem Logs.ofRead {reader : List ReadEvent} {failure : Option StreamError}
    (calls : after.calls = before.calls.push .read) (sinks : after.sink = before.sink)
    (behind : after.reader = reader.tail) (here : failure = reader.head?.bind ReadEvent.failure?) :
    Logs { before with reader } [⟨.read, failure⟩] after where
  calls := by simp [calls]
  outcomes := by
    refine ⟨here, ?_⟩
    simp only [outlook, Outlook.answer, behind, sinks]
    rfl
  stored target := by
    rw [sinks]
    exact (List.append_nil _).symm

/-- Reading goes on while calls are only interrupted. -/
theorem readFrom_logs (reader : List ReadEvent) (s : Streams) :
    ∃ retries, Logs { s with reader } (attempts .read retries (failure? (readFrom reader s).1))
      (readFrom reader s).2 ∧ failure? (readFrom reader s).1 ≠ some .interrupted := by
  induction reader generalizing s with
  | nil => exact ⟨0, .ofRead rfl rfl rfl rfl, nofun⟩
  | cons event reader ih =>
    match event with
    | .byte value => exact ⟨0, .ofRead rfl rfl rfl rfl, nofun⟩
    | .ending => exact ⟨0, .ofRead rfl rfl rfl rfl, nofun⟩
    | .failure error =>
      by_cases again : error = .interrupted
      · subst again
        let asked : Streams := { s with calls := s.calls.push .read, reads := s.reads + 1 }
        obtain ⟨retries, logs, last⟩ := ih asked
        have first : Logs { s with reader := .failure .interrupted :: reader } [⟨.read, some .interrupted⟩]
            { asked with reader } := .ofRead rfl rfl rfl rfl
        exact ⟨retries + 1, first.trans logs, last⟩
      · rw [readFrom_failure again]
        exact ⟨0, .ofRead rfl rfl rfl rfl, fun same => again (Option.some.inj same)⟩

theorem readByte_logs (s : Streams) :
    ∃ retries, Logs s (attempts .read retries (failure? s.readByte.1)) s.readByte.2 ∧
      failure? s.readByte.1 ≠ some .interrupted :=
  readFrom_logs s.reader s

/-- The calls of a demand for bytes and how the demand fails: before every byte the output is flushed, and
nothing comes behind a failure. -/
inductive Fetches : List Outcome → Option StreamError → Prop
  | enough : Fetches [] none
  | blocked (error : StreamError) : Fetches [⟨.flush .output, some error⟩] (some error)
  | broken (retries : Nat) {error : StreamError} (final : error ≠ .interrupted) :
      Fetches (⟨.flush .output, none⟩ :: attempts .read retries (some error)) (some error)
  | more (retries : Nat) {log : List Outcome} {failure : Option StreamError} (rest : Fetches log failure) :
      Fetches (⟨.flush .output, none⟩ :: attempts .read retries none ++ log) failure

theorem fetch_logs (count : Nat) (s : Streams) :
    ∃ log, Logs s log (s.fetch count).2 ∧ Fetches log (failure? (s.fetch count).1) := by
  induction count generalizing s with
  | zero => exact ⟨[], .refl s, .enough⟩
  | succ count ih =>
    unfold fetch
    split
    · exact ⟨[], .refl s, .enough⟩
    · have flushed := flush_logs .output s
      split
      · next error after outcome =>
        rw [outcome] at flushed
        exact ⟨_, flushed, .blocked error⟩
      · next before outcome =>
        rw [outcome] at flushed
        obtain ⟨retries, asked, last⟩ := before.readByte_logs
        split
        · next error after answer =>
          rw [answer] at asked last
          exact ⟨_, flushed.trans asked, .broken retries fun same => last (congrArg some same)⟩
        · next next answer =>
          rw [answer] at asked
          obtain ⟨log, logs, rest⟩ := ih next
          exact ⟨_, (flushed.trans asked).trans logs, .more retries rest⟩

theorem get_logs (index : Int) (s : Streams) :
    ∃ log, Logs s log (s.get index).2 ∧ Fetches log (failure? (s.get index).1) := by
  unfold get
  split
  · exact ⟨[], .refl s, .enough⟩
  · next position =>
    obtain ⟨log, logs, shape⟩ := fetch_logs (position + 1 - s.cache.size) s
    split
    · next answer =>
      rw [answer] at logs shape
      exact ⟨log, logs, shape⟩
    · next answer =>
      rw [answer] at logs shape
      split
      · exact ⟨log, logs, shape⟩
      · exact ⟨log, logs, shape⟩

end Streams

end MixfixLambda
