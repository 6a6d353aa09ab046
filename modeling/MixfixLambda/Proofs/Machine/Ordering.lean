import MixfixLambda.Proofs.Machine.Episodes

/-!
# The order of effects

From what an episode consists of, and from what may follow it, comes the order in which things happen in
every run, however the streams behave: reads behind flushes of the output, nothing more on the output once
`abort` has been called, every byte written by a call of `put`, and nothing but the last flushes behind a
failure.
-/
namespace MixfixLambda

/-- Every call to read stands behind a flush of the output that worked, with only calls to read that were
interrupted between them. -/
def ReadsFlushed (log : List Outcome) : Prop :=
  ∀ before failure after, log = before ++ ⟨.read, failure⟩ :: after →
    ∃ earlier retries,
      before = earlier ++ ⟨.flush .output, none⟩ :: List.replicate retries ⟨.read, some .interrupted⟩

/-- Nothing is written to the output once `abort` has been called. -/
def OutputClosed (events : List Event) : Prop :=
  ∀ before after, events = before ++ .abort :: after →
    ∀ byte failure, .stream ⟨.write .output byte, failure⟩ ∉ after

/-- Before a byte goes to the errors, `abort` has been called and the output has been flushed at once. -/
def ErrorsOpened (events : List Event) : Prop :=
  ∀ before byte failure after, events = before ++ .stream ⟨.write .errors byte, failure⟩ :: after →
    ∃ earlier flushed between,
      before = earlier ++ .abort :: .stream ⟨.flush .output, flushed⟩ :: between

/-- An outcome behind some events that ends a run: a call to read or to write that failed and was not just
interrupted, or a flush that failed and was not made by `abort`. -/
inductive Fatal (before : List Event) : Outcome → Prop
  | read {error : StreamError} (final : error ≠ .interrupted) : Fatal before ⟨.read, some error⟩
  | write {sink : Target} {byte : UInt8} {error : StreamError} (final : error ≠ .interrupted) :
      Fatal before ⟨.write sink byte, some error⟩
  | flush {error : StreamError} (occasion : before.getLast? ≠ some .abort) :
      Fatal before ⟨.flush .output, some error⟩

/-- Nothing happens behind an outcome that ends the run. -/
def FailuresLast (events : List Event) : Prop :=
  ∀ before outcome after, events = before ++ .stream outcome :: after → Fatal before outcome → after = []

/-- The flushes at the end of a run: of the output, and of the errors if that worked. -/
inductive LastFlushes : List Outcome → Prop
  | output (error : StreamError) : LastFlushes [⟨.flush .output, some error⟩]
  | both (failure : Option StreamError) : LastFlushes [⟨.flush .output, none⟩, ⟨.flush .errors, failure⟩]

/-- The order of what happens in a run: `during` its steps, and in the `final` flushes. -/
structure Orderly (during : List Event) (final : List Outcome) : Prop where
  reads : ReadsFlushed (outcomes during ++ final)
  closed : OutputClosed during
  opened : ErrorsOpened during
  puts : ((written .output (outcomes during) ++ written .errors (outcomes during)).map
    fun byte => (byte.toNat : Int)) = puts during
  failures : FailuresLast during
  final : LastFlushes final

theorem Fatal.failed {before : List Event} {outcome : Outcome} (fatal : Fatal before outcome) :
    ∃ error, outcome.failure = some error ∧ (outcome.call ≠ .flush .output → error ≠ .interrupted) := by
  cases fatal with
  | read final | write final => exact ⟨_, rfl, fun _ => final⟩
  | flush occasion => exact ⟨_, rfl, fun other => absurd rfl other⟩

/-- Events before do not make an outcome harmless, only events directly before. -/
theorem Fatal.of_append {before earlier : List Event} {outcome : Outcome}
    (fatal : Fatal (before ++ earlier) outcome) : Fatal earlier outcome := by
  cases fatal with
  | read final => exact .read final
  | write final => exact .write final
  | flush occasion =>
    refine .flush fun aborts => occasion ?_
    rw [List.getLast?_append, aborts]
    rfl

/-- An element of a list in two parts stands in one of them. -/
theorem split_append {α : Type} {first second before after : List α} {x : α}
    (split : first ++ second = before ++ x :: after) :
    (∃ rest, first = before ++ x :: rest ∧ after = rest ++ second) ∨
      ∃ earlier, before = first ++ earlier ∧ second = earlier ++ x :: after := by
  rcases List.append_eq_append_iff.mp split with ⟨earlier, here, there⟩ | ⟨rest, here, there⟩
  · exact .inr ⟨earlier, here, there⟩
  · cases rest with
    | nil => exact .inr ⟨[], by simpa using here.symm, there.symm⟩
    | cons head rest =>
      obtain ⟨rfl, rfl⟩ := List.cons.inj there
      exact .inl ⟨rest, here, rfl⟩

/-- Of the calls of which all but the last were interrupted, only the last can have failed for good. -/
theorem failure_of_attempts {call : StreamCall} {retries : Nat} {failure : Option StreamError}
    {before after : List Outcome} {outcome : Outcome} {error : StreamError}
    (split : attempts call retries failure = before ++ outcome :: after)
    (failed : outcome.failure = some error) :
    error = .interrupted ∨ after = [] ∧ failure = some error := by
  rcases split_append split with ⟨rest, here, -⟩ | ⟨earlier, -, last⟩
  · have member : outcome ∈ List.replicate retries (Outcome.mk call (some .interrupted)) := by simp [here]
    rw [List.eq_of_mem_replicate member] at failed
    exact .inl (Option.some.inj failed).symm
  · obtain ⟨rfl, last⟩ := List.append_eq_singleton_iff.mp last.symm |>.resolve_right (by simp)
    obtain ⟨rfl, rfl⟩ := List.cons.inj last
    exact .inr ⟨rfl, failed⟩

theorem stream_split {log : List Outcome} {before rest : List Event} {outcome : Outcome}
    (split : log.map .stream = before ++ .stream outcome :: rest) :
    ∃ earlier later, log = earlier ++ outcome :: later ∧ rest = later.map .stream := by
  obtain ⟨earlier, behind, rfl, -, there⟩ := List.map_eq_append_iff.mp split
  obtain ⟨head, later, rfl, same, rfl⟩ := List.map_eq_cons_iff.mp there
  cases same
  exact ⟨earlier, later, rfl, rfl⟩

section Reads

variable {log log' : List Outcome}

theorem ReadsFlushed.append (first : ReadsFlushed log) (second : ReadsFlushed log') :
    ReadsFlushed (log ++ log') := by
  intro before failure after split
  rcases split_append split with ⟨rest, here, -⟩ | ⟨between, rfl, there⟩
  · exact first before failure rest here
  · obtain ⟨earlier, retries, same⟩ := second between failure after there
    exact ⟨log ++ earlier, retries, by rw [same, List.append_assoc]⟩

theorem ReadsFlushed.of_noRead (quiet : ∀ outcome ∈ log, outcome.call ≠ .read) : ReadsFlushed log := by
  intro before failure after split
  exact absurd rfl (quiet ⟨.read, failure⟩ (by simp [split]))

/-- One flush is enough for a byte, however often the call to read is interrupted. -/
theorem readsFlushed_attempts (retries : Nat) (failure : Option StreamError) :
    ReadsFlushed (⟨.flush .output, none⟩ :: attempts .read retries failure) := by
  intro before other after split
  cases before with
  | nil => cases split
  | cons flush before =>
    obtain ⟨rfl, rest⟩ := List.cons.inj split
    rcases split_append rest with ⟨later, here, -⟩ | ⟨earlier, rfl, last⟩
    · refine ⟨[], before.length, congrArg _ (List.eq_replicate_iff.mpr ⟨rfl, fun outcome member => ?_⟩)⟩
      exact List.eq_of_mem_replicate (here ▸ List.mem_append_left _ member)
    · obtain ⟨rfl, -⟩ := List.append_eq_singleton_iff.mp last.symm |>.resolve_right (by simp)
      exact ⟨[], retries, by simp⟩

theorem Streams.Fetches.readsFlushed {failure : Option StreamError} (fetches : Fetches log failure) :
    ReadsFlushed log := by
  induction fetches with
  | enough => exact .of_noRead nofun
  | blocked error => exact .of_noRead (by simp)
  | broken retries final => exact readsFlushed_attempts retries _
  | more retries rest ih => exact (readsFlushed_attempts retries none).append ih

theorem Streams.Fetches.noWrite {failure failure' : Option StreamError} {sink : Target} {byte : UInt8}
    (fetches : Fetches log failure) : ⟨.write sink byte, failure'⟩ ∉ log := by
  intro member
  induction fetches with
  | enough => cases member
  | blocked error => simp at member
  | broken retries final =>
    simp only [List.mem_cons, Outcome.mk.injEq, reduceCtorEq, false_and, false_or] at member
    cases call_of_mem_attempts member
  | more retries rest ih =>
    simp only [List.cons_append, List.mem_cons, List.mem_append, Outcome.mk.injEq, reduceCtorEq, false_and,
      false_or] at member
    rcases member with member | member
    · cases call_of_mem_attempts member
    · exact ih member

/-- A demand for bytes ends with the first failure of a flush, or of a call to read for good. -/
theorem Streams.Fetches.failure_last {failure : Option StreamError} {before after : List Outcome}
    {outcome : Outcome} {error : StreamError} (fetches : Fetches log failure)
    (split : log = before ++ outcome :: after) (failed : outcome.failure = some error) :
    outcome.call = .read ∧ error = .interrupted ∨ after = [] ∧ failure = some error := by
  induction fetches generalizing before with
  | enough => simp at split
  | blocked flushError =>
    obtain ⟨rfl, last⟩ := List.append_eq_singleton_iff.mp split.symm |>.resolve_right (by simp)
    obtain ⟨rfl, rfl⟩ := List.cons.inj last
    exact .inr ⟨rfl, failed⟩
  | broken retries final =>
    cases before with
    | nil =>
      obtain ⟨rfl, -⟩ := List.cons.inj split
      cases failed
    | cons head before =>
      have tail : attempts .read retries _ = before ++ outcome :: after := (List.cons.inj split).2
      have call : outcome.call = .read := call_of_mem_attempts (tail ▸ List.mem_append_cons_self)
      exact (failure_of_attempts tail failed).imp_left fun interrupted => ⟨call, interrupted⟩
  | more retries rest ih =>
    rcases split_append split with ⟨later, here, -⟩ | ⟨earlier, -, there⟩
    · cases before with
      | nil =>
        obtain ⟨rfl, -⟩ := List.cons.inj here
        cases failed
      | cons head before =>
        have tail : attempts .read retries none = before ++ outcome :: later := (List.cons.inj here).2
        have call : outcome.call = .read := call_of_mem_attempts (tail ▸ List.mem_append_cons_self)
        rcases failure_of_attempts tail failed with interrupted | ⟨-, none⟩
        · exact .inl ⟨call, interrupted⟩
        · cases none
    · exact ih there

theorem LastFlushes.readsFlushed {final : List Outcome} (flushes : LastFlushes final) : ReadsFlushed final := by
  cases flushes with
  | output error => exact .of_noRead (by simp)
  | both failure => exact .of_noRead (by simp)

end Reads

namespace Machine

section Steps

variable {aborting after : Bool} {events : List Event} {runs : Bool}

theorem Episode.readsFlushed (episode : Episode aborting events after runs) : ReadsFlushed (outcomes events) := by
  cases episode with
  | silent => exact .of_noRead nofun
  | put retries byte =>
    rw [outcomes_append, outcomes_stream]
    exact .append (.of_noRead fun outcome member => by simp [call_of_mem_attempts member]) (.of_noRead nofun)
  | putFails retries byte error =>
    rw [outcomes_stream]
    exact .of_noRead fun outcome member => by simp [call_of_mem_attempts member]
  | get fetches | getFails fetches =>
    rw [outcomes_stream]
    exact fetches.readsFlushed
  | abort failure => exact .of_noRead (by simp [outcomes, Event.outcome?])
  | release failure => exact .of_noRead (by simp [outcomes, Event.outcome?])

theorem Follows.readsFlushed (follows : Follows aborting events) : ReadsFlushed (outcomes events) := by
  induction follows with
  | pause => exact .of_noRead nofun
  | last episode => exact episode.readsFlushed
  | next episode follow ih =>
    rw [outcomes_append]
    exact episode.readsFlushed.append ih

/-- Only `put` writes, and it writes to one sink. -/
theorem Episode.write_target (episode : Episode aborting events after runs) {sink : Target} {byte : UInt8}
    {failure : Option StreamError} (member : .stream ⟨.write sink byte, failure⟩ ∈ events) :
    sink = target aborting := by
  cases episode with
  | silent => cases member
  | put retries byte =>
    simp only [List.mem_append, List.mem_map, List.mem_singleton, reduceCtorEq, or_false] at member
    obtain ⟨outcome, member, same⟩ := member
    cases same
    have call := call_of_mem_attempts member
    cases call
    rfl
  | putFails retries byte error =>
    obtain ⟨outcome, member, same⟩ := List.mem_map.mp member
    cases same
    have call := call_of_mem_attempts member
    cases call
    rfl
  | get fetches | getFails fetches =>
    obtain ⟨outcome, member, same⟩ := List.mem_map.mp member
    cases same
    exact absurd member (fetches.noWrite)
  | abort failure => simp at member
  | release failure => simp at member

/-- The mode changes by a call of `abort` only, and never back. -/
theorem Episode.mode (episode : Episode aborting events after runs) :
    after = aborting ∨ after = true ∧ ∃ failure, events = [.abort, .stream ⟨.flush .output, failure⟩] := by
  cases episode with
  | abort failure => exact .inr ⟨rfl, failure, rfl⟩
  | _ => exact .inl rfl

theorem Episode.abort_split {before rest : List Event} (episode : Episode aborting events after runs)
    (split : events = before ++ .abort :: rest) :
    after = true ∧ ∃ failure, rest = [.stream ⟨.flush .output, failure⟩] := by
  have member : .abort ∈ events := by simp [split]
  cases episode with
  | abort failure =>
    refine ⟨rfl, failure, ?_⟩
    cases before with
    | nil => exact (List.cons.inj split).2.symm
    | cons head before => simp [List.cons_eq_append_iff] at split
  | _ => simp at member

/-- A machine that is aborting writes nothing to the output. -/
theorem Follows.noOutput (follows : Follows true events) (byte : UInt8) (failure : Option StreamError) :
    .stream ⟨.write .output byte, failure⟩ ∉ events := by
  generalize mode : true = aborting at follows
  induction follows with
  | pause => exact nofun
  | last episode =>
    intro member
    subst mode
    cases episode.write_target member
  | next episode follow ih =>
    intro member
    subst mode
    rcases List.mem_append.mp member with here | later
    · cases episode.write_target here
    · refine ih ?_ later
      rcases episode.mode with same | ⟨same, -⟩
      · exact same.symm
      · exact same.symm

theorem Follows.outputClosed (follows : Follows aborting events) : OutputClosed events := by
  induction follows with
  | pause =>
    intro before rest split
    simp at split
  | last episode =>
    intro before rest split byte failure
    obtain ⟨-, flushed, rfl⟩ := episode.abort_split split
    simp
  | next episode follow ih =>
    intro before rest split byte failure
    rcases split_append split with ⟨later, here, rfl⟩ | ⟨earlier, -, there⟩
    · obtain ⟨rfl, flushed, rfl⟩ := episode.abort_split here
      simpa using follow.noOutput byte failure
    · exact ih earlier rest there byte failure

/-- Bytes go to the errors from the start, or behind a call of `abort`. -/
theorem Follows.errorsOpened (follows : Follows aborting events) (normal : aborting = false) :
    ErrorsOpened events := by
  induction follows with
  | pause =>
    intro before byte failure rest split
    simp at split
  | @last aborting after events episode =>
    intro before byte failure rest split
    have member : .stream ⟨.write .errors byte, failure⟩ ∈ events := by simp [split]
    subst normal
    cases episode.write_target member
  | @next aborting after events later episode follow ih =>
    intro before byte failure rest split
    subst normal
    rcases split_append split with ⟨between, here, -⟩ | ⟨earlier, rfl, there⟩
    · have member : .stream ⟨.write .errors byte, failure⟩ ∈ events := by simp [here]
      cases episode.write_target member
    · rcases episode.mode with same | ⟨-, flushed, rfl⟩
      · obtain ⟨first, flushed, between, opened⟩ := ih same earlier byte failure rest there
        exact ⟨events ++ first, flushed, between, by rw [opened, List.append_assoc]⟩
      · exact ⟨[], flushed, earlier, rfl⟩

theorem mem_outcomes {outcome : Outcome} : outcome ∈ outcomes events ↔ .stream outcome ∈ events := by
  refine List.mem_filterMap.trans ⟨?_, fun member => ⟨_, member, rfl⟩⟩
  rintro ⟨event, member, same⟩
  cases event with
  | stream other => exact Option.some.inj same ▸ member
  | _ => cases same

theorem Episode.written_other (episode : Episode aborting events after runs) {sink : Target}
    (other : sink ≠ target aborting) : written sink (outcomes events) = [] :=
  written_eq_nil fun _ _ member => other (episode.write_target (mem_outcomes.mp member))

/-- The bytes of an episode are the arguments of its calls of `put`. -/
theorem Episode.puts_target (episode : Episode aborting events after runs) :
    (written (target aborting) (outcomes events)).map (fun byte => (byte.toNat : Int)) = puts events := by
  cases episode with
  | silent | abort | release => rfl
  | @put retries value byte =>
    have same : ((UInt8.ofNat value.toNat).toNat : Int) = value := by
      rw [UInt8.toNat_ofNat', Nat.mod_eq_of_lt (by omega)]
      omega
    rw [outcomes_append, outcomes_stream, written_append, written_attempts, if_pos ⟨rfl, rfl⟩, puts_append,
      puts_stream]
    exact congrArg (fun n => [n]) same
  | putFails retries byte error =>
    rw [outcomes_stream, written_attempts, if_neg (by simp), puts_stream]
    rfl
  | get fetches | getFails fetches =>
    rw [outcomes_stream, written_eq_nil fun _ _ => fetches.noWrite, puts_stream]
    rfl

theorem Episode.puts_written (episode : Episode aborting events after runs) :
    (written .output (outcomes events) ++ written .errors (outcomes events)).map (fun byte => (byte.toNat : Int)) =
      puts events := by
  rw [← episode.puts_target]
  cases aborting with
  | false =>
    have other : written .errors (outcomes events) = [] := episode.written_other nofun
    rw [other, List.append_nil]
    rfl
  | true =>
    have other : written .output (outcomes events) = [] := episode.written_other nofun
    rw [other, List.nil_append]
    rfl

/-- What is written to the output and then to the errors are the arguments of `put`. -/
theorem Follows.puts_written (follows : Follows aborting events) :
    (written .output (outcomes events) ++ written .errors (outcomes events)).map (fun byte => (byte.toNat : Int)) =
      puts events := by
  induction follows with
  | pause => rfl
  | last episode => exact episode.puts_written
  | @next aborting after events later episode follow ih =>
    have apart : written .errors (outcomes events) = [] ∨ written .output (outcomes later) = [] := by
      cases aborting with
      | false => exact .inl (episode.written_other nofun)
      | true =>
        have stays : after = true := by
          rcases episode.mode with same | ⟨same, -⟩
          · exact same
          · exact same
        subst stays
        exact .inr (written_eq_nil fun _ _ member => follow.noOutput _ _ (mem_outcomes.mp member))
    rw [outcomes_append, written_append, written_append, puts_append, ← ih, ← episode.puts_written]
    rcases apart with none | none
    · simp [none]
    · simp [none]

/-- Nothing in an episode comes behind an outcome that ends the run, and the run ends. -/
theorem Episode.fatal_last {before rest : List Event} {outcome : Outcome}
    (episode : Episode aborting events after runs) (split : events = before ++ .stream outcome :: rest)
    (fatal : Fatal before outcome) : rest = [] ∧ runs = false := by
  obtain ⟨error, failed, final⟩ := fatal.failed
  cases episode with
  | silent => simp at split
  | @put retries value byte =>
    rcases split_append split with ⟨later, here, -⟩ | ⟨earlier, -, there⟩
    · obtain ⟨_, _, here, -⟩ := stream_split here
      have call := call_of_mem_attempts (here ▸ List.mem_append_cons_self)
      rcases failure_of_attempts here failed with interrupted | ⟨-, none⟩
      · exact absurd interrupted (final (by simp [call]))
      · cases none
    · have member : .stream outcome ∈ [Event.put value] := there ▸ List.mem_append_cons_self
      simp at member
  | putFails retries byte error =>
    obtain ⟨_, _, here, rfl⟩ := stream_split split
    have call := call_of_mem_attempts (here ▸ List.mem_append_cons_self)
    rcases failure_of_attempts here failed with interrupted | ⟨rfl, -⟩
    · exact absurd interrupted (final (by simp [call]))
    · exact ⟨rfl, rfl⟩
  | get fetches =>
    obtain ⟨_, _, here, -⟩ := stream_split split
    rcases fetches.failure_last here failed with ⟨call, interrupted⟩ | ⟨-, none⟩
    · exact absurd interrupted (final (by simp [call]))
    · cases none
  | getFails fetches =>
    obtain ⟨_, _, here, rfl⟩ := stream_split split
    rcases fetches.failure_last here failed with ⟨call, interrupted⟩ | ⟨rfl, -⟩
    · exact absurd interrupted (final (by simp [call]))
    · exact ⟨rfl, rfl⟩
  | abort failure =>
    match before, split with
    | [head], split =>
      cases split
      cases fatal with
      | flush occasion => exact absurd rfl occasion
    | _ :: _ :: _, split => simp at split
  | release failure =>
    obtain ⟨rfl, last⟩ := List.append_eq_singleton_iff.mp split.symm |>.resolve_right (by simp)
    cases last
    cases fatal

theorem Follows.failuresLast (follows : Follows aborting events) : FailuresLast events := by
  induction follows with
  | pause =>
    intro before outcome rest split
    simp at split
  | last episode => exact fun before outcome rest split fatal => (episode.fatal_last split fatal).1
  | next episode follow ih =>
    intro before outcome rest split fatal
    rcases split_append split with ⟨between, here, -⟩ | ⟨earlier, rfl, there⟩
    · cases (episode.fatal_last here fatal).2
    · exact ih earlier outcome rest there fatal.of_append

end Steps

theorem flushAll_logs (s : Streams) : ∃ final, LastFlushes final ∧ s.Logs final (flushAll s).2 := by
  have output := Streams.flush_logs .output s
  unfold flushAll
  split
  · next error after outcome =>
    rw [outcome] at output
    exact ⟨_, .output error, output⟩
  · next after outcome =>
    rw [outcome] at output
    exact ⟨_, .both _, output.trans (Streams.flush_logs .errors after)⟩

/-- What happens in the steps of a run and in its last flushes is all that happens to the streams, and it
happens in order. -/
theorem run_orderly (fuel : Nat) (m : Machine) (term : Term) :
    ∃ final, Orderly (events fuel (m.load term)) final ∧
      m.streams.Logs (outcomes (events fuel (m.load term)) ++ final) (m.run fuel term).2.streams := by
  have follows := events_follow fuel (m.load term)
  have during := events_logs fuel (m.load term)
  obtain ⟨final, flushes, logs⟩ := flushAll_logs (steps fuel (m.load term)).2.streams
  refine ⟨final, ?_, ?_⟩
  · exact {
      reads := follows.readsFlushed.append flushes.readsFlushed
      closed := follows.outputClosed
      opened := follows.errorsOpened rfl
      puts := follows.puts_written
      failures := follows.failuresLast
      final := flushes }
  · have same : (m.run fuel term).2.streams = (flushAll (steps fuel (m.load term)).2.streams).2 := by
      unfold run conclude
      dsimp only
      split <;> rfl
    rw [same]
    exact during.trans logs

end Machine

end MixfixLambda
