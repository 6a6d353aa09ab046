import MixfixLambda.Proofs.ByName.Outcomes

/-!
# Call by need agrees with call by name

A run of a bound program that does not touch the streams returns an integer exactly if call-by-name
reduction of its entry reaches that integer. Forwards, the term that the machine stands for is always one
that the entry reduces to; backwards, the machine cannot go on for ever without a reduction, and a machine
that fails stands for a term that does not reach an integer.
-/
namespace MixfixLambda

/-- Flushing never fails. -/
def Sink.Works (sink : Sink) : Prop :=
  sink.flushes.rest = none ∧ ∀ outcome ∈ sink.flushes.first, outcome = none

/-- Whatever a run that writes nothing asks of its streams succeeds. -/
structure Streams.Works (s : Streams) : Prop where
  output : s.output.Works
  errors : s.errors.Works

theorem Sink.Works.flush {sink : Sink} (works : sink.Works) : sink.flush.1 = .ok () := by
  obtain ⟨rest, first⟩ := works
  have succeeds : sink.flushes.next.1 = none := by
    unfold Script.next
    split
    · exact rest
    · next outcome later listed => exact first outcome (listed ▸ List.mem_cons_self)
  unfold Sink.flush
  split
  next outcome flushes called =>
    rw [called] at succeeds
    cases succeeds
    rfl

theorem Streams.Works.flushAll {s : Streams} (works : s.Works) : (Machine.flushAll s).1 = .ok () := by
  have output : (s.flush .output).1 = .ok () := works.output.flush
  have errors : ((s.flush .output).2.flush .errors).1 = .ok () := works.errors.flush
  unfold Machine.flushAll
  split
  · next error after failed => rw [failed] at output; cases output
  · next after flushed => rwa [flushed] at errors

theorem Streams.works_ofReader (reader : List ReadEvent) : (Streams.ofReader reader).Works :=
  ⟨⟨rfl, nofun⟩, ⟨rfl, nofun⟩⟩

namespace Machine

/-- Where flushing works a run has the value that its steps lead to. -/
theorem conclude_value {m : Machine} (works : m.streams.Works) (v : Value) :
    (conclude (.value v) m).1 = .value v := by
  have flushed : (m.onStreams flushAll).1 = .ok () := works.flushAll
  unfold conclude
  cases called : m.onStreams flushAll with
  | mk outcome after =>
    rw [called] at flushed
    cases flushed
    rfl

theorem value_of_conclude {m : Machine} {result : RunResult} {v : Value}
    (value : (conclude result m).1 = .value v) : result = .value v := by
  unfold conclude at value
  dsimp only at value
  split at value
  · cases value
  · exact value

end Machine

namespace ByName

/-- What is known of a configuration in a run of a bound program that does not touch the streams. -/
structure Models (allowed : Nat → Prop) (origin : Nat → Term) (c : Config) : Prop where
  addressed : c.Addressed
  single : c.Single
  acyclic : c.Acyclic
  closed : c.Scoped
  plain : c.Pure allowed
  quiet : c.interrupt = .never
  means : Means origin c

variable {allowed : Nat → Prop} {origin : Nat → Term}

namespace Models

variable {c c' : Config}

theorem move (models : Models allowed origin c) (move : c.Moves c') :
    ∃ origin', Models allowed origin' c' ∧ Follows c origin c' origin' := by
  obtain ⟨addressed, single, acyclic, closed, plain, quiet, means⟩ := models
  obtain ⟨origin', after, follows⟩ := means.move addressed closed plain move
  refine ⟨origin', ⟨addressed.move move, single.move addressed move, acyclic.move addressed move,
    closed.move move, plain.move move, ?_, after⟩, follows⟩
  rw [move.interrupt]
  exact quiet

/-- A new machine stands for the entry. -/
theorem start {globals : Array Global} {entry : Term} (stratified : Stratified globals)
    (inside : entry.Scoped 0 globals.size) (table : PureTable allowed globals) (plain : entry.Pure allowed)
    (streams : Streams) (options : Options) :
    Models allowed (fun _ => .int 0) ((Machine.start globals streams .never options).load entry).config := by
  have closed := (Machine.start_ready stratified inside streams .never options).2
  have origins : Origins (fun _ => .int 0)
      ((Machine.start globals streams .never options).load entry).config := by
    refine ⟨fun _ => Term.int_scoped _, ?_, nofun, nofun, ?_⟩
    · intro thunk
      rw [Machine.start_closureAt]
      exact id
    · intro index thunk known
      exact (Machine.start_constants _ _ _ _ _ _ _ known).elim
  refine ⟨.start .., .start .., .start stratified .., closed, ⟨table, plain, ?_, nofun⟩, rfl, origins,
    trivial⟩
  intro thunk
  rw [Machine.start_closureAt]
  trivial

end Models

/-- An integer is what the machine stands for once it has it as its result. -/
theorem whole_of_halts {c : Config} {v : Value} {n : Int} (halts : c.Halts v) (integer : v.int? = some n) :
    whole origin c = .int n := by
  obtain ⟨value, bare, rfl⟩ := halts
  rcases value.int_or_lam with ⟨a, focus⟩ | ⟨tag, body, focus⟩
  · rw [Value.int?, focus] at integer
    cases integer
    rw [whole, bare, focus]
    rfl
  · rw [Value.int?, focus] at integer
    cases integer

/-- A value that leads to an integer is that integer. -/
theorem int_of_halts {globals : Array Global} {c : Config} {v : Value} {count : Nat} {n : Int}
    (halts : c.Halts v) (takes : Takes iterated globals count (whole origin c) (.int n)) :
    v.int? = some n := by
  obtain ⟨value, bare, rfl⟩ := halts
  rw [whole, bare] at takes
  rcases value.int_or_lam with ⟨a, focus⟩ | ⟨tag, body, focus⟩
  · rw [focus] at takes ⊢
    cases takes with
    | refl => rfl
    | head first rest => cases first
  · rw [focus] at takes
    exact absurd takes (dead_of_lam tag _).not_takes

/-- A machine that stands for a term which leads to an integer gets to that integer. -/
theorem value_of_takes {m : Machine} (models : Models allowed origin m.config) {count : Nat} {n : Int}
    (takes : Takes iterated m.globals count (whole origin m.config) (.int n)) :
    ∃ fuel v, (Machine.steps fuel m).1 = .value v ∧ v.int? = some n := by
  induction count using Nat.strongRecOn generalizing m origin with
  | ind count reduced =>
    induction size : weight origin m.config using Nat.strongRecOn generalizing m origin with
    | ind size lighter =>
      have obeys := m.step_obeys
      cases result : m.step with
      | running after =>
        rw [result] at obeys
        have same : after.globals = m.globals := obeys.globals
        obtain ⟨origin', next, used, follows, less⟩ := models.move obeys
        obtain ⟨fewer, rest⟩ := takes.within rfl follows
        have ends : ∃ fuel v, (Machine.steps fuel after).1 = .value v ∧ v.int? = some n := by
          rw [← same] at rest
          rcases Nat.eq_zero_or_pos used with rfl | some
          · exact lighter _ (size ▸ less rfl) next rest rfl
          · exact reduced _ (by omega) next rest
        obtain ⟨fuel, v, value, integer⟩ := ends
        refine ⟨fuel + 1, v, ?_, integer⟩
        rw [Machine.steps, result]
        exact value
      | finished v after =>
        rw [result] at obeys
        obtain ⟨halts, -⟩ := obeys
        exact ⟨1, v, by rw [Machine.steps, result], int_of_halts halts takes⟩
      | faulted fault after =>
        rw [result] at obeys
        have dead := dead_of_fails models.addressed models.single models.acyclic models.closed models.plain
          models.quiet obeys origin
        exact absurd takes dead.not_takes

/-- The integer that a machine gets to is one that it stood for from the start. -/
theorem takes_of_value {m : Machine} (models : Models allowed origin m.config) {fuel : Nat} {v : Value}
    {n : Int} (value : (Machine.steps fuel m).1 = .value v) (integer : v.int? = some n) :
    ∃ count, Takes iterated m.globals count (whole origin m.config) (.int n) := by
  have ends := Machine.steps_ends (P := fun c => c.globals = m.globals ∧ ∃ origin',
    Models allowed origin' c ∧
      ∃ count, Takes iterated m.globals count (whole origin m.config) (whole origin' c)) ?_ fuel m
    ⟨rfl, origin, models, 0, .refl _⟩
  · rw [value] at ends
    obtain ⟨⟨-, origin', -, count, takes⟩, halts⟩ := ends
    rw [whole_of_halts halts integer] at takes
    exact ⟨count, takes⟩
  · rintro c c' ⟨same, origin', before, count, takes⟩ move
    obtain ⟨later, after, more, follows, -⟩ := before.move move
    rw [same] at follows
    exact ⟨move.globals.trans same, later, after, count + more, takes.trans follows⟩

/-- A pure machine that gets to a value has left the streams alone. -/
theorem streams_of_value {m : Machine} (plain : m.config.Pure allowed) {fuel : Nat} {v : Value}
    (value : (Machine.steps fuel m).1 = .value v) : (Machine.steps fuel m).2.streams = m.streams := by
  have ends := Machine.steps_ends (P := fun c => c.Pure allowed ∧ c.streams = m.streams) ?_ fuel m
    ⟨plain, rfl⟩
  · rw [value] at ends
    exact ends.1.2
  · rintro c c' ⟨before, same⟩ move
    exact ⟨before.move move, (before.streams_move move).trans same⟩

/-- A bound program that does not touch the streams has an integer as its result exactly if call-by-name
reduction of its entry leads to that integer. -/
theorem run_int_iff_eval_int {text : String} {program : Module}
    (bound : (bindModule text).result = .ok program) (silent : program.Silent) {streams : Streams}
    (works : streams.Works) (options : Options) (n : Int) :
    let machine := Machine.start program.globals streams .never options
    (∃ fuel v, (machine.run fuel program.entry.term).1 = .value v ∧ v.int? = some n) ↔
      ∃ count, eval church program.globals count program.entry.term = .int n := by
  intro machine
  have wellScoped := bindModule_wellScoped bound
  have models := Models.start wellScoped.globals wellScoped.entry silent.pureTable silent.pure streams options
  have entry : whole (fun _ => .int 0) (machine.load program.entry.term).config = program.entry.term :=
    decode_closed wellScoped.entry
  rw [exists_eval_eq_iff, exists_takes_int_iff]
  constructor
  · rintro ⟨fuel, v, value, integer⟩
    have takes := takes_of_value models (Machine.value_of_conclude value) integer
    rw [entry] at takes
    exact takes
  · rintro ⟨count, takes⟩
    rw [← entry] at takes
    obtain ⟨fuel, v, value, integer⟩ := value_of_takes models takes
    have flushes : (Machine.steps fuel (machine.load program.entry.term)).2.streams.Works := by
      rw [streams_of_value models.plain value]
      exact works
    have kept := Machine.conclude_value flushes v
    rw [← value] at kept
    exact ⟨fuel, v, kept.trans value, integer⟩

/-- The constant is evaluated once by the machine, and twice by name. -/
theorem run_int_iff_eval_int_square : ∃ program, (bindModule squareSource).result = .ok program ∧
    ∃ fuel v, ((Machine.start program.globals (.ofReader []) .never ⟨0, false, false⟩).run fuel
      program.entry.term).1 = .value v ∧ v.int? = some 9 := by
  obtain ⟨program, bound, entry, tag, found⟩ := bindModule_square
  have needs : ∀ index, Needs program.globals squareEntry index → index = 28 := by
    intro index needs
    induction needs with
    | direct refers =>
      simp only [squareEntry, Term.RefersTo, Term.nodes] at refers
      obtain ⟨place, listed⟩ := refers
      simp at listed
      omega
    | indirect needs known refers ih =>
      subst ih
      rw [found] at known
      cases known
      simp [squareConstant, Term.RefersTo, Term.nodes] at refers
  have silent : program.Silent := by
    refine ⟨?_, ?_⟩
    · simp [entry, squareEntry, Term.Silent, Term.Uses, Term.nodes]
    · intro index definition needed known
      rw [entry] at needed
      obtain rfl := needs index needed
      rw [found] at known
      cases known
      simp [squareConstant, Term.Silent, Term.Uses, Term.nodes]
  have works := Streams.works_ofReader []
  have sum : Builtin.add.binary 1 2 = .ok (.int 3) := rfl
  have product : Builtin.mul.binary 3 3 = .ok (.int 9) := rfl
  have result : eval church program.globals 5 program.entry.term = .int 9 := by
    simp [entry, squareEntry, squareConstant, eval, step, operate, found, sum, product, Builtin.arity,
      Except.toOption]
  exact ⟨program, bound, (run_int_iff_eval_int bound silent works ⟨0, false, false⟩ 9).mpr ⟨5, result⟩⟩

end ByName

end MixfixLambda
