import MixfixLambda.Proofs.Machine.Streams

/-!
# The input is kept

Demands for bytes come in any order, and they may fail half-way: the output cannot be flushed, or a call to
read fails. The bytes that have been read are kept across all of that. What a demand is answered depends on its
position and on what the reader delivers, not on the demands before it.
-/
namespace MixfixLambda

def ReadEvent.byte? : ReadEvent → Option UInt8
  | .byte value => some value
  | _ => none

/-- The bytes that some calls to read deliver. -/
def delivered (events : List ReadEvent) : List UInt8 :=
  events.filterMap ReadEvent.byte?

/-- So many calls to read see the end of the input, which is also behind the last listed event. -/
def SeesEnd (script : List ReadEvent) (count : Nat) : Prop :=
  .ending ∈ script.take count ∨ script.length < count

/-- The events in front of the first end. -/
def beforeEnd (script : List ReadEvent) : List ReadEvent :=
  script.takeWhile (· ≠ .ending)

/-- The byte at a position of what is delivered before the first end of the input, or `-1`. -/
def byteAt (script : List ReadEvent) (index : Int) : Int :=
  if index < 0 then -1 else (delivered (beforeEnd script))[index.toNat]?.elim (-1) fun byte => byte.toNat

section Scripts

variable {script rest : List ReadEvent} {event : ReadEvent} {count : Nat}

@[simp]
theorem delivered_append (events events' : List ReadEvent) :
    delivered (events ++ events') = delivered events ++ delivered events' :=
  List.filterMap_append

theorem not_seesEnd_zero (script : List ReadEvent) : ¬SeesEnd script 0 := by
  simp [SeesEnd]

/-- Behind the listed events a call sees the end. -/
theorem seesEnd_of_drop_nil (here : script.drop count = []) : SeesEnd script (count + 1) :=
  .inr (Nat.lt_succ_of_le (List.drop_eq_nil_iff.mp here))

theorem take_succ_of_drop (here : script.drop count = event :: rest) :
    script.take (count + 1) = script.take count ++ [event] := by
  have first : script[count]? = some event := by
    rw [← List.head?_drop, here, List.head?_cons]
  rw [List.take_add_one, first, Option.toList_some]

/-- A listed event is the end, or does not change whether the end has been seen. -/
theorem seesEnd_succ_iff (here : script.drop count = event :: rest) :
    SeesEnd script (count + 1) ↔ SeesEnd script count ∨ event = .ending := by
  have inside : count < script.length := by
    have length := congrArg List.length here
    simp at length
    omega
  simp only [SeesEnd, take_succ_of_drop here, List.mem_append, List.mem_singleton, eq_comm (a := ReadEvent.ending)]
  constructor
  · rintro ((seen | last) | beyond)
    · exact .inl (.inl seen)
    · exact .inr last
    · omega
  · rintro ((seen | beyond) | last)
    · exact .inl (.inl seen)
    · omega
    · exact .inl (.inr last)

/-- As long as the end has not been seen, the calls are those that come before it. -/
theorem beforeEnd_eq (waits : ¬SeesEnd script count) :
    beforeEnd script = script.take count ++ beforeEnd (script.drop count) := by
  have none : ∀ event ∈ script.take count, decide (event ≠ .ending) = true := by
    intro event member
    refine decide_eq_true ?_
    rintro rfl
    exact waits (.inl member)
  calc beforeEnd script
      = beforeEnd (script.take count ++ script.drop count) := by rw [List.take_append_drop]
    _ = script.take count ++ beforeEnd (script.drop count) := List.takeWhile_append_of_pos none

/-- Once the end is seen, all that is before it has been delivered. -/
theorem delivered_of_seesEnd (seen : SeesEnd script (count + 1)) (first : ¬SeesEnd script count) :
    delivered (script.take (count + 1)) = delivered (beforeEnd script) := by
  rw [beforeEnd_eq first]
  cases here : script.drop count with
  | nil =>
    have behind := List.drop_eq_nil_iff.mp here
    rw [List.take_of_length_le (Nat.le_succ_of_le behind), List.take_of_length_le behind]
    simp [beforeEnd]
  | cons event rest =>
    have last := ((seesEnd_succ_iff here).mp seen).resolve_left first
    rw [take_succ_of_drop here, last]
    simp [beforeEnd, delivered, ReadEvent.byte?]

end Scripts

namespace Streams

/-- What the streams hold of their input after some calls to read. -/
structure Caches (script : List ReadEvent) (s : Streams) : Prop where
  reader : s.reader = script.drop s.reads
  cache : s.cache.toList = delivered (script.take s.reads)
  exhausted : s.exhausted = true ↔ SeesEnd script s.reads
  /-- No call has been made after the end. -/
  waited : ∀ count < s.reads, ¬SeesEnd script count

variable {script reader : List ReadEvent} {s s' : Streams} {index : Int}

theorem Caches.congr (caches : Caches script s) (reader : s'.reader = s.reader) (cache : s'.cache = s.cache)
    (exhausted : s'.exhausted = s.exhausted) (reads : s'.reads = s.reads) : Caches script s' :=
  ⟨by rw [reader, reads, caches.reader], by rw [cache, reads, caches.cache],
    by rw [exhausted, reads, caches.exhausted], by rw [reads]; exact caches.waited⟩

theorem Caches.size (caches : Caches script s) : s.cache.size = (delivered (script.take s.reads)).length := by
  rw [← caches.cache, Array.length_toList]

/-- Once the byte at a position is there or the end has been seen, the cache tells what this byte is. -/
theorem Caches.byteAt_eq (caches : Caches script s) {position : Nat}
    (enough : s.exhausted = true ∨ position < s.cache.size) :
    byteAt script position = s.cache[position]?.elim (-1) fun byte => (byte.toNat : Int) := by
  have nonneg : ¬(position : Int) < 0 := by omega
  rw [byteAt, if_neg nonneg, Int.toNat_natCast, ← Array.getElem?_toList]
  by_cases seen : SeesEnd script s.reads
  · cases reads : s.reads with
    | zero =>
      rw [reads] at seen
      exact absurd seen (not_seesEnd_zero script)
    | succ count =>
      have last : ¬SeesEnd script count := caches.waited count (by omega)
      rw [caches.cache, reads, delivered_of_seesEnd (reads ▸ seen) last]
  · have inside : position < s.cache.size := enough.resolve_left (mt caches.exhausted.mp seen)
    rw [beforeEnd_eq seen, delivered_append, ← caches.cache, List.getElem?_append_left (by simpa using inside)]

/-- Calls to read for one byte more deliver nothing but the last one. -/
structure Asks (script : List ReadEvent) (s s' : Streams) : Prop where
  more : s.reads < s'.reads
  same : ∀ count, s.reads ≤ count → count < s'.reads → delivered (script.take count) = s.cache.toList

/-- The call that brings a byte, the end or a failure. -/
theorem Asks.once (caches : Caches script { s with reader }) (reads : s'.reads = s.reads + 1) :
    Asks script s s' := by
  refine ⟨by omega, fun count least less => ?_⟩
  obtain rfl : count = s.reads := by omega
  exact caches.cache.symm

/-- What the streams hold after one call more. -/
theorem Caches.once (caches : Caches script { s with reader }) (waits : s.exhausted = false)
    (reads : s'.reads = s.reads + 1) (behind : s'.reader = reader.tail)
    (cache : s'.cache.toList = s.cache.toList ++ (reader.head?.bind ReadEvent.byte?).toList)
    (exhausted : s'.exhausted = true ↔ reader = [] ∨ reader.head? = some .ending) : Caches script s' := by
  obtain ⟨here, before, seen, waited⟩ := id caches
  dsimp only at here before seen waited
  have goesOn : ¬SeesEnd script s.reads := by simpa [waits] using seen.not
  refine ⟨?_, ?_, ?_, ?_⟩
  · rw [behind, reads, here, List.tail_drop]
  · rw [cache, reads, before, here]
    cases split : script.drop s.reads with
    | nil =>
      have all := List.drop_eq_nil_iff.mp split
      rw [List.take_of_length_le all, List.take_of_length_le (Nat.le_succ_of_le all)]
      simp
    | cons event rest =>
      rw [take_succ_of_drop split, delivered_append]
      cases event <;> rfl
  · rw [exhausted, reads, here]
    cases split : script.drop s.reads with
    | nil => simp [seesEnd_of_drop_nil split]
    | cons event rest => simp [seesEnd_succ_iff split, goesOn]
  · intro count less
    rw [reads] at less
    rcases Nat.lt_succ_iff_lt_or_eq.mp less with before | rfl
    · exact waited count before
    · exact goesOn

/-- Reading goes on until a byte is there, the end is seen or a call fails for good. -/
theorem readFrom_caches (caches : Caches script { s with reader }) (waits : s.exhausted = false) :
    Asks script s (readFrom reader s).2 ∧ Caches script (readFrom reader s).2 ∧
      ((readFrom reader s).1 = .ok () →
        (readFrom reader s).2.exhausted = true ∧ (readFrom reader s).2.cache.size = s.cache.size ∨
          (readFrom reader s).2.cache.size = s.cache.size + 1) := by
  induction reader generalizing s with
  | nil =>
    refine ⟨.once caches rfl, caches.once waits rfl rfl ?_ ?_, fun _ => .inl ⟨rfl, rfl⟩⟩
    · simp [readFrom, record]
    · simp [readFrom]
  | cons event reader ih =>
    cases event with
    | byte value =>
      refine ⟨.once caches rfl, caches.once waits rfl rfl ?_ ?_, fun _ => .inr ?_⟩
      · simp [readFrom, record, ReadEvent.byte?]
      · simp [readFrom, record, waits]
      · simp [readFrom, record]
    | ending =>
      refine ⟨.once caches rfl, caches.once waits rfl rfl ?_ ?_, fun _ => .inl ⟨rfl, rfl⟩⟩
      · simp [readFrom, record, ReadEvent.byte?]
      · simp [readFrom]
    | failure error =>
      by_cases again : error = .interrupted
      · subst again
        let asked : Streams := { s with calls := s.calls.push .read, reads := s.reads + 1 }
        have next : Caches script { asked with reader } :=
          caches.once waits rfl rfl (by simp [asked, ReadEvent.byte?]) (by simp [asked, waits])
        obtain ⟨asks, caches', answer⟩ := ih next waits
        refine ⟨⟨Nat.lt_of_succ_lt asks.more, fun count least less => ?_⟩, caches', answer⟩
        rcases Nat.lt_or_eq_of_le least with later | rfl
        · exact asks.same count later less
        · exact caches.cache.symm
      · rw [readFrom_failure again]
        refine ⟨.once caches rfl, caches.once waits rfl rfl ?_ ?_, fun ok => by cases ok⟩
        · simp [ReadEvent.byte?]
        · simp [waits]

theorem readByte_caches (s : Streams) (caches : Caches script s) (waits : s.exhausted = false) :
    Asks script s s.readByte.2 ∧ Caches script s.readByte.2 ∧
      (s.readByte.1 = .ok () →
        s.readByte.2.exhausted = true ∧ s.readByte.2.cache.size = s.cache.size ∨
          s.readByte.2.cache.size = s.cache.size + 1) :=
  readFrom_caches caches waits

theorem flush_caches (target : Target) (caches : Caches script s) : Caches script (s.flush target).2 := by
  rw [flush_eq]
  cases target <;> exact caches.congr rfl rfl rfl rfl

theorem write_caches (target : Target) (byte : UInt8) (caches : Caches script s) :
    Caches script (s.write target byte).2 := by
  rw [write_eq]
  cases target <;> exact caches.congr rfl rfl rfl rfl

theorem fetch_exhausted (count : Nat) (exhausted : s.exhausted = true) : s.fetch count = (.ok (), s) := by
  cases count with
  | zero => rfl
  | succ count => simp [fetch, exhausted]

/-- The streams after a demand for some bytes more: the calls to read were made for one of them, and if none
failed then they are there or the end has been seen. -/
structure Fetched (script : List ReadEvent) (s : Streams) (count : Nat) (answer : Except StreamError Unit)
    (s' : Streams) : Prop where
  caches : Caches script s'
  needed : ∀ reads, s.reads ≤ reads → reads < s'.reads →
    (delivered (script.take reads)).length < s.cache.size + count
  enough : answer = .ok () → s'.exhausted = true ∨ s.cache.size + count ≤ s'.cache.size

/-- Where no call to read is made, nothing has to be needed. -/
theorem Fetched.unread {count : Nat} {answer : Except StreamError Unit} (caches : Caches script s')
    (same : s'.reads = s.reads)
    (enough : answer = .ok () → s'.exhausted = true ∨ s.cache.size + count ≤ s'.cache.size) :
    Fetched script s count answer s' :=
  ⟨caches, fun reads least less => by omega, enough⟩

theorem fetch_caches (count : Nat) (caches : Caches script s) :
    Fetched script s count (s.fetch count).1 (s.fetch count).2 := by
  induction count generalizing s with
  | zero => exact .unread caches rfl fun _ => .inr (Nat.le_refl _)
  | succ count ih =>
    unfold fetch
    split
    · next exhausted => exact .unread caches rfl fun _ => .inl exhausted
    · next waits =>
      have flushed := flush_caches .output caches
      have same : (s.flush .output).2.reads = s.reads ∧ (s.flush .output).2.cache = s.cache ∧
          (s.flush .output).2.exhausted = s.exhausted := ⟨rfl, rfl, rfl⟩
      split
      · next error before outcome =>
        rw [outcome] at flushed same
        exact .unread flushed same.1 fun ok => nomatch ok
      · next before outcome =>
        rw [outcome] at flushed same
        obtain ⟨reads, cache, exhausted⟩ := same
        dsimp only at flushed reads cache exhausted
        obtain ⟨asks, caches', gains⟩ := before.readByte_caches flushed (by simpa [exhausted] using waits)
        have first : ∀ count' < before.readByte.2.reads, s.reads ≤ count' →
            (delivered (script.take count')).length < s.cache.size + (count + 1) := by
          intro count' less least
          rw [asks.same count' (reads ▸ least) less, cache, Array.length_toList]
          omega
        split
        · next error after answer =>
          rw [answer] at caches' first
          exact ⟨caches', fun count' least less => first count' less least, fun ok => nomatch ok⟩
        · next after answer =>
          rw [answer] at caches' first gains
          dsimp only at caches' first gains
          rw [cache] at gains
          have rest := ih caches'
          refine ⟨rest.caches, fun count' least less => ?_, fun ok => ?_⟩
          · by_cases before : count' < after.reads
            · exact first count' before least
            · have later := rest.needed count' (Nat.le_of_not_lt before) less
              have gained := gains rfl
              omega
          · rcases gains rfl with ⟨ended, -⟩ | gained
            · rw [fetch_exhausted count ended]
              exact .inl ended
            · exact (rest.enough ok).imp id fun enough => by omega

/-- A demand for one position leaves the streams holding what has been delivered. The answer is the byte at
this position. Calls to read are made as long as this byte is not there and the end has not been seen. -/
theorem get_caches (index : Int) (caches : Caches script s) :
    Caches script (s.get index).2 ∧
      (∀ reads, s.reads ≤ reads → reads < (s.get index).2.reads →
        ((delivered (script.take reads)).length : Int) ≤ index) ∧
      ∀ value, (s.get index).1 = .ok value → value = byteAt script index := by
  cases index with
  | negSucc below =>
    refine ⟨caches, fun reads least less => ?_, fun value answer => ?_⟩
    · exact absurd less (Nat.not_lt_of_le least)
    · cases answer
      simp [byteAt]
  | ofNat position =>
    have fetched := fetch_caches (position + 1 - s.cache.size) caches
    have needed : ∀ reads, s.reads ≤ reads → reads < (s.fetch (position + 1 - s.cache.size)).2.reads →
        ((delivered (script.take reads)).length : Int) ≤ position := by
      intro reads least less
      by_cases there : position < s.cache.size
      · rw [Nat.sub_eq_zero_of_le there] at less
        exact absurd less (Nat.not_lt_of_le least)
      · have short := fetched.needed reads least less
        omega
    unfold get
    dsimp only
    split
    · next error after outcome =>
      rw [outcome] at fetched needed
      exact ⟨fetched.caches, needed, fun value answer => nomatch answer⟩
    · next after outcome =>
      rw [outcome] at fetched needed
      have enough : after.exhausted = true ∨ position < after.cache.size :=
        (fetched.enough rfl).imp id fun enough => Nat.le_trans (by omega) enough
      have here := fetched.caches.byteAt_eq enough
      split
      · next byte found =>
        refine ⟨fetched.caches, needed, fun value answer => ?_⟩
        cases answer
        exact (here.trans (by rw [found]; rfl)).symm
      · next missing =>
        refine ⟨fetched.caches, needed, fun value answer => ?_⟩
        cases answer
        exact (here.trans (by rw [missing]; rfl)).symm

/-- A demand that fails, fails with the last call that it makes. -/
theorem Fetches.last {log : List Outcome} {error : StreamError} (fetches : Fetches log (some error)) :
    ∃ front call, log = front ++ [⟨call, some error⟩] := by
  generalize failed : some error = failure at fetches
  induction fetches with
  | enough => cases failed
  | blocked error =>
    cases failed
    exact ⟨[], .flush .output, rfl⟩
  | broken retries final =>
    cases failed
    exact ⟨_ :: List.replicate retries _, .read, rfl⟩
  | more retries rest ih =>
    obtain ⟨front, call, shape⟩ := ih failed
    exact ⟨_ ++ front, call, by rw [shape, List.append_assoc]⟩

/-- Demands for bytes, in any order and whatever they are answered. In between bytes are written, and sinks
are flushed. -/
inductive Uses : Streams → List (Int × Except StreamError Int) → Streams → Prop
  | nothing (s : Streams) : Uses s [] s
  | get (index : Int) {s last : Streams} {asked : List (Int × Except StreamError Int)}
      (rest : Uses (s.get index).2 asked last) : Uses s ((index, (s.get index).1) :: asked) last
  | write (target : Target) (byte : UInt8) {s last : Streams} {asked : List (Int × Except StreamError Int)}
      (rest : Uses (s.write target byte).2 asked last) : Uses s asked last
  | flush (target : Target) {s last : Streams} {asked : List (Int × Except StreamError Int)}
      (rest : Uses (s.flush target).2 asked last) : Uses s asked last

/-- After any demands the streams hold what has been delivered, and every answer is the byte at its position. -/
theorem Uses.caches {asked : List (Int × Except StreamError Int)} (uses : Uses s asked s')
    (caches : Caches script s) :
    Caches script s' ∧ ∀ index value, (index, .ok value) ∈ asked → value = byteAt script index := by
  induction uses with
  | nothing s => exact ⟨caches, fun index value member => nomatch member⟩
  | get index rest ih =>
    obtain ⟨next, -, answers⟩ := get_caches index caches
    refine ⟨(ih next).1, fun other value member => ?_⟩
    rcases List.mem_cons.mp member with here | later
    · obtain ⟨rfl, answer⟩ := Prod.mk.inj here
      exact answers value answer.symm
    · exact (ih next).2 other value later
  | write target byte rest ih => exact ih (write_caches target byte caches)
  | flush target rest ih => exact ih (flush_caches target caches)

/-- Streams whose input nobody has asked for yet. -/
structure Unread (s : Streams) : Prop where
  cache : s.cache = #[]
  exhausted : s.exhausted = false
  reads : s.reads = 0

theorem Unread.caches (unread : Unread s) : Caches s.reader s := by
  obtain ⟨cache, exhausted, reads⟩ := unread
  refine ⟨?_, ?_, ?_, ?_⟩
  · simp [reads]
  · simp [cache, reads, delivered]
  · simp [exhausted, reads, not_seesEnd_zero]
  · simp [reads]

/-- Demands that come in any order and fail in any way leave the input as it is. What is held are the bytes
that have been delivered, and every demand that succeeds answers the byte at its position. No call to read has
been made after the end. The next demand reads as long as the byte is not there and the end has not been seen,
and if it fails then its last call did. -/
theorem input_kept {first last : Streams} {asked : List (Int × Except StreamError Int)}
    (unread : Unread first) (uses : Uses first asked last) :
    last.cache.toList = delivered (first.reader.take last.reads) ∧
      (∀ index value, (index, .ok value) ∈ asked → value = byteAt first.reader index) ∧
      (∀ reads < last.reads, ¬SeesEnd first.reader reads) ∧
      ∀ index,
        (∀ reads, last.reads ≤ reads → reads < (last.get index).2.reads →
          ((delivered (first.reader.take reads)).length : Int) ≤ index ∧ ¬SeesEnd first.reader reads) ∧
        ∀ error, (last.get index).1 = .error error →
          ∃ log call, Logs last (log ++ [⟨call, some error⟩]) (last.get index).2 := by
  obtain ⟨caches, answers⟩ := uses.caches unread.caches
  refine ⟨caches.cache, answers, caches.waited, fun index => ⟨fun reads least less => ?_, fun error failed => ?_⟩⟩
  · obtain ⟨next, needed, -⟩ := get_caches index caches
    exact ⟨needed reads least less, next.waited reads less⟩
  · obtain ⟨log, logs, fetches⟩ := last.get_logs index
    rw [failed] at fetches
    obtain ⟨front, call, rfl⟩ := fetches.last
    exact ⟨front, call, logs⟩

/-- The answers of some demands that are made one after the other. -/
def demand : List Int → Streams → List (Int × Except StreamError Int) × Streams
  | [], s => ([], s)
  | index :: rest, s =>
    ((index, (s.get index).1) :: (demand rest (s.get index).2).1, (demand rest (s.get index).2).2)

theorem uses_demand (indices : List Int) (s : Streams) : Uses s (demand indices s).1 (demand indices s).2 := by
  induction indices generalizing s with
  | nil => exact .nothing s
  | cons index rest ih => exact .get index (ih _)

/-- Streams that fail: once the output cannot be flushed, once a call to read fails, and once it is only
interrupted. There is a byte behind the end of the input. -/
def faltering : Streams where
  reader := [.byte 65, .failure .other, .failure .interrupted, .byte 66, .ending, .byte 67]
  cache := #[]
  exhausted := false
  reads := 0
  output := { Sink.working with flushes := ⟨[none, some .brokenPipe], none⟩ }
  errors := .working
  calls := #[]

instance : DecidableEq (Except StreamError Int)
  | .ok value, .ok value' => decidable_of_iff (value = value') ⟨congrArg _, Except.ok.inj⟩
  | .error error, .error error' => decidable_of_iff (error = error') ⟨congrArg _, Except.error.inj⟩
  | .ok _, .error _ => isFalse fun same => by cases same
  | .error _, .ok _ => isFalse fun same => by cases same

theorem demand_faltering :
    (demand [1, 1, 1, 5, -1, 0] faltering).1 =
      [(1, .error .brokenPipe), (1, .error .other), (1, .ok 66), (5, .ok (-1)), (-1, .ok (-1)), (0, .ok 65)] := by
  decide +kernel

/-- The second byte is demanded three times until it comes, and later the first one is still there. -/
theorem input_kept_across_failures :
    ∃ last, Uses faltering [(1, .error .brokenPipe), (1, .error .other), (1, .ok 66), (5, .ok (-1)),
        (-1, .ok (-1)), (0, .ok 65)] last ∧
      last.cache.toList = delivered (faltering.reader.take last.reads) ∧
      byteAt faltering.reader 1 = 66 ∧ byteAt faltering.reader 0 = 65 := by
  have uses := uses_demand [1, 1, 1, 5, -1, 0] faltering
  rw [demand_faltering] at uses
  obtain ⟨cache, answers, -⟩ := input_kept ⟨rfl, rfl, rfl⟩ uses
  exact ⟨_, uses, cache, (answers 1 66 (by simp)).symm, (answers 0 65 (by simp)).symm⟩

end Streams

end MixfixLambda
