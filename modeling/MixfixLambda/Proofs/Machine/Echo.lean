import MixfixLambda.Proofs.Bind.Prelude
import MixfixLambda.Proofs.Machine.Recursion

/-!
# Echo

`main input = puts input` writes what it reads. The list of bytes is made on demand: `puts` needs one more cell
of the list, for which `input_from` reads one byte, and writes that byte before it needs the next cell. The
invariant of that loop says which bytes have been read and written and which thunks the next round starts from.
-/
namespace MixfixLambda

/-- The streams of a program that copies its input: what has been read and written, and what is to come. -/
structure Streams.Copying (s : Streams) (read written rest : List UInt8) : Prop where
  reader : ∃ after : List ReadEvent, (after.head? = none ∨ after.head? = some .ending) ∧
    s.reader = rest.map .byte ++ after
  cache : s.cache.toList = read
  exhausted : s.exhausted = false
  reads : s.reads = read.length
  output : s.output = ⟨written.toArray, .always none, .always none⟩
  errors : s.errors = .working

/-- The streams of a program that has copied its input. -/
structure Streams.Copied (s : Streams) (bytes : List UInt8) : Prop where
  reads : s.reads = bytes.length + 1
  output : s.output = ⟨bytes.toArray, .always none, .always none⟩
  errors : s.errors = .working

namespace Streams

variable {s : Streams} {read written rest : List UInt8} {byte : UInt8}

theorem Copying.write (copying : s.Copying read written rest) (byte : UInt8) :
    ∃ s', s.write .output byte = (.ok (), s') ∧ s'.Copying read (written ++ [byte]) rest := by
  obtain ⟨reader, cache, exhausted, reads, output, errors⟩ := copying
  obtain ⟨reader', cache', exhausted', reads', output', errors', calls'⟩ := s
  cases output
  exact ⟨_, rfl, reader, cache, exhausted, reads, congrArg (Sink.mk · _ _) (List.push_toArray ..), errors⟩

theorem Copying.flush (copying : s.Copying read written rest) :
    ∃ s', s.flush .output = (.ok (), s') ∧ s'.Copying read written rest := by
  obtain ⟨reader, cache, exhausted, reads, output, errors⟩ := copying
  obtain ⟨reader', cache', exhausted', reads', output', errors', calls'⟩ := s
  cases output
  exact ⟨_, rfl, reader, cache, exhausted, reads, rfl, errors⟩

/-- For the next position one byte more is read, once the output has been flushed. -/
theorem Copying.fetch (copying : s.Copying read written rest) :
    ∃ s' : Streams, s'.Copying read written rest ∧
      ∀ s'', s'.readByte = (.ok (), s'') → s.fetch (read.length + 1 - s.cache.size) = (.ok (), s'') := by
  obtain ⟨s', flushed, copying'⟩ := copying.flush
  refine ⟨s', copying', fun s'' answer => ?_⟩
  have missing : read.length + 1 - s.cache.size = 1 := by
    rw [← copying.cache, Array.length_toList]
    omega
  rw [missing, Streams.fetch, copying.exhausted, if_neg (by decide), flushed]
  dsimp only
  rw [answer]
  rfl

theorem get_of_fetch {position : Nat} {s' : Streams} (answer : s.fetch (position + 1 - s.cache.size) = (.ok (), s')) :
    s.get position = (.ok (s'.cache[position]?.elim (-1) fun byte => (byte.toNat : Int)), s') := by
  rw [show (position : Int) = .ofNat position from rfl, Streams.get, answer]
  dsimp only
  cases s'.cache[position]? <;> rfl

/-- The next position holds the next byte. -/
theorem Copying.get_byte (copying : s.Copying read written (byte :: rest)) :
    ∃ s', s.get read.length = (.ok byte.toNat, s') ∧ s'.Copying (read ++ [byte]) written rest := by
  obtain ⟨s', copying', fetched⟩ := copying.fetch
  obtain ⟨⟨after, ends, here⟩, cache, more, reads, output, errors⟩ := copying'
  have answer : s'.readByte = (.ok (), ⟨rest.map .byte ++ after, s'.cache.push byte, s'.exhausted, s'.reads + 1,
      s'.output, s'.errors, s'.calls.push .read⟩) := by
    rw [readByte, here]
    rfl
  have got := get_of_fetch (fetched _ answer)
  have here : (s'.cache.push byte)[read.length]? = some byte := by simp [← cache]
  dsimp only at got
  rw [here] at got
  refine ⟨_, got, ⟨after, ends, rfl⟩, ?_, more, ?_, output, errors⟩
  · rw [Array.toList_push, cache]
  · rw [reads, List.length_append, List.length_singleton]

/-- The position behind the last byte holds none. -/
theorem Copying.get_end (copying : s.Copying read written []) :
    ∃ s', s.get read.length = (.ok (-1), s') ∧ s'.reads = read.length + 1 ∧
      s'.output = ⟨written.toArray, .always none, .always none⟩ ∧ s'.errors = .working := by
  obtain ⟨s', copying', fetched⟩ := copying.fetch
  obtain ⟨⟨after, ends, here⟩, cache, more, reads, output, errors⟩ := copying'
  have answer : s'.readByte = (.ok (), ⟨after.tail, s'.cache, true, s'.reads + 1, s'.output, s'.errors,
      s'.calls.push .read⟩) := by
    rw [readByte, here]
    cases after with
    | nil => rfl
    | cons event after =>
      cases ends.resolve_left (by simp)
      rfl
  have got := get_of_fetch (fetched _ answer)
  have none : s'.cache[read.length]? = none := by simp [← cache]
  dsimp only at got
  rw [none] at got
  exact ⟨_, got, congrArg (· + 1) reads, output, errors⟩

/-- Nothing is lost when the streams are flushed at last. -/
theorem Copied.flushAll {bytes : List UInt8} (copied : s.Copied bytes) :
    ∃ s', Machine.flushAll s = (.ok (), s') ∧ s'.Copied bytes := by
  obtain ⟨reads, output, errors⟩ := copied
  obtain ⟨reader', cache', exhausted', reads', output', errors', calls'⟩ := s
  cases output
  cases errors
  exact ⟨_, rfl, reads, rfl, rfl⟩

end Streams

theorem fitsInt_of_le {m n : Nat} (le : m ≤ n) (fits : fitsInt n = true) : fitsInt m = true := by
  rw [fitsInt_iff, minInt, maxInt] at fits ⊢
  omega

namespace Code

/-- `\c rest -> put c (puts rest)` -/
def putsCons : Code :=
  .fn (.fn (.app (.app (.builtin .put) (.var 1)) (.app (.var 3) (.var 0))))

/-- `\s -> s id (\c rest -> put c (puts rest))` -/
def puts : Code :=
  .fn (.app (.app (.var 0) (.global 8)) putsCons)

/-- `\c a b -> c a b` -/
def ifThenElse : Code :=
  .fn (.fn (.fn (.app (.app (.var 2) (.var 1)) (.var 0))))

/-- `\x -> x` -/
def identity : Code :=
  .fn (.var 0)

/-- A cell of a list: `\n c -> c head tail` -/
def pair : Code :=
  .fn (.fn (.app (.app (.var 0) (.var 3)) (.var 2)))

/-- `input_from (i + 1)` -/
def inputRest : Code :=
  .app (.var 2) (.app (.app (.builtin .add) (.var 1)) (.int 1))

/-- `b : input_from (i + 1)` -/
def inputCons : Code :=
  .app (.app (.global 11) (.var 0)) inputRest

/-- `\b -> if b < 0 then [] else b : input_from (i + 1)` -/
def inputByte : Code :=
  .fn (.app (.app (.app (.global 2) (.app (.app (.builtin .lt) (.var 0)) (.int 0))) (.fn (.fn (.var 1))))
    inputCons)

/-- `\i -> (\b -> if b < 0 then [] else b : input_from (i + 1)) (get i)` -/
def inputFrom : Code :=
  .fn (.app inputByte (.app (.builtin .get) (.var 0)))

/-- `\input -> puts input` -/
def echo : Code :=
  .fn (.app (.global 21) (.var 0))

end Code

/-- What the program needs of the prelude, and its own definition. -/
structure Echoes (globals : Array Code) : Prop where
  ifThenElse : globals[2]? = some .ifThenElse
  id : globals[8]? = some .identity
  cons : globals[11]? = some (.fn (.fn .pair))
  puts : globals[21]? = some (.fix (.fn .puts))
  inputFrom : globals[27]? = some (.fix (.fn .inputFrom))
  main : globals[28]? = some .echo

/-- The thunk is a position: a number, or the number before it and one. -/
inductive Memory.Position (h : Memory) (thunk : Nat) : Nat → Prop
  | known {position : Nat} {env : Env} (found : h[thunk]? = some ⟨.int position, env, .done⟩) :
      Position h thunk position
  | next {byte last self position : Nat} {env : Env}
      (found : h[thunk]? = some ⟨.app (.app (.builtin .add) (.var 1)) (.int 1), [byte, last, self], .pending⟩)
      (before : h[last]? = some ⟨.int position, env, .done⟩) : Position h thunk (position + 1)

namespace Memory

/-- A position stays one where all thunks but one that is no part of it are kept. -/
theorem Position.keeps {h h' : Memory} {thunk position : Nat} (number : h.Position thunk position)
    (keeps : ∀ (i : Nat) (c : Slot), h[i]? = some c → (i = thunk ∨ c.state = .done) → h'[i]? = some c) :
    h'.Position thunk position := by
  cases number with
  | known found => exact .known (keeps _ _ found (.inl rfl))
  | next found before => exact .next (keeps _ _ found (.inl rfl)) (keeps _ _ before (.inr rfl))

theorem Position.lt_size {h : Memory} {thunk position : Nat} (number : h.Position thunk position) :
    thunk < h.size := by
  cases number <;> grind

/-- What else there is does not have the thunk of a position. -/
theorem Position.apart {h : Memory} {thunk position i : Nat} {c : Slot} (number : h.Position thunk position)
    (there : h[i]? = some c)
    (other : c.state = .running ∨
      (∀ n, c.code ≠ .int n) ∧ c.code ≠ .app (.app (.builtin .add) (.var 1)) (.int 1)) : i ≠ thunk := by
  rintro rfl
  cases number with
  | known found =>
    cases there.symm.trans found
    rcases other with impossible | ⟨impossible, _⟩
    · cases impossible
    · exact impossible _ rfl
  | next found _ =>
    cases there.symm.trans found
    rcases other with impossible | ⟨_, impossible⟩
    · cases impossible
    · exact impossible rfl

end Memory

namespace State

variable {globals : Array Code} {Q : State → Prop} {constants : Array (Option Nat)} {heap : Memory}
  {streams : Streams} {frames : List Wait} {code : Code} {env : Env}

/-- A position is evaluated at most once. -/
theorem Forces.position {thunk position : Nat} (number : heap.Position thunk position)
    (fits : fitsInt position = true)
    (leads : ∀ heap' env', heap.Keeps thunk heap' → heap'[thunk]? = some ⟨.int position, env', .done⟩ →
      Leads globals Q ⟨constants, heap', streams, frames, .int position, env'⟩) :
    Forces globals Q ⟨constants, heap, streams, frames, code, env⟩ thunk := by
  cases number with
  | known found => exact .value found (leads _ _ (fun _ _ found _ => found) found)
  | @next byte last self position env' found before =>
    have last' : ((heap.mark thunk).push ⟨.int 1, [], .done⟩)[last]? = some ⟨.int position, env', .done⟩ := by grind
    have one : ((heap.mark thunk).push ⟨.int 1, [], .done⟩)[(heap.mark thunk).size]? = some ⟨.int 1, [], .done⟩ :=
      Array.getElem?_push_size
    have sum : Builtin.add.binary position 1 = .ok (.int (position + 1 : Nat)) := by
      rw [Int.natCast_succ] at fits ⊢
      rw [Builtin.binary, Builtin.checked, if_pos fits]
    refine .evaluate found (.delayInt (.share rfl (.binary rfl (.value last' ?_))))
    refine .next (by decide) (.value one (.computeInt rfl sum (.update trivial (leads _ _ ?_ ?_))))
    · intro i c found other
      grind
    · grind

/-- The new thunks of a cell of the input, in the order they are made: its byte, the list if there is one and the
list if this is the end, the test for the end, which is under evaluation, and what the byte is compared with. -/
structure Laid (h h' : Memory) (index source : Nat) : Prop where
  old : ∀ (i : Nat) (c : Slot), h[i]? = some c → h'[i]? = some c
  byte : h'[h.size]? = some ⟨.app (.builtin .get) (.var 0), [index, source], .pending⟩
  next : h'[h.size + 1]? = some ⟨.inputCons, [h.size, index, source], .pending⟩
  last : h'[h.size + 1 + 1]? = some ⟨.fn (.fn (.var 1)), [h.size, index, source], .done⟩
  test : h'[h.size + 1 + 1 + 1]? =
    some ⟨.app (.app (.builtin .lt) (.var 0)) (.int 0), [h.size, index, source], .running⟩
  zero : h'[h.size + 1 + 1 + 1 + 1]? = some ⟨.int 0, [], .done⟩

/-- A cell of the input is needed: whether it is the last one depends on its byte. -/
theorem Leads.lay {index self : Nat} (echoes : Echoes globals)
    (forces : ∀ heap', Laid heap heap' index self → Forces globals Q
      ⟨constants, heap', streams, .force .lt [] [heap.size + 1 + 1 + 1 + 1] :: .update (heap.size + 1 + 1 + 1) ::
        .arg (heap.size + 1 + 1) :: .arg (heap.size + 1) :: frames, .builtin .lt, [heap.size, index, self]⟩
      heap.size) :
    Leads globals Q ⟨constants, heap, streams, frames, .app .inputByte (.app (.builtin .get) (.var 0)),
      [index, self]⟩ := by
  refine .delayApp (.bind (.delayApp (.delayFn (.delayApp ?_))))
  refine .unfold echoes.ifThenElse rfl (.bind (.bind (.bind (.share rfl (.share rfl (.lookup rfl ?_))))))
  refine .evaluate Array.getElem?_push_size (.delayInt (.share rfl (.binary rfl ?_)))
  simp only [Array.size_push, Memory.size_mark]
  -- All that was there before the test was marked is still there.
  have behind : ∀ {h : Memory} {i : Nat} {c new : Slot}, h[i]? = some c → i < heap.size + 1 + 1 + 1 →
      (Array.push (h.mark (heap.size + 1 + 1 + 1)) new)[i]? = some c := fun found before =>
    Memory.push_kept (Memory.mark_kept found (by omega))
  refine forces _ ⟨fun i c found => ?_, ?_, ?_, ?_, ?_, Memory.push_new (by simp)⟩
  · have inside : i < heap.size := (Array.getElem?_eq_some_iff.1 found).1
    refine behind ?_ (by omega)
    exact Memory.push_kept (Memory.push_kept (Memory.push_kept (Memory.push_kept found)))
  · refine behind ?_ (by omega)
    exact Memory.push_kept (Memory.push_kept (Memory.push_kept (Memory.push_new rfl)))
  · refine behind ?_ (by omega)
    exact Memory.push_kept (Memory.push_kept (Memory.push_new (by simp)))
  · refine behind ?_ (by omega)
    exact Memory.push_kept (Memory.push_new (by simp))
  · refine Memory.push_kept ?_
    rw [Memory.getElem?_mark, if_pos rfl, Memory.push_new (by simp)]
    rfl

/-- A cell of the input when its byte has been read: `b` is the byte, `t` the test for the end, `l` the list if
this is the end, and `n` the list otherwise. -/
structure Read (h h' : Memory) (index source position : Nat) (value : Int) (b t l n : Nat) : Prop where
  keeps : h.Keeps index h'
  new : h[b]? = none ∧ h[t]? = none ∧ h[n]? = none
  known : ∃ env, h'[index]? = some ⟨.int position, env, .done⟩
  byte : h'[b]? = some ⟨.int value, [], .done⟩
  test : ∃ code env, h'[t]? = some ⟨code, env, .running⟩
  last : h'[l]? = some ⟨.fn (.fn (.var 1)), [b, index, source], .done⟩
  next : h'[n]? = some ⟨.inputCons, [b, index, source], .pending⟩

/-- The byte of a cell is read before it is known whether this is the last one. -/
theorem Leads.read {index self position : Nat} {value : Int} {streams' : Streams} (echoes : Echoes globals)
    (number : heap.Position index position) (fits : fitsInt position = true)
    (answer : streams.get position = (.ok value, streams'))
    (leads : ∀ heap' b t l n, Read heap heap' index self position value b t l n →
      Leads globals Q ⟨constants, heap', streams', .force .lt [value] [] :: .update t :: .arg l :: .arg n ::
        frames, .int 0, []⟩) :
    Leads globals Q ⟨constants, heap, streams, frames, .app .inputByte (.app (.builtin .get) (.var 0)),
      [index, self]⟩ := by
  refine .lay echoes fun h₁ laid => ?_
  obtain ⟨old, byte, next, last, test, zero⟩ := laid
  refine .evaluate byte (.share rfl (.unary rfl (by decide) (.position (number.keeps ?_) fits ?_)))
  · intro i c found _
    grind
  intro h₂ env' keeps known
  have inside := number.lt_size
  have kept : ∀ (i : Nat) (c : Slot), h₁[i]? = some c → i ≠ index → i ≠ heap.size →
      (Memory.fill h₂ heap.size (.int value) [])[i]? = some c := by
    intro i c found other apart
    rw [Memory.getElem?_fill, if_neg (Ne.symm apart)]
    refine keeps _ _ ?_ other
    grind
  have zero' := kept _ _ zero (by omega) (by omega)
  refine .get answer (.update trivial (.next (by decide) (.value zero' (leads _ heap.size _ _ _ ?_))))
  exact {
    keeps := fun i c found other => kept _ _ (old _ _ found) other (by grind)
    new := by grind
    known := ⟨env', by grind⟩
    byte := by
      have here := keeps heap.size ⟨.app (.builtin .get) (.var 0), [index, self], .running⟩ (by grind) (by omega)
      grind
    test := ⟨_, _, kept _ _ test (by omega) (by omega)⟩
    last := kept _ _ last (by omega) (by omega)
    next := kept _ _ next (by omega) (by omega) }

/-- Behind the last byte the input is the empty list. -/
theorem Leads.input_end {index self : Nat} {read written : List UInt8} (echoes : Echoes globals)
    (number : heap.Position index read.length) (fits : fitsInt read.length = true)
    (copying : streams.Copying read written [])
    (leads : ∀ heap' streams' env', heap.Keeps index heap' → streams'.reads = read.length + 1 →
      streams'.output = ⟨written.toArray, .always none, .always none⟩ → streams'.errors = .working →
      Leads globals Q ⟨constants, heap', streams', frames, .fn (.fn (.var 1)), env'⟩) :
    Leads globals Q ⟨constants, heap, streams, frames, .app .inputByte (.app (.builtin .get) (.var 0)),
      [index, self]⟩ := by
  obtain ⟨streams', answer, reads, output, errors⟩ := copying.get_end
  refine .read echoes number fits answer fun h₁ b t l n cell => ?_
  obtain ⟨code, env, test⟩ := cell.test
  have last : (Memory.fill h₁ t (.fn (.fn (.var 1))) [])[l]? = some ⟨.fn (.fn (.var 1)), [b, index, self], .done⟩ := by
    grind [cell.last]
  refine .computeTrue rfl rfl (.update trivial (.bind (.bind (.lookup rfl (.value last ?_)))))
  refine leads _ _ _ (fun i c found other => ?_) reads output errors
  grind [cell.keeps i c found other, cell.new]

/-- Before its end the input is the next byte and the rest. -/
theorem Leads.input_byte {index self : Nat} {read written rest : List UInt8} {byte : UInt8}
    (echoes : Echoes globals) (number : heap.Position index read.length) (fits : fitsInt read.length = true)
    (copying : streams.Copying read written (byte :: rest))
    (leads : ∀ heap' streams' b n, heap.Keeps index heap' → heap[b]? = none ∧ heap[n]? = none →
      heap'[b]? = some ⟨.int byte.toNat, [], .done⟩ → heap'[n]? = some ⟨.inputRest, [b, index, self], .pending⟩ →
      (∃ env, heap'[index]? = some ⟨.int read.length, env, .done⟩) →
      streams'.Copying (read ++ [byte]) written rest →
      Leads globals Q ⟨constants, heap', streams', frames, .pair, [n, b]⟩) :
    Leads globals Q ⟨constants, heap, streams, frames, .app .inputByte (.app (.builtin .get) (.var 0)),
      [index, self]⟩ := by
  obtain ⟨streams', answer, copying'⟩ := copying.get_byte
  refine .read echoes number fits answer fun h₁ b t l n cell => ?_
  obtain ⟨code, env, test⟩ := cell.test
  have negative : Builtin.lt.binary byte.toNat 0 = .ok (Builtin.boolean false) := by
    rw [Builtin.binary, decide_eq_false (by omega)]
  have next : (Memory.fill h₁ t (.fn (.fn (.var 0))) [])[n]? = some ⟨.inputCons, [b, index, self], .pending⟩ := by
    grind [cell.next]
  refine .computeFalse rfl negative (.update trivial (.bind (.bind (.lookup rfl (.evaluate next ?_)))))
  refine .delayApp (.share rfl (.unfold echoes.cons rfl (.bind (.bind (.update trivial ?_)))))
  obtain ⟨env', known⟩ := cell.known
  refine leads _ _ _ _ ?_ ?_ ?_ ?_ ⟨env', ?_⟩ copying'
  · intro i c found other
    grind [cell.keeps i c found other, cell.new]
  · refine ⟨cell.new.1, ?_⟩
    cases found : heap[h₁.size]? with
    | none => simpa using found
    | some c => grind [cell.keeps _ c found (by grind)]
  · grind [cell.byte, cell.next]
  · grind [cell.next, Code.inputRest]
  · grind [cell.next]

/-- A cell of the list is written: first its byte, then the rest. -/
theorem Leads.write {target b n bound : Nat} {byte : UInt8} {streams' : Streams}
    (here : heap[b]? = some ⟨.int byte.toNat, [], .done⟩) (output : heap.Recurs target .puts)
    (wrote : streams.write .output byte = (.ok (), streams'))
    (leads : ∀ heap' target' wait, heap.Keeps target heap' → heap'.Recurs target' .puts →
      Leads globals Q ⟨constants, heap', streams', .arg n :: .update wait :: frames, .puts, [target']⟩) :
    Leads globals Q ⟨constants, heap, streams, .arg b :: .arg n :: frames, .putsCons, [bound, target]⟩ := by
  have here' : (heap.push ⟨.app (.var 3) (.var 0), [n, b, bound, target], .pending⟩)[b]? =
      some ⟨.int byte.toNat, [], .done⟩ := by grind
  have wrote' : streams.write .output (UInt8.ofNat (byte.toNat : Int).toNat) = (.ok (), streams') := by
    rw [Int.toNat_natCast, UInt8.ofNat_toNat, wrote]
  have small := byte.toNat_lt
  refine .bind (.bind (.delayApp (.share rfl (.unary rfl (by decide) (.value here' (.put ?_ wrote' ?_))))))
  · omega
  have output' : (Memory.mark (heap.push ⟨.app (.var 3) (.var 0), [n, b, bound, target], .pending⟩) heap.size).Recurs
      target .puts := output.keeps fun i c found _ => by grind
  refine .bind (.lookup rfl (.evaluate Array.getElem?_push_size (.share rfl (.unroll rfl output' ?_))))
  intro h₁ target' keeps output₁
  exact leads _ _ _ (fun i c found other => keeps _ _ (by grind) other) output₁

/-- A list is about to be written: it is evaluated. -/
theorem Leads.list {target n : Nat} {delayed : Code} {env' : Env}
    (here : heap[n]? = some ⟨delayed, env', .pending⟩)
    (leads : ∀ heap' last cell, heap.Keeps n heap' → heap'[n]? = some ⟨delayed, env', .running⟩ →
      heap'[last]? = some ⟨.global 8, [], .pending⟩ → heap'[cell]? = some ⟨.putsCons, [n, target], .done⟩ →
      Leads globals Q ⟨constants, heap', streams, .update n :: .arg last :: .arg cell :: frames, delayed, env'⟩) :
    Leads globals Q ⟨constants, heap, streams, .arg n :: frames, .puts, [target]⟩ := by
  have here' : ((heap.push ⟨.putsCons, [n, target], .done⟩).push ⟨.global 8, [], .pending⟩)[n]? =
      some ⟨delayed, env', .pending⟩ := by grind
  refine .bind (.delayFn (.delayGlobal (.lookup rfl (.evaluate here' (leads _ _ _ ?_ ?_ ?_ ?_)))))
  · intro i c found other
    grind
  · grind
  · grind
  · grind [Code.putsCons]

/-- Thunks that wait for a value get it, and the run is at its end. -/
theorem Leads.finish {frames : List Wait} (updates : ∀ wait ∈ frames, ∃ thunk, wait = .update thunk)
    (value : code.Settles) (holds : ∀ heap', Q ⟨constants, heap', streams, [], code, env⟩) :
    Leads globals Q ⟨constants, heap, streams, frames, code, env⟩ := by
  induction frames generalizing heap with
  | nil => exact .here (holds heap)
  | cons wait frames ih =>
    obtain ⟨thunk, rfl⟩ := updates _ List.mem_cons_self
    exact .update value (ih fun wait member => updates wait (List.mem_cons_of_mem _ member))

/-- The thunks that a round of the loop starts from: the position, the two recursive definitions, the list that
is being evaluated, and what is done with it at its end and for a cell. -/
structure Round (h : Memory) (index source target list last cell : Nat) (position : Nat) : Prop where
  number : h.Position index position
  input : h.Recurs source .inputFrom
  output : h.Recurs target .puts
  running : ∃ code env, h[list]? = some ⟨code, env, .running⟩
  ending : h[last]? = some ⟨.global 8, [], .pending⟩
  going : ∃ bound, h[cell]? = some ⟨.putsCons, [bound, target], .done⟩

namespace Round

variable {index source target list last cell position : Nat}

/-- What a cell of the list leaves as it is: all but the position and the list itself. -/
theorem kept (round : Round heap index source target list last cell position) {h : Memory} {value : Code}
    (keeps : heap.Keeps index h) {i : Nat} {c : Slot} (found : heap[i]? = some c) (evaluated : c.state ≠ .running)
    (plain : (∀ n, c.code ≠ .int n) ∧ c.code ≠ .app (.app (.builtin .add) (.var 1)) (.int 1)) :
    (h.fill list value env)[i]? = some c := by
  obtain ⟨code, env, running⟩ := round.running
  have apart : i ≠ list := by
    rintro rfl
    cases running.symm.trans found
    exact evaluated rfl
  rw [Memory.getElem?_fill, if_neg apart.symm]
  exact keeps _ _ found (round.number.apart found (.inr plain))

end Round

/-- A cell is written, and the next cell of the input is needed. -/
theorem Leads.turn {b n index source target bound position : Nat} {byte : UInt8} {streams' : Streams}
    (here : heap[b]? = some ⟨.int byte.toNat, [], .done⟩) (input : heap.Recurs source .inputFrom)
    (output : heap.Recurs target .puts) (next : heap[n]? = some ⟨.inputRest, [b, index, source], .pending⟩)
    (known : ∃ env, heap[index]? = some ⟨.int position, env, .done⟩)
    (wrote : streams.write .output byte = (.ok (), streams'))
    (leads : ∀ heap' index' source' target' last' cell' wait,
      Round heap' index' source' target' n last' cell' (position + 1) →
      Leads globals Q ⟨constants, heap', streams', .update n :: .arg last' :: .arg cell' :: .update wait :: frames,
        .app .inputByte (.app (.builtin .get) (.var 0)), [index', source']⟩) :
    Leads globals Q ⟨constants, heap, streams, .arg b :: .arg n :: frames, .putsCons, [bound, target]⟩ := by
  have output' := output
  obtain ⟨_, _, waits, _, _⟩ := output'
  obtain ⟨env, known⟩ := known
  refine .write here output wrote fun h₁ target' wait keeps₁ output₁ => ?_
  have next₁ : h₁[n]? = some ⟨.inputRest, [b, index, source], .pending⟩ :=
    keeps₁ _ _ next (by rintro rfl; cases waits.symm.trans next)
  have known₁ := keeps₁ _ _ known (by rintro rfl; cases waits.symm.trans known)
  have input₁ := input.keeps_but keeps₁ waits (by simp) (.inl (input.apart output (by decide)))
  refine .list next₁ fun h₂ last' cell' keeps₂ running₂ ending₂ going₂ => ?_
  have known₂ := keeps₂ _ _ known₁ (by rintro rfl; cases next₁.symm.trans known₁)
  have input₂ := input₁.keeps_but keeps₂ next₁ (by simp) (.inr (by simp [Code.inputRest]))
  have output₂ := output₁.keeps_but keeps₂ next₁ (by simp) (.inr (by simp [Code.inputRest]))
  refine .delayApp (.unroll rfl (input₂.keeps fun i c found _ => Memory.push_kept found)
    fun h₃ source' keeps₃ input₃ => .bind (leads _ _ _ target' last' cell' _ ?_))
  have apart := output₂.apart input₂ (by decide)
  obtain ⟨_, _, waits₂, _, _⟩ := input₂
  have kept : ∀ (i : Nat) (c : Slot), h₂[i]? = some c → (c.state = .pending → c.code ≠ .app (.var 0) (.var 0)) →
      h₃[i]? = some c := by
    intro i c found other
    refine keeps₃ _ _ (Memory.push_kept found) ?_
    rintro rfl
    cases waits₂.symm.trans found
    exact other rfl rfl
  exact {
    number := .next (keeps₃ _ _ Array.getElem?_push_size (by grind)) (kept _ _ known₂ (by simp))
    input := input₃
    output := (output₂.keeps fun i c found _ => Memory.push_kept found).keeps_but keeps₃
      (Memory.push_kept waits₂) (by simp) (.inl apart)
    running := ⟨_, _, kept _ _ running₂ (by simp)⟩
    ending := kept _ _ ending₂ (by simp)
    going := ⟨_, kept _ _ going₂ (by simp)⟩ }

/-- The run is at its end and the input has been copied. -/
def Ended (bytes : List UInt8) (s : State) : Prop :=
  s.frames = [] ∧ s.code.Settles ∧ s.streams.Copied bytes

/-- One round copies a byte, until there is none. -/
theorem Leads.copy {index source target list last cell : Nat} {read rest : List UInt8} (echoes : Echoes globals)
    (round : Round heap index source target list last cell read.length)
    (fits : fitsInt (read.length + rest.length : Nat) = true) (copying : streams.Copying read read rest)
    (updates : ∀ wait ∈ frames, ∃ thunk, wait = .update thunk) :
    Leads globals (Ended (read ++ rest)) ⟨constants, heap, streams,
      .update list :: .arg last :: .arg cell :: frames, .app .inputByte (.app (.builtin .get) (.var 0)),
      [index, source]⟩ := by
  induction rest generalizing heap streams frames index source target list last cell read with
  | nil =>
    refine .input_end echoes round.number fits copying fun h₁ streams₁ env₁ keeps reads output errors => ?_
    have last' : (Memory.fill h₁ list (.fn (.fn (.var 1))) env₁)[last]? = some ⟨.global 8, [], .pending⟩ :=
      round.kept keeps round.ending (by simp) (by simp)
    refine .update trivial (.bind (.bind (.lookup rfl (.evaluate last' (.unfold echoes.id rfl ?_)))))
    refine .finish ?_ trivial fun heap' => ⟨rfl, trivial, ?_⟩
    · simpa using updates
    · rw [List.append_nil]
      exact ⟨reads, output, errors⟩
  | cons byte rest ih =>
    refine .input_byte echoes round.number (fitsInt_of_le (Nat.le_add_right _ _) fits) copying ?_
    intro h₁ streams₁ b n keeps new byte' next known copying₁
    obtain ⟨streams₂, wrote, copying₂⟩ := copying₁.write byte
    obtain ⟨bound, going⟩ := round.going
    have cell₁ : (Memory.fill h₁ list .pair [n, b])[cell]? = some ⟨.putsCons, [bound, target], .done⟩ :=
      round.kept keeps going (by simp) (by simp [Code.putsCons])
    have input₁ : (Memory.fill h₁ list .pair [n, b]).Recurs source .inputFrom :=
      round.input.keeps fun i c found kind => round.kept keeps found (by grind) (by grind)
    have output₁ : (Memory.fill h₁ list .pair [n, b]).Recurs target .puts :=
      round.output.keeps fun i c found kind => round.kept keeps found (by grind) (by grind)
    have known₁ : ∃ env, (Memory.fill h₁ list .pair [n, b])[index]? = some ⟨.int read.length, env, .done⟩ := by
      grind [round.running, round.number.apart]
    refine .update trivial (.bind (.bind (.share rfl (.share rfl (.lookup rfl (.value cell₁ ?_))))))
    refine .turn (by grind [round.running]) input₁ output₁ (by grind [round.running]) known₁ wrote ?_
    intro h₂ index' source' target' last' cell' wait round'
    rw [List.append_cons]
    refine ih (by simpa using round') ?_ copying₂ ?_
    · rw [List.length_append, List.length_singleton]
      rwa [List.length_cons, ← Nat.add_assoc, Nat.add_right_comm] at fits
    · simpa using updates

/-- The program copies its input. -/
theorem Leads.echo {bytes : List UInt8} (echoes : Echoes globals) (fits : fitsInt bytes.length = true)
    (copying : streams.Copying [] [] bytes) :
    Leads globals (Ended bytes) ⟨Array.replicate globals.size none, #[], streams, [],
      .app (.global 28) (.app (.global 27) (.int 0)), []⟩ := by
  have unknown : ∀ {index : Nat} {definition : Code}, globals[index]? = some definition →
      (Array.replicate globals.size (none : Option Nat))[index]? = some none := by
    intro index definition found
    grind
  refine .delayApp (.unfold echoes.main rfl (.bind (.share rfl ?_)))
  refine .recursive echoes.puts (unknown echoes.puts) fun h₁ target keeps₁ output₁ => ?_
  refine .list (keeps₁ _ _ Array.getElem?_push_size) fun h₂ last cell keeps₂ running₂ ending₂ going₂ => ?_
  refine .delayInt (.recursive echoes.inputFrom ?_ fun h₃ source keeps₃ input₃ => .bind ?_)
  · grind [unknown echoes.inputFrom]
  have output₂ : h₂.Recurs target .puts :=
    output₁.keeps_but keeps₂ (keeps₁ _ _ Array.getElem?_push_size) (by simp) (.inr (by simp))
  have kept : ∀ (i : Nat) (c : Slot), h₂[i]? = some c → h₃[i]? = some c :=
    fun i c found => keeps₃ i c (Memory.push_kept found)
  have round : Round h₃ h₂.size source target 0 last cell ([] : List UInt8).length := {
    number := .known (keeps₃ _ _ Array.getElem?_push_size)
    input := input₃
    output := output₂.keeps fun i c found _ => kept i c found
    running := ⟨_, _, kept _ _ running₂⟩
    ending := kept _ _ ending₂
    going := ⟨_, kept _ _ going₂⟩ }
  exact .copy echoes round (by simpa using fits) copying (by simp)

end State

/-- What a program gives back for its value. The value of `main` is not given back. -/
def Entry.answer : Entry → Value → Option Value
  | .expression _, value => some value
  | .main _, _ => none

def echoSource : String :=
  "main input = puts input"

/-- The program binds to a `main` that applies the two definitions of the prelude. -/
structure Module.IsEcho (m : Module) : Prop where
  echoes : Echoes (m.globals.map (·.term.code))
  entry : m.entry.term.code = .app (.global 28) (.app (.global 27) (.int 0))
  silent : ∀ value, m.entry.answer value = none

def Module.isEcho (m : Module) : Bool :=
  let codes := m.globals.map (·.term.code)
  codes[2]? == some .ifThenElse && codes[8]? == some .identity && codes[11]? == some (.fn (.fn .pair)) &&
    codes[21]? == some (.fix (.fn .puts)) && codes[27]? == some (.fix (.fn .inputFrom)) &&
    codes[28]? == some .echo && m.entry.term.code == .app (.global 28) (.app (.global 27) (.int 0)) &&
    (m.entry.answer default).isNone

theorem Module.isEcho_sound {m : Module} (evaluated : m.isEcho = true) : m.IsEcho := by
  simp only [isEcho, Bool.and_eq_true, beq_iff_eq] at evaluated
  obtain ⟨⟨⟨⟨⟨⟨⟨ifThenElse, id⟩, cons⟩, puts⟩, inputFrom⟩, main⟩, entry⟩, silent⟩ := evaluated
  refine ⟨⟨ifThenElse, id, cons, puts, inputFrom, main⟩, entry, fun value => ?_⟩
  cases which : m.entry with
  | expression =>
    rw [which] at silent
    cases silent
  | main => rfl

theorem bindOn_echo :
    (bindOn (Binder.ofSource (parseChars Prelude.chars .prelude)) echoSource).result.toOption.any
      Module.isEcho = true := by
  rw [Prelude.chars_eq]
  decide +kernel

theorem bindModule_echo : ∃ m, (bindModule echoSource).result = .ok m ∧ m.IsEcho := by
  have evaluated := bindOn_echo
  rw [← bindModule_eq] at evaluated
  obtain ⟨m, bound, isEcho⟩ := exists_ok_of_any evaluated
  exact ⟨m, bound, Module.isEcho_sound isEcho⟩

/-- **Echo**: the program gives back nothing, has written what it has read, and has read the input once for each
byte and once for its end. Positions are integers of 64 bits: the bytes that have been read are all kept, and no
memory holds more of them than these count. -/
theorem bindModule_echo_copies :
    ∃ program, (bindModule echoSource).result = .ok program ∧
      ∀ (bytes : List UInt8) (after : List ReadEvent) (options : Options), fitsInt bytes.length = true →
        after.head? = none ∨ after.head? = some .ending →
        ∃ enough value last, (∀ fuel, enough ≤ fuel →
            (Machine.start program.globals (.ofReader (bytes.map .byte ++ after)) .never options).run fuel
              program.entry.term = (.value value, last)) ∧
          program.entry.answer value = none ∧ last.streams.output.stored.toList = bytes ∧
          last.streams.errors.stored = #[] ∧ last.streams.reads = bytes.length + 1 := by
  obtain ⟨program, bound, isEcho⟩ := bindModule_echo
  refine ⟨program, bound, fun bytes after options fits ends => ?_⟩
  have copying : (Streams.ofReader (bytes.map .byte ++ after)).Copying [] [] bytes :=
    ⟨⟨after, ends, rfl⟩, rfl, rfl, rfl, rfl, rfl⟩
  let first := (Machine.start program.globals (.ofReader (bytes.map .byte ++ after)) .never options).load
    program.entry.term
  have state : first.state = ⟨Array.replicate program.globals.size none, #[],
      .ofReader (bytes.map .byte ++ after), [], program.entry.term.code, []⟩ := by
    simp [first, Machine.state, Machine.load, Machine.start, Spine.empty]
  have leads : State.Leads (program.globals.map (·.term.code)) (State.Ended bytes) first.state := by
    rw [state, isEcho.entry]
    exact Array.size_map ▸ State.Leads.echo isEcho.echoes fits copying
  obtain ⟨enough, value, ended, ⟨_, _, copied⟩, steps⟩ :=
    leads.steps ⟨rfl, rfl, rfl⟩ fun s ended => ⟨ended.1, ended.2.1⟩
  obtain ⟨streams, flushed, copied⟩ := Streams.Copied.flushAll copied
  obtain ⟨last, concluded, rfl⟩ := ended.conclude_flushed value flushed
  refine ⟨enough, value, last, fun fuel more => ?_, isEcho.silent value, ?_, ?_, copied.reads⟩
  · rw [Machine.run, steps fuel more]
    exact concluded
  · rw [copied.output]
  · rw [copied.errors]
    rfl

theorem bindModule_echo_copies_hi :
    fitsInt ([104, 105, 10] : List UInt8).length = true ∧
      (([] : List ReadEvent).head? = none ∨ ([] : List ReadEvent).head? = some .ending) ∧
      ∃ program, (bindModule echoSource).result = .ok program ∧ ∃ enough value last,
        (∀ fuel, enough ≤ fuel →
          (Machine.start program.globals (.ofReader [.byte 104, .byte 105, .byte 10]) .never ⟨0, true, false⟩).run fuel
            program.entry.term = (.value value, last)) ∧
        program.entry.answer value = none ∧ last.streams.output.stored.toList = [104, 105, 10] ∧
        last.streams.errors.stored = #[] ∧ last.streams.reads = 4 := by
  obtain ⟨program, bound, copies⟩ := bindModule_echo_copies
  exact ⟨by decide, .inl rfl, program, bound, copies [104, 105, 10] [] ⟨0, true, false⟩ (by decide) (.inl rfl)⟩

end MixfixLambda
