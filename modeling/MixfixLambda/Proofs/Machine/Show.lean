import MixfixLambda.Proofs.Machine.Digits

/-!
# Numbers are shown

`puts (show n)` writes an integer in decimal. `show` gives the list of its bytes, of which only the first one is
there at once, and `puts` takes the list cell by cell. The least integer of all is the exception: its negation
does not fit.
-/
namespace MixfixLambda

/-- The bytes that an integer is shown with. -/
def spelled (n : Int) : List Int :=
  if n < 0 then 45 :: decimal n.natAbs else decimal n.natAbs

/-- The streams of a program that has written some bytes and nothing else. -/
structure Streams.Written (s : Streams) (bytes : List UInt8) : Prop where
  output : s.output = ⟨bytes.toArray, .always none, .always none⟩
  errors : s.errors = .working

namespace Streams

variable {s : Streams} {bytes : List UInt8}

theorem Written.write (written : s.Written bytes) (byte : UInt8) :
    ∃ s', s.write .output byte = (.ok (), s') ∧ s'.Written (bytes ++ [byte]) := by
  obtain ⟨output, errors⟩ := written
  obtain ⟨reader, cache, exhausted, reads, output', errors', calls⟩ := s
  cases output
  exact ⟨_, rfl, congrArg (Sink.mk · _ _) (List.push_toArray ..), errors⟩

theorem Written.flushAll (written : s.Written bytes) :
    ∃ s', Machine.flushAll s = (.ok (), s') ∧ s'.Written bytes := by
  obtain ⟨output, errors⟩ := written
  obtain ⟨reader, cache, exhausted, reads, output', errors', calls⟩ := s
  cases output
  cases errors
  exact ⟨_, rfl, rfl, rfl⟩

end Streams

/-- The byte that an integer is written as. -/
def byteOf (value : Int) : UInt8 :=
  UInt8.ofNat value.toNat

/-- The thunks that `puts` puts a list on: what is done at its end and what is done with a cell. -/
structure Scene.Puts (s : Scene) (last cell : Nat) : Prop where
  ending : s.heap[last]? = some ⟨.global 8, [], .pending⟩
  unknown : s.world last = none
  going : ∃ list self, s.heap[cell]? = some ⟨.putsCons, [list, self], .done⟩ ∧
    s.world self = some (.recursion .puts)

theorem Scene.Puts.evolves {s s' : Scene} {last cell : Nat} (puts : s.Puts last cell) (evolves : s.Evolves s') :
    s'.Puts last cell := by
  obtain ⟨ending, unknown, list, self, going, again⟩ := puts
  exact ⟨evolves.kept _ _ ending (.inr unknown), evolves.unknown _ _ ending unknown, list, self,
    evolves.kept _ _ going (.inl (by simp)), evolves.known _ _ again⟩

/-- Nothing is known at the start. -/
def Scene.start {globals : Array Code} (prints : Prints globals) : Scene where
  constants := Array.replicate globals.size none
  heap := #[]
  world _ := none
  holds _ _ known := nomatch known
  shelves index body recursive := by
    have found := prints.recursive index body recursive
    have inside := (Array.getElem?_eq_some_iff.mp found).1
    exact .inl (by simp [inside])

theorem Scene.calm_start {globals : Array Code} (prints : Prints globals) (bound : Nat) :
    (Scene.start prints).Calm bound :=
  fun _ _ _ known => nomatch known

/-- The list itself may be evaluated. -/
theorem Scene.Puts.mark {s : Scene} {last cell thunk : Nat} {slot : Slot} (puts : s.Puts last cell)
    (found : s.heap[thunk]? = some slot) (waits : slot.state = .pending) (other : slot.code ≠ .global 8) :
    (s.mark thunk ⟨slot, found, waits⟩).Puts last cell := by
  obtain ⟨ending, unknown, list, self, going, again⟩ := puts
  refine ⟨?_, unknown, list, self, ?_, again⟩ <;> simp only [Scene.mark, Scene.alter] <;> grind

theorem Scene.Puts.fill {base s : Scene} {last cell thunk : Nat} {code code' : Code} {env env' : Env}
    (puts : s.Puts last cell) (inner : Scene.Inner base s thunk code env) :
    (inner.fill code' env').Puts last cell := by
  obtain ⟨ending, unknown, list, self, going, again⟩ := puts
  exact ⟨inner.fill_kept ending (by simp), unknown, list, self, inner.fill_kept going (by simp), again⟩

/-- An integer is shown by the characters of its decimal representation. -/
theorem spelled_eq (n : Int) : spelled n = (toString n).toList.map fun char => (char.toNat : Int) := by
  rw [Int.toString_eq_repr, Int.repr_eq_if, spelled]
  by_cases negative : n < 0
  · have negated : (-n).toNat = n.natAbs := by omega
    rw [if_pos negative, if_neg (by omega), String.toList_append, Nat.toList_repr, negated]
    rfl
  · have same : n.toNat = n.natAbs := by omega
    rw [if_neg negative, if_pos (by omega), Nat.toList_repr, same]
    rfl

theorem toNat_lt_of_mem_toString {n : Int} {char : Char} (member : char ∈ (toString n).toList) :
    char.toNat < 256 := by
  have ascii : char = '-' ∨ char.isDigit = true := by
    rw [Int.toString_eq_repr, Int.repr_eq_if] at member
    split at member
    · rw [Nat.toList_repr] at member
      exact .inr (Nat.isDigit_of_mem_toDigits (by decide) (by decide) member)
    · rw [String.toList_append, Nat.toList_repr] at member
      rcases List.mem_append.mp member with sign | digit
      · exact .inl (by simpa using sign)
      · exact .inr (Nat.isDigit_of_mem_toDigits (by decide) (by decide) digit)
  rcases ascii with rfl | digit
  · decide
  · simp only [Char.isDigit, Bool.and_eq_true, decide_eq_true_eq] at digit
    have most : char.val.toNat ≤ '9'.val.toNat := digit.2
    exact Nat.lt_of_le_of_lt most (by decide)

theorem spelled_bytes (n : Int) : ∀ value ∈ spelled n, 0 ≤ value ∧ value < 256 := by
  intro value member
  rw [spelled_eq] at member
  obtain ⟨char, among, rfl⟩ := List.mem_map.mp member
  have small := toNat_lt_of_mem_toString among
  omega

/-- The bytes are read back as characters. -/
theorem chars_spelled (n : Int) :
    ((spelled n).map byteOf).map (fun byte => Char.ofNat byte.toNat) = (toString n).toList := by
  rw [spelled_eq, List.map_map, List.map_map]
  refine (List.map_congr_left fun char member => ?_).trans (List.map_id _)
  have small := toNat_lt_of_mem_toString member
  change Char.ofNat (UInt8.ofNat (char.toNat : Int).toNat).toNat = char
  rw [Int.toNat_natCast, UInt8.toNat_ofNat', Nat.mod_eq_of_lt small, Char.ofNat_toNat]

namespace State

variable {globals : Array Code} {Q : State → Prop} {scene : Scene} {streams : Streams} {frames : List Wait}
  {code : Code} {env : Env} {bound : Nat}

/-- A number is shown: a negative one is a sign and the digits of its negation. -/
theorem Leads.shown {number : Nat} {value : Int} (prints : Prints globals) (calm : ∀ bound, scene.Calm bound)
    (means : scene.world number = some (.number value)) (fits : fitsInt value = true) (least : value ≠ minInt)
    (leads : ∀ (s : Scene) code' env', scene.Evolves s → ListCell s.world (spelled value) code' env' →
      Leads globals Q ⟨s.constants, s.heap, streams, frames, code', env'⟩) :
    Leads globals Q ⟨scene.constants, scene.heap, streams, .arg number :: frames, .shown, []⟩ := by
  have fits' : fitsInt value.natAbs = true := by
    rw [fitsInt_iff] at fits ⊢
    unfold minInt maxInt at *
    omega
  refine .bind (.choose prints means (calm 0) (fun less s next branch known => ?_)
    fun other s next branch known => ?_)
  · have reckons : Code.Reckons value (.app (.app (.builtin .sub) (.int 0)) (.var 0)) value.natAbs := by
      have negated : (0 : Int) - value = value.natAbs := by omega
      refine .binary (.int 0) .here rfl ?_
      rw [Builtin.binary, Builtin.checked, negated, if_pos fits']
    have digits : Holds s.world s.heap (.list (decimal value.natAbs))
        ⟨.app (.global 25) (.app (.app (.builtin .sub) (.int 0)) (.var 0)), [number], .pending⟩ :=
      .digits known reckons fits' .name
    let s₁ := s.learn _ _ digits
    have evolves₁ : s.Evolves s₁ := s.evolves_learn digits (by simp)
    have sign : Holds s₁.world s₁.heap (.number 45) ⟨.int 45, [], .done⟩ := .known
    let s₂ := s₁.learn _ _ sign
    have evolves₂ : s₁.Evolves s₂ := s₁.evolves_learn sign (by simp)
    have cell : ListCell s₂.world (spelled value) .pair [s.heap.size, s₁.heap.size] := by
      rw [spelled, if_pos less]
      exact .cons (s₁.world_learn sign) (evolves₂.known _ _ (s.world_learn digits))
    refine .delayApp (.delayInt (.unfold prints.cons rfl (.bind (.bind ?_))))
    exact .give (branch.later (evolves₁.trans evolves₂)) cell.settles fun evolves' => leads _ _ _ evolves' cell
  · have calm' := branch.evolves.calm (calm (decimal value.natAbs).length)
    have means' : s.world number = some (.number value.natAbs) := by
      rw [Int.natAbs_of_nonneg other]
      exact branch.evolves.known _ _ means
    refine .share rfl (.named s prints .digits fun s₁ self evolves₁ again => ?_)
    refine .digits prints (forcesLists prints _) (Nat.le_refl _) fits' (evolves₁.known _ _ means') again
      ((evolves₁.calm calm').mono (Nat.sub_le _ _)) fun s₂ code' env' evolves₂ cell => ?_
    refine .give (branch.later (evolves₁.trans evolves₂)) cell.settles fun evolves' => leads _ _ _ evolves' ?_
    rw [spelled, if_neg (Int.not_lt.mpr other)]
    exact cell

/-- A list is put on the thunks that `puts` has for it. -/
theorem Leads.putOn {list self : Nat} (means : scene.world self = some (.recursion .puts))
    (leads : ∀ (s : Scene) last cell, scene.Evolves s → s.Puts last cell →
      Forces globals Q ⟨s.constants, s.heap, streams, .arg last :: .arg cell :: frames, .var 0, [list, self]⟩ list) :
    Leads globals Q ⟨scene.constants, scene.heap, streams, .arg list :: frames, .puts, [self]⟩ := by
  let s₁ := scene.push ⟨.putsCons, [list, self], .done⟩
  let s₂ := s₁.push ⟨.global 8, [], .pending⟩
  have evolves : scene.Evolves s₂ := (scene.evolves_push _).trans (s₁.evolves_push _)
  refine .bind (.delayFn (.delayGlobal (.lookup rfl (leads s₂ s₁.heap.size scene.heap.size evolves ?_))))
  exact ⟨Array.getElem?_push_size, s₁.world_size, list, self, Memory.push_kept Array.getElem?_push_size, means⟩

/-- The run is at its end and has written some bytes. -/
def Wrote (bytes : List UInt8) (s : State) : Prop :=
  s.frames = [] ∧ s.code.Settles ∧ s.streams.Written bytes

/-- A list is written byte by byte. -/
theorem Leads.puts {values : List Int} {last cell : Nat} {written : List UInt8} (prints : Prints globals)
    (calm : ∀ bound, scene.Calm bound) (puts : scene.Puts last cell) (here : ListCell scene.world values code env)
    (bytes : ∀ value ∈ values, 0 ≤ value ∧ value < 256) (output : streams.Written written)
    (updates : ∀ wait ∈ frames, ∃ thunk, wait = .update thunk) :
    Leads globals (Wrote (written ++ values.map byteOf)) ⟨scene.constants, scene.heap, streams,
      .arg last :: .arg cell :: frames, code, env⟩ := by
  induction values generalizing scene streams frames last cell written code env with
  | nil =>
    cases here
    refine .bind (.bind (.lookup rfl (.evaluate puts.ending (.unfold prints.id rfl (.finish ?_ trivial ?_)))))
    · simpa using updates
    · intro heap'
      rw [List.map_nil, List.append_nil]
      exact ⟨rfl, trivial, output⟩
  | cons value values ih =>
    obtain ⟨byte, others⟩ := List.forall_mem_cons.mp bytes
    obtain ⟨list, self, going, again⟩ := puts.going
    cases here with
    | @cons tail head env value values first rest =>
      let s₁ := scene.push ⟨.app (.var 3) (.var 0), [tail, head, list, self], .pending⟩
      have evolves₁ : scene.Evolves s₁ := scene.evolves_push _
      obtain ⟨streams', wrote, output'⟩ := output.write (byteOf value)
      refine .bind (.bind (.share rfl (.share rfl (.lookup rfl (.value going (.bind (.bind (.delayApp ?_))))))))
      refine .share rfl (.unary rfl (by decide) (.number (evolves₁.known _ _ first) (evolves₁.calm (calm 0)) ?_))
      intro s₂ env₂ evolves₂ _
      have there : s₁.heap[scene.heap.size]? = some ⟨.app (.var 3) (.var 0), [tail, head, list, self], .pending⟩ :=
        Array.getElem?_push_size
      have unknown : s₁.world scene.heap.size = none := scene.world_size
      have waits := evolves₂.kept _ _ there (.inr unknown)
      let s₃ := s₂.mark scene.heap.size ⟨_, waits, rfl⟩
      have evolves₃ : scene.Evolves s₃ := (evolves₁.trans evolves₂).mark (Array.getElem?_eq_none (Nat.le_refl _))
        (evolves₂.unknown _ _ there unknown)
      have again₃ := evolves₃.known _ _ again
      refine .put byte wrote (.bind (.lookup rfl (.evaluate waits (.share rfl ?_))))
      refine .again rfl again₃ (evolves₃.calm (calm 0)) fun s₄ self' evolves₄ again₄ => ?_
      refine .putOn again₄ fun s₅ last' cell' evolves₅ puts₅ => ?_
      have evolves := evolves₃.trans (evolves₄.trans evolves₅)
      refine forcesLists prints _ (Nat.lt_succ_self _) (evolves.known _ _ rest) (evolves.calm (calm _)) ?_
      intro s₆ code' env' evolves₆ here'
      rw [List.map_cons, List.append_cons]
      refine ih (fun bound => evolves₆.calm (evolves.calm (calm bound))) (puts₅.evolves evolves₆) here' others
        output' ?_
      simpa using updates

/-- The program writes a number. -/
theorem Leads.putsShown {value : Int} (prints : Prints globals) (fits : fitsInt value = true) (least : value ≠ minInt)
    (output : streams.Written []) :
    Leads globals (Wrote ((spelled value).map byteOf)) ⟨Array.replicate globals.size none, #[], streams, [],
      .app (.global 21) (.app (.global 26) (.int value)), []⟩ := by
  let s₀ := Scene.start prints
  let s₁ := s₀.push ⟨.app (.global 26) (.int value), [], .pending⟩
  have evolves₁ : s₀.Evolves s₁ := s₀.evolves_push _
  have there : s₁.heap[0]? = some ⟨.app (.global 26) (.int value), [], .pending⟩ := rfl
  refine .delayApp (.named s₁ prints .puts fun s₂ self evolves₂ again => ?_)
  refine .putOn again fun s₃ last cell evolves₃ puts => ?_
  have evolves := evolves₂.trans evolves₃
  have waits := evolves.kept _ _ there (.inr rfl)
  have list := Scene.Inner.mark (evolves₁.trans evolves) rfl (evolves.unknown _ _ there rfl) waits
  let s₄ := s₃.mark 0 ⟨_, waits, rfl⟩
  have number : Holds s₄.world s₄.heap (.number value) ⟨.int value, [], .done⟩ := .known
  let s₅ := s₄.learn _ _ number
  have evolves₅ : s₄.Evolves s₅ := s₄.evolves_learn number (by simp)
  have calm {s : Scene} (later : s₀.Evolves s) (bound : Nat) : s.Calm bound :=
    later.calm (Scene.calm_start prints bound)
  refine .evaluate waits (.delayInt (.unfold prints.shown rfl ?_))
  refine .shown prints (calm (list.evolves.trans evolves₅)) (s₄.world_learn number) fits least ?_
  intro s₆ code' env' evolves₆ here
  have later := evolves₅.trans evolves₆
  have puts₆ : s₆.Puts last cell := (puts.mark waits rfl (by simp)).evolves later
  rw [← List.nil_append (List.map ..)]
  refine .give (list.later later) here.settles fun evolves₇ => ?_
  exact .puts prints (calm evolves₇) (puts₆.fill (list.later later)) here (spelled_bytes value) output (by simp)

end State

/-- The binder has the two definitions of the prelude and what they need. -/
structure Binder.Shows (b : Binder) : Prop where
  prints : Prints (b.globals.map (·.term.code))
  puts : b.indexOf? "puts" = some 21
  shown : b.indexOf? "show" = some 26

/-- Applies the two definitions to an integer. -/
def putsShow (value : Int) : Term :=
  .app (.global 21 (.synthetic "puts")) (.app (.global 26 (.synthetic "show")) (.int value))

/-- A run on the least integer stops behind the sign. -/
def Binder.failsAtLeast (b : Binder) : Bool :=
  match (Machine.start b.globals (.ofReader []) .never ⟨0, false, true⟩).run 200 (putsShow minInt) with
  | (.fault fault, last) => fault == ⟨.overflow .sub, none, []⟩ && last.streams.output.stored == #[45]
  | _ => false

def Binder.shows (b : Binder) : Bool :=
  let codes := b.globals.map (·.term.code)
  codes[2]? == some .ifThenElse && codes[8]? == some .identity && codes[11]? == some (.fn (.fn .pair)) &&
    codes[14]? == some .append && codes[26]? == some .shown && codes[13]? == some (.fix (.fn .fold)) &&
    codes[21]? == some (.fix (.fn .puts)) && codes[25]? == some (.fix (.fn .digits)) &&
    b.indexOf? "puts" == some 21 && b.indexOf? "show" == some 26

theorem Binder.shows_sound {b : Binder} (evaluated : b.shows = true) : b.Shows := by
  simp only [shows, Bool.and_eq_true, beq_iff_eq] at evaluated
  obtain ⟨⟨⟨⟨⟨⟨⟨⟨⟨ifThenElse, id⟩, cons⟩, append⟩, shown⟩, fold⟩, puts⟩, digits⟩, putsName⟩, showName⟩ := evaluated
  refine ⟨⟨ifThenElse, id, cons, append, shown, fun index body recursive => ?_⟩, putsName, showName⟩
  cases recursive with
  | fold => exact fold
  | puts => exact puts
  | digits => exact digits

theorem ofSource_prelude :
    (Binder.ofSource (parseChars Prelude.chars .prelude)).toOption.any (fun b => b.shows && b.failsAtLeast) =
      true := by
  rw [Prelude.chars_eq]
  decide +kernel

theorem binder_shows : ∃ b, Prelude.binder = .ok b ∧ b.Shows ∧ b.failsAtLeast = true := by
  have evaluated := ofSource_prelude
  rw [← Prelude.binder_eq] at evaluated
  obtain ⟨b, bound, evaluated⟩ := exists_ok_of_any evaluated
  obtain ⟨shows, fails⟩ := Bool.and_eq_true_iff.mp evaluated
  exact ⟨b, bound, Binder.shows_sound shows, fails⟩

/-- **Show**: every integer but the least one is written in decimal, and nothing else is. -/
theorem puts_show_writes (n : Int) (reader : List ReadEvent) (options : Options) (putsTag showTag : Tag)
    (fits : fitsInt n = true) (least : n ≠ minInt) :
    ∃ b puts shown, Prelude.binder = .ok b ∧ b.indexOf? "puts" = some puts ∧ b.indexOf? "show" = some shown ∧
      ∃ enough value last, (∀ fuel, enough ≤ fuel →
          (Machine.start b.globals (.ofReader reader) .never options).run fuel
            (.app (.global puts putsTag) (.app (.global shown showTag) (.int n))) = (.value value, last)) ∧
        last.streams.output.stored.toList.map (fun byte => Char.ofNat byte.toNat) = (toString n).toList ∧
        last.streams.errors.stored = #[] := by
  obtain ⟨b, bound, ⟨prints, puts, shown⟩, -⟩ := binder_shows
  refine ⟨b, 21, 26, bound, puts, shown, ?_⟩
  let first := (Machine.start b.globals (.ofReader reader) .never options).load
    (.app (.global 21 putsTag) (.app (.global 26 showTag) (.int n)))
  have state : first.state = ⟨Array.replicate b.globals.size none, #[], .ofReader reader, [],
      .app (.global 21) (.app (.global 26) (.int n)), []⟩ := by
    simp [first, Machine.state, Machine.load, Machine.start, Spine.empty, Term.code]
  have leads : State.Leads (b.globals.map (·.term.code)) (State.Wrote ((spelled n).map byteOf)) first.state := by
    rw [state]
    exact Array.size_map ▸ State.Leads.putsShown prints fits least ⟨rfl, rfl⟩
  obtain ⟨enough, value, ended, ⟨-, -, wrote⟩, steps⟩ :=
    leads.steps ⟨rfl, rfl, rfl⟩ fun s ended => ⟨ended.1, ended.2.1⟩
  obtain ⟨streams, flushed, written⟩ := wrote.flushAll
  obtain ⟨last, concluded, rfl⟩ := ended.conclude_flushed value flushed
  refine ⟨enough, value, last, fun fuel more => ?_, ?_, ?_⟩
  · rw [Machine.run, steps fuel more]
    exact concluded
  · rw [written.output]
    exact chars_spelled n
  · rw [written.errors]
    rfl

/-- The least integer is a number of 64 bits, too, but only its sign is written. -/
theorem puts_show_overflows :
    ∃ b puts shown, Prelude.binder = .ok b ∧ b.indexOf? "puts" = some puts ∧ b.indexOf? "show" = some shown ∧
      fitsInt minInt = true ∧
      ∃ last, (Machine.start b.globals (.ofReader []) .never ⟨0, false, true⟩).run 200
          (.app (.global puts (.synthetic "puts")) (.app (.global shown (.synthetic "show")) (.int minInt))) =
            (.fault ⟨.overflow .sub, none, []⟩, last) ∧
        last.streams.output.stored = #[45] := by
  obtain ⟨b, bound, ⟨-, puts, shown⟩, fails⟩ := binder_shows
  refine ⟨b, 21, 26, bound, puts, shown, by decide, ?_⟩
  unfold Binder.failsAtLeast putsShow at fails
  split at fails
  · next fault last run =>
    simp only [Bool.and_eq_true, beq_iff_eq] at fails
    exact ⟨last, fails.1 ▸ run, fails.2⟩
  · cases fails

theorem puts_show_writes_negative :
    fitsInt (-42) = true ∧ (-42 : Int) ≠ minInt ∧
      ∃ b puts shown, Prelude.binder = .ok b ∧ b.indexOf? "puts" = some puts ∧ b.indexOf? "show" = some shown ∧
        ∃ enough value last, (∀ fuel, enough ≤ fuel →
            (Machine.start b.globals (.ofReader []) .never ⟨0, true, false⟩).run fuel
              (.app (.global puts (.synthetic "puts")) (.app (.global shown (.synthetic "show")) (.int (-42)))) =
                (.value value, last)) ∧
          last.streams.output.stored.toList.map (fun byte => Char.ofNat byte.toNat) = ['-', '4', '2'] ∧
          last.streams.errors.stored = #[] := by
  exact ⟨by decide, by decide,
    puts_show_writes (-42) [] ⟨0, true, false⟩ (.synthetic "puts") (.synthetic "show") (by decide) (by decide)⟩

end MixfixLambda
