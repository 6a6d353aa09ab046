import MixfixLambda.Proofs.Bind.Place
import MixfixLambda.Proofs.Parse.Citation
import MixfixLambda.Proofs.Token.Extent
import MixfixLambda.Proofs.Tree.Nesting

/-!
# Places of a source

A bound module points to words of its source, and to what the parts of its chains and declared brackets cover.
Each of these places is inside the source and not empty. The prelude is another source, so that none of its
places is among them.
-/
namespace MixfixLambda

variable {places : Span → Prop}

/-- The place of a word of the source, or the joined place of the parts of a chain or of a declared bracket in
its tree. -/
inductive Located (text : String) (place : Span) : Prop
  | word {x : Lexeme} (read : .ok x ∈ lexemes text) (named : x.token.symbol.isSome = true) (here : x.span = place)
  | chain {t : Tree} {parts : List Tag} {operands : List Tree} (parsed : parse text .module = .ok t)
      (part : Tree.Part (.mixfix parts operands) t)
      (cited : ∀ tag ∈ parts, tag.WordOf text .module ∨ tag.BreakOf text .module)
      (joined : Span.mergeAll (parts.map Tag.span) = place)
  | bracket {t : Tree} {opening closing : Tag} {content : Tree} (parsed : parse text .module = .ok t)
      (part : Tree.Part (.bracket opening closing content) t)
      (cited : opening.WordOf text .module ∧ closing.WordOf text .module)
      (joined : opening.span.merge closing.span = place)

theorem parse_cites {text : String} {origin : Origin} {t : Tree} (parsed : parse text origin = .ok t) :
    t.Each (Tree.Cites text origin) := by
  unfold parse at parsed
  split at parsed
  · next accepted =>
    cases parsed
    exact Parser.cites_of_parse accepted
  · cases parsed

theorem Tag.WordOf.extent {text : String} {origin : Origin} {tag : Tag} (word : tag.WordOf text origin) :
    tag.span.start < tag.span.stop ∧ tag.span.stop ≤ text.utf8ByteSize := by
  obtain ⟨-, x, inside, symbol, here⟩ := word
  have more : x.token ≠ .eof := fun last => by
    rw [last] at symbol
    cases symbol
  obtain ⟨-, stop, covers⟩ := lexemes_extent inside more
  rw [← here]
  exact ⟨covers (by rw [symbol]; rfl), stop⟩

theorem Tag.BreakOf.extent {text : String} {origin : Origin} {tag : Tag} (lineBreak : tag.BreakOf text origin) :
    tag.span.stop ≤ text.utf8ByteSize := by
  obtain ⟨-, width, inside⟩ := lineBreak
  exact (lexemes_extent inside Token.noConfusion).2.1

/-- Such a place covers at least one byte of the source. -/
theorem Located.extent {text : String} {place : Span} (located : Located text place) :
    place.start < place.stop ∧ place.stop ≤ text.utf8ByteSize := by
  cases located with
  | @word x read named here =>
    obtain ⟨symbol, found⟩ := Option.isSome_iff_exists.1 named
    have tag : (⟨symbol, place, .module⟩ : Tag).WordOf text .module := ⟨rfl, x, read, found, here⟩
    exact tag.extent
  | @chain t parts operands parsed part cited joined =>
    obtain ⟨-, tag, member, word⟩ := parse_cites parsed _ part
    have covers := Span.mergeAll_contains (List.mem_map_of_mem (f := Tag.span) member)
    have bounds := word.extent
    rw [joined] at covers
    refine ⟨by have := covers.1; have := covers.2; omega, ?_⟩
    rw [← joined]
    refine Span.mergeAll_stop_le fun s inside => ?_
    obtain ⟨tag, member, rfl⟩ := List.mem_map.1 inside
    exact (cited tag member).elim (fun word => word.extent.2) fun lineBreak => lineBreak.extent
  | @bracket t opening closing content parsed part cited joined =>
    have first := cited.1.extent
    have second := cited.2.extent
    rw [← joined]
    simp only [Span.merge]
    omega

namespace Tree

variable {text : String} {t : Tree}

/-- The trees of a module are called at places of it. -/
theorem within_located (parsed : parse text .module = .ok t) : t.Each (Within (Located text)) := by
  have word : ∀ {tag : Tag}, tag.WordOf text .module → tag.Within (Located text) := by
    rintro tag ⟨-, x, inside, symbol, here⟩ -
    exact .word inside (by rw [symbol]; rfl) here
  intro x part tag called
  have cites := parse_cites parsed x part
  cases x with
  | name | infixOp | prefixOp | postfixOp =>
    cases called
    exact word cites
  | mixfix parts operands =>
    cases called
    exact fun _ => .chain parsed part cites.1 rfl
  | bracket opening closing content =>
    cases called
    exact fun _ => .bracket parsed part cites rfl
  | _ => cases called

/-- A tree is called by the origin that its source was read with. -/
theorem origin_calledBy {origin : Origin} {x : Tree} (cites : x.Cites text origin) {tag : Tag} (called : tag ∈ x.calledBy) :
    tag.origin = origin := by
  cases x with
  | name | infixOp | prefixOp | postfixOp =>
    cases called
    exact cites.1
  | mixfix parts operands =>
    cases called
    obtain ⟨each, tag, member, -⟩ := cites
    cases parts with
    | nil => cases member
    | cons first rest =>
      exact (each first (List.mem_cons_self ..)).elim (fun word => word.1) fun lineBreak => lineBreak.1
  | bracket opening closing content =>
    cases called
    exact cites.1.1
  | _ => cases called

/-- The trees of another source than the module have no place in the module. -/
theorem within_of_origin {origin : Origin} (parsed : parse text origin = .ok t) (other : origin ≠ .module) :
    t.Each (Within places) := fun x part _ called =>
  Tag.within_of_origin (origin_calledBy (parse_cites parsed x part) called ▸ other)

end Tree

/-- What the prelude binds has no place in the module. -/
theorem Prelude.binder_within {b : Binder} (bound : Prelude.binder = .ok b) : b.Within places :=
  Binder.ofSource_within bound fun t parsed =>
    @Tree.within_of_origin places Prelude.text t .prelude parsed Origin.noConfusion

/-- What a source binds on top of the prelude points to places of the source. -/
theorem bindModule_within {text : String} {m : Module} (bound : (bindModule text).result = .ok m) :
    (∀ g ∈ m.globals, g.Within (Located text)) ∧ m.entry.term.Within (Located text) := by
  obtain ⟨b, prelude, bound⟩ := bindModule_success bound
  obtain ⟨t, expression, middle, b', parsed, items, finished, globals, -⟩ := bindOn_success bound
  obtain ⟨within, entry⟩ :=
    Binder.bindItems_places (Tree.within_located parsed) b expression middle (Prelude.binder_within prelude) items
  obtain ⟨within, entry⟩ := Binder.finish_places _ entry middle m.entry b' within finished
  exact ⟨globals ▸ within, entry⟩

end MixfixLambda
