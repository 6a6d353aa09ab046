import MixfixLambda.Proofs.Parse.Restored
import MixfixLambda.Proofs.Parse.Words

/-!
# Written brackets are balanced

Written brackets, blocks and the file lie on one stack, and a closing bracket looks for its partner by the
symbol alone. Since the pairs of brackets in force stay as they are, what it finds is a bracket of its own pair,
but for a closing bracket that a source calls like the end of a block.
-/
namespace MixfixLambda

/-- What a word does to the written brackets. -/
inductive BracketEvent where
  /-- It opens a bracket. -/
  | opens (entry : Registration) (place : Span)
  /-- It closes the innermost bracket, which has this rule and was opened there. -/
  | closes (entry : Registration) (opener : Rule) (opened place : Span)
  deriving DecidableEq, Repr

/-- It closes a block of lines. -/
def BracketEvent.endsBlock : BracketEvent → Bool
  | .opens .. => false
  | .closes _ opener _ _ => opener.bracketKind == some .block

/-- It does not close the file, and a block only if it is called like the end of one. -/
def BracketEvent.Spares : BracketEvent → Prop
  | .opens .. => True
  | .closes closing opener _ _ => opener.bracketKind ≠ some .file ∧
      (opener.bracketKind = some .block → closing.rule.symbol = "dedent")

/-- Every bracket is closed, each by the partner of the one that was opened last and is still open. -/
inductive Balanced : List BracketEvent → Prop
  | nil : Balanced []
  | pair {opening closing : Registration} {opened closed : Span} {inner rest : List BracketEvent}
      (partners : Partners opening closing) (within : Balanced inner) (behind : Balanced rest) :
      Balanced (.opens opening opened :: (inner ++ .closes closing opening.rule opened closed :: rest))

/-- What closes these brackets, innermost first, and is balanced otherwise. -/
def Closing : List (Registration × Span) → List BracketEvent → Prop
  | [], events => Balanced events
  | (opening, opened) :: outer, events => ∃ inner closing closed rest,
      events = inner ++ .closes closing opening.rule opened closed :: rest ∧ Balanced inner ∧
        Partners opening closing ∧ Closing outer rest

theorem Closing.opens {outer : List (Registration × Span)} {opening : Registration} {opened : Span}
    {events : List BracketEvent} (closes : Closing ((opening, opened) :: outer) events) :
    Closing outer (.opens opening opened :: events) := by
  obtain ⟨inner, closing, closed, rest, rfl, balanced, partners, closes⟩ := closes
  cases outer with
  | nil => exact .pair partners balanced closes
  | cons next outer =>
    obtain ⟨inner', closing', closed', rest', rfl, balanced', partners', closes⟩ := closes
    exact ⟨.opens opening opened :: (inner ++ .closes closing opening.rule opened closed :: inner'), closing', closed',
      rest', by simp, .pair partners balanced balanced', partners', closes⟩

namespace Parser

variable {p q r : Parser} {o : Pending} {below : List Pending} {rule : Rule} {tag : Tag} {place : Nat}
  {C : Pending → Prop} {ends : Nat → Bool} {token : Token} {span : Span} {t : Tree} {text : String} {e : Registration}
  {x : Lexeme} {waiting : List (Registration × Span)}

/-- The rule of the innermost bracket, and where it was opened. -/
def innermost (pending : List Pending) : Option (Rule × Span) :=
  (pending.find? (·.rule.isOpener)).map fun opener => (opener.rule, opener.tag.span)

/-- What the next token does to the written brackets. -/
def bracketEvent (p : Parser) (x : Lexeme) : Option BracketEvent :=
  match x.token.symbol.bind p.registry.find? with
  | none => none
  | some e =>
    match e.rule.fixity with
    | .opening => some (.opens e x.span)
    | .closing => (innermost p.pending).map fun (opener, opened) => .closes e opener opened x.span
    | _ => none

/-- What the tokens do to the written brackets, up to the end of the source or to the first error. -/
def bracketEvents (p : Parser) : List (Except LexicalError Lexeme) → List BracketEvent
  | [] | .error _ :: _ | .ok ⟨.eof, _⟩ :: _ => []
  | .ok ⟨token, span⟩ :: rest =>
    match p.shift token span with
    | .error _ => []
    | .ok q => (p.bracketEvent ⟨token, span⟩).toList ++ bracketEvents q rest

/-- A bracket that was written. -/
structure OpenBracket where
  rule : Rule
  place : Span
  /-- How many brackets it is in. -/
  level : Nat

/-- The written brackets that are open, innermost first. -/
def openBrackets : List Pending → List OpenBracket
  | [] => []
  | o :: below =>
    if o.rule.isOpener && o.rule.bracketKind != some .block && o.rule.bracketKind != some .file then
      ⟨o.rule, o.tag.span, (opened below).length⟩ :: openBrackets below
    else openBrackets below

theorem openBrackets_ofBrackets : OfBrackets openBrackets where
  operator operator := by simp [openBrackets, operator]
  marked pending := by
    induction pending with
    | nil => rfl
    | cons o below ih =>
      unfold markSection
      split
      · rfl
      · rw [openBrackets, openBrackets, ih, opened_markSection]

theorem innermost_opener (opens : o.rule.isOpener = true) (below : List Pending) :
    innermost (o :: below) = some (o.rule, o.tag.span) := by
  simp [innermost, opens]

theorem innermost_ofBrackets : OfBrackets innermost where
  operator operator := by simp [innermost, operator]
  marked pending := by
    induction pending with
    | nil => rfl
    | cons o below ih =>
      unfold markSection
      split
      · next opens => simp [innermost, opens]
      · next operator =>
        have operator := Bool.eq_false_iff.2 operator
        simpa [innermost, operator] using ih

theorem openBrackets_level : ∀ bracket ∈ openBrackets below, bracket.level < (opened below).length := by
  induction below with
  | nil => simp [openBrackets]
  | cons o below ih =>
    have grows : (opened below).length ≤ (opened (o :: below)).length := opened_length_cons
    rw [openBrackets]
    split
    · next written =>
      simp only [Bool.and_eq_true] at written
      rw [List.forall_mem_cons, opened_opener written.1.1]
      exact ⟨Nat.lt_succ_self _, fun bracket inside => Nat.lt_succ_of_lt (ih bracket inside)⟩
    · exact fun bracket inside => Nat.lt_of_lt_of_le (ih bracket inside) grows

/-- A bracket is open that this registration opened, which outlives it. -/
structure Opens (entries : List Registration) (opening : Registration × Span) (bracket : OpenBracket) : Prop where
  inside : opening.1 ∈ entries
  rule : opening.1.rule = bracket.rule
  place : opening.2 = bracket.place
  older : opening.1.scope < bracket.level

theorem Opens.keep {entries entries' : List Registration} {brackets : List OpenBracket}
    (keeps : ∀ e ∈ entries, ∀ bracket ∈ brackets, e.scope < bracket.level → e ∈ entries')
    (opens : List.Forall₂ (Opens entries) waiting brackets) : List.Forall₂ (Opens entries') waiting brackets := by
  induction opens with
  | nil => exact .nil
  | cons first _ ih =>
    refine .cons ⟨?_, first.rule, first.place, first.older⟩ (ih fun e member bracket inside => ?_)
    · exact keeps _ first.inside _ (List.mem_cons_self ..) first.older
    · exact keeps e member bracket (List.mem_cons_of_mem _ inside)

/-- The written brackets that are open. -/
def Awaits (p : Parser) (waiting : List (Registration × Span)) : Prop :=
  List.Forall₂ (Opens p.registry.entries) waiting (openBrackets p.pending)

theorem Awaits.congr (awaits : Awaits p waiting) (same : openBrackets q.pending = openBrackets p.pending)
    (entries : p.registry.entries ⊆ q.registry.entries) : Awaits q waiting := by
  unfold Awaits
  rw [same]
  exact Opens.keep (fun e member _ _ _ => entries member) awaits

theorem Edit.entries (edit : Edit p q) : p.registry.entries ⊆ q.registry.entries := by
  rcases edit.registry with same | ⟨_, _, _, _, _, -, -, -, -, -, -, -, -, entries, -⟩
  · rw [same]
    exact List.Subset.refl _
  · rw [entries]
    exact List.subset_append_right _ _

theorem Awaits.edits (awaits : Awaits p waiting) (g : Guarded p) (edits : Relation.ReflTransGen Edit p q) :
    Awaits q waiting := by
  refine (edits_keep (I := fun p => Guarded p ∧ Awaits p waiting) ?_ edits ⟨g, awaits⟩).2
  rintro p q edit ⟨g, awaits⟩
  exact ⟨g.edit edit, awaits.congr (edit.brackets openBrackets_ofBrackets g.scopes.stack g.scopes.separators)
    edit.entries⟩

theorem Awaits.room (awaits : Awaits p waiting) (g : Guarded p) (room : Room p place r) : Awaits r waiting :=
  awaits.congr (g.scopes.brackets_room openBrackets_ofBrackets room) (room.registry g.knows ▸ List.Subset.refl _)

/-- What a written bracket is closed by is its partner, and a block leaves the written brackets alone. -/
theorem Awaits.closes (awaits : Awaits p waiting) (g : Guarded p) (closes : Closes C p q)
    (inside : ∀ o, C o → o.rule ≠ fileRule) : ∃ opener, C opener ∧
      innermost p.pending = some (opener.rule, opener.tag.span) ∧
      (opener.rule = blockRule ∧ Awaits q waiting ∨
        opener.rule.isOpener = true ∧ opener.rule.bracketKind ≠ some .block ∧ opener.rule.bracketKind ≠ some .file ∧
          ∃ opening outer, waiting = (opening, opener.tag.span) :: outer ∧ opening ∈ p.registry.entries ∧
            opening.rule = opener.rule ∧ Awaits q outer) := by
  obtain @⟨r, opener, below, closing, t, edits, here, opens, partner, tree⟩ := closes
  have g' := g.edits edits
  have scope := g'.scope
  have first : innermost p.pending = some (opener.rule, opener.tag.span) := by
    rw [← g.scopes.brackets innermost_ofBrackets edits, here, innermost_opener opens]
  have entries : p.registry.entries ⊆ r.registry.entries :=
    edits_keep (I := fun q => p.registry.entries ⊆ q.registry.entries)
      (fun edit within => List.Subset.trans within edit.entries) edits (List.Subset.refl _)
  have kept := g.scopes.brackets openBrackets_ofBrackets edits
  rw [here, opened_opener opens, List.length_cons] at scope
  have outer : ∀ {waiting}, List.Forall₂ (Opens p.registry.entries) waiting (openBrackets below) →
      List.Forall₂ (Opens r.registry.popScope.entries) waiting (openBrackets below) := by
    refine Opens.keep fun e member bracket inside older => ?_
    have level := openBrackets_level bracket inside
    exact Registry.mem_popScope (entries member) (by omega)
  refine ⟨opener, partner, first, ?_⟩
  have kinds := g'.scopes.inner opener.rule (by rw [here, opened_opener opens]; exact List.mem_cons_self ..)
  unfold Awaits at awaits
  rw [← kept, here, openBrackets] at awaits
  rcases kinds.resolve_left (inside opener partner) with block | ⟨block, file, -⟩
  · rw [if_neg (by simp [block, blockRule, Rule.opening, Rule.bracketKind])] at awaits
    exact .inl ⟨block, outer awaits⟩
  · rw [if_pos (by simp [opens, block, file])] at awaits
    obtain ⟨⟨opening, place⟩, waiting', bracket, inner, rfl⟩ := List.forall₂_cons_right_iff.1 awaits
    obtain rfl : place = opener.tag.span := bracket.place
    exact .inr ⟨opens, block, file, opening, waiting', rfl, bracket.inside, bracket.rule, outer inner⟩

theorem Awaits.push (awaits : Awaits p waiting) (operator : rule.isOpener = false) : Awaits (p.push rule tag) waiting :=
  awaits.congr (openBrackets_ofBrackets.operator operator) (List.Subset.refl _)

theorem Awaits.behind (awaits : Awaits p waiting) (g : Guarded p) (ready : Ready p rule r)
    (between : rule.fixity = .infixOp) : Awaits (r.push rule tag) waiting :=
  (awaits.edits g ready.edits).push (not_opener (by simp [between]))

theorem Awaits.dedents (awaits : Awaits p waiting) (g : Guarded p) (dedents : Dedents ends p q) :
    Awaits q waiting := by
  induction dedents with
  | stop => exact awaits
  | step _ _ closes _ ih =>
    have inside : ∀ o : Pending, o.rule.bracketKind = some .block → o.rule ≠ fileRule := by
      intro o block file
      rw [file] at block
      cases block
    obtain ⟨opener, block, -, ⟨-, awaits⟩ | ⟨-, other, -⟩⟩ := awaits.closes g closes inside
    · exact ih awaits (g.closes closes inside)
    · exact absurd block other

/-- What a token makes of the written brackets that are open. -/
inductive Accounts (p q : Parser) (x : Lexeme) (waiting : List (Registration × Span)) : Prop
  | nothing (event : p.bracketEvent x = none) (awaits : Awaits q waiting)
  | opens (opening : Registration) (event : p.bracketEvent x = some (.opens opening x.span))
      (awaits : Awaits q ((opening, x.span) :: waiting))
  | closes {opening closing : Registration} {opened : Span} {outer : List (Registration × Span)}
      (split : waiting = (opening, opened) :: outer)
      (event : p.bracketEvent x = some (.closes closing opening.rule opened x.span))
      (written : opening.rule.bracketKind ≠ some .block ∧ opening.rule.bracketKind ≠ some .file)
      (partners : Partners opening closing) (awaits : Awaits q outer)
  | dedents {closing : Registration} {opened : Span}
      (event : p.bracketEvent x = some (.closes closing blockRule opened x.span))
      (called : closing.rule.symbol = "dedent") (awaits : Awaits q waiting)

theorem bracketEvent_other (other : ∀ text e, x.token.symbol = some text → p.registry.find? text = some e →
    ¬e.rule.IsBracket) : p.bracketEvent x = none := by
  unfold bracketEvent
  split
  · rfl
  · next e found =>
    obtain ⟨text, word, found⟩ := Option.bind_eq_some_iff.1 found
    obtain ⟨opens, closes⟩ := not_or.1 (other text e word found)
    split
    · next same => exact absurd same opens
    · next same => exact absurd same closes
    · rfl

theorem bracketEvent_acts (acts : Acts p x.token text e) (other : ¬e.rule.IsBracket) : p.bracketEvent x = none := by
  refine bracketEvent_other fun text' e' word found => ?_
  cases acts.word.symm.trans word
  cases acts.found.symm.trans found
  exact other

theorem Awaits.shifts (awaits : Awaits p waiting) (g : Guarded p) (worded : x.token.symbol ≠ some "")
    (shifts : Shifts p x.span x.token q) : Accounts p q x waiting := by
  obtain ⟨token, span⟩ := x
  cases shifts with
  | eof | inside | continues => exact .nothing rfl awaits
  | literal leaf room =>
    refine .nothing ?_ (awaits.room g room :)
    refine bracketEvent_other fun text e word => ?_
    cases token with
    | name | operator => cases leaf
    | _ => cases word
  | name word plain room =>
    refine .nothing (bracketEvent_other fun text e word' found => ?_) (awaits.room g room :)
    cases word.symm.trans word'
    exact g.plain plain e found
  | @opening _ text e r acts opens room =>
    refine .opens e ?_ ?_
    · rw [bracketEvent, acts.word, Option.bind_some, acts.found]
      simp [opens]
    · have g' := g.room room
      have member := (Registry.mem_of_find? acts.found).1
      have scope := g'.scope
      have older := g.paired.older e member
      rw [← room.registry g.knows] at older member
      obtain ⟨block, file, -⟩ := g'.scopes.written e member opens
      have brackets : openBrackets (r.openBracket e.rule (p.tag text span)).pending =
          ⟨e.rule, span, (opened r.pending).length⟩ :: openBrackets r.pending := by
        change openBrackets (_ :: r.pending) = _
        rw [openBrackets, if_pos]
        · rfl
        · simp [Pending.leading, Rule.isOpener, opens, Rule.bracketKind_eq, block, file]
      unfold Awaits
      rw [brackets]
      exact .cons ⟨member, rfl, rfl, by dsimp only; omega⟩ (awaits.room g room)
  | leading acts leads room =>
    exact .nothing (bracketEvent_acts acts (by simp [Rule.IsBracket, leads]))
      ((awaits.room g room).push (not_opener (by simp [leads])))
  | @closing _ text closing q acts closed closes =>
    have inside : ∀ o : Pending, o.rule.partner = some closing.rule.symbol → o.rule ≠ fileRule := by
      intro o partner file
      rw [file] at partner
      refine worded ?_
      rw [acts.word, ← (Registry.mem_of_find? acts.found).2]
      exact partner.symm
    obtain ⟨opener, partner, first, found⟩ := awaits.closes g closes inside
    have event : p.bracketEvent ⟨token, span⟩ = some (.closes closing opener.rule opener.tag.span span) := by
      rw [bracketEvent, acts.word, Option.bind_some, acts.found]
      simp [closed, first]
    rcases found with ⟨block, awaits⟩ | ⟨opens, block, file, opening, outer, rfl, member, same, awaits⟩
    · rw [block] at event partner
      exact .dedents event (Option.some.inj partner).symm awaits
    · rw [← same] at event block file partner
      refine .closes rfl event ⟨block, file⟩ ?_ awaits
      refine g.paired.partners member (Registry.mem_of_find? acts.found).1 ?_ closed partner
      rw [same]
      simpa [Rule.isOpener] using opens
  | headless acts empty sections =>
    obtain ⟨between, -⟩ := sectionable_facts sections
    refine .nothing (bracketEvent_acts acts (by simp [Rule.IsBracket, between])) (awaits.congr ?_ (List.Subset.refl _))
    exact openBrackets_ofBrackets.operator (not_separator sections).2
  | infixed acts between behind ready =>
    exact .nothing (bracketEvent_acts acts (by simp [Rule.IsBracket, between])) (awaits.behind g ready between)
  | postfixed acts follows behind ready =>
    exact .nothing (bracketEvent_acts acts (by simp [Rule.IsBracket, follows])) (awaits.edits g ready.edits :)
  | first => exact .nothing rfl awaits
  | indents => exact .nothing rfl awaits
  | aligns _ dedents => exact .nothing rfl (awaits.dedents g dedents)
  | separates _ dedents _ behind ready =>
    exact .nothing rfl ((awaits.dedents g dedents).behind (g.dedents dedents) ready rfl)

theorem Awaits.finishes {result : Tree × Parser} (awaits : Awaits p waiting) (g : Guarded p)
    (finishes : Finishes p result) : waiting = [] := by
  obtain @⟨r, s, opener, below, closing, t, dedents, edits, here, opens, file, tree⟩ := finishes
  have left := (awaits.dedents g dedents).edits (g.dedents dedents) edits
  obtain ⟨last, rfl⟩ := ((g.dedents dedents).edits edits).scopes.file here opens file
  unfold Awaits at left
  rw [here, openBrackets, last, if_neg (by decide)] at left
  exact List.forall₂_nil_right_iff.1 left

theorem bracketEvents_cons {rest : List (Except LexicalError Lexeme)} (more : x.token ≠ .eof)
    (shifted : p.shift x.token x.span = .ok q) :
    p.bracketEvents (.ok x :: rest) = (p.bracketEvent x).toList ++ q.bracketEvents rest := by
  rw [bracketEvents, shifted]
  exact more

/-- What is closed after a token is closed in front of it, together with what the token opens. -/
theorem Accounts.closing {events : List BracketEvent} (accounts : Accounts p q x waiting)
    (behind : ∀ {waiting}, Awaits q waiting → Closing waiting (events.filter (!·.endsBlock)) ∧
      ∀ event ∈ events, event.Spares) :
    Closing waiting (((p.bracketEvent x).toList ++ events).filter (!·.endsBlock)) ∧
      ∀ event ∈ (p.bracketEvent x).toList ++ events, event.Spares := by
  cases accounts with
  | nothing event awaits =>
    rw [event]
    exact behind awaits
  | opens opening event awaits =>
    obtain ⟨closes, spares⟩ := behind awaits
    rw [event]
    exact ⟨closes.opens, List.forall_mem_cons.2 ⟨trivial, spares⟩⟩
  | closes split event written partners awaits =>
    obtain ⟨closes, spares⟩ := behind awaits
    rw [split, event, Option.toList_some, List.singleton_append,
      List.filter_cons_of_pos (by simp [BracketEvent.endsBlock, written.1])]
    refine ⟨⟨[], _, x.span, _, rfl, .nil, partners, closes⟩, List.forall_mem_cons.2 ⟨?_, spares⟩⟩
    exact ⟨written.2, fun block => absurd block written.1⟩
  | dedents event called awaits =>
    obtain ⟨closes, spares⟩ := behind awaits
    rw [event, Option.toList_some, List.singleton_append, List.filter_cons_of_neg (Bool.false_ne_true :)]
    exact ⟨closes, List.forall_mem_cons.2 ⟨⟨by decide, fun _ => called⟩, spares⟩⟩

/-- In an accepted rest of a source the open brackets are closed, and all others are balanced. -/
theorem run_closing {stream : List (Except LexicalError Lexeme)} {result : Tree × Parser} (g : Guarded p)
    (awaits : Awaits p waiting) (worded : ∀ x, .ok x ∈ stream → x.token.symbol ≠ some "")
    (ok : p.run stream = .ok result) :
    Closing waiting ((p.bracketEvents stream).filter (!·.endsBlock)) ∧
      ∀ event ∈ p.bracketEvents stream, event.Spares := by
  induction stream generalizing p waiting with
  | nil =>
    obtain rfl := awaits.finishes g (finish_ok ok)
    rw [bracketEvents]
    exact ⟨Balanced.nil, List.forall_mem_nil _⟩
  | cons item rest ih =>
    cases item with
    | error e => cases ok
    | ok x =>
      by_cases stop : x.token = .eof
      · obtain ⟨token, span⟩ := x
        cases stop
        obtain rfl := awaits.finishes g (finish_ok ok)
        rw [bracketEvents]
        exact ⟨Balanced.nil, List.forall_mem_nil _⟩
      · obtain ⟨q, shifted, ok⟩ := run_cons stop ok
        have word := worded x (List.mem_cons_self ..)
        have shifts := shift_ok shifted
        rw [bracketEvents_cons stop shifted]
        refine (awaits.shifts g word shifts).closing fun awaits => ih (g.shifts word shifts) awaits ?_ ok
        exact fun x inside => worded x (List.mem_cons_of_mem _ inside)

theorem parse_ok {origin : Origin} (ok : parse text origin = .ok t) :
    ∃ q, parseUnder .default origin text = .ok (t, q) := by
  unfold parse at ok
  split at ok
  · next parsed =>
    cases ok
    exact ⟨_, parsed⟩
  · cases ok

/-- The written brackets of an accepted source are balanced, except that a closing bracket that is called like the
end of a block may end one. None ends the file. -/
theorem parse_balanced {origin : Origin} (ok : parse text origin = .ok t) :
    Balanced (((Parser.start .default origin).bracketEvents (lexemes text)).filter (!·.endsBlock)) ∧
      ∀ event ∈ (Parser.start .default origin).bracketEvents (lexemes text), event.Spares := by
  obtain ⟨q, ok⟩ := parse_ok ok
  exact run_closing (guarded_start origin) .nil (fun _ inside => lexemes_worded inside) ok

theorem parse_balanced_angles : ∃ t, parse "bracket << >>\n(f << x, [y] >>)" .module = .ok t ∧
    Balanced (((Parser.start .default .module).bracketEvents (lexemes "bracket << >>\n(f << x, [y] >>)")).filter
      (!·.endsBlock)) ∧
      ∀ event ∈ (Parser.start .default .module).bracketEvents (lexemes "bracket << >>\n(f << x, [y] >>)"),
        event.Spares := by
  have accepted : (parse "bracket << >>\n(f << x, [y] >>)" .module).toOption.isSome = true := by
    decide +kernel
  obtain ⟨t, parsed⟩ := exists_ok accepted
  exact ⟨t, parsed, parse_balanced parsed⟩

/-- A closing bracket that is called like the end of a block ends one. -/
theorem parse_balanced_dedent : ¬∀ text t, parse text .module = .ok t →
    Balanced ((Parser.start .default .module).bracketEvents (lexemes text)) ∧
      ∀ event ∈ (Parser.start .default .module).bracketEvents (lexemes text), event.endsBlock = false := by
  intro balanced
  have accepted : (parse "bracket x dedent\nf =\n  1 dedent" .module).toOption.isSome = true := by
    decide +kernel
  have ends : ((Parser.start .default .module).bracketEvents (lexemes "bracket x dedent\nf =\n  1 dedent")).any
      BracketEvent.endsBlock = true := by
    decide +kernel
  obtain ⟨t, parsed⟩ := exists_ok accepted
  obtain ⟨event, inside, block⟩ := List.any_eq_true.1 ends
  have other := (balanced _ t parsed).2 event inside
  rw [block] at other
  cases other

end Parser

end MixfixLambda
