import MixfixLambda.Proofs.Parse.Holding
import MixfixLambda.Proofs.Token.Lexical

/-!
# Names that can be spelled

No lexeme has a space in it, so that no name of a tree has one either, although the operators of the parser itself
and the names that the binder makes up do.
-/
namespace MixfixLambda

/-- A text without a space. -/
def Unspaced (text : String) : Prop :=
  ' ' ∉ text.toList

instance : DecidablePred Unspaced :=
  fun _ => inferInstanceAs (Decidable (_ ∉ _))

theorem IsWord.unspaced {text : String} (word : IsWord text.toList) : Unspaced text := by
  unfold Unspaced
  generalize text.toList = chars at word
  have plain : Text.isAlphabetic ' ' = false ∧ Cursor.isNameChar ' ' = false ∧ isSymbolChar ' ' = false ∧
      isPunctuation ' ' = false := by
    decide +kernel
  obtain ⟨alphabetic, name, symbol, punctuation⟩ := plain
  intro inside
  cases word with
  | identifier letter _ inner =>
    rcases List.mem_cons.1 inside with rfl | inside
    · rw [alphabetic] at letter
      exact absurd letter (by decide)
    · exact Bool.eq_false_iff.1 name (inner _ inside)
  | symbols all => exact Bool.eq_false_iff.1 symbol (all _ inside)
  | punctuation single =>
    rw [← List.mem_singleton.1 inside] at single
    exact Bool.eq_false_iff.1 punctuation single
  | other high =>
    rw [← List.mem_singleton.1 inside] at high
    exact absurd high (by decide)

theorem lexemes_unspaced {text word : String} {x : Lexeme} (inside : .ok x ∈ lexemes text)
    (named : x.token.symbol = some word) : Unspaced word := by
  have lexical := Lexer.lexemes_lexical inside
  cases here : x.token with
  | name | operator =>
    rw [here] at lexical named
    cases named
    exact IsWord.unspaced lexical
  | _ =>
    rw [here] at named
    cases named

namespace Tree

/-- The texts by which the root of a tree is called, and what it declares. -/
def texts : Tree → List String
  | .name tag => [tag.text]
  | .infixOp operator _ _ | .prefixOp operator _ | .postfixOp operator _ => [operator.text]
  | .mixfix parts _ => parts.map Tag.text
  | .bracket opening closing _ => [opening.text, closing.text]
  | .declaration d => d.symbols.map Tag.text ++ (d.prior.map Tag.text).toList
  | _ => []

/-- No text of the root has a space in it. -/
def Spelled (t : Tree) : Prop :=
  ∀ text ∈ t.texts, Unspaced text

variable {t : Tree}

theorem spelled_none (none : t.texts = []) : t.Spelled := by
  simp [Spelled, none]

theorem spelled_ofCalls : OfCalls Spelled where
  plain {t} plain := by
    cases t with
    | name | infixOp | prefixOp | postfixOp | mixfix | bracket | declaration => cases plain
    | _ => exact spelled_none rfl
  prefixed spelled := spelled
  infixed spelled := spelled

theorem spelled_ofBracket {kind : BracketKind} {opening closing : Tag} {content : Option Tree} {sectioned : Bool}
    (each : ∀ t ∈ content, t.Each Spelled) (named : kind = .user → Unspaced opening.text ∧ Unspaced closing.text)
    (made : ofBracket kind opening closing content sectioned = .ok t) : t.Each Spelled :=
  spelled_ofCalls.each_ofBracket each (fun user inner => by simpa [Spelled, texts] using named user) made

end Tree

namespace Declaration

variable {kind : DeclarationKind} {d : Declaration}

theorem takeSymbols_prior {chains : Bool} {words : List Tree} {symbols : List Tag} {prior : Option Tag}
    (ok : takeSymbols chains words = .ok (symbols, prior)) : ∀ tag ∈ prior, .name tag ∈ words := by
  fun_induction takeSymbols chains words generalizing symbols prior with
  | case1 | case2 =>
    cases ok
    simp
  | case4 tag words plain ih =>
    obtain ⟨⟨others, after⟩, taken, ok⟩ := bind_ok ok
    cases ok
    exact fun tag found => List.mem_cons_of_mem _ (ih taken tag found)
  | _ => cases ok

theorem ofSymbols_prior {span : Span} {precedence : Option Nat} {rest : List Tree} (ok : (do
      let (symbols, prior) ← takeSymbols (!(kind == DeclarationKind.bracket)) rest
      if symbols.isEmpty then throw DeclarationFault.noSymbol
      if (kind == DeclarationKind.bracket) && symbols.length != 2 then throw DeclarationFault.noPair
      return (⟨kind, precedence, symbols, prior, span⟩ : Declaration)) = .ok d) :
    ∀ tag ∈ d.prior, .name tag ∈ rest := by
  obtain ⟨⟨symbols, prior⟩, read, ok⟩ := bind_ok ok
  dsimp only at ok
  split at ok
  · cases ok
  · split at ok
    · cases ok
    · cases ok
      exact takeSymbols_prior read

/-- The symbol that the declared ones follow is a name in the operand, too. -/
theorem ofOperand_prior {keyword : Tag} {operand : Tree} (ok : ofOperand kind keyword operand = .ok d) :
    ∀ tag ∈ d.prior, Tree.Part (.name tag) operand := by
  intro tag found
  refine (Tree.part_spine rfl operand).2 ⟨.name tag, ?_, .root⟩
  unfold ofOperand at ok
  dsimp only at ok
  split at ok
  · next read =>
    cases ok
    unfold ofWords at read
    dsimp only at read
    split at read
    · exact ofSymbols_prior read tag found
    · obtain ⟨⟨n, rest⟩, first, read⟩ := bind_ok read
      obtain ⟨value, place, same⟩ := takePrecedence_ok first
      rw [same]
      exact List.mem_cons_of_mem _ (ofSymbols_prior read tag found)
  · cases ok

theorem ofOperand_spelled {keyword : Tag} {operand : Tree} (ok : ofOperand kind keyword operand = .ok d)
    (each : operand.Each Tree.Spelled) : (Tree.declaration d).Spelled := by
  obtain ⟨-, -, -, symbols⟩ := ofOperand_ok ok
  have named : ∀ {tag : Tag}, Tree.Part (.name tag) operand → Unspaced tag.text := fun part =>
    each _ part _ (List.mem_singleton_self _)
  intro text inside
  rcases List.mem_append.1 inside with inside | inside
  · obtain ⟨tag, member, rfl⟩ := List.mem_map.1 inside
    exact named (symbols tag member)
  · obtain ⟨tag, found, rfl⟩ := Option.map_eq_some_iff.1 (Option.mem_toList.1 inside)
    exact named (ofOperand_prior ok tag found)

end Declaration

namespace Parser

variable {p q r : Parser} {o : Pending} {below : List Pending} {rule : Rule} {tag : Tag} {place : Nat}
  {ends : Nat → Bool} {token : Token} {span : Span} {t : Tree} {text : String} {e : Registration}
  {D : Declaration → Prop}

/-- The symbols of a known rule have no space in them. -/
theorem known_unspaced (known : Known D rule) (declared : ∀ d, D d → (Tree.declaration d).Spelled) :
    Unspaced rule.symbol ∧ ∀ prior ∈ rule.prior, Unspaced prior := by
  have listed : ∀ rule ∈ defaultRules, Unspaced rule.symbol ∧ ∀ prior ∈ rule.prior, Unspaced prior := by
    decide +kernel
  cases known with
  | listed inside => exact listed rule inside
  | @declared d symbol made _ inside =>
    have spelled := declared d made
    obtain ⟨member, named, -⟩ := Declaration.mem_rules inside
    refine ⟨named ▸ spelled _ (List.mem_append_left _ (List.mem_map_of_mem member)), fun prior found => ?_⟩
    rcases Declaration.rules_cases inside with ⟨-, -, -, -, -, same⟩ | ⟨_, _, rfl | rfl⟩
    · rw [same] at found
      exact spelled _ (List.mem_append_right _ (Option.mem_toList.2 found))
    · cases found
    · cases found

/-- An operator that lacks its left operand is no juxtaposition. -/
def Written (o : Pending) (_ : List Pending) : Prop :=
  o.missingLeft = true → o.rule ≠ Rule.space

theorem written_unmarked : Unmarked Written where
  under written := written
  here _ written := written

/-- The names of the trees have no space in them, and the rules are known. -/
structure Speaks (p : Parser) : Prop extends Holding Written Tree.Spelled p where
  knows : Knows p

/-- An operator that waits has no space in it, unless it is a juxtaposition, and continues none that has one. -/
theorem Speaks.operator (speaks : Speaks p) (inside : o ∈ p.pending) : o.tag.text = o.rule.symbol ∧
    (o.rule = Rule.space ∨ Unspaced o.tag.text) ∧ ∀ prior ∈ o.rule.prior, Unspaced prior := by
  obtain ⟨_, named, known⟩ := speaks.knows.pending.mem inside
  have own : ∀ rule ∈ ownRules, (rule = Rule.space ∨ Unspaced rule.symbol) ∧ ∀ prior ∈ rule.prior, Unspaced prior := by
    decide +kernel
  refine ⟨named, ?_⟩
  rw [named]
  rcases known with known | inside
  · exact (known_unspaced known fun d declared => speaks.trees _ declared).imp_left .inr
  · exact own _ inside

theorem Collects.unspaced {links : List Pending} {lefts : List Tree} (collects : Collects links lefts)
    (operators : ∀ o ∈ links, o.tag.text = o.rule.symbol ∧ ∀ prior ∈ o.rule.prior, Unspaced prior)
    (first : ∀ o ∈ links.head?, Unspaced o.tag.text) : ∀ o ∈ links, Unspaced o.tag.text := by
  induction collects with
  | first | infixed => simpa using first
  | @next o previous left lefts links prior continues operand same collects ih =>
    rw [List.forall_mem_cons] at operators
    refine List.forall_mem_cons.2 ⟨first o rfl, ih operators.2 ?_⟩
    rintro _ ⟨⟩
    rw [(operators.2 previous (List.mem_cons_self ..)).1, same]
    exact operators.1.2 prior continues

theorem Speaks.unspaced (speaks : Speaks p) (inside : o ∈ p.pending) (other : o.rule ≠ Rule.space) :
    Unspaced o.tag.text :=
  (speaks.operator inside).2.1.resolve_left other

/-- All but a juxtaposition calls its trees by a text without a space. -/
theorem Speaks.calls (speaks : Speaks p) : Calls Tree.Spelled p where
  chain {links rest lefts operands} split collects lasts := by
    have inside : ∀ o ∈ links, o ∈ p.pending := fun o member => split ▸ List.mem_append_left _ member
    have operators : ∀ o ∈ links, o.tag.text = o.rule.symbol ∧ ∀ prior ∈ o.rule.prior, Unspaced prior := fun o member =>
      have operator := speaks.operator (inside o member)
      ⟨operator.1, operator.2.2⟩
    have named := collects.unspaced operators fun o first =>
      speaks.unspaced (inside o (List.mem_of_mem_head? first)) fun space => by
        have continues := (lasts o first).1
        rw [space] at continues
        cases continues
    intro text found
    simp only [Tree.texts, List.map_map, List.mem_map, List.mem_reverse] at found
    obtain ⟨o, member, rfl⟩ := found
    exact named o member
  declares each read := Declaration.ofOperand_spelled read each
  leads inside leads := by
    have named := speaks.unspaced inside fun space => by
      rw [space] at leads
      cases leads
    simpa [Tree.Spelled, Tree.texts] using named
  infixed inside _ called := by
    have named := speaks.unspaced inside fun space => by
      rw [space] at called
      cases called
    simpa [Tree.Spelled, Tree.texts] using named
  value {o below} here missing := by
    have written := speaks.pending
    rw [here] at written
    have named := speaks.unspaced (here ▸ List.mem_cons_self ..) (written.head missing)
    simpa [Tree.Spelled, Tree.texts] using named

theorem Speaks.edit (speaks : Speaks p) (edit : Edit p q) : Speaks q where
  toHolding := speaks.toHolding.edit written_unmarked Tree.spelled_ofCalls speaks.calls speaks.knows.stack edit
  knows := speaks.knows.edit edit

theorem Speaks.edits (speaks : Speaks p) (edits : Relation.ReflTransGen Edit p q) : Speaks q :=
  edits_keep (fun edit speaks => Speaks.edit speaks edit) edits speaks

theorem Speaks.push (speaks : Speaks p) (knows : Knows (p.push rule tag)) : Speaks (p.push rule tag) :=
  ⟨speaks.toHolding.adds rfl rfl rfl (by simp [Written, Pending.leading]), knows⟩

theorem Speaks.room (speaks : Speaks p) (room : Room p place r) : Speaks r := by
  have knows := speaks.knows.room room
  cases room with
  | empty => exact speaks
  | juxtaposed _ ready => exact (speaks.edits ready.edits).push knows

/-- A bracket that is closed is called by its two symbols. -/
theorem Speaks.bracket {opener : Pending} {closing : Tag} (speaks : Speaks p) (here : p.pending = opener :: below)
    (opens : opener.rule.isOpener = true) (named : opener.rule.bracketKind = some .user → Unspaced closing.text)
    (tree : Tree.ofBracket (opener.rule.bracketKind.getD .paren) opener.tag closing p.operand
      opener.sectioned = .ok t) :
    Speaks
      { p with
        registry := p.registry.popScope, layout := p.layout.tail, operand := some t, pending := below } := by
  have knows := speaks.knows.closes (C := fun _ => True) (.intro .refl here opens trivial tree)
  have opening : Unspaced opener.tag.text := by
    refine speaks.unspaced (here ▸ List.mem_cons_self ..) fun space => ?_
    rw [space] at opens
    cases opens
  have user : ∀ kind : Option BracketKind, kind.getD .paren = .user → kind = some .user := by
    rintro (_ | kind) same
    · cases same
    · exact congrArg some same
  have each := Tree.spelled_ofBracket speaks.operand (fun kind => ⟨opening, named (user _ kind)⟩) tree
  exact ⟨speaks.toHolding.close here rfl rfl each, knows⟩

theorem Speaks.dedents (speaks : Speaks p) (dedents : Dedents ends p q) : Speaks q := by
  induction dedents with
  | stop => exact speaks
  | step _ _ closes _ ih =>
    obtain ⟨edits, here, opens, block, tree⟩ := closes
    refine ih ((speaks.edits edits).bracket here opens (fun user => ?_) tree)
    cases block.symm.trans user

/-- A closing symbol closes the bracket by its own name. -/
theorem closing_ok (acts : Acts p token text e) (closes : e.rule.fixity = .closing)
    (ok : p.shift token span = .ok q) :
    ∃ r opener below t, Relation.ReflTransGen Edit p r ∧ r.pending = opener :: below ∧ opener.rule.isOpener = true ∧
      Tree.ofBracket (opener.rule.bracketKind.getD .paren) opener.tag (p.tag text span) r.operand
        opener.sectioned = .ok t ∧
      q = { r with registry := r.registry.popScope, layout := r.layout.tail, operand := some t, pending := below } := by
  have symbol : p.shiftSymbol text span = .ok q := by
    cases token <;> cases acts.word <;> exact ok
  have here : p.registry.lookup text = e.rule := by rw [Registry.lookup, acts.found]
  rw [shiftSymbol, here, acts.operator, acts.declared, shiftOperator, closes] at symbol
  obtain ⟨completed, completes, symbol⟩ := bind_ok symbol
  obtain ⟨reduced, reduces, symbol⟩ := bind_ok symbol
  obtain ⟨⟨content, opener, free⟩, popped, symbol⟩ := bind_ok symbol
  obtain ⟨below, here, opens, rfl, rfl⟩ := popBracket_ok popped
  dsimp only at symbol
  split at symbol
  · obtain ⟨t, made, rfl⟩ := putBracket_ok symbol
    have edits := (completeSection_edits completes).trans (reduceToOpener_ok reduces).1
    exact ⟨reduced, opener, below, t, (dropSeparators_edits p).trans edits, here, opens, made, rfl⟩
  · split at symbol <;> cases symbol

theorem Speaks.shift (speaks : Speaks p) (named : ∀ text ∈ token.symbol, Unspaced text)
    (ok : p.shift token span = .ok q) : Speaks q := by
  have shifts := shift_ok ok
  have knows := speaks.knows.shifts shifts
  cases shifts with
  | eof | inside | continues => exact speaks
  | first => exact ⟨⟨speaks.pending, speaks.trees⟩, knows⟩
  | literal literal room =>
    refine ⟨(speaks.room room).toHolding.put rfl rfl (Tree.each_alone (Tree.spelled_none ?_) ?_), knows⟩
    · cases token <;> cases literal <;> rfl
    · cases token <;> cases literal <;> rfl
  | name word _ room =>
    refine ⟨(speaks.room room).toHolding.put rfl rfl (Tree.each_alone ?_ rfl), knows⟩
    simpa [Tree.Spelled, Tree.texts, Parser.tag] using named _ word
  | opening _ _ room =>
    exact ⟨(speaks.room room).toHolding.adds rfl rfl rfl (by simp [Written, Pending.leading]), knows⟩
  | leading _ _ room => exact (speaks.room room).push knows
  | closing acts closes =>
    obtain ⟨r, opener, below, t, edits, here, opens, tree, rfl⟩ := closing_ok acts closes ok
    exact (speaks.edits edits).bracket here opens (fun _ => named _ acts.word) tree
  | headless _ empty sections =>
    have other : ∀ {rule : Rule}, rule.isSectionable = true → rule ≠ Rule.space := by
      rintro _ sections rfl
      cases sections
    exact ⟨speaks.toHolding.adds rfl empty.symm empty fun _ => other sections, knows⟩
  | infixed _ _ _ ready => exact (speaks.edits ready.edits).push knows
  | postfixed acts _ _ ready operand =>
    have speaks := speaks.edits ready.edits
    refine ⟨speaks.toHolding.put rfl rfl (Tree.each_iff.2 ⟨?_, ?_⟩), knows⟩
    · simpa [Tree.Spelled, Tree.texts, Parser.tag] using named _ acts.word
    · exact fun child inside => List.mem_singleton.1 inside ▸ speaks.operand _ operand
  | indents => exact ⟨speaks.toHolding.adds rfl rfl rfl (by simp [Written, Pending.leading]), knows⟩
  | aligns _ dedents => exact speaks.dedents dedents
  | separates _ dedents _ _ ready => exact ((speaks.dedents dedents).edits ready.edits).push knows

theorem speaks_start (origin : Origin) : Speaks (.start .default origin) where
  toHolding := .start rfl rfl rfl (by simp [Written, Pending.leading])
  knows := knows_start origin

theorem Speaks.taking {xs : List Lexeme} (speaks : Speaks p)
    (named : ∀ x ∈ xs, ∀ text ∈ x.token.symbol, Unspaced text) (ok : p.taking xs = .ok q) : Speaks q := by
  induction xs generalizing p with
  | nil =>
    cases ok
    exact speaks
  | cons x xs ih =>
    obtain ⟨r, shifted, ok⟩ := bind_ok ok
    rw [List.forall_mem_cons] at named
    exact ih (speaks.shift named.1 shifted) named.2 ok

/-- No name in the tree of a source has a space in it. -/
theorem spelled_of_parse {origin : Origin} (parsed : parseUnder .default origin text = .ok (t, q)) :
    t.Each Tree.Spelled := by
  obtain ⟨xs, p, front, taken, finishes⟩ := run_taking parsed
  have named : ∀ x ∈ xs, ∀ word ∈ x.token.symbol, Unspaced word := fun x inside word same =>
    lexemes_unspaced (front.subset (List.mem_map_of_mem inside)) same
  have speaks := (speaks_start origin).taking named taken
  obtain ⟨dedents, edits, -, -, -, tree⟩ := finishes
  have speaks := (speaks.dedents dedents).edits edits
  exact Tree.spelled_ofBracket speaks.operand BracketKind.noConfusion tree

end Parser

end MixfixLambda
