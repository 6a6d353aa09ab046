import MixfixLambda.Proofs.Parse.Literals
import MixfixLambda.Proofs.Parse.Unspaced
import MixfixLambda.Proofs.Tree.Nesting

/-!
# Trees stand around their parts

What has been read of a source is laid out on the stack: an operator that waits starts behind its left operand, and
the operand read last starts behind all operators. So each tree is made of parts that follow each other, and every
node of the tree that is left at the end stands around its own.
-/
namespace MixfixLambda

namespace Declaration

variable {kind : DeclarationKind} {d : Declaration} {keyword : Tag} {operand : Tree} {lo hi : Nat}

theorem ofSymbols_span {span : Span} {precedence : Option Nat} {rest : List Tree} (ok : (do
      let (symbols, prior) ← takeSymbols (!(kind == DeclarationKind.bracket)) rest
      if symbols.isEmpty then throw DeclarationFault.noSymbol
      if (kind == DeclarationKind.bracket) && symbols.length != 2 then throw DeclarationFault.noPair
      return (⟨kind, precedence, symbols, prior, span⟩ : Declaration)) = .ok d) : d.span = span := by
  obtain ⟨⟨symbols, prior⟩, -, ok⟩ := bind_ok ok
  dsimp only at ok
  split at ok
  · cases ok
  · split at ok <;> cases ok
    rfl

theorem ofOperand_span (ok : ofOperand kind keyword operand = .ok d) : d.span = keyword.span.merge operand.span := by
  unfold ofOperand at ok
  dsimp only at ok
  split at ok
  · next read =>
    cases ok
    unfold ofWords at read
    dsimp only at read
    split at read
    · exact ofSymbols_span read
    · obtain ⟨⟨n, rest⟩, -, read⟩ := bind_ok read
      exact ofSymbols_span read
  · cases ok

/-- A declaration stands around its keyword and all its words. -/
theorem placed_ofOperand (ok : ofOperand kind keyword operand = .ok d) (words : operand.Placed lo hi)
    (here : Span.Contains ⟨lo, hi⟩ keyword.span) : (Tree.declaration d).Placed lo hi := by
  have span : (Tree.declaration d).span = keyword.span.merge operand.span := ofOperand_span ok
  have covers : (Tree.declaration d).span.Contains operand.span := span ▸ Span.merge_contains_right ..
  have named : ∀ tag, Tree.Part (.name tag) operand → (Tree.declaration d).span.Contains tag.span := fun tag part =>
    covers.trans (words.nests.contains part)
  have within : Span.Contains ⟨lo, hi⟩ (Tree.declaration d).span :=
    span ▸ Span.contains_merge here ⟨words.start, words.stop⟩
  have forward := (covers.1.trans words.nests.forward).trans covers.2
  refine (Tree.placed_leaf rfl forward fun tag inside => ?_).mono within.1 within.2
  rcases List.mem_append.1 inside with symbol | prior
  · exact named tag ((ofOperand_ok ok).2.2.2 tag symbol)
  · exact named tag (ofOperand_prior ok tag (Option.mem_toList.1 prior))

end Declaration

namespace Parser

variable {p q r : Parser} {o top opener : Pending} {above below rest : List Pending} {rule : Rule} {tag closing : Tag}
  {place lo mid hi n : Nat} {token : Token} {span : Span} {t right : Tree} {xs : List Lexeme}

/-! ### The layout of the stack -/

/-- The operators that wait stand one after the other in front of an offset, with their left operands between
them. -/
inductive Spread : Nat → List Pending → Prop
  | nil {hi : Nat} : Spread hi []
  | cons {o : Pending} {below : List Pending} {lo mid hi : Nat} (left : Tree.Between lo mid o.left)
      (tag : o.tag.Stands mid hi) (rest : Spread lo below) : Spread hi (o :: below)

theorem Spread.mono (spread : Spread lo below) (behind : lo ≤ hi) : Spread hi below := by
  cases spread with
  | nil => exact .nil
  | cons left tag rest => exact .cons left (tag.mono (Nat.le_refl _) behind) rest

theorem Spread.markSection (spread : Spread hi below) : Spread hi (markSection below) := by
  induction spread with
  | nil => exact .nil
  | cons left tag rest ih =>
    unfold Parser.markSection
    split
    · exact .cons left tag rest
    · exact .cons left tag ih

/-- What the parser holds stands in front of an offset. -/
def Laid (n : Nat) (p : Parser) : Prop :=
  ∃ lo, Tree.Between lo n p.operand ∧ Spread lo p.pending

theorem Laid.mono (laid : Laid n p) (behind : n ≤ hi) : Laid hi p :=
  let ⟨lo, holds, spread⟩ := laid
  ⟨lo, holds.mono (Nat.le_refl _) behind, spread⟩

/-- Where no operand has been read, the operators are all there is. -/
theorem Laid.spread (laid : Laid n p) (empty : p.operand = none) : Spread n p.pending := by
  obtain ⟨lo, holds, spread⟩ := laid
  rw [empty] at holds
  exact spread.mono holds

theorem Laid.put (spread : Spread lo q.pending) (placed : t.Placed lo n) (operand : q.operand = some t) : Laid n q :=
  ⟨lo, by rwa [operand], spread⟩

/-- An operator that has no left operand stands behind everything under it. -/
theorem Spread.bare (spread : Spread hi (o :: below)) (none : o.left = none) :
    ∃ lo, o.tag.Stands lo hi ∧ Spread lo below := by
  cases spread with
  | cons left tag rest =>
    rw [none] at left
    exact ⟨_, tag.mono left (Nat.le_refl _), rest⟩

/-- The parts of a chain and the operands between them follow each other. -/
theorem Collects.spread {links : List Pending} {lefts : List Tree} (collects : Collects links lefts)
    (stack : Stackwise Fits (links ++ rest)) (spread : Spread hi (links ++ rest)) :
    ∃ lo ≤ hi, Spread lo rest ∧ (∀ o ∈ links, o.tag.Stands lo hi) ∧ Tree.Row lo hi lefts := by
  induction collects generalizing hi with
  | first _ leads =>
    obtain ⟨lo, stands, spread⟩ := Spread.bare spread (stack.head.none (.inl leads))
    exact ⟨lo, stands.le, spread, by simpa using stands, .nil⟩
  | infixed _ _ operand =>
    obtain _ | ⟨left, tag, spread⟩ := spread
    rw [operand] at left
    have before := Tree.Between.le left
    refine ⟨_, before.trans tag.le, spread, ?_, .one (Tree.Placed.mono left (Nat.le_refl _) tag.le)⟩
    simpa using tag.mono before (Nat.le_refl _)
  | next _ operand _ _ ih =>
    obtain _ | ⟨left, tag, spread⟩ := spread
    rw [operand] at left
    obtain ⟨lo, before, spread, parts, row⟩ := ih stack.tail spread
    have apart := Tree.Between.le left
    have behind := apart.trans tag.le
    refine ⟨lo, before.trans behind, spread, List.forall_mem_cons.2 ⟨tag.mono (before.trans apart) (Nat.le_refl _), ?_⟩,
      row.append (.one (Tree.Placed.mono left (Nat.le_refl _) tag.le)) before behind⟩
    exact fun o inside => (parts o inside).mono (Nat.le_refl _) behind

/-! ### Reductions -/

theorem Reduct.laid (reduct : Reduct p top below right q) (stack : Stackwise Fits (top :: below))
    (spread : Spread lo (top :: below)) (placed : right.Placed lo hi) : Laid hi q := by
  have prefixed (leads : top.rule.fixity = .prefixOp) : top.left = none :=
    stack.head.none (.inl (by rw [leads]; exact Fixity.noConfusion))
  cases reduct with
  | @chain links rest lefts _ split collects =>
    rw [split] at stack spread
    obtain ⟨start, before, spread, parts, row⟩ := collects.spread stack spread
    have filled : links ≠ [] := by rintro rfl; cases collects
    refine Laid.put spread (Tree.placed_mixfix (by simpa using filled) ?_ ?_) rfl
    · intro tag inside
      obtain ⟨o, member, rfl⟩ := List.mem_map.1 inside
      exact (parts o (List.mem_reverse.1 member)).mono (Nat.le_refl _) placed.le
    · exact row.append (.one placed) before placed.le
  | erase _ leads =>
    obtain ⟨start, stands, spread⟩ := spread.bare (prefixed leads)
    exact Laid.put spread (placed.mono stands.le (Nat.le_refl _)) rfl
  | declare _ leads _ read =>
    obtain ⟨start, stands, spread⟩ := spread.bare (prefixed leads)
    have words := placed.mono stands.le (Nat.le_refl _)
    exact Laid.put spread (Declaration.placed_ofOperand read words ⟨stands.start, stands.stop.trans placed.le⟩) rfl
  | leading _ leads =>
    obtain ⟨start, stands, spread⟩ := spread.bare (prefixed leads)
    have operand := placed.mono stands.le (Nat.le_refl _)
    exact Laid.put spread
      (Tree.placed_unary operand ⟨stands.start, stands.stop.trans placed.le⟩ rfl rfl rfl) rfl
  | headless _ _ missing =>
    obtain ⟨start, stands, spread⟩ := spread.bare (stack.head.none (.inr missing))
    have gap := Tree.placed_placeholder top.tag.span.start
    have between : top.tag.Stands (Span.point top.tag.span.start).stop right.span.start :=
      ⟨Nat.le_refl _, stands.forward, stands.stop.trans placed.start⟩
    exact Laid.put spread.markSection
      ((Tree.placed_ofInfix gap.nests placed.nests between).mono stands.start placed.stop) rfl
  | @infixed left _ _ _ operand =>
    obtain _ | ⟨holds, tag, spread⟩ := spread
    rw [operand] at holds
    have first : left.Placed _ _ := holds
    have between := tag.mono first.stop placed.start
    exact Laid.put spread ((Tree.placed_ofInfix first.nests placed.nests between).mono first.start placed.stop) rfl

theorem Laid.edit (laid : Laid n p) (stack : Stacked p.pending) (edit : Edit p q) : Laid n q := by
  obtain ⟨lo, holds, spread⟩ := laid
  cases edit with
  | reduce here operand _ reduct =>
    rw [here] at stack spread
    rw [operand] at holds
    exact reduct.laid stack spread holds
  | separator here empty =>
    rw [here] at spread
    rw [empty] at holds
    obtain _ | ⟨left, tag, spread⟩ := spread
    exact ⟨_, left.mono (Nat.le_refl _) (tag.le.trans holds), spread⟩
  | operator here empty _ missing =>
    rw [here] at stack spread
    rw [empty] at holds
    obtain ⟨start, stands, spread⟩ := spread.bare (stack.head.none (.inr missing))
    exact Laid.put spread (Tree.placed_name (stands.mono (Nat.le_refl _) holds)) rfl
  | @gap top below here empty =>
    rw [here] at spread
    rw [empty] at holds
    obtain _ | ⟨left, tag, spread⟩ := spread
    have gap := (Tree.placed_placeholder top.tag.span.stop).mono (Nat.le_refl _) (tag.stop.trans holds)
    exact Laid.put (.cons left ⟨tag.start, tag.forward, Nat.le_refl _⟩ spread.markSection) gap rfl

theorem Laid.edits (laid : Laid n p) (stack : Stacked p.pending) (edits : Relation.ReflTransGen Edit p q) :
    Laid n q := by
  refine (edits_keep (I := fun p => Stacked p.pending ∧ Laid n p) ?_ edits ⟨stack, laid⟩).2
  rintro p q edit ⟨stack, laid⟩
  exact ⟨edit.stackwise fits_unmarked stack, laid.edit stack edit⟩

/-! ### Tokens -/

theorem Laid.push (laid : Laid n p) (stands : tag.Stands n hi) : Laid hi (p.push rule tag) := by
  obtain ⟨lo, holds, spread⟩ := laid
  exact ⟨hi, Nat.le_refl _, .cons holds stands spread⟩

theorem Laid.room (laid : Laid n p) (stack : Stacked p.pending) (room : Room p place r) (behind : n ≤ place) :
    Laid place r := by
  cases room with
  | empty => exact laid.mono behind
  | juxtaposed _ ready => exact (laid.edits stack ready.edits).push ⟨behind, Nat.le_refl _, Nat.le_refl _⟩

/-- A bracket whose content has been reduced gives way to its tree. -/
theorem Laid.bracket {kind : BracketKind} {sectioned : Bool} (laid : Laid n r) (stack : Stacked r.pending)
    (here : r.pending = opener :: below) (opens : opener.rule.isOpener = true) (stands : closing.Stands n hi)
    (tree : Tree.ofBracket kind opener.tag closing r.operand sectioned = .ok t) :
    ∃ lo, t.Placed lo hi ∧ Spread lo below := by
  obtain ⟨mid, holds, spread⟩ := laid
  rw [here] at stack spread
  have leads := stack.head.none (.inl fun between => by simp [Rule.isOpener, between] at opens)
  obtain ⟨lo, opened, spread⟩ := spread.bare leads
  exact ⟨lo, Tree.placed_ofBracket opened holds stands tree, spread⟩

theorem Laid.closeBlock (laid : Laid place p) (stack : Stacked p.pending)
    (ok : p.closeBlock (.point place) = .ok q) : Laid place q := by
  obtain ⟨reduced, reduces, ok⟩ := bind_ok ok
  obtain ⟨⟨content, opener, free⟩, popped, ok⟩ := bind_ok ok
  obtain ⟨below, here, opens, rfl, rfl⟩ := popBracket_ok popped
  have edits := (dropSeparators_edits p).trans (reduceToOpener_ok reduces).1
  dsimp only at ok
  split at ok
  · obtain ⟨t, tree, rfl⟩ := putBracket_ok ok
    obtain ⟨lo, placed, spread⟩ := (laid.edits stack edits).bracket (stack.edits edits) here opens
      ⟨Nat.le_refl _, Nat.le_refl _, Nat.le_refl _⟩ tree
    exact Laid.put spread placed rfl
  · cases ok

/-- All blocks that a line break or the end ends are closed at this one place. -/
theorem Laid.closeBlocks {ends : Nat → Bool} {layout : List Layout} (laid : Laid place p) (stack : Stacked p.pending)
    (ok : closeBlocks ends (.point place) p layout = .ok q) : Laid place q ∧ Stacked q.pending := by
  fun_induction Parser.closeBlocks ends (.point place) p layout with
  | case1 p width outer rest ended ih =>
    obtain ⟨closed, closing, ok⟩ := bind_ok ok
    exact ih closed (laid.closeBlock stack closing) (stack.closes (closeBlock_ok closing)) ok
  | case2 | case3 =>
    cases ok
    exact ⟨laid, stack⟩

/-- A line break changes nothing that has been read, or opens a block, or closes some and may separate lines. -/
theorem shiftNewline_cases {width : Nat} (ok : p.shiftNewline width span = .ok q) :
    q.operand = p.operand ∧ q.pending = p.pending ∨ p.operand = none ∧ q = p.openBlock width span ∨
      ∃ r, Parser.closeBlocks (width < ·) span p p.layout = .ok r ∧
        (q = r ∨ ∃ s, Ready r Rule.newline s ∧ q = s.push Rule.newline (r.tag "newline" span)) := by
  unfold shiftNewline at ok
  split at ok
  · cases ok
    exact .inl ⟨rfl, rfl⟩
  · change (if !p.started then _
      else if width > p.indentation then
        if p.operand.isSome then _ else if (width - p.indentation) % 2 = 1 then _ else _
      else _) = Except.ok q at ok
    split at ok
    · cases ok
      exact .inl ⟨rfl, rfl⟩
    split at ok
    · split at ok
      · cases ok
        exact .inl ⟨rfl, rfl⟩
      · next empty =>
        split at ok
        · cases ok
        · cases ok
          exact .inr (.inl ⟨by simpa using empty, rfl⟩)
    · obtain ⟨r, closed, ok⟩ := bind_ok ok
      refine .inr (.inr ⟨r, closed, ?_⟩)
      split at ok
      · cases ok
      split at ok
      · next behind =>
        obtain ⟨s, reduced, ok⟩ := bind_ok ok
        cases ok
        obtain ⟨reduces, stops⟩ := reduceLeft_ok behind reduced
        exact .inr ⟨s, .binds rfl reduces stops, rfl⟩
      · cases ok
        exact .inl rfl

theorem Laid.shiftNewline {width : Nat} (laid : Laid place p) (stack : Stacked p.pending)
    (ok : p.shiftNewline width (.point place) = .ok q) : Laid place q := by
  have here (p : Parser) (text : String) : (p.tag text (.point place)).Stands place place :=
    ⟨Nat.le_refl _, Nat.le_refl _, Nat.le_refl _⟩
  rcases shiftNewline_cases ok with ⟨operand, pending⟩ | ⟨empty, rfl⟩ | ⟨r, closed, same⟩
  · rwa [Laid, operand, pending]
  · exact ⟨place, Nat.le_refl _, .cons (by rw [empty]; exact Nat.le_refl _) (here p _) (laid.spread empty)⟩
  · obtain ⟨laid, stack⟩ := laid.closeBlocks stack closed
    rcases same with rfl | ⟨s, ready, rfl⟩
    · exact laid
    · exact (laid.edits stack ready.edits).push (here r _)

/-- Behind a token, everything stands in front of the end of it. -/
theorem Laid.shift (laid : Laid n p) (stack : Stacked p.pending) (behind : n ≤ span.start)
    (forward : span.start ≤ span.stop) (inline : token.Inline ∨ span.start = span.stop)
    (ok : p.shift token span = .ok q) : Laid span.stop q := by
  have stands {n : Nat} (behind : n ≤ span.start) (text : String) : (p.tag text span).Stands n span.stop :=
    ⟨behind, forward, Nat.le_refl _⟩
  have shifts := shift_ok ok
  cases shifts with
  | eof => exact laid.mono (behind.trans forward)
  | inside | first | continues | indents | aligns | separates =>
    have point : span.start = span.stop := inline.resolve_left fun inline => inline.2 _ rfl
    obtain ⟨start, stop⟩ := span
    cases point
    exact (laid.mono behind).shiftNewline stack ok
  | @literal _ t r literal room =>
    have leaf : t.children = [] ∧ t.tags = [] ∧ t.span = span := by
      cases token <;> cases literal <;> exact ⟨rfl, rfl, rfl⟩
    obtain ⟨alone, plain, rfl⟩ := leaf
    have placed := Tree.placed_leaf alone forward (by simp [plain])
    exact Laid.put ((laid.room stack room behind).spread room.empties) placed rfl
  | name _ _ room =>
    have laid := laid.room stack room behind
    exact Laid.put (laid.spread room.empties) (Tree.placed_name (stands (Nat.le_refl _) _)) rfl
  | opening _ _ room | leading _ _ room =>
    exact (laid.room stack room behind).push (stands (Nat.le_refl _) _)
  | closing acts ends =>
    obtain ⟨r, opener, below, t, edits, here, opens, tree, rfl⟩ := closing_ok acts ends ok
    obtain ⟨lo, placed, spread⟩ := (laid.edits stack edits).bracket (stack.edits edits) here opens
      (stands behind _) tree
    exact Laid.put spread placed rfl
  | headless _ empty =>
    refine ⟨span.stop, ?_, .cons (Nat.le_refl _) (stands behind _) (laid.spread empty)⟩
    rw [empty]
    exact Nat.le_refl _
  | infixed _ _ _ ready => exact (laid.edits stack ready.edits).push (stands behind _)
  | postfixed _ _ _ ready operand =>
    obtain ⟨lo, holds, spread⟩ := laid.edits stack ready.edits
    rw [operand] at holds
    have before := (Tree.Between.le holds).trans behind
    have grown := Tree.Placed.mono holds (Nat.le_refl _) (behind.trans forward)
    exact Laid.put spread (Tree.placed_unary grown ⟨before, Nat.le_refl _⟩ rfl rfl rfl) rfl

theorem Laid.finish (laid : Laid place p) (stack : Stacked p.pending) (ok : p.finish (.point place) = .ok (t, q)) :
    t.Each Tree.Nests := by
  obtain ⟨r, closed, ok⟩ := bind_ok ok
  obtain ⟨s, reduced, ok⟩ := bind_ok ok
  obtain ⟨⟨content, opener, free⟩, popped, ok⟩ := bind_ok ok
  obtain ⟨below, here, opens, rfl, rfl⟩ := popBracket_ok popped
  obtain ⟨laid, stack⟩ := laid.closeBlocks stack closed
  have edits := (dropSeparators_edits r).trans (reduceToOpener_ok reduced).1
  dsimp only at ok
  split at ok
  · split at ok
    · next tree =>
      cases ok
      obtain ⟨lo, placed, -⟩ := (laid.edits stack edits).bracket (stack.edits edits) here opens
        ⟨Nat.le_refl _, Nat.le_refl _, Nat.le_refl _⟩ tree
      exact placed.nests
    · cases ok
  · cases ok

/-- Tokens that follow each other, with the end among them, are read as a tree that nests. -/
theorem Laid.run (laid : Laid n p) (stack : Stacked p.pending)
    (ordered : xs.Pairwise fun x y => x.span.stop ≤ y.span.start)
    (each : ∀ x ∈ xs, n ≤ x.span.start ∧ x.span.start ≤ x.span.stop ∧ (x.token.Inline ∨ x.span.start = x.span.stop))
    (ends : ∃ x ∈ xs, x.token = .eof) (ok : p.run (xs.map .ok) = .ok (t, q)) : t.Each Tree.Nests := by
  induction xs generalizing n p with
  | nil => simp at ends
  | cons x xs ih =>
    obtain ⟨after, ordered⟩ := List.pairwise_cons.1 ordered
    obtain ⟨⟨behind, forward, inline⟩, each⟩ := List.forall_mem_cons.1 each
    by_cases stop : x.token = .eof
    · have point : x.span.start = x.span.stop := inline.resolve_left fun inline => inline.1 stop
      obtain ⟨token, start, _⟩ := x
      cases stop
      cases point
      exact (laid.mono behind).finish stack ok
    · obtain ⟨r, shifted, ok⟩ := run_cons stop ok
      have later : ∃ y ∈ xs, y.token = .eof := by simpa [stop] using ends
      exact ih (laid.shift stack behind forward inline shifted) (stack.shifts (shift_ok shifted)) ordered
        (fun y inside => ⟨after y inside, (each y inside).2⟩) later ok

theorem laid_start (registry : Registry) (origin : Origin) : Laid 0 (.start registry origin) :=
  ⟨0, Nat.le_refl _, .cons (Nat.le_refl _) ⟨Nat.le_refl _, Nat.le_refl _, Nat.le_refl _⟩ .nil⟩

theorem stacked_start (registry : Registry) (origin : Origin) : Stacked (Parser.start registry origin).pending :=
  .cons ⟨by simp [Pending.leading, fileRule, Rule.opening], by simp [Pending.leading]⟩ .nil

variable {registry : Registry} {origin : Origin} {text : String}

/-- Every node of a parsed tree stands around its children and its tags, its children in the order of the source and
without overlap. The span of an infix operator, which is found along the edges of its chain, is the one that covers
the operator and both of its operands, and the same as if all of the chain had been looked at. -/
theorem parse_nests (parsed : parseUnder registry origin text = .ok (t, q)) :
    t.Each fun x =>
      x.span.start ≤ x.span.stop ∧ (∀ child ∈ x.children, x.span.Contains child.span) ∧
        (∀ tag ∈ x.tags, x.span.Contains tag.span) ∧
        x.children.Pairwise (fun child next => child.span.stop ≤ next.span.start) ∧ x.span = x.mergedSpan ∧
        ∀ operator left right, x = .infixOp operator left right →
          x.span = (operator.span.merge left.span).merge right.span := by
  obtain ⟨xs, last, stream, more, ends⟩ := lexemes_last (Lexer.ofString text)
  rw [parseUnder, lexemes, stream] at parsed
  obtain ⟨⟨eof, rfl⟩, -⟩ := run_whole more ends parsed
  have whole : xs.map .ok ++ [.ok eof] = (xs ++ [eof]).map (Except.ok (ε := LexicalError)) := by simp
  rw [whole] at stream parsed
  obtain ⟨ordered, each⟩ := Lexer.lexemes_follow stream
  have nests := (laid_start registry origin).run (stacked_start registry origin) ordered
    (fun x inside => ⟨Nat.zero_le _, (each x inside).2⟩) ⟨eof, by simp, ends eof rfl⟩ parsed
  intro x part
  have here := nests x part
  refine ⟨here.forward, here.children, here.tags, here.ordered, ?_, ?_⟩
  · exact Tree.span_eq_mergedSpan x (nests.part part)
  · rintro operator left right rfl
    exact Tree.span_infixOp_merge (nests.part part)

/-- A body of two lines that a marked parameter list inside an operand takes: both spans are those of whole lines. -/
theorem parse_nests_lambda : ∃ t q,
    parseUnder .default .module
        "infixl 60 plus\na plus f \\x ->\n  (x plus) 1\n  if x then [x, 2] else b plus 3 plus x" = .ok (t, q) ∧
      t.children.map Tree.span = [⟨0, 14⟩, ⟨15, 82⟩] ∧ t.Each fun x => x.span = x.mergedSpan := by
  have accepted : (parseUnder .default .module
      "infixl 60 plus\na plus f \\x ->\n  (x plus) 1\n  if x then [x, 2] else b plus 3 plus x").toOption.any
        (fun result => result.1.children.map Tree.span == [⟨0, 14⟩, ⟨15, 82⟩]) = true := by
    decide +kernel
  obtain ⟨result, parsed, spans⟩ := exists_ok_of_any accepted
  exact ⟨result.1, result.2, parsed, beq_iff_eq.1 spans, fun x part => (parse_nests parsed x part).2.2.2.2.1⟩

end Parser

end MixfixLambda
