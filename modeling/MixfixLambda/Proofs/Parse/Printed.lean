import MixfixLambda.Proofs.Parse.Chain

/-!
# Printed trees are read back

By induction on the tree: whatever the parser was doing, a printed tree of the default grammar is read as
the next operand, and the text that it is alone is parsed as this tree.
-/
namespace MixfixLambda

namespace Tree

/-- The characters that a printed tree may start with: an operator in front of them does not go on, and
they are no blanks. -/
def Begins (c : Char) : Prop :=
  isSymbolChar c = false ∧ Cursor.isLineBlank c = false ∧ c ≠ '\n'

instance (c : Char) : Decidable (Begins c) :=
  inferInstanceAs (Decidable (_ ∧ _))

theorem begins_of_word {text : List Char} (word : IsWord text)
    (name : isSymbolic (String.ofList text) = false) : ∃ c more, text = c :: more ∧ Begins c := by
  have symbol : ∀ {c : Char} {more : List Char}, isSymbolic (String.ofList (c :: more)) = false →
      isSymbolChar c = false := by
    intro c more name
    refine Bool.eq_false_iff.2 fun symbol => ?_
    rw [Cursor.isSymbolic_ofList symbol more] at name
    cases name
  cases word with
  | identifier letter =>
    have starts := Cursor.startsWord (letter.elim .inl fun low => .inr (.inl low))
    exact ⟨_, _, rfl, symbol name, starts.1, starts.2.1⟩
  | symbols all =>
    have starts := Cursor.startsWord (.inr (.inr (.inr (all _ (List.mem_cons_self ..)))))
    exact ⟨_, _, rfl, symbol name, starts.1, starts.2.1⟩
  | punctuation single =>
    have starts := Cursor.startsWord (.inr (.inr (.inl single)))
    exact ⟨_, _, rfl, symbol name, starts.1, starts.2.1⟩
  | other high =>
    have starts := Cursor.startsWord_of_high high
    exact ⟨_, _, rfl, symbol name, starts.1, starts.2.1⟩

theorem begins_name {tag : Tag} (word : IsWord tag.text.toList) :
    ∃ c more, (Tree.name tag).render.toList = c :: more ∧ Begins c := by
  cases symbolic : isSymbolic tag.text with
  | true =>
    refine ⟨'(', tag.text.toList ++ [')'], ?_, by decide⟩
    simp [render, Tag.asValue, symbolic, String.toList_append]
  | false =>
    obtain ⟨c, more, shown, begins⟩ := begins_of_word word (by rwa [String.ofList_toList])
    exact ⟨c, more, by simp [render, Tag.asValue, symbolic, shown], begins⟩

theorem begins_int {value : Int} (natural : 0 ≤ value) (span : Span) :
    ∃ c more, (Tree.int value span).render.toList = c :: more ∧ Begins c := by
  obtain ⟨n, rfl⟩ := Int.eq_ofNat_of_zero_le natural
  have shown : (Tree.int n span).render.toList = Nat.toDigits 10 n := Nat.toList_repr
  rw [shown]
  cases written : Nat.toDigits 10 n with
  | nil => exact absurd written Nat.toDigits_ne_nil
  | cons c more =>
    have digit : c.isDigit = true :=
      Nat.isDigit_of_mem_toDigits (by decide) (by decide) (written ▸ List.mem_cons_self ..)
    have low : ∀ c : Char, c.toNat < 0x80 → c.isDigit → Begins c := by
      refine Cursor.forall_low ?_
      decide
    exact ⟨c, more, rfl, low c (Cursor.isDigit_low digit) digit⟩

/-- Everything else starts with a bracket or a quote. -/
theorem begins_of_head {t : Tree} {c : Char} (opens : c ∈ ['(', '[', '\x7b', '\x22', '\x27'])
    (shown : t.render.toList.head? = some c) : ∃ c more, t.render.toList = c :: more ∧ Begins c := by
  have plain : Begins c := by
    fin_cases opens <;> decide
  cases written : t.render.toList with
  | nil =>
    rw [written] at shown
    cases shown
  | cons d more =>
    rw [written] at shown
    cases shown
    exact ⟨c, more, rfl, plain⟩

theorem begins_infixOp (tag : Tag) (left right : Tree) :
    (Tree.infixOp tag left right).render.toList.head? = some '(' := by
  rw [render_infixOp]
  split
  · simp [String.toList_append]
  · split <;> simp [String.toList_append]

theorem Standard.begins {t : Tree} (standard : t.Standard) :
    ∃ c more, t.render.toList = c :: more ∧ Begins c := by
  cases standard with
  | int natural => exact begins_int natural _
  | name word => exact begins_name word
  | operator listed _ named => exact begins_name (named ▸ isWord_symbol _ listed)
  | @infixOp tag _ left right =>
    exact begins_of_head (c := '(') (by decide) (begins_infixOp tag left right)
  | @leftSection tag _ left missing =>
    refine begins_of_head (c := '(') (by decide) ?_
    rw [render]
    exact begins_infixOp tag left (.placeholder missing)
  | @rightSection tag _ right missing =>
    refine begins_of_head (c := '(') (by decide) ?_
    rw [render]
    exact begins_infixOp tag (.placeholder missing) right
  | str => exact begins_of_head (c := '\x22') (by decide) (by simp [render, String.toList_append])
  | char => exact begins_of_head (c := '\x27') (by decide) (by simp [render, String.toList_append])
  | list => exact begins_of_head (c := '[') (by decide) (by simp [render, String.toList_append])
  | data => exact begins_of_head (c := '\x7b') (by decide) (by simp [render, String.toList_append])
  | _ => exact begins_of_head (c := '(') (by decide) (by simp [render, String.toList_append])

end Tree

namespace Parser

variable {p q free : Parser} {opener : Pending} {operators : List Pending} {t : Tree}
  {rest : List Char}

theorem intercalate_concat {α : Type} (separator : List Char) (text : α → List Char) (items : List α)
    (last : α) : separator.intercalate ((items ++ [last]).map text) =
      items.flatMap (fun t => text t ++ separator) ++ text last := by
  induction items with
  | nil => simp
  | cons first items ih =>
    rw [List.cons_append, List.map_cons, List.intercalate_cons_of_ne_nil (by simp), ih,
      List.flatMap_cons, List.append_assoc (text first ++ separator)]

theorem Reaches.congr {t' : Tree} (same : t.unlocated = t'.unlocated)
    (reaches : Reaches free opener operators t q) : Reaches free opener operators t' q := by
  obtain ⟨u, operand, found, equal, reduced⟩ := reaches
  exact ⟨u, operand, found, equal.trans same, reduced⟩

/-- A chain of trees that are read back. -/
theorem takes_items {rule : Rule} (separates : rule ∈ separators) {items : List Tree}
    (some : items ≠ []) (each : ∀ t ∈ items, Reads t)
    (last : ∀ t ∈ items.getLast?, Tree.itemsOf rule.reduction t = none)
    (opens : opener.rule.isOpener = true) (bracket : ∀ kind, opener.rule.reduction ≠ .declare kind)
    (u : free.Undeclared) (ends : Cursor.Ends Cursor.isNameChar rest) (separated : Separated operators) :
    (free.within opener operators none).Takes
      ((rule.symbol.toList ++ [' ']).intercalate (items.map fun t => t.render.toList)) rest
      (Reaches free opener operators (chain rule.reduction items)) := by
  obtain ⟨before, final, rfl⟩ : ∃ before final, items = before ++ [final] :=
    ⟨_, _, (List.dropLast_append_getLast some).symm⟩
  rw [intercalate_concat]
  have single := last final (by simp)
  have earlier : ∀ t ∈ before, Reads t := fun t inside => each t (List.mem_append_left _ inside)
  refine takes_chain separates single opens bracket u (fun operators separated => ?_) earlier separated
  have waits := separated.undeclared u bracket none
  exact (each final (by simp) _ rest (accepts_of_none rfl waits) waits ends).mono fun q took => took.reaches

theorem chain_eq {items : List Tree} (several : 2 ≤ items.length) :
    chain .comma items = .comma items Span.origin ∧
      chain .sequence items = .sequence items Span.origin := by
  match items, several with
  | _ :: _ :: _, _ => exact ⟨rfl, rfl⟩

/-! ### Brackets -/

theorem listed_unlocated {items : List Tree} {content : Tree} (nonempty : items ≠ [])
    (plain : ∀ t ∈ items, t.isComma = false)
    (same : content.unlocated = (chain .comma items).unlocated) :
    (Tree.listed (some content)).map Tree.unlocated = items.map Tree.unlocated ∧
      (2 ≤ items.length → content.isComma = true) := by
  match items, nonempty with
  | [t], _ =>
    have single : content.isComma = false := by
      rw [← Tree.isComma_unlocated, same, Tree.isComma_unlocated]
      exact plain t (List.mem_singleton_self t)
    have listed : Tree.listed (some content) = [content] := by
      cases content <;> first
        | rfl
        | cases single
    exact ⟨by rw [listed]; exact congrArg (fun t => [t]) same, fun several => by simp at several⟩
  | first :: second :: items, _ =>
    cases content <;> simp only [chain, Tree.unlocated, Tree.unlocatedEach_eq_map, Tree.comma.injEq,
      reduceCtorEq] at same
    exact ⟨same.1, fun _ => rfl⟩

theorem closes_empty {closing : Rule} {kind : BracketKind} (tag : Tag)
    (opens : opener.rule.isOpener = true) (partner : opener.rule.partner = some closing.symbol)
    (kind_ : opener.rule.bracketKind = some kind) (u : free.Undeclared) (empty : free.operand = none) :
    (free.within opener [] none).closeBracket closing tag =
      free.putBracket kind opener tag none opener.sectioned := by
  have plain : opener.rule.isSeparator = false := by
    unfold Rule.bracketKind at kind_
    unfold Rule.isSeparator
    split at kind_
    · next found => rw [found]; rfl
    · cases kind_
  have completes : (free.within opener [] none).dropSeparators.completeSection =
      .ok (free.within opener [] none) := by
    simp [dropSeparators, eraseSeparators, completeSection, within, plain, opens]
  exact closeBracket_within completes (reduceToOpener_opener rfl opens) opens partner kind_ u empty

/-- Brackets with any number of items between commas. -/
theorem reads_bracket {b : String × String × BracketKind} (bracket : b ∈ brackets) {items : List Tree}
    (each : ∀ t ∈ items, Reads t) (plain : ∀ t ∈ items, t.isComma = false)
    (shown : t.render.toList =
      b.1.toList ++ [',', ' '].intercalate (items.map fun t => t.render.toList) ++ b.2.1.toList)
    (makes : ∀ (opening closing : Tag) (content : Option Tree),
      (Tree.listed content).map Tree.unlocated = items.map Tree.unlocated →
      (2 ≤ items.length → content.any Tree.isComma = true) → (items = [] → content = none) →
      ∃ t', t'.unlocated = t.unlocated ∧ Tree.ofBracket b.2.2 opening closing content false = .ok t') :
    Reads t := by
  intro p rest accepts u _
  rw [shown]
  refine takes_brackets bracket accepts u fun free tag u' empty => ?_
  let opener : Pending := .leading (.opening b.1 b.2.1 b.2.2) tag
  have undeclares : ∀ kind, opener.rule.reduction ≠ .declare kind := fun _ => Reduction.noConfusion
  have put : ∀ (closing : Tag) (content : Option Tree),
      (Tree.listed content).map Tree.unlocated = items.map Tree.unlocated →
      (2 ≤ items.length → content.any Tree.isComma = true) → (items = [] → content = none) →
      ∃ t', t'.unlocated = t.unlocated ∧
        free.putBracket b.2.2 opener closing content false = .ok { free with operand := some t' } := by
    intro closing content same several vacant
    obtain ⟨t', equal, made⟩ := makes tag closing content same several vacant
    exact ⟨t', equal, by rw [putBracket, show opener.tag = tag from rfl, made]⟩
  by_cases nonempty : items = []
  · subst nonempty
    intro position
    refine ⟨free.within opener [] none, position, ⟨undeclared_within u' undeclares (by simp) none, ?_⟩, rfl⟩
    intro closing
    obtain ⟨t', equal, made⟩ := put closing none rfl (by simp) fun _ => rfl
    exact ⟨t', equal, (closes_empty closing rfl rfl rfl u' empty).trans made⟩
  · have separated : Separated [] := by simp [Separated]
    have last : ∀ t ∈ items.getLast?, Tree.itemsOf .comma t = none :=
      fun t found => Tree.itemsOf_comma (plain t (List.mem_of_getLast? found))
    have ends : Cursor.Ends Cursor.isNameChar (b.2.1.toList ++ rest) := by
      fin_cases bracket <;> exact Cursor.ends_cons.2 (by decide)
    have comma : Rule.infixOp "," 1 .right .comma ∈ separators := by decide
    refine (takes_items comma nonempty each last rfl undeclares u' ends separated).mono fun q reaches => ?_
    refine ⟨reaches.1, fun closing => ?_⟩
    obtain ⟨content, same, closed⟩ : ∃ content, content.unlocated = (chain .comma items).unlocated ∧
        q.closeBracket (.closing b.2.1 b.1 b.2.2) closing =
          free.putBracket b.2.2 opener closing (some content) false :=
      reaches.closes closing rfl rfl rfl u' empty
    obtain ⟨listed, several⟩ := listed_unlocated nonempty plain same
    obtain ⟨t', equal, made⟩ := put closing (some content) listed several (absurd · nonempty)
    exact ⟨t', equal, closed.trans made⟩

theorem renderEach_toList (items : List Tree) :
    (Tree.renderEach items).map String.toList = items.map fun t => t.render.toList := by
  simp [Tree.renderEach_eq_map]

theorem reads_tuple {items : List Tree} {span : Span} (each : ∀ t ∈ items, Reads t)
    (plain : ∀ t ∈ items, t.isComma = false) (several : 2 ≤ items.length) :
    Reads (.tuple items span) := by
  refine reads_bracket (b := ("(", ")", .paren)) (by decide) each plain ?_ ?_
  · simp [Tree.render, String.toList_append, String.toList_intercalate, renderEach_toList]
  · intro opening closing content same commas _
    have comma := commas several
    match content, comma with
    | some (.comma found _), _ =>
      exact ⟨_, by simpa [Tree.unlocated, Tree.listed] using same, rfl⟩

theorem reads_list {items : List Tree} {span : Span} (each : ∀ t ∈ items, Reads t)
    (plain : ∀ t ∈ items, t.isComma = false) : Reads (.list items span) := by
  refine reads_bracket (b := ("[", "]", .square)) (by decide) each plain ?_ ?_
  · simp [Tree.render, String.toList_append, String.toList_intercalate, renderEach_toList]
  · exact fun opening closing content same _ _ => ⟨_, by simpa [Tree.unlocated] using same, rfl⟩

theorem reads_data {items : List Tree} {span : Span} (each : ∀ t ∈ items, Reads t)
    (plain : ∀ t ∈ items, t.isComma = false) : Reads (.data items span) := by
  refine reads_bracket (b := ("\x7b", "\x7d", .brace)) (by decide) each plain ?_ ?_
  · simp [Tree.render, String.toList_append, String.toList_intercalate, renderEach_toList]
  · exact fun opening closing content same _ _ => ⟨_, by simpa [Tree.unlocated] using same, rfl⟩

theorem reads_unit (span : Span) : Reads (.unit span) := by
  have none : ∀ t ∈ ([] : List Tree), Reads t := by simp
  refine reads_bracket (b := ("(", ")", .paren)) (by decide) none (by simp) ?_ ?_
  · simp [Tree.render]
  · intro opening closing content _ _ vacant
    rw [vacant rfl]
    exact ⟨.unit (opening.span.merge closing.span), rfl, rfl⟩

theorem reads_sequence {items : List Tree} {span : Span} (each : ∀ t ∈ items, Reads t)
    (several : 2 ≤ items.length) (last : ∀ t ∈ items.getLast?, t.isSequence = false) :
    Reads (.sequence items span) := by
  have shown : (Tree.sequence items span).render.toList = "(".toList ++
      ([';', ' '].intercalate (items.map fun t => t.render.toList)) ++ ")".toList := by
    simp [Tree.render, String.toList_append, String.toList_intercalate, renderEach_toList]
  refine reads_parenthesized rfl shown fun free tag rest u empty => ?_
  have semicolon : Rule.infixOp ";" 1 .right .sequence ∈ separators := by decide
  have nonempty : items ≠ [] := by
    rintro rfl
    simp at several
  have single : ∀ t ∈ items.getLast?, Tree.itemsOf .sequence t = none :=
    fun t found => Tree.itemsOf_sequence (last t found)
  have separated : Separated [] := by simp [Separated]
  refine (takes_items semicolon nonempty each single rfl (fun _ => Reduction.noConfusion) u
    (Cursor.ends_cons.2 (by decide)) separated).mono fun q reaches => reaches.congr ?_
  change (chain .sequence items).unlocated = _
  rw [(chain_eq several).2]
  rfl

/-- Statements, and at their end items between commas. -/
theorem reads_sequenceComma {items parts : List Tree} {inner span : Span}
    (each : ∀ t ∈ items, Reads t) (eachPart : ∀ t ∈ parts, Reads t)
    (plain : ∀ t ∈ parts, t.isComma = false) (some : items ≠ []) (several : 2 ≤ parts.length) :
    Reads (.sequence (items ++ [.comma parts inner]) span) := by
  let comma := Tree.comma parts inner
  have shown : (Tree.sequence (items ++ [comma]) span).render.toList = "(".toList ++
      (items.flatMap (fun t => t.render.toList ++ (";".toList ++ [' '])) ++
        [',', ' '].intercalate (parts.map fun t => t.render.toList)) ++ ")".toList := by
    have last : comma.render.toList = [',', ' '].intercalate (parts.map fun t => t.render.toList) := by
      simp [comma, Tree.render, String.toList_intercalate, renderEach_toList]
    rw [← last, ← intercalate_concat]
    simp [Tree.render, String.toList_append, String.toList_intercalate, renderEach_toList]
  refine reads_parenthesized rfl shown fun free tag rest u empty => ?_
  have separators_ : Rule.infixOp ";" 1 .right .sequence ∈ separators ∧
      Rule.infixOp "," 1 .right .comma ∈ separators := by decide
  have nonempty : parts ≠ [] := by
    rintro rfl
    simp at several
  have undeclares : ∀ kind, (paren tag).rule.reduction ≠ .declare kind := fun _ => Reduction.noConfusion
  have single : Tree.itemsOf .sequence comma = none := rfl
  refine (takes_chain separators_.1 single rfl undeclares u ?_ each
    (by simp [Separated])).mono fun q reaches => reaches.congr ?_
  · intro operators separated
    refine (takes_items separators_.2 nonempty eachPart
      (fun t found => Tree.itemsOf_comma (plain t (List.mem_of_getLast? found))) rfl undeclares u
      (Cursor.ends_cons.2 (by decide)) separated).mono fun q reaches => reaches.congr ?_
    change (chain .comma parts).unlocated = _
    rw [(chain_eq several).1]
    rfl
  · change (chain .sequence (items ++ [comma])).unlocated = _
    rw [(chain_eq ?_).2]
    · rfl
    · have := List.length_pos_iff.2 some
      rw [List.length_append, List.length_singleton]
      omega

end Parser

namespace Tree

/-- Every legible tree of the default grammar is read back. -/
theorem Standard.reads {t : Tree} (standard : t.Standard) (legible : t.isLegible = true) :
    Parser.Reads t := by
  induction standard with
  | int natural fits span => exact Parser.reads_int natural fits span
  | str bytes span => exact Parser.reads_str bytes span
  | char value span => exact Parser.reads_char value span
  | name word unruled => exact Parser.reads_name word unruled
  | operator listed sections named => exact Parser.reads_operator listed sections named
  | apply _ _ span head operand =>
    rw [isLegible, Bool.and_eq_true] at legible
    exact Parser.reads_apply (head legible.1) (operand legible.2)
  | @infixOp tag rule left right listed sections named standardLeft standardRight first second =>
    rw [isLegible, Bool.and_eq_true] at legible
    refine Parser.reads_spaced listed (Parser.sectionable_facts sections).2.1
      (Parser.sectionable_facts sections).1 (first legible.1) (second legible.2) rfl ?_ ?_
    · rw [render_infixOp, standardLeft.isPlaceholder_eq_false, standardRight.isPlaceholder_eq_false, named]
      rfl
    · intro tag' left' right' same sameLeft sameRight
      rw [(Parser.sectionable_facts sections).2.2]
      simp [ofInfix, unlocated, Tag.unlocated, same, named, sameLeft, sameRight]
  | marker named _ operand =>
    exact Parser.reads_prefixOp Parser.constructs_listed.1 rfl rfl rfl named (operand legible)
  | ifAlone named _ operand =>
    exact Parser.reads_prefixOp Parser.mixfix_listed.1 rfl rfl rfl named (operand legible)
  | ifThen named continued _ _ condition first =>
    simp only [isLegible, eachLegible, Bool.and_eq_true, and_true] at legible
    exact Parser.reads_ifThen named continued (condition legible.1) (first legible.2)
  | ifThenElse named continued ended _ _ _ condition first second =>
    simp only [isLegible, eachLegible, Bool.and_eq_true, and_true] at legible
    exact Parser.reads_ifThenElse named continued ended (condition legible.1) (first legible.2.1)
      (second legible.2.2)
  | define named _ _ left right =>
    rw [isLegible, Bool.and_eq_true] at legible
    refine Parser.reads_spaced Parser.constructs_listed.2.1 rfl rfl (left legible.1) (right legible.2)
      rfl ?_ fun tag' left' right' same sameLeft sameRight => ?_
    · rw [render, named]
      rfl
    · have symbol : tag'.text = "=" := same
      change Tree.unlocated (.define tag' left' right') = _
      simp [unlocated, Tag.unlocated, symbol, named, sameLeft, sameRight]
  | lambda named _ _ left right =>
    simp only [isLegible, Bool.and_eq_true, Bool.not_eq_true'] at legible
    refine Parser.reads_spaced Parser.constructs_listed.2.2.1 rfl rfl (left legible.1.2) (right legible.2)
      rfl ?_ fun tag' left' right' same sameLeft sameRight => ?_
    · rw [render, named]
      rfl
    · have symbol : tag'.text = "->" := same
      have plain : left'.endsInMarker = false := by
        rw [← endsInMarker_unlocated, sameLeft, endsInMarker_unlocated, legible.1.1]
      change (abstract tag' left' right').unlocated = _
      rw [abstract_eq plain]
      simp [unlocated, Tag.unlocated, symbol, named, sameLeft, sameRight]
  | asPattern named _ standardPattern left right =>
    rw [isLegible, Bool.and_eq_true] at legible
    refine Parser.reads_infixOp Parser.constructs_listed.2.2.2 rfl rfl (left legible.1) (right legible.2)
      rfl (.inl rfl) ?_ ?_ ?_ fun tag' left' right' same sameLeft sameRight => ?_
    · simp [render, named, String.toList_append, Rule.infixOp]
    · exact fun rest => Cursor.ends_cons.2 (by decide)
    · intro rest
      obtain ⟨c, more, shown, symbol, -⟩ := standardPattern.begins
      have all : ∀ d ∈ ['@'], isSymbolChar d = true := List.forall_mem_singleton.2 rfl
      rw [shown]
      exact Cursor.spellsWord_symbols all (fun dash => absurd dash (by decide)) (Cursor.ends_cons.2 symbol)
    · have symbol : tag'.text = "@" := same
      change Tree.unlocated (.asPattern tag' left' right') = _
      simp [unlocated, Tag.unlocated, symbol, named, sameLeft, sameRight]
  | @sequence items _ span each =>
    simp only [isLegible, Bool.and_eq_true, decide_eq_true_eq, Bool.not_eq_true', eachLegible_iff] at legible
    refine Parser.reads_sequence (fun t inside => each t inside (legible.2 t inside)) legible.1.1 ?_
    intro t found
    have last := legible.1.2
    rw [found] at last
    exact last
  | sequenceComma _ standardParts several span each eachPart =>
    simp only [isLegible, Bool.and_eq_true, decide_eq_true_eq, Bool.not_eq_true', eachLegible_iff] at legible
    have parts := legible.2 _ (List.mem_append_right _ (List.mem_singleton_self _))
    rw [isLegible, eachLegible_iff] at parts
    refine Parser.reads_sequenceComma
      (fun t inside => each t inside (legible.2 t (List.mem_append_left _ inside)))
      (fun t inside => eachPart t inside (parts t inside))
      (fun t inside => (standardParts t inside).isComma_eq_false) ?_ several
    rintro rfl
    exact absurd legible.1.1 (by simp)
  | unit span => exact Parser.reads_unit span
  | tuple standard several span each =>
    rw [isLegible, eachLegible_iff] at legible
    exact Parser.reads_tuple (fun t inside => each t inside (legible t inside))
      (fun t inside => (standard t inside).isComma_eq_false) several
  | list standard span each =>
    rw [isLegible, eachLegible_iff] at legible
    exact Parser.reads_list (fun t inside => each t inside (legible t inside))
      fun t inside => (standard t inside).isComma_eq_false
  | data standard span each =>
    rw [isLegible, eachLegible_iff] at legible
    exact Parser.reads_data (fun t inside => each t inside (legible t inside))
      fun t inside => (standard t inside).isComma_eq_false
  | leftSection listed sections named standardLeft span operand =>
    simp only [isLegible, Bool.and_true] at legible
    exact Parser.reads_leftSection listed sections named standardLeft.isPlaceholder_eq_false
      (operand legible)
  | rightSection listed sections named _ span operand =>
    simp only [isLegible, Bool.true_and] at legible
    exact Parser.reads_rightSection listed sections named (operand legible)

end Tree

end MixfixLambda
