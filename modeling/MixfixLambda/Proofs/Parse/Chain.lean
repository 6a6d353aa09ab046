import MixfixLambda.Proofs.Parse.Construct

/-!
# Reading chains back

The items of a chain wait on each other's separators, since `;` and `,` bind alike and to the right, and
the end of the bracket folds them from the right into one chain.
-/
namespace MixfixLambda.Parser

variable {p q free : Parser} {opener top : Pending} {operators : List Pending} {t left right whole : Tree}
  {rest : List Char}

/-- The rules of `;` and `,`. -/
def separators : List Rule :=
  [.infixOp ";" 1 .right .sequence, .infixOp "," 1 .right .comma]

theorem separators_facts : ∀ rule ∈ separators, rule ∈ defaultRules ∧ rule.prior = none ∧
    rule.fixity = .infixOp ∧ rule.left = 1 ∧ rule.right = 1 ∧ rule.assoc = .right := by
  decide +kernel

theorem separators_words {rule : Rule} (separates : rule ∈ separators) (rest : List Char) :
    SpellsWord rule.symbol.toList rest ∧ Cursor.Ends Cursor.isNameChar (rule.symbol.toList ++ rest) := by
  fin_cases separates <;>
    exact ⟨Cursor.spellsWord_punctuation rfl, Cursor.ends_cons.2 (by decide)⟩

/-- The tree of a chain: its only item, or all of its items. -/
def chain (reduction : Reduction) : List Tree → Tree
  | [t] => t
  | items =>
    match reduction with
    | .comma => .comma items Span.origin
    | _ => .sequence items Span.origin

/-- One item more in front of a chain gives the longer chain. -/
theorem separate_chain {rule : Rule} (separates : rule ∈ separators) {left left' right : Tree}
    {items : List Tree} (last : ∀ t ∈ items.getLast?, Tree.itemsOf rule.reduction t = none)
    (some : items ≠ []) (sameLeft : left'.unlocated = left.unlocated)
    (sameRight : right.unlocated = (chain rule.reduction items).unlocated) :
    (Tree.separate rule.reduction left' right).unlocated =
      (chain rule.reduction (left :: items)).unlocated := by
  have inner : (Tree.itemsOf rule.reduction right.unlocated).getD [right.unlocated] = items.map Tree.unlocated := by
    rw [sameRight]
    cases items with
    | nil => exact absurd rfl some
    | cons first items =>
      cases items with
      | nil =>
        have single := last first rfl
        simp [chain, Tree.itemsOf_unlocated, single]
      | cons second items => fin_cases separates <;> simp [chain, Tree.unlocated, Tree.itemsOf, Rule.infixOp]
  rw [Tree.separate_unlocated, inner, sameLeft]
  cases items with
  | nil => exact absurd rfl some
  | cons first items =>
    fin_cases separates <;> simp [chain, Tree.unlocated, Rule.infixOp]

/-- Only separators wait between the bracket and what comes next. -/
def Separated (operators : List Pending) : Prop :=
  ∀ o ∈ operators, ∃ rule ∈ separators, ∃ tag left, o = .infixed rule tag left

theorem Separated.cons {rule : Rule} (separates : rule ∈ separators) (tag : Tag) (left : Tree)
    (below : Separated operators) : Separated (.infixed rule tag left :: operators) := by
  intro o inside
  rcases List.mem_cons.1 inside with rfl | inside
  · exact ⟨rule, separates, tag, left, rfl⟩
  · exact below o inside

theorem Separated.undeclared (separated : Separated operators) (u : free.Undeclared)
    (bracket : ∀ kind, opener.rule.reduction ≠ .declare kind) (operand : Option Tree) :
    (free.within opener operators operand).Undeclared := by
  refine undeclared_within u bracket (fun o inside => ?_) operand
  obtain ⟨rule, separates, tag, left, rfl⟩ := separated o inside
  obtain ⟨listed, -, between, -⟩ := separators_facts rule separates
  exact infix_undeclared listed between

theorem Separated.loose {rule : Rule} (separated : Separated operators) (separates : rule ∈ separators)
    (opens : opener.rule.isOpener = true) (left : Tree) (tag : Tag) :
    (free.within opener operators (some left)).reduceLeft rule tag =
      .ok (free.within opener operators (some left)) := by
  cases operators with
  | nil => exact reduceLeft_opener rfl opens rule tag
  | cons top operators =>
    obtain ⟨other, separates', tag', left', rfl⟩ := separated top (List.mem_cons_self ..)
    obtain ⟨-, -, between, -, right, assoc⟩ := separators_facts other separates'
    obtain ⟨-, -, -, left, -, assoc'⟩ := separators_facts rule separates
    refine reduceLeft_right rfl ?_ (right.trans left.symm) ⟨assoc, assoc'⟩ tag
    simp [Pending.infixed, Pending.leading, Rule.isOpener, between]

/-- The items of a chain, each followed by a separator, and then the last one. -/
theorem takes_chain {rule : Rule} (separates : rule ∈ separators) {last : Tree} {text : List Char}
    (single : Tree.itemsOf rule.reduction last = none) (opens : opener.rule.isOpener = true)
    (bracket : ∀ kind, opener.rule.reduction ≠ .declare kind) (u : free.Undeclared)
    (final : ∀ operators, Separated operators →
      (free.within opener operators none).Takes text rest (Reaches free opener operators last))
    {items : List Tree} (each : ∀ t ∈ items, Reads t) (separated : Separated operators) :
    (free.within opener operators none).Takes
      (items.flatMap (fun t => t.render.toList ++ (rule.symbol.toList ++ [' '])) ++ text) rest
      (Reaches free opener operators (chain rule.reduction (items ++ [last]))) := by
  induction items generalizing operators with
  | nil => exact final operators separated
  | cons first items ih =>
    obtain ⟨listed, start, between, -⟩ := separators_facts rule separates
    have waits := separated.undeclared u bracket
    rw [List.flatMap_cons, List.append_assoc, List.append_assoc]
    refine (each first (List.mem_cons_self ..) _ _ (accepts_of_none rfl (waits none)) (waits none) ?_).append ?_
    · simpa using (separators_words separates _).2
    intro q took
    obtain ⟨first', same, rfl⟩ := took.of_within
    rw [List.append_assoc]
    refine Takes.append (takes_infixOp listed start between (waits (some first'))
      (separated.loose separates opens first') (separators_words separates _).1) ?_
    rintro _ ⟨tag, -, rfl⟩
    refine Takes.append (takes_space rfl) ?_
    rintro _ rfl
    refine (ih (fun t inside => each t (List.mem_cons_of_mem _ inside))
      (separated.cons separates tag first')).mono fun q reaches => ?_
    refine reaches.infixed start between fun right sameRight => ?_
    have made : Tree.ofInfix rule.reduction tag first' right =
        Tree.separate rule.reduction first' right := by
      fin_cases separates <;> rfl
    rw [made]
    refine separate_chain separates ?_ (by simp) same sameRight
    simp [single]

end MixfixLambda.Parser
