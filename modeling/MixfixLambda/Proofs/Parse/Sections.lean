import MixfixLambda.Proofs.Parse.Stack
import MixfixLambda.Proofs.Tree.Sections

/-!
# Operands are left out in sections only

An operator that lacks its left operand lies directly in parentheses, and so does one whose right operand is left out
when they are closed. Either way its parentheses are marked, nothing happens in them any more but that they are
closed, and they become a section. All other operands are whole, whatever rules are in force.
-/
namespace MixfixLambda.Parser

open MixfixLambda.Tree (Whole Lacking)

variable {p q r : Parser} {o top opener : Pending} {below rest : List Pending} {rule : Rule} {tag : Tag} {place : Nat}
  {C : Pending → Prop} {ends : Nat → Bool} {token : Token} {span : Span} {t right : Tree}

/-- An operator has a whole operand to its left, or it lacks it directly in parentheses. -/
structure Supplied (o : Pending) (below : List Pending) : Prop where
  left : ∀ t ∈ o.left, Whole t
  missing : o.missingLeft = true → o.rule.isSectionable = true ∧ (below.head?).any Pending.isParen = true

theorem paren_markSection (pending : List Pending) :
    ((markSection pending).head?).any Pending.isParen = (pending.head?).any Pending.isParen := by
  cases pending with
  | nil => rfl
  | cons o below =>
    unfold markSection
    split <;> rfl

theorem markSection_paren (paren : o.isParen = true) (below : List Pending) :
    markSection (o :: below) = { o with sectioned := true } :: below := by
  rw [markSection, if_pos (Bool.and_eq_true_iff.1 paren).1]

/-- No operand is left out of the trees, and no parentheses are marked. -/
structure Seamless (p : Parser) : Prop where
  pending : Stackwise Supplied p.pending
  unmarked : ∀ o ∈ p.pending, o.sectioned = false
  operand : ∀ t ∈ p.operand, Whole t

/-- The innermost bracket are parentheses that have been marked, and no others are. -/
structure Marked (opener : Pending) (below : List Pending) : Prop where
  paren : opener.isParen = true
  sectioned : opener.sectioned = true
  outer : Stackwise Supplied below
  unmarked : ∀ o ∈ below, o.sectioned = false

/-- The right operand of the only operator in the parentheses is left out. -/
inductive Gaps : Parser → Prop
  | intro {p : Parser} {top opener : Pending} {below : List Pending} {left : Tree} {gap : Span}
      (here : p.pending = top :: opener :: below) (operand : p.operand = some (.placeholder gap))
      (sections : top.rule.isSectionable = true) (given : top.missingLeft = false) (held : top.left = some left)
      (whole : Whole left) (marked : Marked opener below) : Gaps p

/-- The parentheses hold an operator that lacks an operand. -/
inductive Lacks : Parser → Prop
  | intro {p : Parser} {opener : Pending} {below : List Pending} {t : Tree} (here : p.pending = opener :: below)
      (operand : p.operand = some t) (lacking : Lacking t) (marked : Marked opener below) : Lacks p

theorem Lacks.opens (lacks : Lacks p) (here : p.pending = top :: below) : top.rule.isOpener = true := by
  obtain ⟨same, -, -, marked⟩ := lacks
  cases here.symm.trans same
  exact (Bool.and_eq_true_iff.1 marked.paren).1

theorem marked_paren {pending : List Pending} (paren : (pending.head?).any Pending.isParen = true)
    (outer : Stackwise Supplied pending) (unmarked : ∀ o ∈ pending, o.sectioned = false) :
    ∃ opener below, markSection pending = opener :: below ∧ Marked opener below := by
  cases pending with
  | nil => cases paren
  | cons o below =>
    have paren : o.isParen = true := paren
    exact ⟨_, below, markSection_paren paren below, paren, rfl, outer.tail, fun o inside =>
      unmarked o (List.mem_cons_of_mem _ inside)⟩

/-! ### Inside a bracket -/

theorem Collects.whole {links : List Pending} {lefts : List Tree} (collects : Collects links lefts)
    (supplied : Stackwise Supplied (links ++ rest)) : ∀ t ∈ lefts, Whole t := by
  induction collects with
  | first => simp
  | infixed _ _ operand => simpa using supplied.head.left _ operand
  | next _ operand _ _ ih =>
    rw [List.forall_mem_append]
    exact ⟨ih supplied.tail, by simpa using supplied.head.left _ operand⟩

/-- A reduction keeps the operands whole, unless it makes what parentheses enclose as a section. -/
theorem Seamless.reduct (seamless : Seamless p) (here : p.pending = top :: below) (operand : p.operand = some right)
    (reduct : Reduct p top below right q) : Seamless q ∨ top.missingLeft = true ∧ Lacks q := by
  obtain ⟨supplied, unmarked, whole⟩ := seamless
  have whole := whole right operand
  rw [here] at supplied unmarked
  have under : ∀ o ∈ below, o.sectioned = false := fun o inside => unmarked o (List.mem_cons_of_mem _ inside)
  have put : ∀ {q : Parser} {t : Tree}, q.pending = below → q.operand = some t → Whole t → Seamless q := by
    intro q t same made whole
    refine ⟨same ▸ supplied.tail, same ▸ under, fun other found => ?_⟩
    cases made.symm.trans found
    exact whole
  cases reduct with
  | @chain links rest lefts _ split collects =>
    rw [split] at supplied unmarked
    refine .inl ⟨supplied.suffix, fun o inside => unmarked o (List.mem_append_right _ inside), ?_⟩
    rintro _ ⟨⟩
    refine .node rfl rfl (List.forall_mem_append.2 ⟨collects.whole supplied, ?_⟩)
    simpa using whole
  | erase => exact .inl (put rfl rfl whole)
  | declare => exact .inl (put rfl rfl (Tree.whole_leaf rfl))
  | leading => exact .inl (put rfl rfl (.node rfl rfl (by simpa [Tree.children] using whole)))
  | headless _ _ missing =>
    obtain ⟨sections, paren⟩ := supplied.head.missing missing
    obtain ⟨opener, outer, marks, marked⟩ := marked_paren paren supplied.tail under
    refine .inr ⟨missing, .intro marks rfl ?_ marked⟩
    rw [(sectionable_facts sections).2.2]
    exact .left whole
  | infixed _ _ _ left => exact .inl (put rfl rfl (Tree.whole_ofInfix (supplied.head.left _ left) whole))

/-- What happens inside a bracket leaves its operands whole, or the bracket to be closed as a section. -/
theorem Seamless.edit (seamless : Seamless p) (edit : Edit p q) : Seamless q ∨ Gaps q ∨ Lacks q := by
  cases edit with
  | reduce here operand _ reduct =>
    exact (seamless.reduct here operand reduct).imp_right fun lacks => .inr lacks.2
  | separator here | operator here =>
    obtain ⟨supplied, unmarked, -⟩ := seamless
    rw [here, List.forall_mem_cons] at unmarked
    rw [here] at supplied
    first
      | exact .inl ⟨supplied.tail, unmarked.2, supplied.head.left⟩
      | refine .inl ⟨supplied.tail, unmarked.2, ?_⟩
        rintro _ ⟨⟩
        exact Tree.whole_leaf rfl
  | gap here empty operator sections given operand inside =>
    obtain ⟨supplied, unmarked, -⟩ := seamless
    rw [here, List.forall_mem_cons] at unmarked
    rw [here] at supplied
    obtain ⟨left, held⟩ := Option.isSome_iff_exists.1 operand
    obtain ⟨opener, outer, marks, marked⟩ := marked_paren inside supplied.tail unmarked.2
    refine .inr (.inl (.intro (congrArg _ marks) rfl sections given held (supplied.head.left _ held) marked))

/-- A right operand that is left out is taken at once. -/
theorem Gaps.edit (gaps : Gaps p) (edit : Edit p q) : Lacks q := by
  obtain ⟨here, operand, sections, given, held, whole, marked⟩ := gaps
  obtain ⟨between, start, operation⟩ := sectionable_facts sections
  cases edit with
  | reduce here' operand' _ reduct =>
    cases here.symm.trans here'
    cases operand.symm.trans operand'
    cases reduct with
    | chain continues => simp [start] at continues
    | erase _ leads | declare _ leads | leading _ leads => cases between.symm.trans leads
    | headless _ _ missing => cases given.symm.trans missing
    | infixed _ _ _ left =>
      cases held.symm.trans left
      refine .intro rfl rfl ?_ marked
      rw [operation]
      exact .right whole
  | separator _ empty | operator _ empty | gap _ empty => cases operand.symm.trans empty

/-- Nothing happens in parentheses that are a section. -/
theorem Lacks.edit (lacks : Lacks p) (edit : Edit p q) : False := by
  have opens : ∀ {top below}, p.pending = top :: below → top.rule.isOpener = true := lacks.opens
  obtain ⟨here, operand, -, -⟩ := lacks
  cases edit with
  | reduce here' _ operator => exact absurd (opens here') (Bool.eq_false_iff.1 operator)
  | separator _ empty | operator _ empty | gap _ empty => cases operand.symm.trans empty

/-- All that can have happened in a bracket before it is closed. -/
theorem Seamless.edits (seamless : Seamless p) (edits : Relation.ReflTransGen Edit p q) :
    Seamless q ∨ Gaps q ∨ Lacks q := by
  refine edits_keep (I := fun p => Seamless p ∨ Gaps p ∨ Lacks p) ?_ edits (.inl seamless)
  rintro p q edit (seamless | gaps | lacks)
  · exact seamless.edit edit
  · exact .inr (.inr (gaps.edit edit))
  · exact (lacks.edit edit).elim

theorem Seamless.reduces (seamless : Seamless p) (reduces : Reduces C p r) :
    Seamless r ∨ (∃ o, C o ∧ o.missingLeft = true) ∧ Lacks r := by
  induction reduces with
  | refl => exact .inl seamless
  | step here operand operator may reduct reduces ih =>
    rcases seamless.reduct here operand reduct with seamless | ⟨missing, lacks⟩
    · exact ih seamless
    · cases reduces with
      | refl => exact .inr ⟨⟨_, may, missing⟩, lacks⟩
      | step here' _ operator' => exact absurd (lacks.opens here') (Bool.eq_false_iff.1 operator')

/-- An operator that comes in behind an operand finds all operands whole. -/
theorem Seamless.ready (seamless : Seamless p) (ready : Ready p rule r) : Seamless r := by
  cases ready with
  | binds _ reduces =>
    refine (seamless.reduces reduces).resolve_right ?_
    rintro ⟨⟨o, ⟨given, -⟩, missing⟩, -⟩
    cases given.symm.trans missing
  | continues _ reduces here operator =>
    refine (seamless.reduces reduces).resolve_right fun lacks => ?_
    exact Bool.eq_false_iff.1 operator (lacks.2.opens here)

/-! ### Tokens -/

/-- A new operator takes the operand read last to its left, if it does not lack it. -/
theorem Seamless.adds (seamless : Seamless p) (pending : q.pending = o :: p.pending)
    (left : ∀ t ∈ o.left, t ∈ p.operand) (empty : q.operand = none) (unmarked : o.sectioned = false)
    (missing : o.missingLeft = true → o.rule.isSectionable = true ∧ (p.pending.head?).any Pending.isParen = true) :
    Seamless q where
  pending := pending ▸ .cons ⟨fun t held => seamless.operand t (left t held), missing⟩ seamless.pending
  unmarked := pending ▸ List.forall_mem_cons.2 ⟨unmarked, seamless.unmarked⟩
  operand := by simp [empty]

theorem Seamless.push (seamless : Seamless p) (rule : Rule) (tag : Tag) : Seamless (p.push rule tag) :=
  seamless.adds rfl (fun _ held => held) rfl rfl (by simp [Pending.leading])

theorem Seamless.room (seamless : Seamless p) (room : Room p place r) : Seamless r := by
  cases room with
  | empty => exact seamless
  | juxtaposed _ ready => exact (seamless.ready ready).push _ _

theorem Seamless.put (seamless : Seamless p) (pending : q.pending = p.pending) (operand : q.operand = some t)
    (whole : Whole t) : Seamless q where
  pending := pending ▸ seamless.pending
  unmarked := pending ▸ seamless.unmarked
  operand := by
    intro other found
    cases operand.symm.trans found
    exact whole

theorem Seamless.closes (seamless : Seamless p) (closes : Closes C p q) : Seamless q := by
  obtain @⟨r, opener, below, closing, t, edits, here, opens, -, tree⟩ := closes
  rcases seamless.edits edits with seamless | gaps | lacks
  · obtain ⟨supplied, unmarked, whole⟩ := seamless
    rw [here] at supplied unmarked
    rw [unmarked opener (List.mem_cons_self ..)] at tree
    refine ⟨supplied.tail, fun o inside => unmarked o (List.mem_cons_of_mem _ inside), ?_⟩
    rintro _ ⟨⟩
    exact Tree.whole_ofBracket whole tree
  · obtain ⟨here', -, sections, -⟩ := gaps
    cases here.symm.trans here'
    cases (not_separator sections).2.symm.trans opens
  · obtain ⟨here', operand, lacking, marked⟩ := lacks
    cases here.symm.trans here'
    have paren : opener.rule.bracketKind = some .paren := beq_iff_eq.1 (Bool.and_eq_true_iff.1 marked.paren).2
    rw [operand, marked.sectioned, paren] at tree
    refine ⟨marked.outer, marked.unmarked, ?_⟩
    rintro _ ⟨⟩
    exact lacking.ofBracket tree

theorem Seamless.dedents (seamless : Seamless p) (dedents : Dedents ends p q) : Seamless q := by
  induction dedents with
  | stop => exact seamless
  | step _ _ closes _ ih => exact ih (seamless.closes closes)

theorem Seamless.shifts (seamless : Seamless p) (shifts : Shifts p span token q) : Seamless q := by
  cases shifts with
  | eof | inside | continues => exact seamless
  | first => exact ⟨seamless.pending, seamless.unmarked, seamless.operand⟩
  | literal literal room =>
    refine (seamless.room room).put rfl rfl (Tree.whole_leaf ?_)
    cases token <;> cases literal <;> rfl
  | name _ _ room => exact (seamless.room room).put rfl rfl (Tree.whole_leaf rfl)
  | opening _ _ room =>
    exact (seamless.room room).adds rfl (fun _ held => held) rfl rfl (by simp [Pending.leading])
  | leading _ _ room => exact (seamless.room room).push _ _
  | closing _ _ closes => exact seamless.closes closes
  | headless _ empty sections inside =>
    exact seamless.adds rfl (by simp [Pending.leading]) empty rfl fun _ => ⟨sections, inside⟩
  | infixed _ _ _ ready => exact (seamless.ready ready).push _ _
  | postfixed _ _ _ ready operand =>
    have seamless := seamless.ready ready
    refine seamless.put rfl rfl (.node rfl rfl ?_)
    simpa [Tree.children] using seamless.operand _ operand
  | indents => exact seamless.adds rfl (fun _ held => held) rfl rfl (by simp [Pending.leading])
  | aligns _ dedents => exact seamless.dedents dedents
  | separates _ dedents _ _ ready => exact ((seamless.dedents dedents).ready ready).push _ _

theorem seamless_start (registry : Registry) (origin : Origin) : Seamless (.start registry origin) where
  pending := .cons ⟨by simp [Pending.leading], by simp [Pending.leading]⟩ .nil
  unmarked := by simp [start, Pending.leading]
  operand := by simp [start]

theorem Seamless.taking {xs : List Lexeme} (seamless : Seamless p) (ok : p.taking xs = .ok q) : Seamless q := by
  induction xs generalizing p with
  | nil =>
    cases ok
    exact seamless
  | cons x xs ih =>
    obtain ⟨r, shifted, ok⟩ := bind_ok ok
    exact ih (seamless.shifts (shift_ok shifted)) ok

theorem Seamless.finishes (seamless : Seamless p) (finishes : Finishes p (t, q)) : Whole t := by
  obtain ⟨dedents, edits, here, opens, file, tree⟩ := finishes
  rcases (seamless.dedents dedents).edits edits with seamless | gaps | lacks
  · exact Tree.whole_ofBracket seamless.operand tree
  · obtain ⟨here', -, sections, -⟩ := gaps
    cases here.symm.trans here'
    cases (not_separator sections).2.symm.trans opens
  · obtain ⟨here', -, -, marked⟩ := lacks
    cases here.symm.trans here'
    have paren := beq_iff_eq.1 (Bool.and_eq_true_iff.1 marked.paren).2
    cases file.symm.trans paren

/-- The tree of a source is whole. -/
theorem whole_of_run {registry : Registry} {origin : Origin} {stream : List (Except LexicalError Lexeme)}
    (ok : (Parser.start registry origin).run stream = .ok (t, q)) : Whole t := by
  obtain ⟨xs, p, -, taken, finishes⟩ := run_taking ok
  exact ((seamless_start registry origin).taking taken).finishes finishes

end MixfixLambda.Parser
