import MixfixLambda.Proofs.Parse.Known
import MixfixLambda.Proofs.Parse.Pairs
import MixfixLambda.Proofs.Parse.Scopes

/-!
# The words of declarations

Up to the next separator or bracket the words behind the keyword of a declaration are names, whatever rules
they have, except that a bracket stays a bracket. Hence a declaration never has the symbol of a bracket that
is in force where it registers, and the pairs of brackets stay as they are.
-/
namespace MixfixLambda

/-- A keyword of declarations. -/
def Rule.declares (rule : Rule) : Bool :=
  match rule.reduction with
  | .declare _ => true
  | _ => false

theorem Rule.declares_iff {rule : Rule} : rule.declares = true ↔ ∃ kind, rule.reduction = .declare kind := by
  unfold declares
  split
  · next kind declares => simp [declares]
  · next other => simpa using fun kind same => other kind same

/-- What tells the operators of a source from those of the parser, and brackets and keywords from both. -/
structure Rule.Regular (rule : Rule) : Prop where
  apply : rule.reduction = .apply → rule.right = 95
  declares : rule.declares = true → rule.right = 2
  separates : rule.isSeparator = true ∨ rule.reduction = .comma →
    rule.fixity = .infixOp ∧ rule.prior = none ∧ rule.left = 1 ∧ rule.right = 1 ∧ rule.assoc = .right
  comma : rule.reduction = .comma → rule.symbol = ","
  bracket : rule.IsBracket → ∃ kind, rule.reduction = .bracket kind

namespace Parser

variable {p q r : Parser} {o top : Pending} {above below rest : List Pending} {rule : Rule} {tag : Tag}
  {place : Nat} {C : Pending → Prop} {ends : Nat → Bool} {token : Token} {span : Span} {t right : Tree}
  {entries entries' : List Registration} {D : Declaration → Prop}

theorem regular (known : Known D rule ∨ rule ∈ ownRules) : rule.Regular := by
  have listed : ∀ rule ∈ defaultRules ++ ownRules, (rule.reduction = .apply → rule.right = 95) ∧
      (rule.declares = true → rule.right = 2) ∧
      (rule.isSeparator = true ∨ rule.reduction = .comma →
        rule.fixity = .infixOp ∧ rule.prior = none ∧ rule.left = 1 ∧ rule.right = 1 ∧ rule.assoc = .right) ∧
      (rule.reduction = .comma → rule.symbol = ",") ∧
      (rule.fixity = .opening ∨ rule.fixity = .closing → rule.bracketKind.isSome = true) := by
    decide +kernel
  have regular : rule ∈ defaultRules ++ ownRules → rule.Regular := by
    intro inside
    obtain ⟨apply, declares, separates, comma, bracket⟩ := listed rule inside
    refine ⟨apply, declares, separates, comma, fun is => ?_⟩
    obtain ⟨kind, same⟩ := Option.isSome_iff_exists.1 (bracket is)
    exact ⟨kind, Rule.bracketKind_eq.1 same⟩
  rcases known with (inside | ⟨-, -, inside⟩) | inside
  · exact regular (List.mem_append_left _ inside)
  · rcases Declaration.rules_cases inside with ⟨operator, opens, closes, -⟩ | ⟨opening, closing, rfl | rfl⟩
    · refine ⟨?_, ?_, ?_, ?_, fun is => (not_or.2 ⟨opens, closes⟩ is).elim⟩
      all_goals simp [Rule.declares, Rule.isSeparator, operator]
    all_goals
      refine ⟨?_, ?_, ?_, ?_, fun _ => ⟨.user, rfl⟩⟩
      all_goals simp [Rule.declares, Rule.isSeparator, Rule.opening, Rule.closing]
  · exact regular (List.mem_append_right _ inside)

/-- The next word would be one of a declaration. -/
def declaring (pending : List Pending) : Bool :=
  (pending.find? (·.rule.reduction != .apply)).any (·.rule.declares)

theorem isDeclared_eq (p : Parser) (rule : Rule) : p.isDeclared rule =
    (!(rule.isSeparator || rule.reduction == .comma || rule.fixity == .opening || rule.fixity == .closing) &&
      declaring p.pending) := by
  unfold isDeclared declaring
  split
  · next plain => rw [plain]; rfl
  · next plain =>
    rw [Bool.eq_false_iff.2 plain, Bool.not_false, Bool.true_and]
    cases p.pending.find? (·.rule.reduction != .apply) with
    | none => rfl
    | some top => rfl

theorem declaring_cons (o : Pending) (below : List Pending) : declaring (o :: below) =
    if o.rule.reduction = .apply then declaring below else o.rule.declares := by
  unfold declaring
  split
  · next apply => rw [List.find?_cons_of_neg (by simp [apply])]
  · next other => rw [List.find?_cons_of_pos (by simpa using other)]; rfl

@[simp]
theorem declaring_markSection (pending : List Pending) : declaring (markSection pending) = declaring pending := by
  induction pending with
  | nil => rfl
  | cons o below ih =>
    unfold markSection
    split
    · rw [declaring_cons, declaring_cons]
    · rw [declaring_cons, declaring_cons, ih]

/-- No operator lies on a declaration, except that its words are juxtaposed. -/
def Worded (o : Pending) (below : List Pending) : Prop :=
  o.rule.isOpener = true ∨ o.rule.reduction = .apply ∨ declaring below = false

theorem worded_unmarked : Unmarked Worded where
  under worded := by rwa [Worded, declaring_markSection]
  here _ worded := worded

/-- How many brackets are open around each declaration that waits. -/
def levels : List Pending → List Nat
  | [] => []
  | o :: below => if o.rule.declares then (opened below).length :: levels below else levels below

@[simp]
theorem levels_markSection (pending : List Pending) : levels (markSection pending) = levels pending := by
  induction pending with
  | nil => rfl
  | cons o below ih =>
    unfold markSection
    split
    · rfl
    · rw [levels, levels, ih, opened_markSection]

theorem levels_append (above : List Pending) : levels below ⊆ levels (above ++ below) := by
  induction above with
  | nil => exact List.Subset.refl _
  | cons o above ih =>
    rw [List.cons_append, levels]
    split
    · exact List.subset_cons_of_subset _ ih
    · exact ih

theorem levels_cons : levels below ⊆ levels (o :: below) :=
  levels_append [o]

theorem opened_length_cons : (opened below).length ≤ (opened (o :: below)).length := by
  cases opens : o.rule.isOpener
  · rw [opened_operator opens]
  · rw [opened_opener opens]
    exact Nat.le_succ _

theorem levels_le : ∀ level ∈ levels below, level ≤ (opened below).length := by
  induction below with
  | nil => simp [levels]
  | cons o below ih =>
    have grows : (opened below).length ≤ (opened (o :: below)).length := opened_length_cons
    intro level inside
    rw [levels] at inside
    split at inside
    · rcases List.mem_cons.1 inside with rfl | inside
      · exact grows
      · exact (ih level inside).trans grows
    · exact (ih level inside).trans grows

/-- Where no declaration is being read, those that wait are outside of the innermost bracket. -/
theorem levels_lt (worded : Stackwise Worded below) (plain : declaring below = false) :
    ∀ level ∈ levels below, level < (opened below).length := by
  induction worded with
  | nil => simp [levels]
  | @cons o below holds _ ih =>
    have no : o.rule.declares = false := by
      rw [declaring_cons] at plain
      split at plain
      · next apply => simp [Rule.declares, apply]
      · exact plain
    have same : levels (o :: below) = levels below := by
      rw [levels, if_neg (Bool.eq_false_iff.1 no)]
    rw [same]
    rcases holds with opens | apply | free
    · intro level inside
      rw [opened_opener opens]
      exact Nat.lt_succ_of_le (levels_le level inside)
    · rw [declaring_cons, if_pos apply] at plain
      exact fun level inside => Nat.lt_of_lt_of_le (ih plain level inside) opened_length_cons
    · exact fun level inside => Nat.lt_of_lt_of_le (ih free level inside) opened_length_cons

/-- Taking operators off a bracket does not bring a declaration to light. -/
theorem declaring_append (above : List Pending) (worded : Stackwise Worded (above ++ below))
    (operators : ∀ o ∈ above, o.rule.isOpener = false) (plain : declaring (above ++ below) = false) :
    declaring below = false := by
  induction above with
  | nil => exact plain
  | cons o above ih =>
    rw [List.forall_mem_cons] at operators
    refine ih worded.tail operators.2 ?_
    rcases worded.head with opens | apply | free
    · rw [operators.1] at opens
      cases opens
    · rwa [List.cons_append, declaring_cons, if_pos apply] at plain
    · exact free

theorem Reduct.declaring (reduct : Reduct p top below t q) (stack : Stacked (top :: below))
    (worded : Stackwise Worded (top :: below)) (operator : top.rule.isOpener = false)
    (plain : Parser.declaring (top :: below) = false) : Parser.declaring q.pending = false := by
  have tail := declaring_append [top] worded (by simpa using operator) plain
  cases reduct with
  | @chain links rest lefts _ split collects =>
    rw [split] at stack worded plain
    refine declaring_append _ worded (collects.operators stack fun o first => ?_) plain
    cases links with
    | nil => cases collects
    | cons first' links =>
      obtain ⟨rfl, -⟩ := List.cons.inj split
      cases first
      exact operator
  | headless => rwa [← declaring_markSection] at tail
  | _ => exact tail

theorem Edit.declaring (edit : Edit p q) (stack : Stacked p.pending) (worded : Stackwise Worded p.pending)
    (separators : ∀ rule ∈ opened p.pending, rule.isSeparator = false)
    (plain : Parser.declaring p.pending = false) : Parser.declaring q.pending = false := by
  cases edit with
  | reduce here _ operator reduct =>
    rw [here] at stack worded plain
    exact reduct.declaring stack worded operator plain
  | @separator top below here _ separates =>
    rw [here] at worded plain separators
    refine declaring_append [top] worded ?_ plain
    simp only [List.mem_singleton, forall_eq]
    refine Bool.eq_false_iff.2 fun opens => ?_
    rw [opened_opener opens] at separators
    rw [separators _ (List.mem_cons_self ..)] at separates
    cases separates
  | @operator top below here _ operator =>
    rw [here] at worded plain
    exact declaring_append [top] worded (by simpa using operator) plain
  | gap here =>
    rw [here, declaring_cons] at plain
    rwa [declaring_cons, declaring_markSection]

/-! ### Words that are no brackets -/

/-- No bracket that stays in force inside of so many others has this symbol. -/
def Clear (entries : List Registration) (level : Nat) (word : String) : Prop :=
  ∀ e ∈ entries, e.rule.IsBracket → e.scope < level → e.rule.symbol ≠ word

/-- No name of the tree is a bracket where a declaration waits for it. -/
def ClearIn (entries : List Registration) (levels : List Nat) (t : Tree) : Prop :=
  ∀ level ∈ levels, ∀ word, Tree.Part (.name word) t → Clear entries level word.text

/-- The names that an operator holds are no brackets where the declarations under it register. -/
structure Clears (entries : List Registration) (o : Pending) (below : List Pending) : Prop where
  left : ∀ t ∈ o.left, ClearIn entries (levels below) t
  missing : o.missingLeft = true → ClearIn entries (levels below) (.name o.tag)

theorem clears_unmarked : Unmarked (Clears entries) where
  under clears := by
    constructor
    · rw [levels_markSection]
      exact clears.left
    · rw [levels_markSection]
      exact clears.missing
  here _ clears := ⟨clears.left, clears.missing⟩

/-- No name that the parser holds is a bracket where a declaration waits for it. -/
structure Cleared (entries : List Registration) (p : Parser) : Prop where
  pending : Stackwise (Clears entries) p.pending
  operand : ∀ t ∈ p.operand, ClearIn entries (levels p.pending) t

theorem ClearIn.fewer {levels levels' : List Nat} (clear : ClearIn entries levels t) (fewer : levels' ⊆ levels) :
    ClearIn entries levels' t :=
  fun level inside => clear level (fewer inside)

theorem kept_clear {word : Tag} (clears : Stackwise (Clears entries) (above ++ below))
    (kept : Kept (.name word) above) : ∀ level ∈ levels below, Clear entries level word.text := by
  induction above with
  | nil => simp [Kept] at kept
  | cons o above ih =>
    rw [kept_cons] at kept
    rcases kept with ⟨t, left, part⟩ | kept
    · exact fun level inside => clears.head.left t left level (levels_append _ inside) word part
    · exact ih clears.tail kept

/-- The names of a reduced operator are those of its operands. -/
theorem Reduct.clear (reduct : Reduct p top below right q) (stack : Stacked (top :: below))
    (clears : Stackwise (Clears entries) (top :: below)) (clear : ClearIn entries (levels (top :: below)) right) :
    ∀ t ∈ q.operand, ClearIn entries (levels q.pending) t := by
  have inner : ClearIn entries (levels below) right := clear.fewer levels_cons
  rintro t same level inside word part
  cases reduct with
  | @chain links rest lefts _ split collects =>
    cases same
    rw [split] at clears stack clear
    obtain ⟨child, member, part⟩ := (Tree.part_iff.1 part).resolve_left nofun
    rcases List.mem_append.1 member with left | last
    · exact kept_clear clears ((collects.kept stack).1 ⟨child, left, part⟩) level inside
    · rw [List.mem_singleton] at last
      cases last
      exact clear level (levels_append _ inside) word part
  | erase =>
    cases same
    exact inner level inside word part
  | declare =>
    cases same
    exact absurd ((Tree.part_leaf rfl).1 part) nofun
  | leading =>
    cases same
    obtain ⟨child, member, part⟩ := (Tree.part_iff.1 part).resolve_left nofun
    cases List.mem_singleton.1 member
    exact inner level inside word part
  | headless =>
    cases same
    rw [levels_markSection] at inside
    rcases (Tree.part_ofInfix rfl).1 part with gap | part
    · obtain ⟨child, member, -⟩ := (Tree.part_iff.1 gap).resolve_left nofun
      cases member
    · exact inner level inside word part
  | infixed _ _ _ operand =>
    cases same
    rcases (Tree.part_ofInfix rfl).1 part with left | right
    · exact clears.head.left _ operand level inside word left
    · exact inner level inside word right

theorem Cleared.edit (cleared : Cleared entries p) (stack : Stacked p.pending) (edit : Edit p q) :
    Cleared entries q := by
  refine ⟨edit.stackwise clears_unmarked cleared.pending, ?_⟩
  obtain ⟨clears, operand⟩ := cleared
  cases edit with
  | reduce here same _ reduct =>
    rw [here] at stack clears operand
    exact reduct.clear stack clears (operand _ same)
  | separator here =>
    rw [here] at clears
    exact clears.head.left
  | operator here _ _ missing =>
    rw [here] at clears
    rintro t same
    cases same
    exact clears.head.missing missing
  | gap =>
    rintro t same
    cases same
    intro level _ word part
    obtain ⟨child, member, -⟩ := (Tree.part_iff.1 part).resolve_left nofun
    cases member

/-- Brackets that are registered inside of all declarations that wait change nothing. -/
theorem Cleared.grow (cleared : Cleared entries p)
    (grows : ∀ e ∈ entries', e ∈ entries ∨ ∀ level ∈ levels p.pending, level ≤ e.scope) : Cleared entries' p := by
  have trees : ∀ {inner t}, inner ⊆ levels p.pending → ClearIn entries inner t → ClearIn entries' inner t := by
    intro inner t within clear level inside word part e member bracket outer
    rcases grows e member with old | new
    · exact clear level inside word part e old bracket outer
    · exact absurd (new level (within inside)) (by omega)
  refine ⟨?_, fun t same => trees (List.Subset.refl _) (cleared.operand t same)⟩
  have general : ∀ pending, levels pending ⊆ levels p.pending → Stackwise (Clears entries) pending →
      Stackwise (Clears entries') pending := by
    intro pending within clears
    induction clears with
    | nil => exact .nil
    | cons clears _ ih =>
      have within := List.Subset.trans levels_cons within
      refine .cons ⟨fun t same => ?_, fun missing => ?_⟩ (ih within)
      · exact trees within (clears.left t same)
      · exact trees within (clears.missing missing)
  exact general _ (List.Subset.refl _) cleared.pending

theorem Cleared.push (cleared : Cleared entries p) : Cleared entries (p.push rule tag) :=
  ⟨.cons ⟨cleared.operand, nofun⟩ cleared.pending, nofun⟩

/-! ### The pairs stay -/

/-- The brackets that are in force are found by their symbols, and will be. -/
structure Guarded (p : Parser) : Prop where
  scopes : Scoped 1 p
  knows : Knows p
  paired : p.registry.Paired
  worded : Stackwise Worded p.pending
  cleared : Cleared p.registry.entries p

theorem guarded_start (origin : Origin) : Guarded (.start .default origin) := by
  have base : Registry.default.depth = 1 := by decide +kernel
  refine ⟨base ▸ scoped_start default_written origin, knows_start origin, ?_, .cons (.inl rfl) .nil,
    ⟨.cons ⟨nofun, nofun⟩ .nil, nofun⟩⟩
  dsimp only [start]
  exact Registry.paired_default

theorem Guarded.scope (g : Guarded p) : p.registry.scope + 1 = (opened p.pending).length := by
  have depth := g.scopes.step.depth
  unfold Registry.depth at depth
  omega

theorem Guarded.edit (g : Guarded p) (edit : Edit p q) : Guarded q := by
  have scopes := g.scopes.edit edit
  have knows := g.knows.edit edit
  have worded := edit.stackwise worded_unmarked g.worded
  have cleared := g.cleared.edit g.scopes.stack edit
  rcases edit.registry with
    same | ⟨top, below, right, kind, d, here, operand, leads, declares, read, -, under, scope, entries, nodup⟩
  · exact ⟨scopes, knows, same ▸ g.paired, worded, same ▸ cleared⟩
  · have keyword : top.rule.declares = true := Rule.declares_iff.2 ⟨kind, declares⟩
    have plain : declaring below = false := by
      have word := g.worded
      rw [here] at word
      refine (word.head.resolve_left ?_).resolve_left ?_
      · simp [Rule.isOpener, leads]
      · simp [declares]
    have brackets : (opened below).length = p.registry.scope + 1 := by
      rw [g.scope, here, opened_operator (not_opener (by rw [leads]; exact Fixity.noConfusion))]
    refine ⟨scopes, knows, g.paired.register scope entries nodup ?_, worded, cleared.grow ?_⟩
    · rintro ⟨symbol, rule⟩ inside e member bracket
      obtain ⟨listed, named, -⟩ := Declaration.mem_rules inside
      have clear := g.cleared.operand right operand
      rw [here] at clear
      have level : (opened below).length ∈ levels (top :: below) := by
        rw [levels, if_pos keyword]
        exact List.mem_cons_self ..
      have within := g.paired.older e member
      rw [named]
      exact clear _ level symbol ((Declaration.ofOperand_ok read).2.2.2 symbol listed) e member bracket (by omega)
    · intro e inside
      rw [entries, List.mem_append, List.mem_reverse, List.mem_map] at inside
      rcases inside with ⟨rule, -, rfl⟩ | old
      · right
        rw [under] at worded ⊢
        intro level inside
        have := levels_lt worded plain level inside
        dsimp only
        omega
      · exact .inl old

theorem Guarded.edits (g : Guarded p) (edits : Relation.ReflTransGen Edit p q) : Guarded q :=
  edits_keep (fun edit g => Guarded.edit g edit) edits g

theorem declaring_free (operator : ¬rule.IsBracket) (free : p.isDeclared rule = false) :
    rule.isSeparator = true ∨ rule.reduction = .comma ∨ declaring p.pending = false := by
  obtain ⟨opens, closes⟩ := not_or.1 operator
  rw [isDeclared_eq, Bool.and_eq_false_iff] at free
  simp only [opens, closes, Bool.not_eq_false', Bool.or_eq_true, beq_iff_eq, or_false, or_assoc] at free
  exact free

/-- Where no word of a declaration is wanted, none is wanted after reductions. -/
theorem Guarded.still (g : Guarded p) (edits : Relation.ReflTransGen Edit p q) (free : declaring p.pending = false) :
    declaring q.pending = false := by
  refine (edits_keep (I := fun p => Guarded p ∧ declaring p.pending = false) ?_ edits ⟨g, free⟩).2
  rintro p q edit ⟨g, free⟩
  exact ⟨g.edit edit, edit.declaring g.scopes.stack g.worded g.scopes.separators free⟩

/-- A separator does not lie on a declaration, since it is looser. -/
theorem Guarded.separated (g : Guarded p) (loose : rule.left = 1)
    (stops : ∀ top ∈ p.pending.head?, top.rule.isOpener = true ∨ top.rule.Waits rule) :
    declaring p.pending = false := by
  have known := g.knows.pending
  cases here : p.pending with
  | nil => rfl
  | cons top below =>
    rw [here] at stops known
    have top' := regular known.head.2
    have other : top.rule.reduction ≠ .apply ∧ top.rule.declares = false := by
      rcases stops top rfl with opens | waits
      · obtain ⟨kind, bracket⟩ := top'.bracket (.inl (by simpa [Rule.isOpener] using opens))
        simp [Rule.declares, bracket]
      · have right : top.rule.right ≤ 1 := by
          unfold Rule.Waits at waits
          omega
        refine ⟨fun apply => ?_, Bool.eq_false_iff.2 fun declares => ?_⟩
        · have := top'.apply apply
          omega
        · have := top'.declares declares
          omega
    rw [declaring_cons, if_neg other.1, other.2]

/-- An operator that is no word of a declaration does not lie on one once there is place for it. -/
theorem Guarded.free (g : Guarded p) (ready : Ready p rule r) (regular : rule.Regular)
    (between : rule.fixity = .infixOp) (free : p.isDeclared rule = false) : declaring r.pending = false := by
  have separated : rule.isSeparator = true ∨ rule.reduction = .comma → declaring r.pending = false := by
    intro separates
    obtain ⟨-, start, left, -⟩ := regular.separates separates
    cases ready with
    | continues continues =>
      rw [start] at continues
      cases continues
    | binds _ reduces stops => exact (g.edits reduces.edits).separated left stops
  rcases declaring_free (by simp [Rule.IsBracket, between]) free with separates | comma | free
  · exact separated (.inl separates)
  · exact separated (.inr comma)
  · exact g.still ready.edits free

theorem Guarded.push (g : Guarded p) (scopes : Scoped 1 (p.push rule tag)) (knows : Knows (p.push rule tag))
    (worded : rule.isOpener = true ∨ rule.reduction = .apply ∨ declaring p.pending = false) :
    Guarded (p.push rule tag) :=
  ⟨scopes, knows, g.paired, .cons worded g.worded, g.cleared.push⟩

theorem Guarded.behind (g : Guarded p) (behind : p.operand.isSome = true) (ready : Ready p rule r)
    (between : rule.fixity = .infixOp) (named : tag.text = rule.symbol)
    (known : Known p.Declared rule ∨ rule ∈ ownRules) (free : rule.reduction = .apply ∨ p.isDeclared rule = false) :
    Guarded (r.push rule tag) := by
  refine (g.edits ready.edits).push (g.scopes.behind behind ready between)
    (g.knows.behind behind ready between named known) ?_
  exact .inr (free.imp_right (g.free ready (regular known) between))

/-- Juxtaposition does not wait for the words of a declaration, so that it registers nothing. -/
theorem Room.registry (room : Room p place r) (knows : Knows p) : r.registry = p.registry := by
  cases room with
  | empty => rfl
  | juxtaposed _ ready =>
    cases ready with
    | continues continues => cases continues
    | binds _ reduces =>
      clear * - reduces knows
      induction reduces with
      | refl => rfl
      | @step p q _ top below right here operand operator tighter reduct _ ih =>
        have edit := Edit.reduce here operand operator reduct
        refine (ih (knows.edit edit)).trans ?_
        rcases edit.registry with same | ⟨_, _, _, kind, _, here', -, -, declares, -⟩
        · exact same
        · cases here.symm.trans here'
          have known := knows.pending
          rw [here] at known
          have loose := (regular known.head.2).declares (Rule.declares_iff.2 ⟨kind, declares⟩)
          have tighter := tighter.2
          simp only [Rule.Tighter, Rule.space, Rule.infixOp] at tighter
          omega

theorem Guarded.room (g : Guarded p) (room : Room p place r) : Guarded r := by
  cases room with
  | empty => exact g
  | juxtaposed behind ready => exact g.behind behind ready rfl rfl (.inr (by simp [ownRules])) (.inl rfl)

/-- A word that is not read as a bracket is none. -/
theorem Guarded.word {text : String} (g : Guarded p)
    (other : ∀ e, p.registry.find? text = some e → ¬e.rule.IsBracket) (levels : List Nat) (span : Span) :
    ClearIn p.registry.entries levels (.name (p.tag text span)) := by
  intro level _ word part e member bracket _ same
  cases (Tree.part_leaf rfl).1 part
  have found := g.paired.found e member bracket
  rw [same] at found
  exact other e found bracket

theorem Guarded.plain {text : String} (g : Guarded p)
    (plain : (p.registry.lookup text).isOperand = true ∨ p.isDeclared (p.registry.lookup text) = true) :
    ∀ e, p.registry.find? text = some e → ¬e.rule.IsBracket := by
  intro e found bracket
  rw [Registry.lookup, found] at plain
  obtain ⟨kind, reduction⟩ := (regular (.inl (g.knows.entries e (Registry.mem_of_find? found).1))).bracket bracket
  rcases plain with operand | declared
  · simp [Rule.isOperand, reduction] at operand
  · rw [isDeclared_eq] at declared
    rcases bracket with opens | closes
    · simp [opens] at declared
    · simp [closes] at declared

theorem Guarded.operand (g : Guarded p) (empty : p.operand = none)
    (clear : ClearIn p.registry.entries (levels p.pending) t) : Guarded { p with operand := some t } :=
  ⟨g.scopes.operand _, g.knows.same (fun _ declared => declared.operand empty _) rfl rfl, g.paired, g.worded,
    ⟨g.cleared.pending, fun _ same => Option.some.inj same ▸ clear⟩⟩

theorem Guarded.closes (g : Guarded p) (closes : Closes C p q) (inside : ∀ o, C o → o.rule ≠ fileRule) :
    Guarded q := by
  have scopes := g.scopes.closes closes inside
  have knows := g.knows.closes closes
  obtain @⟨r, opener, below, closing, t, edits, here, opens, partner, tree⟩ := closes
  obtain ⟨-, -, paired, worded, cleared⟩ := g.edits edits
  have pending := cleared.pending
  have operand := cleared.operand
  rw [here] at worded pending operand
  have cleared' : Cleared r.registry.entries { r with operand := some t, pending := below } := by
    refine ⟨pending.tail, ?_⟩
    rintro t' same level member word part
    cases same
    obtain ⟨content, same, part⟩ := (Tree.part_ofBracket rfl tree).1 part
    exact operand content same level (levels_cons member) word part
  refine ⟨scopes, knows, paired.popScope, worded.tail, ?_⟩
  exact ⟨(cleared'.grow fun e member => .inl (Registry.mem_of_mem_popScope member)).pending,
    (cleared'.grow fun e member => .inl (Registry.mem_of_mem_popScope member)).operand⟩

theorem Guarded.dedents (g : Guarded p) (dedents : Dedents ends p q) : Guarded q := by
  induction dedents with
  | stop => exact g
  | step _ _ closes _ ih =>
    refine ih (g.closes closes fun o block file => ?_)
    rw [file] at block
    cases block

theorem Guarded.shifts (g : Guarded p) (worded : token.symbol ≠ some "") (shifts : Shifts p span token q) :
    Guarded q := by
  have scopes := g.scopes.shifts worded shifts
  have knows := g.knows.shifts shifts
  cases shifts with
  | eof | inside | continues => exact g
  | literal leaf room =>
    refine (g.room room).operand room.empties fun level _ word part => ?_
    cases token <;> cases leaf <;> cases (Tree.part_leaf rfl).1 part
  | name _ plain room =>
    refine (g.room room).operand room.empties ?_
    rw [room.registry g.knows]
    exact g.word (g.plain plain) _ _
  | opening _ opens room =>
    obtain ⟨-, -, paired, worded, cleared⟩ := g.room room
    exact ⟨scopes, knows, paired.pushScope, .cons (.inl (beq_iff_eq.2 opens)) worded,
      ⟨.cons ⟨cleared.operand, by simp [Pending.leading]⟩ cleared.pending, by simp [openBracket, Parser.push]⟩⟩
  | @leading _ _ e _ acts leads room =>
    have inner := (regular (.inl (g.knows.entries e (Registry.mem_of_find? acts.found).1))).separates
    have free : declaring p.pending = false := by
      rcases declaring_free (by simp [Rule.IsBracket, leads]) acts.declared with separates | comma | free
      · cases leads.symm.trans (inner (.inl separates)).1
      · cases leads.symm.trans (inner (.inr comma)).1
      · exact free
    refine (g.room room).push scopes knows (.inr (.inr ?_))
    cases room with
    | empty => exact free
    | juxtaposed behind ready =>
      exact (declaring_cons _ _).trans ((if_pos rfl).trans (g.still ready.edits free))
  | closing acts _ closes =>
    refine g.closes closes fun o partner file => worded ?_
    rw [file] at partner
    rw [acts.word, ← (Registry.mem_of_find? acts.found).2]
    exact partner.symm
  | headless acts empty sections =>
    obtain ⟨between, -, operation⟩ := sectionable_facts sections
    have free : declaring p.pending = false := by
      have free := declaring_free (by simp [Rule.IsBracket, between]) acts.declared
      simpa [Rule.isSeparator, operation] using free
    refine ⟨scopes, knows, g.paired, .cons (.inr (.inr free)) g.worded,
      .cons ⟨by simp [Pending.leading], fun _ => ?_⟩ g.cleared.pending, ?_⟩
    · refine g.word (fun e found bracket => ?_) _ _
      cases acts.found.symm.trans found
      simp [Rule.IsBracket, between] at bracket
    · simp [empty]
  | infixed acts between behind ready =>
    obtain ⟨named, known⟩ := g.knows.acts acts
    exact g.behind behind ready between named (.inl known) (.inr acts.declared)
  | postfixed _ _ _ ready operand =>
    obtain ⟨-, -, paired, worded, cleared⟩ := g.edits ready.edits
    refine ⟨scopes, knows, paired, worded, cleared.pending, ?_⟩
    rintro t same level inside word part
    cases same
    obtain ⟨child, member, part⟩ := (Tree.part_iff.1 part).resolve_left (by simp)
    cases List.mem_singleton.1 member
    exact cleared.operand _ operand level inside word part
  | first => exact ⟨scopes, knows, g.paired, g.worded, g.cleared.pending, g.cleared.operand⟩
  | indents =>
    exact ⟨scopes, knows, g.paired.pushScope, .cons (.inl rfl) g.worded,
      ⟨.cons ⟨g.cleared.operand, by simp [Pending.leading]⟩ g.cleared.pending,
        by simp [openBlock, openBracket, Parser.push]⟩⟩
  | aligns _ dedents => exact g.dedents dedents
  | separates _ dedents _ behind ready =>
    refine (g.dedents dedents).behind behind ready rfl rfl (.inr (by simp [ownRules])) (.inr ?_)
    rfl

end Parser

end MixfixLambda
