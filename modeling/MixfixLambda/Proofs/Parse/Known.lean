import MixfixLambda.Proofs.Parse.Stack
import MixfixLambda.Proofs.Syntax.Registry

/-!
# Where rules come from

Under the default grammar every rule that is in force is one of that grammar or was declared in the source,
by a declaration that is still in the trees. An operator that waits has such a rule, or is one of those that
the parser puts in itself.
-/
namespace MixfixLambda

/-- The rules that a source can have if these declarations were made. -/
inductive Known (D : Declaration → Prop) (rule : Rule) : Prop
  | listed (listed : rule ∈ defaultRules)
  | declared {d : Declaration} {symbol : Tag} (made : D d)
      (precedence : d.kind ≠ .bracket → d.precedence.isSome = true) (inside : (symbol, rule) ∈ d.rules)

variable {D D' : Declaration → Prop} {rule : Rule}

theorem Known.mono (known : Known D rule) (more : ∀ d, D d → D' d) : Known D' rule := by
  cases known with
  | listed listed => exact .listed listed
  | declared made precedence inside => exact .declared (more _ made) precedence inside

/-- A declared rule is one of an operator, or of a bracket. -/
theorem Declaration.rules_cases {d : Declaration} {symbol : Tag} (inside : (symbol, rule) ∈ d.rules) :
    rule.reduction = .operator ∧ rule.fixity ≠ .opening ∧ rule.fixity ≠ .closing ∧
        rule.left = d.precedence.getD 0 ∧ rule.right = d.precedence.getD 0 ∧ rule.prior = d.prior.map Tag.text ∨
      ∃ opening closing, rule = .opening opening closing .user ∨ rule = .closing closing opening .user := by
  obtain ⟨-, -, ⟨rfl, -⟩ | ⟨-, opening, closing, -, same⟩⟩ := Declaration.mem_rules inside
  · left
    unfold Declaration.ruleOf
    cases d.kind <;> cases d.prior <;> exact ⟨rfl, Fixity.noConfusion, Fixity.noConfusion, rfl, rfl, rfl⟩
  · refine .inr ⟨opening.text, closing.text, same.imp (fun same => ?_) fun same => ?_⟩ <;> cases same <;> rfl

namespace Parser

variable {p q r : Parser} {tag : Tag} {place : Nat} {C : Pending → Prop} {ends : Nat → Bool} {token : Token}
  {span : Span}

/-- The rules that the parser has for itself. -/
def ownRules : List Rule :=
  [Rule.space, Rule.newline, blockRule, fileRule]

/-- A pending operator is called like its rule, which is known. -/
def KnownOp (D : Declaration → Prop) (o : Pending) (_ : List Pending) : Prop :=
  o.tag.text = o.rule.symbol ∧ (Known D o.rule ∨ o.rule ∈ ownRules)

theorem knownOp_unmarked : Unmarked (KnownOp D) where
  under known := known
  here _ known := known

/-- The rules of the parser are known. -/
structure Knows (p : Parser) : Prop where
  stack : Stacked p.pending
  entries : ∀ e ∈ p.registry.entries, Known p.Declared e.rule
  pending : Stackwise (KnownOp p.Declared) p.pending

theorem knows_start (origin : Origin) : Knows (.start .default origin) where
  stack := .cons ⟨by simp [Pending.leading, fileRule, Rule.opening], by simp [Pending.leading]⟩ .nil
  entries _ inside := .listed (Registry.mem_default_entries inside).2
  pending := .cons ⟨rfl, .inr (by simp [Pending.leading, ownRules])⟩ .nil

/-- What keeps the declarations keeps the rules. -/
theorem Knows.congr (knows : Knows p) (keeps : ∀ d, p.Declared d → q.Declared d) (stack : Stacked q.pending)
    (entries : ∀ e ∈ q.registry.entries, e ∈ p.registry.entries ∨ Known q.Declared e.rule)
    (pending : Stackwise (KnownOp q.Declared) q.pending) : Knows q := by
  refine ⟨stack, fun e inside => ?_, pending⟩
  rcases entries e inside with old | new
  · exact (knows.entries e old).mono keeps
  · exact new

theorem Knows.later (knows : Knows p) (keeps : ∀ d, p.Declared d → q.Declared d) :
    Stackwise (KnownOp q.Declared) p.pending :=
  knows.pending.mono fun _ _ known => ⟨known.1, known.2.imp_left fun known => known.mono keeps⟩

theorem Knows.same (knows : Knows p) (keeps : ∀ d, p.Declared d → q.Declared d)
    (entries : q.registry.entries = p.registry.entries) (pending : q.pending = p.pending) : Knows q :=
  knows.congr keeps (pending ▸ knows.stack) (fun _ inside => .inl (entries ▸ inside)) (pending ▸ knows.later keeps)

theorem Knows.edit (knows : Knows p) (edit : Edit p q) : Knows q := by
  have keeps : ∀ d, p.Declared d → q.Declared d := fun d declared => declared.edits knows.stack (.single edit)
  refine knows.congr keeps (edit.stackwise fits_unmarked knows.stack) (fun e inside => ?_)
    (edit.stackwise knownOp_unmarked (knows.later keeps))
  rcases edit.registry with same | ⟨_, _, _, _, d, -, -, -, -, read, made, -, -, entries, -⟩
  · exact .inl (same ▸ inside)
  · rw [entries, List.mem_append, List.mem_reverse, List.mem_map] at inside
    rcases inside with ⟨⟨symbol, rule⟩, inside, rfl⟩ | inside
    · obtain ⟨kind, precedence, -⟩ := Declaration.ofOperand_ok read
      exact .inr (.declared (.inl ⟨_, made, .root⟩) (kind ▸ precedence) inside)
    · exact .inl inside

theorem Knows.edits (knows : Knows p) (edits : Relation.ReflTransGen Edit p q) : Knows q :=
  edits_keep (fun edit knows => Knows.edit knows edit) edits knows

/-- A new operator with a known rule. -/
theorem Knows.adds {o : Pending} (knows : Knows p) (stack : Stacked q.pending)
    (entries : q.registry.entries = p.registry.entries) (pending : q.pending = o :: p.pending)
    (left : o.left = p.operand) (named : o.tag.text = o.rule.symbol)
    (known : Known p.Declared o.rule ∨ o.rule ∈ ownRules) : Knows q := by
  have keeps : ∀ d, p.Declared d → q.Declared d := fun d declared => declared.adds pending left
  refine knows.congr keeps stack (fun _ inside => .inl (entries ▸ inside)) ?_
  rw [pending]
  exact .cons ⟨named, known.imp_left fun known => known.mono keeps⟩ (knows.later keeps)

theorem Knows.behind (knows : Knows p) (behind : p.operand.isSome = true) (ready : Ready p rule r)
    (between : rule.fixity = .infixOp) (named : tag.text = rule.symbol)
    (known : Known p.Declared rule ∨ rule ∈ ownRules) : Knows (r.push rule tag) :=
  (knows.edits ready.edits).adds (knows.stack.behind behind ready between) rfl rfl rfl named
    (known.imp_left fun known => known.mono fun _ declared => declared.ready knows.stack ready)

theorem Knows.room (knows : Knows p) (room : Room p place r) : Knows r := by
  cases room with
  | empty => exact knows
  | juxtaposed behind ready => exact knows.behind behind ready rfl rfl (.inr (by simp [ownRules]))

theorem Knows.closes (knows : Knows p) (closes : Closes C p q) : Knows q := by
  obtain @⟨r, opener, below, closing, t, edits, here, opens, partner, tree⟩ := closes
  have knows' := knows.edits edits
  have keeps := fun d (declared : r.Declared d) =>
    declared.closes knows'.stack (.intro (C := C) .refl here opens partner tree)
  have pending := knows'.later keeps
  have stack := knows'.stack
  rw [here] at pending stack
  exact knows'.congr keeps stack.tail (fun e inside => .inl (Registry.mem_of_mem_popScope inside)) pending.tail

theorem Knows.dedents (knows : Knows p) (dedents : Dedents ends p q) : Knows q := by
  induction dedents with
  | stop => exact knows
  | step _ _ closes _ ih => exact ih (knows.closes closes)

/-- A word that acts has a known rule. -/
theorem Knows.acts {text : String} {e : Registration} (knows : Knows p) (acts : Acts p token text e) :
    (p.tag text span).text = e.rule.symbol ∧ Known p.Declared e.rule := by
  obtain ⟨inside, same⟩ := Registry.mem_of_find? acts.found
  exact ⟨same.symm, knows.entries e inside⟩

theorem Knows.shifts (knows : Knows p) (shifts : Shifts p span token q) : Knows q := by
  have stack := knows.stack.shifts shifts
  have keeps : ∀ d, p.Declared d → q.Declared d := fun d declared => declared.shifts knows.stack shifts
  cases shifts with
  | eof | inside | continues => exact knows
  | literal _ room | name _ _ room =>
    exact (knows.room room).same (fun d declared => declared.operand room.empties _) rfl rfl
  | opening acts _ room | leading acts _ room =>
    obtain ⟨named, known⟩ := knows.acts acts
    exact (knows.room room).adds stack rfl rfl rfl named
      (.inl (known.mono fun d declared => declared.room knows.stack room))
  | closing _ _ closes => exact knows.closes closes
  | headless acts empty =>
    obtain ⟨named, known⟩ := knows.acts acts
    exact knows.adds stack rfl rfl empty.symm named (.inl known)
  | infixed acts between behind ready =>
    obtain ⟨named, known⟩ := knows.acts acts
    exact knows.behind behind ready between named (.inl known)
  | postfixed _ _ _ ready operand =>
    exact (knows.edits ready.edits).same (fun d declared => declared.postfixed operand) rfl rfl
  | first => exact knows.same keeps rfl rfl
  | indents => exact knows.adds stack rfl rfl rfl rfl (.inr (by simp [Pending.leading, ownRules]))
  | aligns _ dedents => exact knows.dedents dedents
  | separates _ dedents _ behind ready =>
    exact (knows.dedents dedents).behind behind ready rfl rfl (.inr (by simp [ownRules]))

end Parser

end MixfixLambda
