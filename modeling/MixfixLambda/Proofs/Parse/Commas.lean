import MixfixLambda.Proofs.Parse.Balance
import MixfixLambda.Proofs.Parse.Line
import MixfixLambda.Proofs.Tree.Commas

/-!
# Commas outside of brackets

Items between commas lie on nothing but brackets, separators and operators that are as loose as a comma, and only
such an operator takes them to its left. Where all operators of a line are tighter, its commas come out at the root
of its tree and are refused; a separator hides them.
-/
namespace MixfixLambda

/-- A declaration of an operator that may hold items between commas: it is no tighter than a comma, or it continues
a chain. -/
def Declaration.Loose (d : Declaration) (symbol : String) : Prop :=
  ((∃ n ∈ d.precedence, n ≤ 1) ∨ d.prior.isSome = true) ∧ symbol ∈ d.symbols.map Tag.text

/-- A symbol that has such a declaration. -/
def LooseBy (D : Declaration → Prop) (symbol : String) : Prop :=
  ∃ d, D d ∧ d.Loose symbol

variable {D D' : Declaration → Prop} {rule : Rule}

theorem LooseBy.mono {symbol : String} (loose : LooseBy D symbol) (more : ∀ d, D d → D' d) : LooseBy D' symbol :=
  let ⟨d, here, made⟩ := loose
  ⟨d, more d here, made⟩

namespace Parser

variable {p q r : Parser} {o top : Pending} {above below rest : List Pending} {tag : Tag} {place : Nat}
  {C : Pending → Prop} {ends : Nat → Bool} {token : Token} {span : Span} {t right : Tree}

/-- An operator that was declared says that it is loose, and all others are tighter than a comma, but for separators
and commas. -/
inductive Tightness (D : Declaration → Prop) (rule : Rule) : Prop
  | declared (operator : rule.reduction = .operator)
      (loose : rule.left = 0 ∨ rule.right ≤ 1 ∨ rule.prior.isSome = true → LooseBy D rule.symbol)
  | listed (left : 0 < rule.left)
      (separates : rule.right ≤ 1 → (rule.isSeparator = true ∨ rule.reduction = .comma) ∧ rule.symbol ∉ ["if", "then"])
      (prior : ∀ prior ∈ rule.prior, prior ∈ ["if", "then"]) (follows : rule.fixity ≠ .postfixOp)

theorem tightness (known : Known D rule ∨ rule ∈ ownRules) (operator : ¬rule.IsBracket) : Tightness D rule := by
  have listed : ∀ rule ∈ defaultRules ++ ownRules, ¬(rule.fixity = .opening ∨ rule.fixity = .closing) →
      0 < rule.left ∧
      (rule.right ≤ 1 → (rule.isSeparator = true ∨ rule.reduction = .comma) ∧ rule.symbol ∉ ["if", "then"]) ∧
      (∀ prior ∈ rule.prior, prior ∈ ["if", "then"]) ∧ rule.fixity ≠ .postfixOp := by
    decide +kernel
  have listed' : rule ∈ defaultRules ++ ownRules → Tightness D rule := fun inside =>
    let ⟨left, separates, prior, follows⟩ := listed rule inside operator
    .listed left separates prior follows
  rcases known with (inside | @⟨d, symbol, made, precedence, inside⟩) | inside
  · exact listed' (List.mem_append_left _ inside)
  · rcases Declaration.rules_cases inside with ⟨reduction, -, -, left, right, prior⟩ | ⟨_, _, rfl | rfl⟩
    · obtain ⟨listed, named, ⟨-, kind⟩ | ⟨-, _, _, -, same⟩⟩ := Declaration.mem_rules inside
      · obtain ⟨n, given⟩ := Option.isSome_iff_exists.1 (precedence kind)
        refine .declared reduction fun loose => ⟨d, made, ?_, List.mem_map.2 ⟨symbol, listed, named.symm⟩⟩
        rw [left, right, prior, given, Option.isSome_map] at loose
        rcases loose with zero | one | chains
        · exact .inl ⟨n, given, zero.trans_le (Nat.zero_le 1)⟩
        · exact .inl ⟨n, given, one⟩
        · exact .inr chains
      · rcases same with same | same <;> cases same <;> cases reduction
    · exact absurd (.inl rfl) operator
    · exact absurd (.inr rfl) operator
  · exact listed' (List.mem_append_right _ inside)

/-- What items between commas may lie on. -/
def Low (pending : List Pending) : Prop :=
  ∀ o ∈ pending.head?, o.rule.isOpener = true ∨ o.rule.right ≤ 1

theorem low_markSection {pending : List Pending} : Low (markSection pending) ↔ Low pending := by
  cases pending with
  | nil => rfl
  | cons o below =>
    unfold markSection
    split <;> simp [Low]

/-- Where an operator may lie and what it may hold on its left. -/
structure Apart (o : Pending) (below : List Pending) : Prop where
  waits : o.rule.fixity ≠ .closing
  missing : o.missingLeft = true → o.rule.reduction ≠ .comma
  comma : o.rule.reduction = .comma → Low below
  left : ∀ t ∈ o.left, t.isComma = true → o.rule.left = 0 ∨ o.rule.prior.isSome = true ∧ Low below

theorem apart_unmarked : Unmarked Apart where
  under apart := ⟨apart.waits, apart.missing, fun comma => low_markSection.2 (apart.comma comma),
    fun t same comma => (apart.left t same comma).imp_right fun chains => ⟨chains.1, low_markSection.2 chains.2⟩⟩
  here _ apart := ⟨apart.waits, apart.missing, apart.comma, apart.left⟩

/-- Commas stand where they are admitted. -/
structure Tidy (p : Parser) : Prop where
  knows : Knows p
  pending : Stackwise Apart p.pending
  low : ∀ t ∈ p.operand, t.isComma = true → Low p.pending
  trees : ∀ x, p.Says x → x.Admits (LooseBy p.Declared)

theorem Stackwise.mem {P : Pending → List Pending → Prop} (stack : Stackwise P below) (inside : o ∈ below) :
    ∃ rest, P o rest := by
  induction stack with
  | nil => cases inside
  | cons holds _ ih =>
    rcases List.mem_cons.1 inside with rfl | inside
    · exact ⟨_, holds⟩
    · exact ih inside

/-- Where a chain holds items between commas on the left of one of its parts, a part is loose. -/
theorem Collects.loose {links : List Pending} {lefts : List Tree} (collects : Collects links lefts)
    (stack : Stacked (links ++ rest)) (apart : Stackwise Apart (links ++ rest))
    (known : Stackwise (KnownOp D) (links ++ rest)) (operators : ∀ o ∈ links, o.rule.isOpener = false) :
    ∀ t ∈ lefts, t.isComma = true → ∃ o ∈ links, LooseBy D o.rule.symbol := by
  have tight : ∀ {o above below}, Stackwise Apart (o :: above ++ below) → Stackwise (KnownOp D) (o :: above ++ below) →
      o.rule.isOpener = false → Tightness D o.rule := by
    intro o above below apart known operator
    exact tightness known.head.2 (not_or.2 ⟨by simpa [Rule.isOpener] using operator, apart.head.waits⟩)
  induction collects with
  | first => simp
  | @infixed o left start between operand =>
    intro t inside comma
    obtain rfl := List.mem_singleton.1 inside
    refine ⟨o, List.mem_cons_self .., ?_⟩
    have zero : o.rule.left = 0 := (apart.head.left _ operand comma).resolve_right (by simp [start])
    cases tight apart known (operators o (List.mem_cons_self ..)) with
    | declared _ loose => exact loose (.inl zero)
    | listed left => omega
  | @next o previous left lefts links prior continues operand same collects ih =>
    intro t inside comma
    rw [List.forall_mem_cons] at operators
    rcases List.mem_append.1 inside with inside | inside
    · obtain ⟨o, member, loose⟩ := ih stack.tail apart.tail known.tail operators.2 t inside comma
      exact ⟨o, List.mem_cons_of_mem _ member, loose⟩
    · obtain rfl := List.mem_singleton.1 inside
      cases tight apart known operators.1 with
      | declared _ loose => exact ⟨o, List.mem_cons_self .., loose (.inr (.inr (by simp [continues])))⟩
      | listed positive _ prior' =>
        have low := ((apart.head.left _ operand comma).resolve_left (by omega)).2 previous rfl
        have operator := operators.2 previous (List.mem_cons_self ..)
        have right : previous.rule.right ≤ 1 := low.resolve_left (Bool.eq_false_iff.1 operator)
        refine ⟨previous, List.mem_cons_of_mem _ (List.mem_cons_self ..), ?_⟩
        cases tight apart.tail known.tail operator with
        | declared _ loose => exact loose (.inr (.inl right))
        | listed _ separates => exact absurd (same ▸ prior' prior continues) (separates right).2

/-- A reduction admits items between commas only next to a loose operator, and makes them of commas only. -/
theorem Reduct.admits (reduct : Reduct p top below right q) (stack : Stacked (top :: below))
    (apart : Stackwise Apart (top :: below)) (known : Stackwise (KnownOp D) (top :: below))
    (operator : top.rule.isOpener = false) (low : right.isComma = true → top.rule.right ≤ 1)
    (each : right.Each (Tree.Admits (LooseBy D))) (lefts : ∀ x, Kept x (top :: below) → x.Admits (LooseBy D)) :
    ∀ t ∈ q.operand, t.Each (Tree.Admits (LooseBy D)) ∧ (t.isComma = true → top.rule.reduction = .comma) := by
  have tight : Tightness D top.rule :=
    tightness known.head.2 (not_or.2 ⟨by simpa [Rule.isOpener] using operator, apart.head.waits⟩)
  have regular := regular known.head.2
  have named : top.tag.text = top.rule.symbol := known.head.1
  have infixed : ∀ {left : Tree}, left.Each (Tree.Admits (LooseBy D)) →
      (left.isComma = true → top.rule.left = 0) →
      (Tree.ofInfix top.rule.reduction top.tag left right).Each (Tree.Admits (LooseBy D)) ∧
        ((Tree.ofInfix top.rule.reduction top.tag left right).isComma = true → top.rule.reduction = .comma) := by
    intro left first loose
    refine Tree.each_ofInfix first each (fun comma => ?_) (fun comma => ?_)
    · cases tight with
      | declared reduction made => exact ⟨reduction, named ▸ made (.inl (loose comma))⟩
      | listed positive =>
        have := loose comma
        omega
    · cases tight with
      | declared reduction made => exact .inl ⟨reduction, named ▸ made (.inr (.inl (low comma)))⟩
      | listed _ separates => exact .inr ((separates (low comma)).1.imp_left beq_iff_eq.1)
  rintro t made
  cases reduct with
  | @chain links rest chained continues split collects =>
    cases made
    have first : ∃ more, links = top :: more := by
      cases links with
      | nil => cases collects
      | cons o more => exact ⟨more, by rw [(List.cons.inj split).1]⟩
    obtain ⟨more, same⟩ := first
    rw [split] at stack apart known lefts
    have operators := collects.operators stack fun o found => by
      rw [same] at found
      cases found
      exact operator
    have part : ∀ o ∈ links, LooseBy D o.rule.symbol → ∃ part ∈ links.reverse.map Pending.tag, LooseBy D part.text := by
      intro o inside loose
      obtain ⟨_, named, -⟩ := known.mem (List.mem_append_left _ inside)
      exact ⟨o.tag, List.mem_map_of_mem (List.mem_reverse.2 inside), named ▸ loose⟩
    refine ⟨Tree.each_iff.2 ⟨?_, ?_⟩, (by simp [Tree.isComma])⟩
    · rintro ⟨operand, inside, comma⟩
      rcases List.mem_append.1 inside with inside | inside
      · obtain ⟨o, member, loose⟩ := collects.loose stack apart known operators operand inside comma
        exact part o member loose
      · obtain rfl := List.mem_singleton.1 inside
        refine part top (by rw [same]; exact List.mem_cons_self ..) ?_
        cases tight with
        | declared _ loose => exact loose (.inr (.inl (low comma)))
        | listed _ separates =>
          have start := (regular.separates (separates (low comma)).1).2.1
          rw [start] at continues
          cases continues
    · intro child inside
      rcases List.mem_append.1 inside with inside | inside
      · exact fun x part => lefts x (kept_append.2 (.inl ((collects.kept stack).1 ⟨child, inside, part⟩)))
      · obtain rfl := List.mem_singleton.1 inside
        exact each
  | erase _ _ vanishes =>
    cases made
    refine ⟨each, fun comma => ?_⟩
    cases tight with
    | declared reduction =>
      rw [vanishes] at reduction
      cases reduction
    | listed _ separates =>
      have other := (separates (low comma)).1
      simp [Rule.isSeparator, vanishes] at other
  | declare =>
    cases made
    exact ⟨Tree.each_alone (by simp [Tree.Admits, Tree.children]) rfl, (by simp [Tree.isComma])⟩
  | leading start leads =>
    cases made
    refine ⟨Tree.each_iff.2 ⟨fun comma => ?_, by simpa [Tree.children] using each⟩, (by simp [Tree.isComma])⟩
    cases tight with
    | declared _ loose => exact named ▸ loose (.inr (.inl (low comma)))
    | listed _ separates =>
      have between := (regular.separates (separates (low comma)).1).1
      rw [leads] at between
      cases between
  | headless =>
    cases made
    exact infixed (Tree.each_alone (by simp [Tree.Admits, Tree.children]) rfl) (by simp [Tree.isComma])
  | infixed start _ _ operand =>
    cases made
    refine infixed (fun x part => lefts x (kept_cons.2 (.inl ⟨_, operand, part⟩))) fun comma => ?_
    exact (apart.head.left _ operand comma).resolve_right (by simp [start])

/-- Nothing that happens inside a bracket brings new left operands. -/
theorem Edit.kept {x : Tree} (edit : Edit p q) (kept : Kept x q.pending) : Kept x p.pending := by
  cases edit with
  | reduce here _ _ reduct =>
    rw [here]
    cases reduct with
    | chain _ split => exact split ▸ kept_append.2 (.inr kept)
    | headless => exact kept_cons.2 (.inr (kept_markSection.1 kept))
    | _ => exact kept_cons.2 (.inr kept)
  | separator here | operator here =>
    rw [here]
    exact kept_cons.2 (.inr kept)
  | gap here =>
    rw [here]
    exact kept_cons.2 ((kept_cons.1 kept).imp_right kept_markSection.1)

/-- Where a reduction leaves items between commas, it has reduced a comma, so that they lie on nothing tighter. -/
theorem Reduct.low (reduct : Reduct p top below right q) (apart : Stackwise Apart (top :: below))
    (comma : top.rule.reduction = .comma) (start : top.rule.prior = none) : Low q.pending := by
  have low := apart.head.comma comma
  cases reduct with
  | chain continues => simp [start] at continues
  | headless => exact low_markSection.2 low
  | _ => exact low

theorem Tidy.reduct (tidy : Tidy p) (here : p.pending = top :: below) (operand : p.operand = some right)
    (operator : top.rule.isOpener = false) (reduct : Reduct p top below right q) :
    ∀ t ∈ q.operand, t.Each (Tree.Admits (LooseBy p.Declared)) ∧ (t.isComma = true → top.rule.reduction = .comma) := by
  obtain ⟨knows, apart, low, trees⟩ := tidy
  have stack := knows.stack
  have known := knows.pending
  unfold Says at trees
  rw [here] at stack apart known low trees
  have loose : right.isComma = true → top.rule.right ≤ 1 := fun comma =>
    (low right operand comma top rfl).resolve_left (Bool.eq_false_iff.1 operator)
  exact reduct.admits stack apart known operator loose (fun x part => trees x (.inl ⟨right, operand, part⟩))
    fun x kept => trees x (.inr kept)

theorem Tidy.edit (tidy : Tidy p) (edit : Edit p q) : Tidy q := by
  have keeps : ∀ d, p.Declared d → q.Declared d := fun d declared => declared.edits tidy.knows.stack (.single edit)
  have pending := edit.stackwise apart_unmarked tidy.pending
  have known := tidy.knows.pending
  have trees := tidy.trees
  suffices operand : ∀ t ∈ q.operand, t.Each (Tree.Admits (LooseBy p.Declared)) ∧ (t.isComma = true → Low q.pending) by
    refine ⟨tidy.knows.edit edit, pending, fun t same => (operand t same).2, fun x said => ?_⟩
    suffices x.Admits (LooseBy p.Declared) from this.mono fun _ loose => loose.mono keeps
    rcases said with ⟨t, same, part⟩ | kept
    · exact (operand t same).1 x part
    · exact trees x (.inr (edit.kept kept))
  cases edit with
  | @reduce top below right _ here operand operator reduct =>
    intro t made
    obtain ⟨each, comma⟩ := tidy.reduct here operand operator reduct t made
    have apart := tidy.pending
    rw [here] at apart known
    refine ⟨each, fun found => reduct.low apart (comma found) ?_⟩
    exact ((regular known.head.2).separates (.inr (comma found))).2.1
  | @separator top below here _ separates =>
    intro t made
    have apart := tidy.pending
    unfold Says at trees
    rw [here] at apart known trees
    refine ⟨fun x part => trees x (.inr (kept_cons.2 (.inl ⟨t, made, part⟩))), fun comma => ?_⟩
    obtain ⟨-, start, left, -⟩ := (regular known.head.2).separates (.inl separates)
    rcases apart.head.left t made comma with zero | ⟨chains, -⟩
    · omega
    · simp [start] at chains
  | operator | gap =>
    rintro t made
    cases made
    exact ⟨Tree.each_alone (by simp [Tree.Admits, Tree.children]) rfl, (by simp [Tree.isComma])⟩

theorem Tidy.edits (tidy : Tidy p) (edits : Relation.ReflTransGen Edit p q) : Tidy q :=
  edits_keep (fun edit tidy => Tidy.edit tidy edit) edits tidy

/-- The parser between two tokens: no comma has been reduced yet. -/
structure Settled (p : Parser) : Prop extends Tidy p where
  plain : ∀ t ∈ p.operand, t.isComma = false

theorem settled_start (origin : Origin) : Settled (.start .default origin) where
  knows := knows_start origin
  pending := .cons ⟨nofun, nofun, nofun, nofun⟩ .nil
  low := nofun
  trees := by
    rintro x (⟨t, same, -⟩ | ⟨o, inside, t, same, -⟩)
    · cases same
    · cases List.mem_singleton.1 inside
      cases same
  plain := nofun

/-- Items between commas come from the reduction of a comma. -/
theorem Reduces.comma (reduces : Reduces C p r) (tidy : Tidy p) (found : ∃ t ∈ r.operand, t.isComma = true) :
    (∃ t ∈ p.operand, t.isComma = true) ∨ ∃ top, C top ∧ top.rule.Regular ∧ top.rule.reduction = .comma := by
  induction reduces with
  | refl => exact .inl found
  | @step p q _ top below right here operand operator may reduct _ ih =>
    refine (ih (tidy.edit (.reduce here operand operator reduct)) found).elim (fun ⟨t, made, comma⟩ => .inr ?_) .inr
    have known := tidy.knows.pending
    rw [here] at known
    exact ⟨top, may, regular known.head.2, (tidy.reduct here operand operator reduct t made).2 comma⟩

/-- Only a loose operator finds items between commas on its left. -/
theorem Settled.ready (settled : Settled p) (ready : Ready p rule r) :
    ∀ t ∈ r.operand, t.isComma = true → rule.left = 0 ∨ rule.prior.isSome = true ∧ Low r.pending := by
  intro t same comma
  cases ready with
  | binds _ reduces =>
    have before : ¬∃ t ∈ p.operand, t.isComma = true := fun ⟨t, same, comma⟩ =>
      Bool.eq_false_iff.1 (settled.plain t same) comma
    obtain ⟨top, ⟨-, tighter⟩, regular, reduction⟩ :=
      (reduces.comma settled.toTidy ⟨t, same, comma⟩).resolve_left before
    obtain ⟨-, -, -, right, assoc⟩ := regular.separates (.inr reduction)
    left
    rcases tighter with looser | ⟨-, left, -⟩
    · omega
    · rw [assoc] at left
      cases left
  | continues continues reduces =>
    exact .inr ⟨by rw [continues]; rfl, (settled.toTidy.edits reduces.edits).low t same comma⟩

/-- A new operator takes the operand read last to its left. -/
theorem Tidy.adds (tidy : Tidy p) (knows : Knows q) (pending : q.pending = o :: p.pending) (left : o.left = p.operand)
    (empty : q.operand = none) (apart : Apart o p.pending) : Settled q where
  knows := knows
  pending := pending ▸ .cons apart tidy.pending
  low := by simp [empty]
  trees x said := by
    have same : p.Says x := by
      unfold Says at said
      rw [empty, pending, kept_cons, left] at said
      exact said.resolve_left (by simp)
    exact (tidy.trees x same).mono fun _ loose => loose.mono fun d declared => declared.adds pending left
  plain := by simp [empty]

theorem Settled.behind (settled : Settled p) (behind : p.operand.isSome = true) (ready : Ready p rule r)
    (between : rule.fixity = .infixOp) (named : tag.text = rule.symbol)
    (known : Known p.Declared rule ∨ rule ∈ ownRules) : Settled (r.push rule tag) := by
  refine (settled.toTidy.edits ready.edits).adds (settled.knows.behind behind ready between named known) rfl rfl rfl
    ⟨by simp [Pending.leading, between], nofun, fun comma => ?_, settled.ready ready⟩
  obtain ⟨-, start, left, -⟩ := (regular known).separates (.inr comma)
  cases ready with
  | binds _ _ stops =>
    intro o first
    refine (stops o first).imp_right fun waits => ?_
    unfold Rule.Waits at waits
    omega
  | continues continues =>
    rw [start] at continues
    cases continues

theorem Settled.room (settled : Settled p) (room : Room p place r) : Settled r := by
  cases room with
  | empty => exact settled
  | juxtaposed behind ready => exact settled.behind behind ready rfl rfl (.inr (by simp [ownRules]))

/-- A word that leads an operand holds nothing on its left. -/
theorem Settled.leading (settled : Settled p) (knows : Knows q) (pending : q.pending = o :: p.pending)
    (left : o.left = none) (same : p.operand = none) (empty : q.operand = none) (waits : o.rule.fixity ≠ .closing)
    (other : o.rule.reduction ≠ .comma) : Settled q :=
  settled.toTidy.adds knows pending (left.trans same.symm) empty
    ⟨waits, fun _ => other, fun comma => absurd comma other, fun t held => by rw [left] at held; cases held⟩

theorem Settled.leaf (settled : Settled p) (empty : p.operand = none) (knows : Knows { p with operand := some t })
    (alone : t.children = []) (each : ∀ loose, t.Admits loose) (plain : t.isComma = false) :
    Settled { p with operand := some t } where
  knows := knows
  pending := settled.pending
  low := by
    rintro _ same comma
    cases same
    rw [plain] at comma
    cases comma
  trees := by
    rintro x (⟨_, same, part⟩ | kept)
    · cases same
      exact Tree.each_alone (each _) alone x part
    · exact (settled.trees x (.inr kept)).mono fun _ loose => loose.mono fun d declared => declared.operand empty t
  plain := by
    rintro _ same
    cases same
    exact plain

theorem Settled.closes (settled : Settled p) (closes : Closes C p q) : Settled q := by
  have knows := settled.knows.closes closes
  obtain @⟨r, opener, below, closing, t, edits, here, opens, partner, tree⟩ := closes
  obtain ⟨knows', apart, -, trees⟩ := settled.toTidy.edits edits
  obtain ⟨whole, plain⟩ := Tree.each_ofBracket (fun t same x part => trees x (.inl ⟨t, same, part⟩)) tree
  have keeps := fun d (declared : r.Declared d) =>
    declared.closes knows'.stack (.intro (C := C) .refl here opens partner tree)
  unfold Says at trees
  rw [here] at apart trees
  refine ⟨⟨knows, apart.tail, ?_, fun x said => ?_⟩, ?_⟩
  · rintro _ same comma
    cases same
    rw [plain] at comma
    cases comma
  · suffices x.Admits (LooseBy r.Declared) from this.mono fun _ loose => loose.mono keeps
    rcases said with ⟨_, same, part⟩ | kept
    · cases same
      exact whole x part
    · exact trees x (.inr (kept_cons.2 (.inr kept)))
  · rintro _ same
    cases same
    exact plain

theorem Settled.dedents (settled : Settled p) (dedents : Dedents ends p q) : Settled q := by
  induction dedents with
  | stop => exact settled
  | step _ _ closes _ ih => exact ih (settled.closes closes)

theorem Settled.shifts (settled : Settled p) (shifts : Shifts p span token q) : Settled q := by
  have knows := settled.knows.shifts shifts
  cases shifts with
  | eof | inside | continues => exact settled
  | literal leaf room =>
    have alone : ∀ {t : Tree}, token.literal? span = some t →
        t.children = [] ∧ (∀ loose, t.Admits loose) ∧ t.isComma = false := by
      intro t leaf
      cases token <;> cases leaf <;> exact ⟨rfl, by simp [Tree.Admits, Tree.children], rfl⟩
    obtain ⟨children, each, plain⟩ := alone leaf
    exact (settled.room room).leaf room.empties knows children each plain
  | name _ _ room =>
    exact (settled.room room).leaf room.empties knows rfl (by simp [Tree.Admits, Tree.children]) rfl
  | @opening _ _ e r acts opens room =>
    obtain ⟨kind, bracket⟩ := (regular (.inl (settled.knows.entries e (Registry.mem_of_find? acts.found).1))).bracket
      (.inl opens)
    refine (settled.room room).leading knows rfl room.empties room.empties rfl ?_ ?_
    · simp [Pending.leading, opens]
    · simp [Pending.leading, bracket]
  | @leading _ _ e r acts leads room =>
    have other := (regular (.inl (settled.knows.entries e (Registry.mem_of_find? acts.found).1))).separates
    refine (settled.room room).leading knows rfl room.empties room.empties rfl ?_ fun comma => ?_
    · simp [Pending.leading, leads]
    · cases leads.symm.trans (other (.inr comma)).1
  | closing _ _ closes => exact settled.closes closes
  | headless acts empty sections =>
    obtain ⟨between, -, operation⟩ := sectionable_facts sections
    refine settled.leading knows rfl rfl empty empty ?_ ?_
    · simp [Pending.leading, between]
    · simp [Pending.leading, operation]
  | infixed acts between behind ready =>
    obtain ⟨named, known⟩ := settled.knows.acts acts
    exact settled.behind behind ready between named (.inl known)
  | @postfixed _ text e r t acts follows behind ready operand =>
    obtain ⟨-, apart, -, trees⟩ := settled.toTidy.edits ready.edits
    obtain ⟨named, known⟩ := settled.knows.acts acts
    let q : Parser := { r with operand := some (.postfixOp (p.tag text span) t) }
    have keeps : ∀ d, r.Declared d → q.Declared d := fun d declared => declared.postfixed operand
    have later : ∀ d, p.Declared d → q.Declared d := fun d declared =>
      keeps d (declared.ready settled.knows.stack ready)
    have root : t.isComma = true → LooseBy q.Declared (p.tag text span).text := by
      intro comma
      rw [named]
      cases tightness (.inl known) (by simp [Rule.IsBracket, follows]) with
      | declared _ loose =>
        exact (loose ((settled.ready ready t operand comma).imp_right fun chains => .inr chains.1)).mono later
      | listed _ _ _ other => exact absurd follows other
    have held : ∀ x, r.Says x → x.Admits (LooseBy q.Declared) := fun x said =>
      (trees x said).mono fun _ loose => loose.mono keeps
    have whole : (Tree.postfixOp (p.tag text span) t).Each (Tree.Admits (LooseBy q.Declared)) := by
      refine Tree.each_iff.2 ⟨root, ?_⟩
      simp only [Tree.children, List.forall_mem_singleton]
      exact fun x part => held x (.inl ⟨t, operand, part⟩)
    refine ⟨⟨knows, apart, ?_, fun x said => ?_⟩, ?_⟩
    · rintro _ same comma
      cases same
      cases comma
    · rcases said with ⟨_, same, part⟩ | kept
      · cases same
        exact whole x part
      · exact held x (.inr kept)
    · rintro _ same
      cases same
      rfl
  | first => exact ⟨⟨knows, settled.pending, settled.low, settled.trees⟩, settled.plain⟩
  | indents _ _ _ _ empty =>
    refine settled.leading knows rfl empty empty rfl ?_ ?_
    all_goals simp [Pending.leading, blockRule, Rule.opening]
  | aligns _ dedents => exact settled.dedents dedents
  | separates _ dedents _ behind ready =>
    exact (settled.dedents dedents).behind behind ready rfl rfl (.inr (by simp [ownRules]))

theorem Settled.taking {xs : List Lexeme} (settled : Settled p) (ok : p.taking xs = .ok q) : Settled q := by
  induction xs generalizing p with
  | nil =>
    cases ok
    exact settled
  | cons x xs ih =>
    obtain ⟨r, shifted, ok⟩ := bind_ok ok
    exact ih (settled.shifts (shift_ok shifted)) ok

/-- The tree of a source admits commas next to the operators that the tree declares to be loose. -/
theorem Settled.finishes (settled : Settled p) {depth : Nat} (scopes : Scoped depth p) (finishes : Finishes p (t, q)) :
    t.isComma = false ∧ t.Each (Tree.Admits (LooseBy fun d => Tree.Part (.declaration d) t)) := by
  obtain @⟨r, s, opener, below, closing, t, dedents, edits, here, opens, file, tree⟩ := finishes
  have tidy := (settled.dedents dedents).toTidy.edits edits
  have scopes := (scopes.dedents dedents).edits edits
  obtain ⟨whole, plain⟩ := Tree.each_ofBracket (fun t same x part => tidy.trees x (.inl ⟨t, same, part⟩)) tree
  refine ⟨plain, whole.mono fun x admits => admits.mono fun _ loose => loose.mono fun d declared => ?_⟩
  exact (Tree.part_ofBracket rfl tree).2 (scopes.content here opens file declared)

/-! ### Lines with commas -/

variable {registry : Registry} {origin : Origin} {first : Lexeme} {xs : List Lexeme} {a b : Tree}
  {c : List (Link × Tree)}

/-- Every operator of the line is tighter than its commas. -/
def CommasLoosest (operators : List Link) : Prop :=
  ∀ o ∈ operators, o.rule.reduction = .comma → ∀ x ∈ operators, x.rule.reduction = .comma ∨ o.precedence < x.precedence

/-- Where commas are loosest, they come out at the root. -/
theorem Grouped.isComma (grouped : Grouped a c t) (loosest : CommasLoosest (c.map Prod.fst))
    (comma : ∃ o ∈ c.map Prod.fst, o.rule.reduction = .comma) : t.isComma = true := by
  cases grouped with
  | operand => simp at comma
  | @join _ b left right before after o tighter waits _ _ =>
    obtain ⟨x, inside, comma⟩ := comma
    have root : o ∈ (before ++ (o, b) :: after).map Prod.fst := by simp
    have least : o.precedence ≤ x.precedence := by
      rw [List.map_append, List.map_cons, List.mem_append, List.mem_cons] at inside
      rcases inside with inside | rfl | inside
      · rcases Link.tighter_iff.1 (tighter x inside) with less | ⟨same, -⟩ <;> omega
      · exact Nat.le_refl _
      · rcases Link.waits_iff.1 (waits x inside) with less | ⟨same, -⟩ <;> omega
    have reduction : o.rule.reduction = .comma :=
      (loosest x inside comma o root).resolve_right (by omega)
    rw [Link.join, reduction]
    rfl

/-- A line whose operators are all tighter than its commas is refused. -/
theorem run_commas (operand : IsOperand registry origin first a)
    (line : Line (fun r => r = .operator ∨ r = .comma) registry origin xs c)
    (comma : ∃ o ∈ c.map Prod.fst, o.rule.reduction = .comma) (loosest : CommasLoosest (c.map Prod.fst))
    (margin : Option (Nat × Span)) (stop : Span) (rest : List (Except LexicalError Lexeme)) :
    ∃ refusal, (start registry origin).run (oneLine margin (first :: xs) stop rest) = .error refusal ∧
      (refusal.error.cause = .strayComma ∨ ∃ left right, refusal.error.cause = .nonAssociative left right) := by
  have plain : Plain fun r => r = .operator ∨ r = .comma := by
    rintro _ (rfl | rfl) <;> exact ⟨nofun, nofun⟩
  rcases run_oneLine plain operand line margin stop rest with
    ⟨t, p, grouped, closes⟩ | ⟨-, refusal, left, right, refused, cause⟩
  · have root := Grouped.isComma grouped loosest comma
    cases t with
    | comma items place => exact ⟨_, closes, .inl rfl⟩
    | _ => cases root
  · exact ⟨refusal, refused, .inr ⟨left, right, cause⟩⟩

end Parser

end MixfixLambda
