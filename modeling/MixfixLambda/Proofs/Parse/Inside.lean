import MixfixLambda.Proofs.Parse.Balance
import MixfixLambda.Proofs.Parse.Followed
import MixfixLambda.Proofs.Parse.Performed
import MixfixLambda.Proofs.Tree.Declaration

/-!
# What stands in a bracket is read alike everywhere

Nothing that happens in a bracket looks at what lies around it. A reduction stops at the bracket, a declaration is
registered in the scope of the bracket, and line breaks mean nothing there. So the same tokens are followed in two
states at once, each in a bracket of its own with surroundings of its own.
-/
namespace MixfixLambda.Parser

variable {base base' p p' q r : Parser} {o o' top opener : Pending}
  {above above' below links links' floor rest left left' : List Pending} {lefts : List Tree} {brackets : List Rule}
  {right t t' : Tree} {rule : Rule} {tag tag' : Tag} {C : Pending → Prop}

/-! ### The operators of a bracket -/

/-- Operators that are alike, each in one of these brackets, which are among them. -/
structure Frames (brackets : List Rule) (above above' : List Pending) : Prop where
  alike : List.Forall₂ Pending.Alike above above'
  enclosed : Stackwise Enclosed above
  rules : opened above = brackets

theorem Frames.nil (frames : Frames [] above above') : above = [] ∧ above' = [] := by
  obtain ⟨alike, enclosed, none⟩ := frames
  cases alike with
  | nil => exact ⟨rfl, rfl⟩
  | cons => exact absurd none enclosed.head

theorem Frames.exists_cons (frames : Frames brackets above above') (bracketed : brackets ≠ []) :
    ∃ o o' upper upper', above = o :: upper ∧ above' = o' :: upper' ∧ Pending.Alike o o' := by
  obtain ⟨alike, -, rules⟩ := frames
  cases alike with
  | nil => exact absurd rules.symm bracketed
  | cons head => exact ⟨_, _, _, _, rfl, rfl, head⟩

theorem Frames.under (frames : Frames brackets (o :: above) (o' :: above')) (operator : o.rule.isOpener = false) :
    Frames brackets above above' := by
  obtain ⟨alike, enclosed, rules⟩ := frames
  rw [opened_operator operator] at rules
  exact ⟨(List.forall₂_cons.1 alike).2, enclosed.tail, rules⟩

theorem Frames.lay (frames : Frames brackets above above') (bracketed : brackets ≠ []) (head : Pending.Alike o o')
    (operator : o.rule.isOpener = false) : Frames brackets (o :: above) (o' :: above') := by
  have rules := (opened_operator operator above).trans frames.rules
  exact ⟨.cons head frames.alike, .cons (by rwa [Enclosed, rules]) frames.enclosed, rules⟩

theorem Frames.enter (frames : Frames brackets above above') (head : Pending.Alike o o')
    (opens : o.rule.isOpener = true) : Frames (o.rule :: brackets) (o :: above) (o' :: above') := by
  have rules := (opened_opener opens above).trans (congrArg (o.rule :: ·) frames.rules)
  exact ⟨.cons head frames.alike, .cons (by rw [Enclosed, rules]; exact List.cons_ne_nil _ _) frames.enclosed, rules⟩

theorem Frames.leave (frames : Frames brackets (o :: above) (o' :: above')) (opens : o.rule.isOpener = true) :
    ∃ outer, brackets = o.rule :: outer ∧ Frames outer above above' := by
  obtain ⟨alike, enclosed, rules⟩ := frames
  rw [opened_opener opens] at rules
  exact ⟨_, rules.symm, (List.forall₂_cons.1 alike).2, enclosed.tail, rfl⟩

theorem Frames.mark (frames : Frames brackets above above') :
    Frames brackets (markSection above) (markSection above') :=
  ⟨markSection_alike frames.alike, frames.enclosed.markSection enclosed_unmarked,
    (opened_markSection above).trans frames.rules⟩

/-- The mark of a section is made in the bracket. -/
theorem markSection_inside (inside : opened above ≠ []) (floor : List Pending) :
    markSection (above ++ floor) = markSection above ++ floor := by
  induction above with
  | nil => exact absurd rfl inside
  | cons o above ih =>
    rw [List.cons_append]
    by_cases opens : o.rule.isOpener = true
    · rw [Parser.markSection, Parser.markSection, if_pos opens, if_pos opens, List.cons_append]
    · rw [opened_operator (Bool.eq_false_iff.2 opens)] at inside
      rw [Parser.markSection, Parser.markSection, if_neg opens, if_neg opens, ih inside, List.cons_append]

theorem Frames.marks (frames : Frames brackets above above') (bracketed : brackets ≠ []) (floor floor' : List Pending) :
    markSection (above ++ floor) = markSection above ++ floor ∧
      markSection (above' ++ floor') = markSection above' ++ floor' := by
  have inside : opened above ≠ [] := by rwa [frames.rules]
  exact ⟨markSection_inside inside floor, markSection_inside (by rwa [opened_alike frames.alike]) floor'⟩

/-- Operators that no bracket is among are of the innermost bracket. -/
theorem Frames.split (frames : Frames brackets above above') (bracketed : brackets ≠ [])
    (operators : ∀ o ∈ links, o.rule.isOpener = false) (split : above ++ floor = links ++ rest) :
    ∃ links' left left', rest = left ++ floor ∧ above' = links' ++ left' ∧ List.Forall₂ Pending.Alike links links' ∧
      Frames brackets left left' := by
  induction links generalizing above above' with
  | nil => exact ⟨[], above, above', split.symm, rfl, .nil, frames⟩
  | cons o links ih =>
    obtain ⟨o₁, o', upper, upper', rfl, rfl, head⟩ := frames.exists_cons bracketed
    obtain ⟨rfl, behind⟩ := List.cons.inj split
    rw [List.forall_mem_cons] at operators
    obtain ⟨links', left, left', under, rfl, alike, frames⟩ := ih (frames.under operators.1) operators.2 behind
    exact ⟨o' :: links', left, left', under, rfl, .cons head alike, frames⟩

theorem tags_alike (alike : List.Forall₂ Pending.Alike links links') :
    links'.map (·.tag.unlocated) = links.map (·.tag.unlocated) := by
  induction alike with
  | nil => rfl
  | cons head _ ih => rw [List.map_cons, List.map_cons, ih, Tag.unlocated_congr head.text]

/-- A chain is collected alike. -/
theorem Collects.alike (collects : Collects links lefts) (alike : List.Forall₂ Pending.Alike links links') :
    ∃ lefts', Collects links' lefts' ∧ lefts'.map Tree.unlocated = lefts.map Tree.unlocated := by
  induction collects generalizing links' with
  | first start leads =>
    obtain ⟨o', _, head, behind, rfl⟩ := List.forall₂_cons_left_iff.1 alike
    cases behind
    exact ⟨[], .first (by rw [head.rule, start]) (by rwa [head.rule]), rfl⟩
  | infixed start between operand =>
    obtain ⟨o', _, head, behind, rfl⟩ := List.forall₂_cons_left_iff.1 alike
    cases behind
    obtain ⟨left', operand', same⟩ := head.held _ operand
    exact ⟨[left'], .infixed (by rw [head.rule, start]) (by rw [head.rule, between]) operand',
      congrArg (fun t => [t]) same⟩
  | next continues operand symbol _ ih =>
    obtain ⟨o', _, head, behind, rfl⟩ := List.forall₂_cons_left_iff.1 alike
    obtain ⟨lefts', collects', same⟩ := ih behind
    obtain ⟨previous', _, second, _, rfl⟩ := List.forall₂_cons_left_iff.1 behind
    obtain ⟨left', operand', agrees⟩ := head.held _ operand
    exact ⟨lefts' ++ [left'], .next (by rw [head.rule, continues]) operand' (by rw [second.rule, symbol]) collects',
      by simp [same, agrees]⟩

/-! ### Two states in alike brackets -/

/-- Two states in these brackets, each with surroundings of its own. -/
structure Inside (base base' : Parser) (brackets : List Rule) (p p' : Parser) : Prop where
  frames : ∃ above above', p.pending = above ++ base.pending ∧ p'.pending = above' ++ base'.pending ∧
    Frames brackets above above'
  operand : p'.operand.map Tree.unlocated = p.operand.map Tree.unlocated
  registry : p'.registry = p.registry
  here : p.layout = brackets.map (fun _ => Layout.explicit) ++ base.layout
  there : p'.layout = brackets.map (fun _ => Layout.explicit) ++ base'.layout
  started : p'.started = base'.started

/-- What happens to the operators and the operand. -/
theorem Inside.replace {operand operand' : Option Tree} (inside : Inside base base' brackets p p')
    (frames : Frames brackets left left') (same : operand'.map Tree.unlocated = operand.map Tree.unlocated) :
    Inside base base' brackets { p with operand, pending := left ++ base.pending }
      { p' with operand := operand', pending := left' ++ base'.pending } :=
  ⟨⟨left, left', rfl, rfl, frames⟩, same, inside.registry, inside.here, inside.there, inside.started⟩

theorem Inside.put (inside : Inside base base' brackets p p') (agrees : t'.unlocated = t.unlocated) :
    Inside base base' brackets { p with operand := some t } { p' with operand := some t' } :=
  ⟨inside.frames, congrArg some agrees, inside.registry, inside.here, inside.there, inside.started⟩

theorem Inside.register (inside : Inside base base' brackets p p') (registry : Registry) :
    Inside base base' brackets { p with registry } { p' with registry } :=
  ⟨inside.frames, inside.operand, rfl, inside.here, inside.there, inside.started⟩

theorem Inside.behind (inside : Inside base base' brackets p p') (operand : p.operand = some t) :
    ∃ t', p'.operand = some t' ∧ t'.unlocated = t.unlocated := by
  have same := inside.operand
  rwa [operand, Option.map_some, Option.map_eq_some_iff] at same

theorem Inside.isSome (inside : Inside base base' brackets p p') : p'.operand.isSome = p.operand.isSome := by
  rw [← Option.isSome_map, inside.operand, Option.isSome_map]

theorem Inside.empty (inside : Inside base base' brackets p p') (empty : p.operand = none) : p'.operand = none := by
  have same := inside.operand
  rwa [empty, Option.map_none, Option.map_eq_none_iff] at same

/-- The newest operators are alike, as there is one at least. -/
theorem Inside.exists_cons (inside : Inside base base' brackets p p') (bracketed : brackets ≠ []) :
    ∃ o o' upper upper', p.pending = o :: (upper ++ base.pending) ∧ p'.pending = o' :: (upper' ++ base'.pending) ∧
      Pending.Alike o o' ∧ Frames brackets (o :: upper) (o' :: upper') := by
  obtain ⟨above, above', here, there, frames⟩ := inside.frames
  obtain ⟨o, o', upper, upper', rfl, rfl, head⟩ := frames.exists_cons bracketed
  exact ⟨o, o', upper, upper', here, there, head, frames⟩

theorem registerRules_congr {rules rules' : List (Tag × Rule)} (same : rules'.map Prod.snd = rules.map Prod.snd)
    (registry : p'.registry = p.registry) (registered : p.registerRules rules = .ok q) :
    p'.registerRules rules' = .ok { p' with registry := q.registry } := by
  induction rules generalizing p p' rules' with
  | nil =>
    cases registered
    rw [List.map_eq_nil_iff.1 same, registerRules, ← registry]
  | cons first rules ih =>
    obtain ⟨⟨tag', rule⟩, rest', rfl, named, behind⟩ := List.map_eq_cons_iff.1 same
    obtain ⟨tag, _⟩ := first
    cases named
    rw [registerRules] at registered ⊢
    rw [registry]
    split at registered
    · refine ih behind ?_ registered
      rfl
    · cases registered

/-- A reduction in a bracket, in both states. -/
theorem Inside.reduct (inside : Inside base base' brackets p p') (bracketed : brackets ≠ []) (stack : Stacked p.pending)
    (here : p.pending = top :: below) (operand : p.operand = some right) (operator : top.rule.isOpener = false)
    (reduct : Reduct p top below right q) : ∃ top' below' right' q', p'.pending = top' :: below' ∧
      p'.operand = some right' ∧ Pending.Alike top top' ∧ Reduct p' top' below' right' q' ∧
      Inside base base' brackets q q' := by
  obtain ⟨right', operand', same⟩ := inside.behind operand
  obtain ⟨o, top', upper, upper', pending, there, head, frames⟩ := inside.exists_cons bracketed
  obtain ⟨rfl, rfl⟩ := List.cons.inj (here.symm.trans pending)
  have under := frames.under operator
  have start {kind : Option String} (same : top.rule.prior = kind) : top'.rule.prior = kind := by rwa [head.rule]
  have plain {t t' : Tree} (agrees : t'.unlocated = t.unlocated) := inside.replace under
    (show (some t').map Tree.unlocated = (some t).map Tree.unlocated from congrArg some agrees)
  refine ⟨top', upper' ++ base'.pending, right', ?_⟩
  cases reduct with
  | @chain links rest lefts continues split collects =>
    rw [here, split] at stack
    have operators := collects.operators stack fun o first => by
      cases links with
      | nil => cases first
      | cons =>
        cases first
        exact (List.cons.inj split).1 ▸ operator
    obtain ⟨links', left, left', rfl, split', alike, kept⟩ := frames.split bracketed operators split
    obtain ⟨lefts', collects', agrees⟩ := collects.alike alike
    have whole : (Tree.mixfix (links'.reverse.map Pending.tag) (lefts' ++ [right'])).unlocated =
        (Tree.mixfix (links.reverse.map Pending.tag) (lefts ++ [right])).unlocated := by
      have tags := congrArg List.reverse (tags_alike alike)
      simp only [← List.map_reverse] at tags
      simp only [Tree.unlocated, Tree.unlocatedEach_eq_map, List.map_map, List.map_append, List.map_cons, agrees, same]
      exact congrArg (Tree.mixfix · _) tags
    refine ⟨_, there, operand', head, .chain (by rwa [head.rule]) ?_ collects',
      inside.replace kept (congrArg some whole)⟩
    rw [← List.cons_append, split', List.append_assoc]
  | erase first leads vanishes =>
    exact ⟨_, there, operand', head, .erase (start first) (by rw [head.rule, leads]) (by rw [head.rule, vanishes]),
      plain same⟩
  | @declare r kind d first leads declares read registered =>
    obtain ⟨d', read', agrees⟩ := Declaration.ofOperand_congr same read top'.tag
    have registered' := registerRules_congr (Declaration.rules_congr agrees) inside.registry registered
    refine ⟨_, there, operand', head, .declare (start first) (by rw [head.rule, leads]) (by rw [head.rule, declares])
      read' registered', ?_⟩
    rw [registerRules_keeps registered]
    have said : (Tree.declaration d').unlocated = (Tree.declaration d).unlocated := congrArg Tree.declaration agrees
    exact (plain said).register r.registry
  | leading first leads keeps =>
    refine ⟨_, there, operand', head, .leading (start first) (by rw [head.rule, leads]) (by rwa [head.rule]), plain ?_⟩
    simp only [Tree.unlocated, Tag.unlocated_congr head.text, same]
  | headless first behind missing =>
    obtain ⟨marked, marked'⟩ := under.marks bracketed base.pending base'.pending
    refine ⟨_, there, operand', head, .headless (start first) (by rwa [head.rule]) (by rw [head.missingLeft, missing]),
      ?_⟩
    rw [marked, marked', head.rule]
    refine inside.replace under.mark (congrArg some (Tree.ofInfix_congr _ head.text ?_ same))
    simp only [Tree.unlocated]
  | infixed first behind given operand =>
    obtain ⟨left', held, agrees⟩ := head.held _ operand
    refine ⟨_, there, operand', head, .infixed (start first) (by rwa [head.rule]) (by rw [head.missingLeft, given]) held,
      ?_⟩
    rw [head.rule]
    exact plain (Tree.ofInfix_congr _ head.text agrees same)

/-- Reductions in a bracket, in both states, if what they ask of an operator can be asked wherever it stands. -/
theorem Inside.reduces (inside : Inside base base' brackets p p') (bracketed : brackets ≠ []) (stack : Stacked p.pending)
    (asks : ∀ o o', Pending.Alike o o' → C o → C o') (reduces : Reduces C p q) :
    ∃ q', Reduces C p' q' ∧ Inside base base' brackets q q' := by
  induction reduces generalizing p' with
  | refl p => exact ⟨p', .refl p', inside⟩
  | step here operand operator may reduct _ ih =>
    obtain ⟨top', below', right', r', there, operand', head, reduct', inside⟩ :=
      inside.reduct bracketed stack here operand operator reduct
    obtain ⟨q', reduces', inside⟩ := ih inside (stack.edits (.single (.reduce here operand operator reduct)))
    exact ⟨q', .step there operand' (by rw [head.rule, operator]) (asks _ _ head may) reduct' reduces', inside⟩

/-- The outcome is the state `q`, in the other surroundings. -/
def Follows (base base' : Parser) (brackets : List Rule) (q : Parser) (outcome : Parsing Parser) : Prop :=
  ∃ q', outcome = .ok q' ∧ Inside base base' brackets q q'

theorem Follows.bind {x : Parsing Parser} {f : Parser → Parsing Parser} {brackets' : List Rule}
    (first : Follows base base' brackets q x)
    (next : ∀ q', Inside base base' brackets q q' → Follows base base' brackets' r (f q')) :
    Follows base base' brackets' r (x >>= f) := by
  obtain ⟨q', rfl, inside⟩ := first
  exact next q' inside

theorem Inside.pure (inside : Inside base base' brackets q r) : Follows base base' brackets q (.ok r) :=
  ⟨r, rfl, inside⟩

theorem Inside.reduceLeft (inside : Inside base base' brackets p p') (bracketed : brackets ≠ [])
    (stack : Stacked p.pending) (behind : p.operand.isSome = true) (ok : p.reduceLeft rule tag = .ok q) (tag' : Tag) :
    Follows base base' brackets q (p'.reduceLeft rule tag') ∧ q.operand.isSome = true := by
  obtain ⟨reduces, stops⟩ := reduceLeft_ok behind ok
  obtain ⟨q', reduces', inside⟩ := inside.reduces bracketed stack
    (fun o o' alike may => by rwa [alike.missingLeft, alike.rule]) reduces
  refine ⟨⟨q', reduces'.reduceLeft (fun o' first => ?_) tag', inside⟩, reduces.operand behind⟩
  obtain ⟨o, o₁, upper, upper', here, there, head, -⟩ := inside.exists_cons bracketed
  rw [there] at first
  cases first
  rw [head.rule]
  exact stops o (by rw [here]; rfl)

theorem Inside.reduceToPrior {prior : String} (inside : Inside base base' brackets p p') (bracketed : brackets ≠ [])
    (stack : Stacked p.pending) (behind : p.operand.isSome = true) (ok : p.reduceToPrior prior tag = .ok q)
    (tag' : Tag) : Follows base base' brackets q (p'.reduceToPrior prior tag') ∧ q.operand.isSome = true := by
  obtain ⟨reduces, top, below, here, operator, same⟩ := reduceToPrior_ok ok
  obtain ⟨q', reduces', inside'⟩ := inside.reduces bracketed stack
    (fun o o' alike may => by rwa [alike.rule]) reduces
  obtain ⟨o, o₁, upper, upper', pending, there, head, -⟩ := inside'.exists_cons bracketed
  obtain ⟨rfl, -⟩ := List.cons.inj (here.symm.trans pending)
  refine ⟨⟨q', reduces'.reduceToPrior (by rwa [inside.isSome]) there ?_ ?_ tag', inside'⟩, reduces.operand behind⟩
  · rw [head.rule, operator]
  · rw [head.rule, same]

theorem Inside.reduceToOpener (inside : Inside base base' brackets p p') (bracketed : brackets ≠ [])
    (stack : Stacked p.pending) (ok : p.reduceToOpener = .ok q) :
    Follows base base' brackets q p'.reduceToOpener := by
  obtain ⟨reduces, opener, below, here, opens⟩ := reduceToOpener_reduces ok
  obtain ⟨q', reduces', inside'⟩ := inside.reduces bracketed stack (fun _ _ _ may => may) reduces
  obtain ⟨o, o₁, upper, upper', pending, there, head, -⟩ := inside'.exists_cons bracketed
  obtain ⟨rfl, -⟩ := List.cons.inj (here.symm.trans pending)
  exact ⟨q', reduces'.reduceToOpener there (by rw [head.rule, opens]), inside'⟩

end MixfixLambda.Parser
