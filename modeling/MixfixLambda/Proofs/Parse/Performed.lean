import MixfixLambda.Proofs.Parse.Mirror

/-!
# What reduces is reduced

The relations of a step say what the functions of the parser can do. Read backwards they say what the functions do:
where operators reduce one after the other and the last state stops, the functions come to this state. So a step can
be carried over to another state through the relations.
-/
namespace MixfixLambda.Parser

variable {p q r : Parser} {top : Pending} {below links : List Pending} {lefts : List Tree} {right : Tree} {rule : Rule}

theorem Collects.reduceMixfix (collects : Collects (top :: links) lefts) (p : Parser) (parts : List Tag)
    (operands : List Tree) (rest : List Pending) : p.reduceMixfix parts operands top (links ++ rest) =
      .ok (.mixfix ((top :: links).reverse.map Pending.tag ++ parts) (lefts ++ operands), rest) := by
  induction links generalizing top lefts parts operands with
  | nil =>
    cases collects with
    | first start leads => exact (reduceMixfix_first start parts operands).trans (if_neg leads)
    | infixed start between operand =>
      rw [reduceMixfix_first start, if_pos between, operand]
      rfl
  | cons previous links ih =>
    cases collects with
    | @next _ _ left lefts _ prior continues operand same collects =>
      rw [List.cons_append, reduceMixfix_next continues operand same, ih collects]
      simp

theorem Reduct.reduceTop (reduct : Reduct p top below right q) : p.reduceTop top below right = .ok q := by
  unfold Parser.reduceTop
  cases reduct with
  | @chain links rest lefts continues split collects =>
    cases links with
    | nil => cases collects
    | cons first links =>
      obtain ⟨rfl, same⟩ := List.cons.inj split
      have under : below = links ++ rest := same
      rw [under, if_pos continues, collects.reduceMixfix, List.append_nil]
  | erase start leads vanishes => simp [start, leads, vanishes]
  | declare start leads declares read registered =>
    simp [start, leads, declares, Parser.declare, read, registered]
  | leading start leads keeps =>
    rw [if_neg (by simp [start]), if_pos leads]
    split
    · next vanishes => exact absurd vanishes keeps.1
    · next kind declares => exact absurd declares (keeps.2 kind)
    · rfl
  | headless start behind missing => simp [start, behind, missing]
  | infixed start behind given operand => simp [start, behind, given, operand]

theorem reduceLeft_stops (stops : ∀ top ∈ p.pending.head?, top.rule.isOpener = true ∨ top.rule.Waits rule) (tag : Tag) :
    p.reduceLeft rule tag = .ok p := by
  rw [reduceLeft.eq_def]
  split
  · next right top below here operand =>
    split
    · rfl
    · next operator =>
      rw [bindsTighter_ok_false.2 ((stops top (by rw [operand]; rfl)).resolve_left operator)]
  · rfl

theorem Reduces.reduceLeft (reduces : Reduces (fun top => top.missingLeft = false ∧ top.rule.Tighter rule) p r)
    (stops : ∀ top ∈ r.pending.head?, top.rule.isOpener = true ∨ top.rule.Waits rule) (tag : Tag) :
    p.reduceLeft rule tag = .ok r := by
  induction reduces with
  | refl p => exact reduceLeft_stops stops tag
  | step here operand operator may reduct _ ih =>
    exact (reduceLeft_step here operand operator may.1 may.2 reduct.reduceTop).trans (ih stops)

theorem Reduces.reduceToPrior {prior : String} (reduces : Reduces (fun top => top.rule.symbol ≠ prior) p r)
    (behind : p.operand.isSome = true) (here : r.pending = top :: below) (operator : top.rule.isOpener = false)
    (same : top.rule.symbol = prior) (tag : Tag) : p.reduceToPrior prior tag = .ok r := by
  induction reduces with
  | refl p =>
    obtain ⟨right, operand⟩ := Option.isSome_iff_exists.1 behind
    rw [reduceToPrior_cons here operand operator, if_pos same]
  | step pending operand operator differs reduct _ ih =>
    rw [reduceToPrior_cons pending operand operator, if_neg differs, reduct.reduceTop]
    exact ih reduct.operand here

/-- Everything above the bracket reduces. -/
theorem reduceToOpener_reduces (ok : p.reduceToOpener = .ok q) : Reduces (fun _ => True) p q ∧
    ∃ opener below, q.pending = opener :: below ∧ opener.rule.isOpener = true := by
  fun_induction reduceToOpener p with
  | case2 p top below here opens =>
    cases ok
    exact ⟨.refl _, top, below, here, opens⟩
  | case5 p top below here closed right operand q' reduced ih =>
    obtain ⟨reduces, stops⟩ := ih ok
    exact ⟨.step here operand (Bool.eq_false_iff.2 closed) trivial (reduceTop_ok reduced) reduces, stops⟩
  | _ => cases ok

theorem Reduces.reduceToOpener (reduces : Reduces (fun _ => True) p r) (here : r.pending = top :: below)
    (opens : top.rule.isOpener = true) : p.reduceToOpener = .ok r := by
  induction reduces with
  | refl p => exact reduceToOpener_opener here opens
  | step pending operand operator _ reduct _ ih =>
    exact (reduceToOpener_step pending operator operand reduct.reduceTop).trans (ih here)

end MixfixLambda.Parser
