import MixfixLambda.Proofs.Parse.Bracket
import MixfixLambda.Proofs.Parse.Grouping

/-!
# Chains parse as their precedences say

While a line of operands and infix operators is read, the operators that wait hold what has been read of
the chain: each has the tree of a part as its left operand, every operator of that part gives way to it,
and it waits for the operators behind it. An incoming operator reduces those that it does not wait for,
and this keeps the chain grouped; where it is refused, the chain has two neighbours of one precedence that
do not group alike, so that it is not consistent.
-/
namespace MixfixLambda

namespace Parser

variable {p q base : Parser} {top opener : Pending} {operators below : List Pending} {incoming : Rule}
  {tag : Tag}

theorem bindsTighter_ok_true : p.bindsTighter top incoming tag = .ok true ↔ top.rule.Tighter incoming := by
  unfold bindsTighter Rule.Tighter
  split
  · next differ => simp [differ]
  · next same =>
    rw [Decidable.not_not] at same
    cases top.rule.assoc <;> cases incoming.assoc <;> simp [same, refuse]

theorem bindsTighter_ok_false : p.bindsTighter top incoming tag = .ok false ↔ top.rule.Waits incoming := by
  unfold bindsTighter Rule.Waits
  split
  · next differ =>
    simp [differ]
    omega
  · next same =>
    rw [Decidable.not_not] at same
    cases top.rule.assoc <;> cases incoming.assoc <;> simp [same, refuse]

/-- Operators of one precedence that do not group alike are refused. -/
theorem bindsTighter_error {refusal : Refusal} (failed : p.bindsTighter top incoming tag = .error refusal) :
    refusal = ⟨⟨.nonAssociative top.tag.text tag.text, top.tag.span.merge tag.span⟩, p.registry⟩ ∧
      top.rule.right = incoming.left ∧ ¬(top.rule.assoc = .left ∧ incoming.assoc = .left) ∧
      ¬(top.rule.assoc = .right ∧ incoming.assoc = .right) := by
  unfold bindsTighter at failed
  split at failed
  · cases failed
  · next same =>
    rw [Decidable.not_not] at same
    split at failed
    · cases failed
    · cases failed
    · next left right =>
      cases failed
      exact ⟨rfl, same, fun both => left both.1 both.2, fun both => right both.1 both.2⟩

theorem reduceLeft_cons {right : Tree} (here : p.pending = top :: below) (operand : p.operand = some right)
    (incoming : Rule) (tag : Tag) (operator : top.rule.isOpener = false) : p.reduceLeft incoming tag =
      match p.bindsTighter top incoming tag with
      | .error refusal => .error refusal
      | .ok false => .ok p
      | .ok true =>
        if top.missingLeft then p.refuseOperand top.tag
        else
          match p.reduceTop top below right with
          | .error refusal => .error refusal
          | .ok q => q.reduceLeft incoming tag := by
  rw [reduceLeft.eq_def]
  split
  · next found found' =>
    rw [here] at found'
    rw [operand] at found
    cases found
    cases found'
    rw [operator, if_neg Bool.false_ne_true]
    cases p.bindsTighter top incoming tag with
    | error refusal => rfl
    | ok tight =>
      cases tight with
      | false => rfl
      | true =>
        dsimp only
        split
        · rfl
        · split
          · next failed => simp only [failed]
          · next reduced => simp only [reduced]
  · next none => exact absurd here (none right top below operand)

/-- An operator that does not wait for the incoming one is reduced. -/
theorem reduceLeft_step {right : Tree} (here : p.pending = top :: below) (operand : p.operand = some right)
    (operator : top.rule.isOpener = false) (given : top.missingLeft = false)
    (tighter : top.rule.Tighter incoming) (reduced : p.reduceTop top below right = .ok q) :
    p.reduceLeft incoming tag = q.reduceLeft incoming tag := by
  rw [reduceLeft_cons here operand _ _ operator, bindsTighter_ok_true.2 tighter]
  simp [given, reduced]

/-! ### What has been read of a chain -/

/-- The state with these operators waiting, newest first, and this operand. -/
def holding (base : Parser) (operators : List Pending) (operand : Tree) : Parser :=
  { base with operand := some operand, pending := operators ++ base.pending }

/-- Operators that wait, and the chain that they and the part behind the newest of them come from. -/
inductive Holds : List Pending → Tree → List (Link × Tree) → Tree → List (Link × Tree) → Prop
  | part (a : Tree) (c : List (Link × Tree)) : Holds [] a c a c
  | next {operators : List Pending} {a b b' left : Tree} {c before behind : List (Link × Tree)} {o : Link}
      (below : Holds operators a c b before) (grouped : Grouped b before left)
      (tighter : ∀ x ∈ before.map Prod.fst, x.rule.Tighter o.rule)
      (waits : ∀ top ∈ operators.head?, top.rule.Waits o.rule)
      (waited : ∀ x ∈ behind.map Prod.fst, o.rule.Waits x.rule) :
      Holds (.infixed o.rule o.tag left :: operators) a (c ++ (o, b') :: behind) b' behind

variable {a b t : Tree} {c part : List (Link × Tree)} {o : Link}

/-- The part behind the newest operator may grow by what that operator waits for. -/
theorem Holds.grow (holds : Holds operators a c b part) {more : List (Link × Tree)}
    (waits : ∀ x ∈ more.map Prod.fst, ∀ top ∈ operators.head?, top.rule.Waits x.rule) :
    Holds operators a (c ++ more) b (part ++ more) := by
  cases holds with
  | part => exact .part a _
  | @next _ _ _ _ _ c before behind o below grouped tighter waits' waited =>
    rw [List.append_assoc, List.cons_append]
    refine .next below grouped tighter waits' fun x inside => ?_
    rw [List.map_append, List.mem_append] at inside
    rcases inside with inside | inside
    · exact waited x inside
    · exact waits x inside _ rfl

theorem Holds.suffix (holds : Holds operators a c b part) : part <:+ c := by
  cases holds with
  | part => exact List.suffix_refl _
  | next => exact (List.suffix_cons ..).trans (List.suffix_append ..)

theorem Holds.link (holds : Holds operators a c b part) :
    ∀ top ∈ operators, ∃ o ∈ c.map Prod.fst, top.rule = o.rule := by
  induction holds with
  | part => simp
  | @next _ _ _ _ _ c _ behind o _ _ _ _ _ ih =>
    intro top inside
    rw [List.map_append, List.map_cons]
    rcases List.mem_cons.1 inside with rfl | inside
    · exact ⟨o, by simp, rfl⟩
    · obtain ⟨x, member, same⟩ := ih top inside
      exact ⟨x, List.mem_append_left _ member, same⟩

/-- Reducing the newest operator makes one part of the parts on both of its sides. -/
theorem Holds.reduce {operators : List Pending} (holds : Holds (top :: operators) a c b part)
    (grouped : Grouped b part t) : ∃ o left b' before, top = .infixed o.rule o.tag left ∧
      Holds operators a c b' (before ++ (o, b) :: part) ∧
      Grouped b' (before ++ (o, b) :: part) (o.join left t) ∧
      (∀ x ∈ before.map Prod.fst, x.rule.Tighter o.rule) ∧
      (∀ x ∈ part.map Prod.fst, o.rule.Waits x.rule) := by
  cases holds with
  | @next _ _ b' _ left c before behind o below grouped' tighter waits waited =>
    refine ⟨o, left, b', before, rfl, below.grow fun x inside top first => ?_,
      .join tighter waited grouped' grouped, tighter, waited⟩
    have stays := waits top first
    rw [List.map_cons, List.mem_cons] at inside
    rcases inside with rfl | inside
    · exact stays
    · exact stays.trans o.even (waited x inside)

theorem infixed_operator (o : Link) (left : Tree) : (Pending.infixed o.rule o.tag left).rule.isOpener = false := by
  have between := o.between
  simp [Pending.infixed, Pending.leading, Rule.isOpener, between]

theorem holding_reduceTop (base : Parser) (operators : List Pending) (o : Link) (left right : Tree) :
    (base.holding (.infixed o.rule o.tag left :: operators) right).reduceTop (.infixed o.rule o.tag left)
      (operators ++ base.pending) right = .ok (base.holding operators (o.join left right)) :=
  reduceTop_infixed o.start o.between ..

/-- The end of a bracket groups the whole chain. -/
theorem reduceToOpener_holding (here : base.pending = opener :: below) (opens : opener.rule.isOpener = true)
    (holds : Holds operators a c b part) (grouped : Grouped b part t) :
    ∃ t', Grouped a c t' ∧ (base.holding operators t).reduceToOpener = .ok (base.holding [] t') := by
  induction operators generalizing b part t with
  | nil =>
    cases holds with
    | part => exact ⟨t, grouped, reduceToOpener_opener here opens⟩
  | cons top operators ih =>
    obtain ⟨o, left, b', before, rfl, holds', grouped', -, -⟩ := holds.reduce grouped
    obtain ⟨t', whole, reduced⟩ := ih holds' grouped'
    refine ⟨t', whole, ?_⟩
    rw [← reduced]
    exact reduceToOpener_step rfl (infixed_operator o left) rfl (holding_reduceTop ..)

/-- Why an operator is refused behind a chain. -/
def Refuses (c : List (Link × Tree)) (o : Link) (refusal : Refusal) : Prop :=
  (∃ left right, refusal.error.cause = .nonAssociative left right) ∧
    ∀ more, ¬Consistent (c.map Prod.fst ++ o :: more)

/-- An incoming operator reduces those that it does not wait for, or finds one that it is not consistent with. -/
theorem reduceLeft_holding (tag : Tag) (here : base.pending = opener :: below) (opens : opener.rule.isOpener = true)
    (holds : Holds operators a c b part) (grouped : Grouped b part t)
    (tighter : ∀ x ∈ part.map Prod.fst, x.rule.Tighter o.rule) :
    (∃ operators' b' part' t', (base.holding operators t).reduceLeft o.rule tag = .ok (base.holding operators' t') ∧
      Holds operators' a c b' part' ∧ Grouped b' part' t' ∧
      (∀ x ∈ part'.map Prod.fst, x.rule.Tighter o.rule) ∧
      ∀ top ∈ operators'.head?, top.rule.Waits o.rule) ∨
    ∃ refusal, (base.holding operators t).reduceLeft o.rule tag = .error refusal ∧ Refuses c o refusal := by
  induction operators generalizing b part t with
  | nil =>
    have rests := reduceLeft_opener (p := base.holding [] t) here opens o.rule tag
    exact .inl ⟨[], b, part, t, rests, holds, grouped, tighter, by simp⟩
  | cons top operators ih =>
    have holds' := holds
    obtain ⟨x, left, b', before, rfl, joined, grouped', tighter', waited⟩ := holds.reduce grouped
    have step := reduceLeft_cons (p := base.holding (.infixed x.rule x.tag left :: operators) t) rfl rfl o.rule tag
      (infixed_operator x left)
    cases compared : (base.holding (.infixed x.rule x.tag left :: operators) t).bindsTighter
        (.infixed x.rule x.tag left) o.rule tag with
    | error refusal =>
      refine .inr ⟨refusal, by rw [step, compared], ?_⟩
      obtain ⟨rfl, same, notLeft, notRight⟩ := bindsTighter_error compared
      refine ⟨⟨_, _, rfl⟩, fun more consistent => ?_⟩
      obtain ⟨outer, rfl⟩ := joined.suffix
      have shape : (outer ++ (before ++ (x, b) :: part)).map Prod.fst ++ o :: more =
          (outer ++ before).map Prod.fst ++ (x :: part.map Prod.fst ++ [o]) ++ more := by
        simp
      have close : ∀ y ∈ part.map Prod.fst, x.precedence ≤ y.precedence := fun y inside => by
        rcases Link.waits_iff.1 (waited y inside) with tight | ⟨equal, -⟩ <;> omega
      rw [shape] at consistent
      rcases consistent.alike (x.right_eq.symm.trans same) close with left | right
      · exact notLeft left
      · exact notRight right
    | ok tight =>
      cases tight with
      | false =>
        have stays := bindsTighter_ok_false.1 compared
        refine .inl ⟨_, b, part, t, by rw [step, compared], holds', grouped, tighter, fun top first => ?_⟩
        exact Option.some.inj first ▸ stays
      | true =>
        have gives : x.rule.Tighter o.rule := bindsTighter_ok_true.1 compared
        have next : (base.holding (.infixed x.rule x.tag left :: operators) t).reduceLeft o.rule tag =
            (base.holding operators (x.join left t)).reduceLeft o.rule tag :=
          reduceLeft_step rfl rfl (infixed_operator x left) rfl gives (holding_reduceTop ..)
        rw [next]
        refine ih joined grouped' fun y inside => ?_
        rw [List.map_append, List.map_cons, List.mem_append, List.mem_cons] at inside
        rcases inside with inside | rfl | inside
        · exact (tighter' y inside).trans x.even gives
        · exact gives
        · exact tighter y inside

end Parser

end MixfixLambda
