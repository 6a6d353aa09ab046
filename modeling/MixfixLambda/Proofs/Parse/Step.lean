import Mathlib.Logic.Relation
import MixfixLambda.Proofs.Parse.Invariant
import MixfixLambda.Proofs.Parse.Precedence

/-!
# What one token does to the parser

Every token that is accepted reduces some of the operators that wait, and then adds an operand or an
operator, or takes a bracket off. The relations here say what the functions of the parser can do, with the
conditions that each of their branches checks, so that an invariant is followed from branch to branch
without unfolding the functions again.
-/
namespace MixfixLambda

/-- The tree of a literal. -/
def Token.literal? (token : Token) (span : Span) : Option Tree :=
  match token with
  | .int value => some (.int value span)
  | .str bytes => some (.str bytes span)
  | .char value => some (.char value span)
  | _ => none

namespace Parser

variable {p : Parser} {top : Pending} {below rest : List Pending} {right t : Tree} {rule : Rule}
  {tag : Tag} {span : Span}

/-! ### Reduction -/

/-- Operators that are collected as one chain, newest first, with their left operands in the order of the
source. -/
inductive Collects : List Pending → List Tree → Prop
  | first {o : Pending} (start : o.rule.prior = none) (leads : o.rule.fixity ≠ .infixOp) : Collects [o] []
  | infixed {o : Pending} {left : Tree} (start : o.rule.prior = none) (between : o.rule.fixity = .infixOp)
      (operand : o.left = some left) : Collects [o] [left]
  | next {o previous : Pending} {left : Tree} {lefts : List Tree} {links : List Pending} {prior : String}
      (continues : o.rule.prior = some prior) (operand : o.left = some left)
      (same : previous.rule.symbol = prior) (collects : Collects (previous :: links) lefts) :
      Collects (o :: previous :: links) (lefts ++ [left])

theorem reduceMixfix_ok {parts : List Tag} {operands : List Tree}
    (ok : p.reduceMixfix parts operands top below = .ok (t, rest)) :
    ∃ links lefts, top :: below = links ++ rest ∧ Collects links lefts ∧
      t = .mixfix (links.reverse.map Pending.tag ++ parts) (lefts ++ operands) := by
  fun_induction reduceMixfix p parts operands top below with
  | case1 parts operands current below start between left operand =>
    cases ok
    exact ⟨[current], [left], rfl, .infixed start between operand, rfl⟩
  | case3 parts operands current below start leads =>
    cases ok
    exact ⟨[current], [], rfl, .first start leads, rfl⟩
  | case6 parts operands current previous below left operand continues ih =>
    obtain ⟨links, lefts, split, collects, rfl⟩ := ih ok
    cases links with
    | nil => cases collects
    | cons first links =>
      obtain ⟨rfl, rfl⟩ := List.cons.inj split
      exact ⟨_, _, rfl, .next continues operand rfl collects, by simp⟩
  | _ => cases ok

/-- What is left of a pending operator and its right operand. -/
inductive Reduct (p : Parser) (top : Pending) (below : List Pending) (right : Tree) : Parser → Prop
  | chain {links rest : List Pending} {lefts : List Tree} (continues : top.rule.prior.isSome = true)
      (split : top :: below = links ++ rest) (collects : Collects links lefts) :
      Reduct p top below right
        { p with operand := some (.mixfix (links.reverse.map Pending.tag) (lefts ++ [right])), pending := rest }
  | erase (start : top.rule.prior = none) (leads : top.rule.fixity = .prefixOp)
      (vanishes : top.rule.reduction = .erase) :
      Reduct p top below right { p with operand := some right, pending := below }
  | declare {q : Parser} {kind : DeclarationKind} {d : Declaration} (start : top.rule.prior = none)
      (leads : top.rule.fixity = .prefixOp) (declares : top.rule.reduction = .declare kind)
      (read : Declaration.ofOperand kind top.tag right = .ok d)
      (registered : p.registerRules d.rules = .ok q) :
      Reduct p top below right { q with operand := some (.declaration d), pending := below }
  | leading (start : top.rule.prior = none) (leads : top.rule.fixity = .prefixOp)
      (keeps : top.rule.reduction ≠ .erase ∧ ∀ kind, top.rule.reduction ≠ .declare kind) :
      Reduct p top below right { p with operand := some (.prefixOp top.tag right), pending := below }
  | headless (start : top.rule.prior = none) (behind : top.rule.fixity ≠ .prefixOp)
      (missing : top.missingLeft = true) :
      Reduct p top below right
        { p with
          operand := some (Tree.ofInfix top.rule.reduction top.tag
            (.placeholder (Span.point top.tag.span.start)) right)
          pending := markSection below }
  | infixed {left : Tree} (start : top.rule.prior = none) (behind : top.rule.fixity ≠ .prefixOp)
      (given : top.missingLeft = false) (operand : top.left = some left) :
      Reduct p top below right
        { p with operand := some (Tree.ofInfix top.rule.reduction top.tag left right), pending := below }

variable {q r : Parser}

theorem reduceTop_ok (ok : p.reduceTop top below right = .ok q) : Reduct p top below right q := by
  unfold reduceTop at ok
  split at ok
  · next continues =>
    split at ok
    · cases ok
    · next collected =>
      cases ok
      obtain ⟨links, lefts, split, collects, rfl⟩ := reduceMixfix_ok collected
      rw [List.append_nil]
      exact .chain continues split collects
  · next start =>
    rw [Option.not_isSome_iff_eq_none] at start
    split at ok
    · next leads =>
      split at ok
      · next vanishes =>
        cases ok
        exact .erase start leads vanishes
      · next kind declares =>
        split at ok
        · cases ok
        · next declared =>
          cases ok
          unfold declare at declared
          split at declared
          · cases declared
          · next read =>
            split at declared
            · cases declared
            · next registered =>
              cases declared
              exact .declare start leads declares read registered
      · next keeps declares =>
        cases ok
        exact .leading start leads ⟨keeps, declares⟩
    · next behind =>
      split at ok
      · next missing =>
        cases ok
        exact .headless start behind missing
      · next given =>
        split at ok
        · next operand =>
          cases ok
          exact .infixed start behind (Bool.eq_false_iff.2 given) operand
        · cases ok

/-- One change to what the innermost bracket holds: a reduction, or what closing the bracket supplies. -/
inductive Edit (p : Parser) : Parser → Prop
  | reduce {top : Pending} {below : List Pending} {right : Tree} {q : Parser} (here : p.pending = top :: below)
      (operand : p.operand = some right) (operator : top.rule.isOpener = false)
      (reduct : Reduct p top below right q) : Edit p q
  | separator {top : Pending} {below : List Pending} (here : p.pending = top :: below)
      (empty : p.operand = none) (separates : top.rule.isSeparator = true) :
      Edit p { p with operand := top.left, pending := below }
  | operator {top : Pending} {below : List Pending} (here : p.pending = top :: below)
      (empty : p.operand = none) (operator : top.rule.isOpener = false) (missing : top.missingLeft = true) :
      Edit p { p with operand := some (.name top.tag), pending := below }
  | gap {top : Pending} {below : List Pending} (here : p.pending = top :: below) (empty : p.operand = none)
      (operator : top.rule.isOpener = false) (sections : top.rule.isSectionable = true)
      (given : top.missingLeft = false) (operand : top.left.isSome = true)
      (inside : (below.head?).any Pending.isParen = true) :
      Edit p
        { p with operand := some (.placeholder (Span.point top.tag.span.stop)), pending := top :: markSection below }

/-- Reductions one after the other, each of an operator that satisfies the condition. -/
inductive Reduces (C : Pending → Prop) : Parser → Parser → Prop
  | refl (p : Parser) : Reduces C p p
  | step {p q r : Parser} {top : Pending} {below : List Pending} {right : Tree} (here : p.pending = top :: below)
      (operand : p.operand = some right) (operator : top.rule.isOpener = false) (may : C top)
      (reduct : Reduct p top below right q) (reduces : Reduces C q r) : Reduces C p r

theorem Reduces.edits {C : Pending → Prop} (reduces : Reduces C p q) : Relation.ReflTransGen Edit p q := by
  induction reduces with
  | refl => exact .refl
  | step here operand operator _ reduct _ ih => exact .head (.reduce here operand operator reduct) ih

/-- What an incoming operator finds when it is put behind the operand read last: the operators that it
does not wait for are reduced, or those behind the part of the chain that it continues. -/
inductive Ready (p : Parser) (rule : Rule) : Parser → Prop
  | binds {r : Parser} (start : rule.prior = none)
      (reduces : Reduces (fun top => top.missingLeft = false ∧ top.rule.Tighter rule) p r)
      (stops : ∀ top ∈ r.pending.head?, top.rule.isOpener = true ∨ top.rule.Waits rule) : Ready p rule r
  | continues {r : Parser} {prior : String} {top : Pending} {below : List Pending} (continues : rule.prior = some prior)
      (reduces : Reduces (fun top => top.rule.symbol ≠ prior) p r) (here : r.pending = top :: below)
      (operator : top.rule.isOpener = false) (same : top.rule.symbol = prior) : Ready p rule r

theorem Reduct.operand (reduct : Reduct p top below right q) : q.operand.isSome = true := by
  cases reduct <;> rfl

theorem Reduces.operand {C : Pending → Prop} (reduces : Reduces C p q) (behind : p.operand.isSome = true) :
    q.operand.isSome = true := by
  induction reduces with
  | refl => exact behind
  | step _ _ _ _ reduct _ ih => exact ih reduct.operand

theorem Ready.edits (ready : Ready p rule r) : Relation.ReflTransGen Edit p r := by
  cases ready with
  | binds _ reduces => exact reduces.edits
  | continues _ reduces => exact reduces.edits

theorem Ready.operand (ready : Ready p rule r) (behind : p.operand.isSome = true) : r.operand.isSome = true := by
  cases ready with
  | binds _ reduces => exact reduces.operand behind
  | continues _ reduces => exact reduces.operand behind

theorem reduceLeft_ok (behind : p.operand.isSome = true) (ok : p.reduceLeft rule tag = .ok q) :
    Reduces (fun top => top.missingLeft = false ∧ top.rule.Tighter rule) p q ∧
      ∀ top ∈ q.pending.head?, top.rule.isOpener = true ∨ top.rule.Waits rule := by
  fun_induction reduceLeft p rule tag with
  | case1 p right top below here operand opens =>
    cases ok
    refine ⟨.refl _, fun o found => .inl ?_⟩
    rw [here] at found
    cases found
    exact opens
  | case3 p right top below here operand closed stays =>
    cases ok
    refine ⟨.refl _, fun o found => .inr ?_⟩
    rw [here] at found
    cases found
    exact bindsTighter_ok_false.1 stays
  | case6 p right top below here operand closed tighter given q' reduced ih =>
    have reduct := reduceTop_ok reduced
    obtain ⟨reduces, stops⟩ := ih reduct.operand ok
    have may := And.intro (Bool.eq_false_iff.2 given) (bindsTighter_ok_true.1 tighter)
    exact ⟨.step here operand (Bool.eq_false_iff.2 closed) may reduct reduces, stops⟩
  | case7 p none =>
    cases ok
    refine ⟨.refl _, fun o found => ?_⟩
    obtain ⟨right, operand⟩ := Option.isSome_iff_exists.1 behind
    obtain ⟨below, here⟩ := List.head?_eq_some_iff.1 found
    exact (none right o below operand here).elim
  | _ => cases ok

theorem reduceToPrior_ok {prior : String} (ok : p.reduceToPrior prior tag = .ok q) :
    Reduces (fun top => top.rule.symbol ≠ prior) p q ∧
      ∃ top below, q.pending = top :: below ∧ top.rule.isOpener = false ∧ top.rule.symbol = prior := by
  fun_induction reduceToPrior p prior tag with
  | case2 p right top below here operand closed same =>
    cases ok
    exact ⟨.refl _, top, below, here, Bool.eq_false_iff.2 closed, same⟩
  | case4 p right top below here operand closed differ q' reduced ih =>
    obtain ⟨reduces, reaches⟩ := ih ok
    exact ⟨.step here operand (Bool.eq_false_iff.2 closed) differ (reduceTop_ok reduced) reduces, reaches⟩
  | _ => cases ok

theorem reduceToOpener_ok (ok : p.reduceToOpener = .ok q) :
    Relation.ReflTransGen Edit p q ∧
      ∃ opener below, q.pending = opener :: below ∧ opener.rule.isOpener = true := by
  fun_induction reduceToOpener p with
  | case2 p top below here opens =>
    cases ok
    exact ⟨.refl, top, below, here, opens⟩
  | case5 p top below here closed right operand q' reduced ih =>
    obtain ⟨edits, reaches⟩ := ih ok
    exact ⟨.head (.reduce here operand (Bool.eq_false_iff.2 closed) (reduceTop_ok reduced)) edits, reaches⟩
  | _ => cases ok

/-! ### Brackets -/

theorem dropSeparators_edits (p : Parser) : Relation.ReflTransGen Edit p p.dropSeparators := by
  obtain ⟨registry, operand, pending, layout, started, origin⟩ := p
  unfold dropSeparators
  dsimp only
  fun_induction eraseSeparators operand pending with
  | case1 top below separates ih => exact .head (.separator rfl rfl separates) ih
  | case2 | case3 => exact .refl

theorem completeSection_edits (ok : p.completeSection = .ok q) : Relation.ReflTransGen Edit p q := by
  unfold completeSection at ok
  split at ok
  · next top below empty here =>
    dsimp only at ok
    split at ok
    · cases ok
      exact .refl
    · next closed =>
      have operator := Bool.eq_false_iff.2 closed
      split at ok
      · next missing =>
        cases ok
        exact .single (.operator here empty operator (Bool.and_eq_true_iff.1 missing).1)
      · split at ok
        · next gap =>
          simp only [Bool.and_eq_true, Bool.not_eq_true'] at gap
          obtain ⟨⟨⟨sections, given⟩, present⟩, inside⟩ := gap
          cases ok
          exact .single (.gap here empty operator sections given present inside)
        · cases ok
  · cases ok
    exact .refl

/-- The innermost bracket, once its content is reduced, gives way to its tree. -/
inductive Closes (C : Pending → Prop) (p : Parser) : Parser → Prop
  | intro {r : Parser} {opener : Pending} {below : List Pending} {closing : Tag} {t : Tree}
      (edits : Relation.ReflTransGen Edit p r) (here : r.pending = opener :: below)
      (opens : opener.rule.isOpener = true) (partner : C opener)
      (tree : Tree.ofBracket (opener.rule.bracketKind.getD .paren) opener.tag closing r.operand
        opener.sectioned = .ok t) :
      Closes C p
        { r with
          registry := r.registry.popScope, layout := r.layout.tail, operand := some t, pending := below }

theorem popBracket_ok {content : Option Tree} {opener : Pending} {free : Parser}
    (ok : p.popBracket tag = .ok (content, opener, free)) :
    ∃ below, p.pending = opener :: below ∧ opener.rule.isOpener = true ∧ content = p.operand ∧
      free = { p with operand := none, pending := below } := by
  unfold popBracket at ok
  split at ok
  · next o below here =>
    split at ok
    · next opens =>
      cases ok
      exact ⟨below, here, opens, rfl, rfl⟩
    · cases ok
  · cases ok

theorem putBracket_ok {kind : BracketKind} {opener : Pending} {content : Option Tree} {sectioned : Bool}
    (ok : p.putBracket kind opener tag content sectioned = .ok q) :
    ∃ t, Tree.ofBracket kind opener.tag tag content sectioned = .ok t ∧ q = { p with operand := some t } := by
  unfold putBracket at ok
  split at ok
  · next t made =>
    cases ok
    exact ⟨t, made, rfl⟩
  · cases ok

theorem closeBracket_ok (ok : p.closeBracket rule tag = .ok q) :
    Closes (fun opener => opener.rule.partner = some rule.symbol) p q := by
  obtain ⟨completed, completes, ok⟩ := bind_ok ok
  obtain ⟨reduced, reduces, ok⟩ := bind_ok ok
  obtain ⟨⟨content, opener, free⟩, popped, ok⟩ := bind_ok ok
  obtain ⟨below, here, opens, rfl, rfl⟩ := popBracket_ok popped
  dsimp only at ok
  split at ok
  · next partner =>
    obtain ⟨t, made, rfl⟩ := putBracket_ok ok
    have edits := (completeSection_edits completes).trans (reduceToOpener_ok reduces).1
    exact .intro (r := reduced) ((dropSeparators_edits p).trans edits) here opens partner made
  · split at ok <;> cases ok

theorem closeBlock_ok (ok : p.closeBlock span = .ok q) :
    Closes (fun opener => opener.rule.bracketKind = some .block) p q := by
  obtain ⟨reduced, reduces, ok⟩ := bind_ok ok
  obtain ⟨⟨content, opener, free⟩, popped, ok⟩ := bind_ok ok
  obtain ⟨below, here, opens, rfl, rfl⟩ := popBracket_ok popped
  dsimp only at ok
  split at ok
  · next block =>
    obtain ⟨t, made, rfl⟩ := putBracket_ok ok
    rw [ofBracket_lines (.inl rfl) _ opener.sectioned] at made
    have edits := (dropSeparators_edits p).trans (reduceToOpener_ok reduces).1
    have tree : Tree.ofBracket (opener.rule.bracketKind.getD .paren) opener.tag (reduced.tag "dedent" span)
        reduced.operand opener.sectioned = .ok t := by
      rwa [block]
    exact .intro (r := reduced) edits here opens block tree
  · cases ok

/-- The blocks that a line break ends are closed, down to one that goes on. -/
inductive Dedents (ends : Nat → Bool) : Parser → Parser → Prop
  | stop {p : Parser} (stays : ∀ width outer rest, p.layout = .block width :: outer :: rest → ends width = false) :
      Dedents ends p p
  | step {p q r : Parser} {width : Nat} {outer : Layout} {rest : List Layout}
      (here : p.layout = .block width :: outer :: rest) (ended : ends width = true)
      (closes : Closes (fun opener => opener.rule.bracketKind = some .block) p q) (dedents : Dedents ends q r) :
      Dedents ends p r

/-- What an edit does not touch. -/
theorem registerRules_frame {rules : List (Tag × Rule)} (ok : p.registerRules rules = .ok q) :
    q.layout = p.layout ∧ q.started = p.started ∧ q.origin = p.origin := by
  rw [registerRules_keeps ok]
  exact ⟨rfl, rfl, rfl⟩

theorem Edit.frame (edit : Edit p q) : q.layout = p.layout ∧ q.started = p.started ∧ q.origin = p.origin := by
  cases edit with
  | reduce _ _ _ reduct =>
    cases reduct with
    | declare _ _ _ _ registered =>
      obtain ⟨layout, started, origin⟩ := registerRules_frame registered
      exact ⟨layout, started, origin⟩
    | _ => exact ⟨rfl, rfl, rfl⟩
  | _ => exact ⟨rfl, rfl, rfl⟩

theorem edits_frame (edits : Relation.ReflTransGen Edit p q) :
    q.layout = p.layout ∧ q.started = p.started ∧ q.origin = p.origin := by
  induction edits with
  | refl => exact ⟨rfl, rfl, rfl⟩
  | tail _ edit ih =>
    obtain ⟨layout, started, origin⟩ := edit.frame
    exact ⟨layout.trans ih.1, started.trans ih.2.1, origin.trans ih.2.2⟩

theorem Closes.layout {C : Pending → Prop} (closes : Closes C p q) : q.layout = p.layout.tail := by
  obtain ⟨edits, here, opens, partner, tree⟩ := closes
  exact congrArg List.tail (edits_frame edits).1

theorem closeBlocks_ok {ends : Nat → Bool} (ok : closeBlocks ends span p p.layout = .ok q) :
    Dedents ends p q := by
  have general : ∀ (layout : List Layout) (p : Parser), p.layout = layout →
      closeBlocks ends span p layout = .ok q → Dedents ends p q := by
    intro layout p here ok
    fun_induction closeBlocks ends span p layout with
    | case1 p width outer rest ended ih =>
      obtain ⟨closed, closing, ok⟩ := bind_ok ok
      have closes := closeBlock_ok closing
      refine .step here ended closes (ih closed ?_ ok)
      rw [closes.layout, here]
      rfl
    | case2 p width outer rest stays =>
      cases ok
      refine .stop fun width' outer' rest' found => ?_
      cases here.symm.trans found
      exact Bool.eq_false_iff.2 stays
    | case3 layout p other =>
      cases ok
      refine .stop fun width outer rest found => ?_
      exact (other width outer rest (here.symm.trans found)).elim
  exact general _ p rfl ok

/-! ### Tokens -/

/-- Room for an operand: there is none, or it is juxtaposed. -/
inductive Room (p : Parser) (place : Nat) : Parser → Prop
  | empty (empty : p.operand = none) : Room p place p
  | juxtaposed {r : Parser} (behind : p.operand.isSome = true) (ready : Ready p Rule.space r) :
      Room p place (r.push Rule.space (p.tag " " (Span.point place)))

/-- A word has a rule, and is no word of a declaration. -/
structure Acts (p : Parser) (token : Token) (text : String) (e : Registration) : Prop where
  word : token.symbol = some text
  found : p.registry.find? text = some e
  operator : e.rule.isOperand = false
  declared : p.isDeclared e.rule = false

/-- The indentation of the innermost block. -/
def indentation (p : Parser) : Nat :=
  match p.layout with
  | .block width :: _ => width
  | _ => 0

/-- What an accepted token does. -/
inductive Shifts (p : Parser) (span : Span) : Token → Parser → Prop
  | eof : Shifts p span .eof p
  | literal {token : Token} {t : Tree} {r : Parser} (leaf : token.literal? span = some t)
      (room : Room p span.start r) : Shifts p span token { r with operand := some t }
  | name {token : Token} {text : String} {r : Parser} (word : token.symbol = some text)
      (plain : (p.registry.lookup text).isOperand = true ∨ p.isDeclared (p.registry.lookup text) = true)
      (room : Room p span.start r) :
      Shifts p span token { r with operand := some (.name (p.tag text span)) }
  | opening {token : Token} {text : String} {e : Registration} {r : Parser} (acts : Acts p token text e)
      (opens : e.rule.fixity = .opening) (room : Room p span.start r) :
      Shifts p span token (r.openBracket e.rule (p.tag text span))
  | leading {token : Token} {text : String} {e : Registration} {r : Parser} (acts : Acts p token text e)
      (leads : e.rule.fixity = .prefixOp) (room : Room p span.start r) :
      Shifts p span token (r.push e.rule (p.tag text span))
  | closing {token : Token} {text : String} {e : Registration} {q : Parser} (acts : Acts p token text e)
      (ends : e.rule.fixity = .closing)
      (closes : Closes (fun opener => opener.rule.partner = some e.rule.symbol) p q) : Shifts p span token q
  | headless {token : Token} {text : String} {e : Registration} (acts : Acts p token text e)
      (empty : p.operand = none) (sections : e.rule.isSectionable = true)
      (inside : (p.pending.head?).any Pending.isParen = true) :
      Shifts p span token
        { p with
          pending := { Pending.leading e.rule (p.tag text span) with missingLeft := true } :: p.pending }
  | infixed {token : Token} {text : String} {e : Registration} {r : Parser} (acts : Acts p token text e)
      (between : e.rule.fixity = .infixOp) (behind : p.operand.isSome = true) (ready : Ready p e.rule r) :
      Shifts p span token (r.push e.rule (p.tag text span))
  | postfixed {token : Token} {text : String} {e : Registration} {r : Parser} {t : Tree}
      (acts : Acts p token text e) (follows : e.rule.fixity = .postfixOp) (behind : p.operand.isSome = true)
      (ready : Ready p e.rule r) (operand : r.operand = some t) :
      Shifts p span token { r with operand := some (.postfixOp (p.tag text span) t) }
  | inside {width : Nat} (inside : p.layout.head? = some .explicit) : Shifts p span (.newline width) p
  | first {width : Nat} (outside : p.layout.head? ≠ some .explicit) (unstarted : p.started = false) :
      Shifts p span (.newline width)
        { p with
          started := true
          layout :=
            match p.layout with
            | .block _ :: outer => .block width :: outer
            | _ => p.layout }
  | continues {width : Nat} (behind : p.operand.isSome = true) : Shifts p span (.newline width) p
  | indents {width : Nat} (outside : p.layout.head? ≠ some .explicit) (started : p.started = true)
      (deeper : p.indentation < width) (even : (width - p.indentation) % 2 = 0) (empty : p.operand = none) :
      Shifts p span (.newline width) (p.openBlock width span)
  | aligns {width : Nat} {r : Parser} (started : p.started = true) (dedents : Dedents (width < ·) p r)
      (here : r.layout.head? = some (.block width)) (empty : r.operand = none) : Shifts p span (.newline width) r
  | separates {width : Nat} {r s : Parser} (started : p.started = true) (dedents : Dedents (width < ·) p r)
      (here : r.layout.head? = some (.block width)) (behind : r.operand.isSome = true)
      (ready : Ready r Rule.newline s) :
      Shifts p span (.newline width) (s.push Rule.newline (r.tag "newline" span))

theorem separateOperands_ok (ok : p.separateOperands span = .ok q) : Room p span.start q := by
  unfold separateOperands at ok
  split at ok
  · next behind =>
    obtain ⟨r, reduced, ok⟩ := bind_ok ok
    cases ok
    obtain ⟨reduces, stops⟩ := reduceLeft_ok behind reduced
    exact .juxtaposed behind (.binds rfl reduces stops)
  · next empty =>
    cases ok
    exact .empty (by simpa using empty)

theorem shiftOperand_ok (ok : p.shiftOperand t = .ok q) :
    ∃ r, Room p t.span.start r ∧ q = { r with operand := some t } := by
  obtain ⟨r, separated, ok⟩ := bind_ok ok
  cases ok
  exact ⟨r, separateOperands_ok separated, rfl⟩

variable {token : Token} {text : String} {e : Registration}

/-- An operator that has been made room for waits for its right operand, or takes its left one at once. -/
theorem placed_ok (acts : Acts p token text e) (fixity : e.rule.fixity = .infixOp ∨ e.rule.fixity = .postfixOp)
    (behind : p.operand.isSome = true) (ready : Ready p e.rule r)
    (ok : (if e.rule.fixity = .postfixOp then
        match r.operand with
        | some operand => return { r with operand := some (.postfixOp (p.tag text span) operand) }
        | none => r.refuseOperand (p.tag text span)
      else return r.push e.rule (p.tag text span)) = Except.ok q) : Shifts p span token q := by
  split at ok
  · next follows =>
    split at ok
    · next t operand =>
      cases ok
      exact .postfixed acts follows behind ready operand
    · cases ok
  · next between =>
    cases ok
    exact .infixed acts (fixity.resolve_right between) behind ready

theorem shiftInner_ok (acts : Acts p token text e) (fixity : e.rule.fixity = .infixOp ∨ e.rule.fixity = .postfixOp)
    (ok : p.shiftInner e.rule (p.tag text span) = .ok q) : Shifts p span token q := by
  unfold shiftInner at ok
  split at ok
  · next empty =>
    split at ok
    · next section_ =>
      obtain ⟨sections, inside⟩ := Bool.and_eq_true_iff.1 section_
      cases ok
      exact .headless acts (by simpa using empty) sections inside
    · cases ok
  · next present =>
    have behind : p.operand.isSome = true := by simpa [Option.isSome_iff_ne_none] using present
    dsimp only at ok
    split at ok
    · next prior continues =>
      obtain ⟨r, reduced, ok⟩ := bind_ok ok
      obtain ⟨reduces, top, below, here, operator, same⟩ := reduceToPrior_ok reduced
      exact placed_ok acts fixity behind (.continues continues reduces here operator same) ok
    · next start =>
      obtain ⟨r, reduced, ok⟩ := bind_ok ok
      obtain ⟨reduces, stops⟩ := reduceLeft_ok behind reduced
      exact placed_ok acts fixity behind (.binds start reduces stops) ok

theorem shiftOperator_ok (acts : Acts p token text e) (ok : p.shiftOperator e.rule (p.tag text span) = .ok q) :
    Shifts p span token q := by
  unfold shiftOperator at ok
  split at ok
  · next opens =>
    obtain ⟨r, separated, ok⟩ := bind_ok ok
    cases ok
    exact .opening acts opens (separateOperands_ok separated)
  · next ends => exact .closing acts ends (closeBracket_ok ok)
  · next leads =>
    obtain ⟨r, separated, ok⟩ := bind_ok ok
    cases ok
    exact .leading acts leads (separateOperands_ok separated)
  · next between => exact shiftInner_ok acts (.inl between) ok
  · next follows => exact shiftInner_ok acts (.inr follows) ok

theorem shiftSymbol_ok (word : token.symbol = some text) (ok : p.shiftSymbol text span = .ok q) :
    Shifts p span token q := by
  unfold shiftSymbol at ok
  dsimp only at ok
  split at ok
  · next plain =>
    obtain ⟨r, room, rfl⟩ := shiftOperand_ok ok
    exact .name word (by simpa using plain) room
  · next plain =>
    rw [Bool.not_eq_true, Bool.or_eq_false_iff] at plain
    cases found : p.registry.find? text with
    | none =>
      have operand : (p.registry.lookup text).isOperand = true := by
        rw [Registry.lookup, found]
        rfl
      exact absurd operand (Bool.eq_false_iff.1 plain.1)
    | some e =>
      have here : p.registry.lookup text = e.rule := by rw [Registry.lookup, found]
      rw [here] at plain ok
      exact shiftOperator_ok ⟨word, found, plain.1, plain.2⟩ ok

theorem shiftNewline_ok {width : Nat} (ok : p.shiftNewline width span = .ok q) :
    Shifts p span (.newline width) q := by
  unfold shiftNewline at ok
  split at ok
  · next here =>
    cases ok
    exact .inside (by rw [here]; rfl)
  · next explicit =>
    have outside : p.layout.head? ≠ some .explicit := fun first =>
      have ⟨outer, here⟩ := List.head?_eq_some_iff.1 first
      explicit outer here
    change (if !p.started then _
      else if width > p.indentation then
        if p.operand.isSome then _ else if (width - p.indentation) % 2 = 1 then _ else _
      else _) = Except.ok q at ok
    split at ok
    · next unstarted =>
      cases ok
      exact .first outside (by simpa using unstarted)
    · next started =>
      have started : p.started = true := by simpa using started
      split at ok
      · next deeper =>
        split at ok
        · next behind =>
          cases ok
          exact .continues behind
        · next empty =>
          split at ok
          · cases ok
          · next even =>
            cases ok
            exact .indents outside started deeper (Nat.mod_two_ne_one.1 even) (by simpa using empty)
      · next shallower =>
        obtain ⟨r, closed, ok⟩ := bind_ok ok
        have dedents := closeBlocks_ok closed
        split at ok
        · cases ok
        · next same =>
          rw [Decidable.not_not] at same
          split at ok
          · next behind =>
            obtain ⟨s, reduced, ok⟩ := bind_ok ok
            cases ok
            obtain ⟨reduces, stops⟩ := reduceLeft_ok behind reduced
            exact .separates started dedents same behind (.binds rfl reduces stops)
          · next empty =>
            cases ok
            exact .aligns started dedents same (by simpa using empty)

theorem shift_ok (ok : p.shift token span = .ok q) : Shifts p span token q := by
  cases token with
  | eof =>
    cases ok
    exact .eof
  | newline width => exact shiftNewline_ok ok
  | int | str | char =>
    obtain ⟨r, room, rfl⟩ := shiftOperand_ok ok
    exact .literal rfl room
  | name text | operator text => exact shiftSymbol_ok rfl ok

/-! ### Runs -/

/-- The state after these tokens. -/
def taking (p : Parser) (xs : List Lexeme) : Parsing Parser :=
  xs.foldlM (fun p x => p.shift x.token x.span) p

/-- What has been taken does not matter any more for what follows. -/
theorem run_append {xs : List Lexeme} (more : ∀ x ∈ xs, x.token ≠ .eof) (taken : p.taking xs = .ok q)
    (rest : List (Except LexicalError Lexeme)) : p.run (xs.map .ok ++ rest) = q.run rest := by
  induction xs generalizing p with
  | nil =>
    cases taken
    rfl
  | cons x xs ih =>
    rw [List.forall_mem_cons] at more
    obtain ⟨r, shifted, taken⟩ := bind_ok taken
    rw [List.map_cons, List.cons_append, run_ok more.1 shifted, ih more.2 taken]

/-- The first tokens of an accepted source have been taken. -/
theorem run_taken {xs : List Lexeme} {rest : List (Except LexicalError Lexeme)} {result : Tree × Parser}
    (more : ∀ x ∈ xs, x.token ≠ .eof) (ok : p.run (xs.map .ok ++ rest) = .ok result) :
    ∃ q, p.taking xs = .ok q ∧ q.run rest = .ok result := by
  induction xs generalizing p with
  | nil => exact ⟨p, rfl, ok⟩
  | cons x xs ih =>
    rw [List.forall_mem_cons] at more
    obtain ⟨r, shifted, ok⟩ := run_cons more.1 ok
    obtain ⟨q, taken, finished⟩ := ih more.2 ok
    refine ⟨q, ?_, finished⟩
    rw [taking, List.foldlM_cons, shifted]
    exact taken

theorem taking_snoc {xs : List Lexeme} {x : Lexeme} (ok : p.taking xs = .ok q)
    (shifted : q.shift x.token x.span = .ok r) : p.taking (xs ++ [x]) = .ok r := by
  unfold taking at ok ⊢
  rw [List.foldlM_append, ok]
  change [x].foldlM (fun p x => p.shift x.token x.span) q = .ok r
  rw [List.foldlM_cons, shifted]
  rfl

/-- What the end of a source does: no bracket is left open but the file. -/
inductive Finishes (p : Parser) : Tree × Parser → Prop
  | intro {r s : Parser} {opener : Pending} {below : List Pending} {closing : Tag} {t : Tree}
      (dedents : Dedents (fun _ => true) p r) (edits : Relation.ReflTransGen Edit r s)
      (here : s.pending = opener :: below) (opens : opener.rule.isOpener = true)
      (file : opener.rule.bracketKind = some .file)
      (tree : Tree.ofBracket .file opener.tag closing s.operand false = .ok t) :
      Finishes p (t, { s with operand := none, pending := below })

theorem finish_ok {result : Tree × Parser} (ok : p.finish span = .ok result) : Finishes p result := by
  obtain ⟨r, closed, ok⟩ := bind_ok ok
  obtain ⟨s, reduced, ok⟩ := bind_ok ok
  obtain ⟨⟨content, opener, free⟩, popped, ok⟩ := bind_ok ok
  obtain ⟨below, here, opens, rfl, rfl⟩ := popBracket_ok popped
  have edits := (dropSeparators_edits r).trans (reduceToOpener_ok reduced).1
  dsimp only at ok
  split at ok
  · next file =>
    split at ok
    · next tree =>
      cases ok
      exact .intro (closeBlocks_ok closed) edits here opens file tree
    · cases ok
  · cases ok

/-- An accepted source has been taken token by token up to its end. -/
theorem run_taking {stream : List (Except LexicalError Lexeme)} {result : Tree × Parser}
    (ok : p.run stream = .ok result) :
    ∃ xs q, xs.map .ok <+: stream ∧ p.taking xs = .ok q ∧ Finishes q result := by
  induction stream generalizing p with
  | nil => exact ⟨[], p, List.nil_prefix, rfl, finish_ok ok⟩
  | cons item rest ih =>
    cases item with
    | error e => cases ok
    | ok x =>
      by_cases stop : x.token = .eof
      · obtain ⟨token, span⟩ := x
        cases stop
        exact ⟨[], p, List.nil_prefix, rfl, finish_ok ok⟩
      · obtain ⟨q, shifted, ok⟩ := run_cons stop ok
        obtain ⟨xs, r, front, taken, finishes⟩ := ih ok
        refine ⟨x :: xs, r, List.cons_prefix_cons.2 ⟨rfl, front⟩, ?_, finishes⟩
        rw [taking, List.foldlM_cons, shifted]
        exact taken

end Parser

end MixfixLambda
