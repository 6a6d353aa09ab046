import MixfixLambda.Proofs.Parse.Restored
import MixfixLambda.Proofs.Token.Extent
import MixfixLambda.Proofs.Tree.Leaves

/-!
# No literal is lost

The literals that have been read are those of the operands on the stack, from the oldest to the one read last, in the
order of the source. Whatever happens inside a bracket keeps them, except that a declaration takes up its precedence.
-/
namespace MixfixLambda

/-- The head of a juxtaposition and its arguments stand in the order of the source. -/
theorem Tree.leaves_spine (t : Tree) : t.leaves = t.spine.1.leaves ++ t.spine.2.flatMap Tree.leaves := by
  have general : ∀ (t : Tree) (arguments : List Tree),
      (Tree.spine.go t arguments).1.leaves ++ (Tree.spine.go t arguments).2.flatMap Tree.leaves =
        t.leaves ++ arguments.flatMap Tree.leaves := by
    intro t arguments
    fun_induction Tree.spine.go t arguments with
    | case1 arguments function argument span ih => simp [ih, Tree.leaves]
    | case2 => rfl
  rw [Tree.spine, general, List.flatMap_nil, List.append_nil]

namespace Declaration

variable {kind : DeclarationKind} {d : Declaration}

theorem takePrecedence_first {words rest : List Tree} {n : Nat} (ok : takePrecedence words = .ok (n, rest)) :
    ∃ span, words = .int n span :: rest := by
  unfold takePrecedence at ok
  split at ok
  · next value span words =>
    split at ok
    · next range =>
      cases ok
      exact ⟨span, by rw [Int.toNat_of_nonneg range.1]⟩
    · cases ok
  · cases ok

theorem takeSymbols_leaves {chains : Bool} {words : List Tree} {result : List Tag × Option Tag}
    (ok : takeSymbols chains words = .ok result) : words.flatMap Tree.leaves = [] := by
  fun_induction takeSymbols chains words generalizing result with
  | case1 => rfl
  | case2 => simp [Tree.leaves]
  | case4 tag words plain ih =>
    obtain ⟨symbols, taken, -⟩ := bind_ok ok
    simp [Tree.leaves, ih taken]
  | _ => cases ok

theorem ofSymbols_leaves {span : Span} {precedence : Option Nat} {rest : List Tree} (ok : (do
      let (symbols, prior) ← takeSymbols (!(kind == DeclarationKind.bracket)) rest
      if symbols.isEmpty then throw DeclarationFault.noSymbol
      if (kind == DeclarationKind.bracket) && symbols.length != 2 then throw DeclarationFault.noPair
      return (⟨kind, precedence, symbols, prior, span⟩ : Declaration)) = .ok d) :
    d.precedence = precedence ∧ rest.flatMap Tree.leaves = [] := by
  obtain ⟨-, same, -⟩ := ofSymbols_ok ok
  obtain ⟨symbols, taken, -⟩ := bind_ok ok
  exact ⟨same, takeSymbols_leaves taken⟩

/-- The only literal among the words of a declaration is its precedence. -/
theorem ofOperand_leaves {keyword : Tag} {operand : Tree} (ok : ofOperand kind keyword operand = .ok d) :
    (d.precedence = none ∧ operand.leaves = []) ∨
      ∃ (n : Nat) (span : Span), d.precedence = some n ∧ operand.leaves = [.literal ⟨.int n, span⟩] := by
  have words : operand.leaves = (operand.spine.1 :: operand.spine.2).flatMap Tree.leaves := by
    rw [List.flatMap_cons, ← Tree.leaves_spine]
  rw [words]
  unfold ofOperand at ok
  dsimp only at ok
  split at ok
  · next read =>
    cases ok
    unfold ofWords at read
    dsimp only at read
    split at read
    · exact .inl (ofSymbols_leaves read)
    · obtain ⟨⟨n, rest⟩, first, read⟩ := bind_ok read
      obtain ⟨span, same⟩ := takePrecedence_first first
      obtain ⟨precedence, none⟩ := ofSymbols_leaves read
      refine .inr ⟨n, span, precedence, ?_⟩
      rw [same, List.flatMap_cons, none, List.append_nil, Tree.leaves]
  · cases ok

end Declaration

namespace Parser

open MixfixLambda.Tree (leavesOf)

variable {p q r : Parser} {o top : Pending} {above below rest : List Pending} {rule : Rule} {tag : Tag}
  {place : Nat} {C : Pending → Prop} {ends : Nat → Bool} {token : Token} {span : Span} {t right : Tree}
  {xs ys : List Lexeme}

/-! ### The literals of the stack -/

/-- The literals to the left of the operators that wait, the oldest first. -/
def laidLeaves : List Pending → List Leaf
  | [] => []
  | o :: below => laidLeaves below ++ leavesOf o.left

/-- The literals of all operands on the stack, in the order in which they have been read. -/
def leaves (p : Parser) : List Leaf :=
  laidLeaves p.pending ++ leavesOf p.operand

theorem laidLeaves_append : laidLeaves (above ++ below) = laidLeaves below ++ laidLeaves above := by
  induction above with
  | nil => simp [laidLeaves]
  | cons o above ih => simp [laidLeaves, ih]

@[simp]
theorem laidLeaves_markSection (pending : List Pending) : laidLeaves (markSection pending) = laidLeaves pending := by
  induction pending with
  | nil => rfl
  | cons o below ih =>
    unfold markSection
    split
    · rfl
    · rw [laidLeaves, laidLeaves, ih]

theorem Collects.leaves {links : List Pending} {lefts : List Tree} (collects : Collects links lefts)
    (stack : Stackwise Fits (links ++ rest)) : laidLeaves links = lefts.flatMap Tree.leaves := by
  induction collects with
  | first _ leads => simp [laidLeaves, stack.head.none (.inl leads)]
  | infixed _ _ operand => simp [laidLeaves, operand]
  | next _ operand _ _ ih =>
    rw [laidLeaves, ih stack.tail, operand]
    simp

/-- A reduction keeps the literals, except that a declaration takes up the last one as its precedence. -/
theorem Reduct.leaves (reduct : Reduct p top below right q) (stack : Stackwise Fits (top :: below)) :
    q.leaves = laidLeaves (top :: below) ++ right.leaves ∨
      ∃ front n span d, d.precedence = some n ∧ q.leaves = front ++ [.precedence d] ∧
        laidLeaves (top :: below) ++ right.leaves = front ++ [.literal ⟨.int (n : Nat), span⟩] := by
  have prefixed : top.rule.fixity = .prefixOp → top.left = none := fun leads =>
    stack.head.none (.inl (by rw [leads]; exact Fixity.noConfusion))
  cases reduct with
  | chain _ split collects =>
    rw [split] at stack ⊢
    left
    simp [Parser.leaves, laidLeaves_append, collects.leaves stack, Tree.leaves]
  | erase _ leads =>
    left
    simp [Parser.leaves, laidLeaves, prefixed leads]
  | declare _ leads _ read =>
    rcases Declaration.ofOperand_leaves read with ⟨none, alone⟩ | ⟨n, span, taken, alone⟩
    · left
      simp [Parser.leaves, laidLeaves, prefixed leads, alone, Tree.leaves, none]
    · refine .inr ⟨laidLeaves below, n, span, _, taken, ?_, ?_⟩
      · simp [Parser.leaves, Tree.leaves, taken]
      · simp [laidLeaves, prefixed leads, alone]
  | leading _ leads =>
    left
    simp [Parser.leaves, laidLeaves, prefixed leads, Tree.leaves]
  | headless _ _ missing =>
    left
    simp [Parser.leaves, laidLeaves, stack.head.none (.inr missing), Tree.leaves_ofInfix, Tree.leaves]
  | infixed _ _ _ operand =>
    left
    simp [Parser.leaves, laidLeaves, operand, Tree.leaves_ofInfix]

/-! ### What has been read -/

/-- The literals that have been read are on the stack. -/
def Carries (xs : List Lexeme) (p : Parser) : Prop :=
  List.Forall₂ Leaf.Reads xs p.leaves

theorem Carries.congr (carries : Carries xs p) (same : q.leaves = p.leaves) : Carries xs q := by
  rwa [Carries, same]

theorem Carries.edit (carries : Carries xs p) (stack : Stacked p.pending) (edit : Edit p q) : Carries xs q := by
  cases edit with
  | reduce here operand _ reduct =>
    rw [here] at stack
    have before := carries
    rw [Carries, Parser.leaves, here, operand, Tree.leavesOf_some] at before
    rcases reduct.leaves stack with same | ⟨front, n, span, d, taken, now, old⟩
    · rwa [Carries, same]
    · rw [old] at before
      obtain ⟨x, none, read, done, last⟩ := List.forall₂_cons_right_iff.1 (List.forall₂_drop_append _ _ _ before)
      cases done
      cases read
      rw [Carries, now, ← List.take_append_drop front.length xs, last]
      exact List.rel_append (List.forall₂_take_append _ _ _ before) (.cons (.precedence taken) .nil)
  | separator here empty =>
    refine carries.congr ?_
    simp [Parser.leaves, here, empty, laidLeaves]
  | operator here empty _ missing =>
    refine carries.congr ?_
    rw [here] at stack
    simp [Parser.leaves, here, empty, laidLeaves, stack.head.none (.inr missing), Tree.leaves]
  | gap here empty =>
    refine carries.congr ?_
    simp [Parser.leaves, here, empty, laidLeaves, Tree.leaves]

theorem Carries.edits (carries : Carries xs p) (stack : Stacked p.pending) (edits : Relation.ReflTransGen Edit p q) :
    Carries xs q := by
  refine (edits_keep (I := fun p => Stacked p.pending ∧ Carries xs p) ?_ edits ⟨stack, carries⟩).2
  rintro p q edit ⟨stack, carries⟩
  exact ⟨edit.stackwise fits_unmarked stack, carries.edit stack edit⟩

theorem Carries.room (carries : Carries xs p) (stack : Stacked p.pending) (room : Room p place r) : Carries xs r := by
  cases room with
  | empty => exact carries
  | juxtaposed _ ready => exact (carries.edits stack ready.edits).congr (by simp [Parser.leaves, push, laidLeaves])

theorem Carries.closes (carries : Carries xs p) (stack : Stacked p.pending) (closes : Closes C p q) :
    Carries xs q := by
  obtain ⟨edits, here, opens, -, tree⟩ := closes
  have inner := stack.edits edits
  rw [here] at inner
  have leads := inner.head.none (.inl fun between => by simp [Rule.isOpener, between] at opens)
  refine (carries.edits stack edits).congr ?_
  simp [Parser.leaves, here, laidLeaves, leads, Tree.leaves_ofBracket tree]

theorem Carries.dedents (carries : Carries xs p) (stack : Stacked p.pending) (dedents : Dedents ends p q) :
    Carries xs q := by
  induction dedents with
  | stop => exact carries
  | step _ _ closes _ ih => exact ih (carries.closes stack closes) (stack.closes closes)

/-- What a token adds to the literals. -/
def added (token : Token) (span : Span) : List Lexeme :=
  if token.isLiteral then [⟨token, span⟩] else []

theorem added_none (plain : token.isLiteral = false) : added token span = [] := by
  rw [added, plain]
  rfl

theorem leaves_literal? (literal : token.literal? span = some t) :
    token.isLiteral = true ∧ t.leaves = [.literal ⟨token, span⟩] := by
  cases token <;> cases literal <;> simp [Token.isLiteral, Tree.leaves]

/-- A token that is no literal leaves them as they were. -/
theorem Carries.plain (carries : Carries xs q) (plain : token.isLiteral = false) :
    Carries (xs ++ added token span) q := by
  rwa [added_none plain, List.append_nil]

theorem Carries.adds (carries : Carries xs p) (pending : q.pending = o :: p.pending) (left : o.left = p.operand)
    (empty : q.operand = none) : Carries xs q := by
  refine carries.congr ?_
  simp [Parser.leaves, pending, laidLeaves, left, empty]

theorem Carries.shifts (carries : Carries xs p) (stack : Stacked p.pending) (shifts : Shifts p span token q) :
    Carries (xs ++ added token span) q := by
  have behind : ∀ {r s : Parser} {rule : Rule} {tag : Tag}, Carries xs r → Stacked r.pending → Ready r rule s →
      Carries xs (s.push rule tag) := fun carries stack ready => (carries.edits stack ready.edits).adds rfl rfl rfl
  cases shifts with
  | eof | inside | first | continues => exact Carries.plain carries rfl
  | literal literal room =>
    obtain ⟨is, leaf⟩ := leaves_literal? literal
    have before := carries.room stack room
    rw [Carries, Parser.leaves, room.empties, Tree.leavesOf_none, List.append_nil] at before
    rw [Carries, Parser.leaves, Tree.leavesOf_some, leaf, added, is]
    exact List.rel_append before (.cons (.literal _) .nil)
  | name word _ room =>
    refine ((carries.room stack room).congr ?_).plain (Token.isLiteral_word word)
    simp [Parser.leaves, room.empties, Tree.leaves]
  | opening acts _ room | leading acts _ room =>
    exact ((carries.room stack room).adds rfl rfl rfl).plain (Token.isLiteral_word acts.word)
  | closing acts _ closes => exact (carries.closes stack closes).plain (Token.isLiteral_word acts.word)
  | headless acts empty =>
    refine (carries.congr ?_).plain (Token.isLiteral_word acts.word)
    simp [Parser.leaves, laidLeaves, Pending.leading]
  | infixed acts _ _ ready => exact (behind carries stack ready).plain (Token.isLiteral_word acts.word)
  | postfixed acts _ _ ready operand =>
    refine ((carries.edits stack ready.edits).congr ?_).plain (Token.isLiteral_word acts.word)
    simp [Parser.leaves, operand, Tree.leaves]
  | indents => exact (carries.adds rfl rfl rfl).plain rfl
  | aligns _ dedents => exact (carries.dedents stack dedents).plain rfl
  | separates _ dedents _ _ ready =>
    exact (behind (carries.dedents stack dedents) (stack.dedents dedents) ready).plain rfl

/-- A text is read up to its end or to the first lexeme that is refused. -/
theorem lexemes_last (l : Lexer) : ∃ (xs : List Lexeme) (last : Except LexicalError Lexeme),
    l.lexemes = xs.map .ok ++ [last] ∧ (∀ x ∈ xs, x.token ≠ .eof) ∧ ∀ x, last = .ok x → x.token = .eof := by
  fun_induction Lexer.lexemes l with
  | case1 l e refused => exact ⟨[], .error e, rfl, by simp, by simp⟩
  | case2 l x found ih =>
    by_cases stop : x.token = .eof
    · refine ⟨[], .ok x, by simp [stop], by simp, ?_⟩
      rintro _ ⟨⟩
      exact stop
    · obtain ⟨xs, last, rest, more, ends⟩ := ih stop
      refine ⟨x :: xs, last, ?_, List.forall_mem_cons.2 ⟨stop, more⟩, ends⟩
      rw [dif_neg stop, rest]
      rfl

/-- A text that is accepted has been taken as a whole. -/
theorem run_whole {xs : List Lexeme} {last : Except LexicalError Lexeme} {result : Tree × Parser}
    (more : ∀ x ∈ xs, x.token ≠ .eof) (ends : ∀ x, last = .ok x → x.token = .eof)
    (ok : p.run (xs.map .ok ++ [last]) = .ok result) :
    (∃ x, last = .ok x) ∧ ∃ q, p.taking xs = .ok q ∧ Finishes q result := by
  obtain ⟨q, taken, ok⟩ := run_taken more ok
  cases last with
  | error e => cases ok
  | ok x =>
    obtain ⟨token, span⟩ := x
    cases ends _ rfl
    exact ⟨⟨_, rfl⟩, q, taken, finish_ok ok⟩

variable {origin : Origin} {text : String}

end Parser

end MixfixLambda
