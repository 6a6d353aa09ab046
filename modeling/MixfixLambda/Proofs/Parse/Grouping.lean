import Mathlib.Data.List.TakeWhile
import MixfixLambda.Parse.Combine

/-!
# How a chain of infix operators groups

A chain is an operand, and then operators with an operand behind each. Its operators are consistent when
those of one precedence that no looser operator separates all group to the left, or all to the right, or
are at most one. Then the chain has one tree, found by splitting it at its loosest operator: at the last of
them if they group to the left, at the first if they group to the right.

Next to this stands what a parser sees that compares neighbours only: which of two operators takes the
operand between them. A tree that is grouped by these comparisons is the one that splitting gives
(`Grouped.splits`), and only consistent chains have one (`Grouped.consistent`).
-/
namespace MixfixLambda

namespace Rule

/-- The operator on the left takes the operand between it and an incoming one. -/
def Tighter (top incoming : Rule) : Prop :=
  incoming.left < top.right ∨ top.right = incoming.left ∧ top.assoc = .left ∧ incoming.assoc = .left

/-- The operator on the left leaves the operand between them to an incoming one. -/
def Waits (top incoming : Rule) : Prop :=
  top.right < incoming.left ∨ top.right = incoming.left ∧ top.assoc = .right ∧ incoming.assoc = .right

theorem Tighter.trans {first second third : Rule} (even : second.left = second.right)
    (before : first.Tighter second) (after : second.Tighter third) : first.Tighter third := by
  rcases before with before | ⟨before, left, -⟩ <;> rcases after with after | ⟨after, -, left'⟩
  · exact .inl (by omega)
  · exact .inl (by omega)
  · exact .inl (by omega)
  · exact .inr ⟨by omega, left, left'⟩

theorem Waits.trans {first second third : Rule} (even : second.left = second.right)
    (before : first.Waits second) (after : second.Waits third) : first.Waits third := by
  rcases before with before | ⟨before, right, -⟩ <;> rcases after with after | ⟨after, -, right'⟩
  · exact .inl (by omega)
  · exact .inl (by omega)
  · exact .inl (by omega)
  · exact .inr ⟨by omega, right, right'⟩

end Rule

/-- An infix operator that holds both operands equally tight and starts no chain of words. -/
structure Link where
  rule : Rule
  tag : Tag
  between : rule.fixity = .infixOp
  start : rule.prior = none
  even : rule.left = rule.right

namespace Link

def precedence (o : Link) : Nat :=
  o.rule.left

def assoc (o : Link) : Assoc :=
  o.rule.assoc

/-- The tree of the operator with its operands. -/
def join (o : Link) (left right : Tree) : Tree :=
  Tree.ofInfix o.rule.reduction o.tag left right

theorem right_eq (o : Link) : o.rule.right = o.precedence :=
  o.even.symm

theorem tighter_iff {o incoming : Link} : o.rule.Tighter incoming.rule ↔
    incoming.precedence < o.precedence ∨
      o.precedence = incoming.precedence ∧ o.assoc = .left ∧ incoming.assoc = .left := by
  rw [Rule.Tighter, o.right_eq]
  rfl

theorem waits_iff {o incoming : Link} : o.rule.Waits incoming.rule ↔
    o.precedence < incoming.precedence ∨
      o.precedence = incoming.precedence ∧ o.assoc = .right ∧ incoming.assoc = .right := by
  rw [Rule.Waits, o.right_eq]
  rfl

end Link

/-! ### Consistent operators -/

/-- A longest stretch of operators none of which is looser than a precedence. -/
def IsStretch (p : Nat) (all stretch : List Link) : Prop :=
  ∃ before after, all = before ++ stretch ++ after ∧ (∀ o ∈ stretch, p ≤ o.precedence) ∧
    (∀ o ∈ before.getLast?, o.precedence < p) ∧ ∀ o ∈ after.head?, o.precedence < p

/-- The operators of a precedence are at most one, or all group to the left, or all to the right. -/
def Agree (p : Nat) (stretch : List Link) : Prop :=
  (stretch.filter (·.precedence == p)).length ≤ 1 ∨
    (∀ o ∈ stretch, o.precedence = p → o.assoc = .left) ∨
    ∀ o ∈ stretch, o.precedence = p → o.assoc = .right

/-- In every stretch the operators of the loosest precedence agree. -/
def Consistent (all : List Link) : Prop :=
  ∀ p stretch, IsStretch p all stretch → Agree p stretch

theorem Agree.sublist {p : Nat} {stretch part : List Link} (agree : Agree p stretch)
    (inside : part.Sublist stretch) : Agree p part := by
  rcases agree with few | left | right
  · exact .inl (Nat.le_trans (inside.filter _).length_le few)
  · exact .inr (.inl fun o member => left o (inside.subset member))
  · exact .inr (.inr fun o member => right o (inside.subset member))

/-- Operators that are all tighter than a precedence agree on it. -/
theorem agree_of_lt {p : Nat} {stretch : List Link} (tight : ∀ o ∈ stretch, p < o.precedence) :
    Agree p stretch := by
  refine .inr (.inl fun o inside same => ?_)
  have := tight o inside
  omega

/-- Operators that all group to the left are consistent. -/
theorem consistent_left {all : List Link} (left : ∀ o ∈ all, o.assoc = .left) : Consistent all := by
  rintro p stretch ⟨before, after, split, -⟩
  refine .inr (.inl fun o inside _ => left o ?_)
  rw [split]
  exact List.mem_append_left _ (List.mem_append_right _ inside)

theorem isStretch_self {p : Nat} {all : List Link} (tight : ∀ o ∈ all, p ≤ o.precedence) :
    IsStretch p all all :=
  ⟨[], [], by simp, tight, by simp, by simp⟩

/-- Operators that no looser one separates lie in one stretch. -/
theorem exists_isStretch {p : Nat} (before middle after : List Link)
    (tight : ∀ o ∈ middle, p ≤ o.precedence) :
    ∃ stretch, IsStretch p (before ++ middle ++ after) stretch ∧ middle.Sublist stretch := by
  let within : Link → Bool := fun o => decide (p ≤ o.precedence)
  have looser : ∀ (l : List Link), ∀ o ∈ (l.dropWhile within).head?, o.precedence < p := by
    intro l o first
    have stops := List.head?_dropWhile_not within l
    rw [first] at stops
    exact Nat.not_le.1 (of_decide_eq_false stops)
  have inner : ∀ (l : List Link), ∀ o ∈ l.takeWhile within, p ≤ o.precedence :=
    fun l o inside => of_decide_eq_true (List.mem_takeWhile_imp (p := within) inside)
  let first := (before.reverse.takeWhile within).reverse
  let outer := (before.reverse.dropWhile within).reverse
  have split : before = outer ++ first := by
    rw [← List.reverse_append, List.takeWhile_append_dropWhile, List.reverse_reverse]
  refine ⟨first ++ middle ++ after.takeWhile within, ⟨outer, after.dropWhile within, ?_, ?_, ?_, ?_⟩, ?_⟩
  · calc before ++ middle ++ after
        = (outer ++ first) ++ middle ++ (after.takeWhile within ++ after.dropWhile within) := by
          rw [← split, List.takeWhile_append_dropWhile]
      _ = outer ++ (first ++ middle ++ after.takeWhile within) ++ after.dropWhile within := by
          simp only [List.append_assoc]
  · intro o inside
    rw [List.mem_append, List.mem_append, List.mem_reverse] at inside
    rcases inside with (inside | inside) | inside
    · exact inner _ o inside
    · exact tight o inside
    · exact inner _ o inside
  · intro o last
    rw [List.getLast?_reverse] at last
    exact looser _ o last
  · exact looser after
  · exact (List.sublist_append_right _ _).trans (List.sublist_append_left _ _)

/-- A stretch that does not hold an operator lies before it or behind it. -/
theorem IsStretch.around {p : Nat} {o : Link} {before after stretch : List Link}
    (whole : IsStretch p (before ++ o :: after) stretch) (loose : o.precedence < p) :
    IsStretch p before stretch ∨ IsStretch p after stretch ∨ stretch = [] := by
  obtain ⟨outer, rest, split, tight, first, last⟩ := whole
  have outside : o ∉ stretch := fun inside => absurd (tight o inside) (Nat.not_le.2 loose)
  rw [List.append_assoc, List.append_eq_append_iff] at split
  rcases split with ⟨more, rfl, split⟩ | ⟨more, rfl, split⟩
  · cases more with
    | nil =>
      cases stretch with
      | nil => exact .inr (.inr rfl)
      | cons x stretch =>
        rw [List.nil_append, List.cons_append, List.cons.injEq] at split
        exact absurd (List.mem_cons.2 (.inl split.1)) outside
    | cons x more =>
      obtain ⟨rfl, rfl⟩ := List.cons.inj split
      refine .inr (.inl ⟨more, rest, (List.append_assoc ..).symm, tight, fun y found => first y ?_, last⟩)
      rw [Option.mem_def] at found ⊢
      simp [List.getLast?_append, List.getLast?_cons, found]
  · rw [List.append_eq_append_iff] at split
    rcases split with ⟨behind, rfl, split⟩ | ⟨behind, rfl, split⟩
    · refine .inl ⟨outer, behind, (List.append_assoc ..).symm, tight, first, fun x found => last x ?_⟩
      rw [split, Option.mem_def, List.head?_append, Option.mem_def.1 found]
      rfl
    · cases behind with
      | nil =>
        rw [List.append_nil] at tight ⊢
        exact .inl ⟨outer, [], (List.append_nil _).symm, tight, first, by simp⟩
      | cons x behind =>
        obtain ⟨rfl, -⟩ := List.cons.inj split
        exact absurd (List.mem_append_right _ (List.mem_cons_self ..)) outside

theorem Consistent.parts {o : Link} {before after : List Link} (consistent : Consistent (before ++ o :: after))
    (least : ∀ x ∈ before ++ after, o.precedence ≤ x.precedence) : Consistent before ∧ Consistent after := by
  -- A stretch of a part is one of the whole, if `o` ends it. If `o` does not, the whole is one stretch.
  have whole : ∀ p, p ≤ o.precedence → Agree p (before ++ o :: after) := by
    intro p loose
    refine consistent p _ (isStretch_self fun x inside => ?_)
    rcases List.mem_append.1 inside with inside | inside
    · exact Nat.le_trans loose (least x (List.mem_append_left _ inside))
    · rcases List.mem_cons.1 inside with rfl | inside
      · exact loose
      · exact Nat.le_trans loose (least x (List.mem_append_right _ inside))
  constructor
  · rintro p stretch ⟨outer, rest, rfl, tight, first, last⟩
    rcases Nat.lt_or_ge o.precedence p with loose | loose
    · refine consistent p stretch ⟨outer, rest ++ o :: after, by simp, tight, first, fun x found => ?_⟩
      cases rest with
      | nil => exact Option.some.inj found ▸ loose
      | cons y rest => exact last x found
    · exact (whole p loose).sublist (by simp)
  · rintro p stretch ⟨outer, rest, rfl, tight, first, last⟩
    rcases Nat.lt_or_ge o.precedence p with loose | loose
    · refine consistent p stretch ⟨before ++ o :: outer, rest, by simp, tight, fun x found => ?_, last⟩
      rw [Option.mem_def, List.getLast?_append, List.getLast?_cons] at found
      cases ending : outer.getLast? with
      | none =>
        rw [ending] at found
        exact Option.some.inj found ▸ loose
      | some y =>
        rw [ending] at found
        exact Option.some.inj found ▸ first y ending
    · have part : stretch.Sublist (outer ++ stretch ++ rest) :=
        (List.sublist_append_right outer stretch).trans (List.sublist_append_left _ rest)
      exact (whole p loose).sublist (part.trans ((List.sublist_cons_self ..).trans (List.sublist_append_right ..)))

/-- Two operators of one precedence, with only tighter ones between them, have to group alike. -/
theorem Consistent.alike {x y : Link} {before middle after : List Link}
    (consistent : Consistent (before ++ (x :: middle ++ [y]) ++ after)) (same : x.precedence = y.precedence)
    (tight : ∀ o ∈ middle, x.precedence ≤ o.precedence) :
    x.assoc = .left ∧ y.assoc = .left ∨ x.assoc = .right ∧ y.assoc = .right := by
  have inside : ∀ o ∈ x :: middle ++ [y], x.precedence ≤ o.precedence := by
    intro o member
    rw [List.cons_append, List.mem_cons, List.mem_append, List.mem_singleton] at member
    rcases member with rfl | member | rfl
    · exact Nat.le_refl _
    · exact tight o member
    · exact Nat.le_of_eq same
  obtain ⟨stretch, longest, part⟩ := exists_isStretch before _ after inside
  have first : x ∈ stretch := part.subset (List.mem_cons_self ..)
  have last : y ∈ stretch := part.subset (List.mem_append_right _ (List.mem_singleton_self y))
  rcases consistent _ stretch longest with few | left | right
  · have two := (part.filter (·.precedence == x.precedence)).length_le
    rw [List.cons_append, List.filter_cons_of_pos (by simp), List.filter_append,
      List.filter_cons_of_pos (by simp [same])] at two
    simp only [List.length_cons, List.length_append] at two
    omega
  · exact .inl ⟨left x first rfl, left y last same.symm⟩
  · exact .inr ⟨right x first rfl, right y last same.symm⟩

/-! ### Splitting -/

/-- A chain splits at its loosest operator: at the last of them if they group to the left, at the first if
they group to the right, and at the only one otherwise. -/
structure Loosest (o : Link) (before after : List Link) : Prop where
  least : ∀ x ∈ before ++ after, o.precedence ≤ x.precedence
  last : o.assoc = .left → ∀ x ∈ after, o.precedence < x.precedence
  first : o.assoc = .right → ∀ x ∈ before, o.precedence < x.precedence
  only : o.assoc = .none → ∀ x ∈ before ++ after, o.precedence < x.precedence

/-- The tree of a chain, which is split at its loosest operator, and so are both of its parts. -/
inductive Splits : Tree → List (Link × Tree) → Tree → Prop
  | operand (a : Tree) : Splits a [] a
  | join {a b left right : Tree} {before after : List (Link × Tree)} {o : Link}
      (loosest : Loosest o (before.map Prod.fst) (after.map Prod.fst)) (first : Splits a before left)
      (second : Splits b after right) : Splits a (before ++ (o, b) :: after) (o.join left right)

/-- The tree of a chain whose operators are compared with their neighbours only. -/
inductive Grouped : Tree → List (Link × Tree) → Tree → Prop
  | operand (a : Tree) : Grouped a [] a
  | join {a b left right : Tree} {before after : List (Link × Tree)} {o : Link}
      (tighter : ∀ x ∈ before.map Prod.fst, x.rule.Tighter o.rule)
      (waits : ∀ x ∈ after.map Prod.fst, o.rule.Waits x.rule) (first : Grouped a before left)
      (second : Grouped b after right) : Grouped a (before ++ (o, b) :: after) (o.join left right)

section Parts

variable {o : Link} {before after : List Link}

/-- What gives way to an operator, and what it waits for, is at least as tight, and as tight only where it
groups like the operator. -/
theorem bounds_of_grouped (tighter : ∀ x ∈ before, x.rule.Tighter o.rule)
    (waits : ∀ x ∈ after, o.rule.Waits x.rule) :
    (∀ x ∈ before, o.precedence < x.precedence ∨
      x.precedence = o.precedence ∧ x.assoc = .left ∧ o.assoc = .left) ∧
    ∀ x ∈ after, o.precedence < x.precedence ∨
      x.precedence = o.precedence ∧ x.assoc = .right ∧ o.assoc = .right := by
  refine ⟨fun x inside => Link.tighter_iff.1 (tighter x inside), fun x inside => ?_⟩
  rcases Link.waits_iff.1 (waits x inside) with tight | ⟨same, right, right'⟩
  · exact .inl tight
  · exact .inr ⟨same.symm, right', right⟩

theorem loosest_of_grouped (tighter : ∀ x ∈ before, x.rule.Tighter o.rule)
    (waits : ∀ x ∈ after, o.rule.Waits x.rule) : Loosest o before after := by
  obtain ⟨bound, bound'⟩ := bounds_of_grouped tighter waits
  refine ⟨fun x inside => ?_, fun left x inside => ?_, fun right x inside => ?_, fun none x inside => ?_⟩
  · rcases List.mem_append.1 inside with inside | inside
    · rcases bound x inside with tight | ⟨same, -⟩ <;> omega
    · rcases bound' x inside with tight | ⟨same, -⟩ <;> omega
  · refine (bound' x inside).resolve_right fun ⟨_, _, right⟩ => ?_
    rw [left] at right
    cases right
  · refine (bound x inside).resolve_right fun ⟨_, _, left⟩ => ?_
    rw [right] at left
    cases left
  · rcases List.mem_append.1 inside with inside | inside
    · refine (bound x inside).resolve_right fun ⟨_, _, left⟩ => ?_
      rw [none] at left
      cases left
    · refine (bound' x inside).resolve_right fun ⟨_, _, right⟩ => ?_
      rw [none] at right
      cases right

/-- The loosest operator and those of its precedence agree. -/
theorem agree_of_grouped (tighter : ∀ x ∈ before, x.rule.Tighter o.rule)
    (waits : ∀ x ∈ after, o.rule.Waits x.rule) : Agree o.precedence (before ++ o :: after) := by
  obtain ⟨bound, bound'⟩ := bounds_of_grouped tighter waits
  have split : ∀ x ∈ before ++ o :: after, x ∈ before ∨ x = o ∨ x ∈ after := by simp
  cases group : o.assoc with
  | left =>
    refine .inr (.inl fun x inside same => ?_)
    rcases split x inside with inside | rfl | inside
    · rcases bound x inside with tight | ⟨-, left, -⟩
      · omega
      · exact left
    · exact group
    · rcases bound' x inside with tight | ⟨-, -, right⟩
      · omega
      · rw [group] at right
        cases right
  | right =>
    refine .inr (.inr fun x inside same => ?_)
    rcases split x inside with inside | rfl | inside
    · rcases bound x inside with tight | ⟨-, -, left⟩
      · omega
      · rw [group] at left
        cases left
    · exact group
    · rcases bound' x inside with tight | ⟨-, right, -⟩
      · omega
      · exact right
  | none =>
    have only := (loosest_of_grouped tighter waits).only group
    have tight : ∀ l : List Link, (∀ x ∈ l, o.precedence < x.precedence) →
        l.filter (·.precedence == o.precedence) = [] := by
      intro l tight
      refine List.filter_eq_nil_iff.2 fun x inside same => ?_
      have := tight x inside
      rw [beq_iff_eq] at same
      omega
    left
    rw [List.filter_append, List.filter_cons_of_pos (by simp),
      tight before fun x inside => only x (List.mem_append_left _ inside),
      tight after fun x inside => only x (List.mem_append_right _ inside)]
    exact Nat.le_refl 1

end Parts

variable {a t t' : Tree} {c : List (Link × Tree)}

theorem Grouped.splits (grouped : Grouped a c t) : Splits a c t := by
  induction grouped with
  | operand a => exact .operand a
  | join tighter waits _ _ ih ih' => exact .join (loosest_of_grouped tighter waits) ih ih'

theorem Grouped.consistent (grouped : Grouped a c t) : Consistent (c.map Prod.fst) := by
  induction grouped with
  | operand => exact fun p stretch ⟨_, _, split, _⟩ => .inl (by simp_all)
  | @join _ _ _ _ before after o tighter waits _ _ ih ih' =>
    rw [List.map_append, List.map_cons]
    intro p stretch longest
    have least := (loosest_of_grouped tighter waits).least
    rcases Nat.lt_or_ge o.precedence p with loose | tight
    · rcases longest.around loose with part | part | rfl
      · exact ih p stretch part
      · exact ih' p stretch part
      · exact .inl (Nat.zero_le 1)
    · obtain ⟨outer, rest, split, -⟩ := longest
      have part : stretch.Sublist (before.map Prod.fst ++ o :: after.map Prod.fst) := by
        rw [split]
        exact (List.sublist_append_right outer stretch).trans (List.sublist_append_left _ rest)
      rcases Nat.lt_or_eq_of_le tight with tight | rfl
      · refine agree_of_lt fun x inside => ?_
        have inside := part.subset inside
        rw [List.mem_append, List.mem_cons] at inside
        rcases inside with inside | rfl | inside
        · exact Nat.lt_of_lt_of_le tight (least x (List.mem_append_left _ inside))
        · exact tight
        · exact Nat.lt_of_lt_of_le tight (least x (List.mem_append_right _ inside))
      · exact (agree_of_grouped tighter waits).sublist part

theorem Splits.inv (splits : Splits a c t) : c = [] ∧ t = a ∨
    ∃ o b before after left right, c = before ++ (o, b) :: after ∧ t = o.join left right ∧
      Loosest o (before.map Prod.fst) (after.map Prod.fst) ∧ Splits a before left ∧
      Splits b after right := by
  cases splits with
  | operand => exact .inl ⟨rfl, rfl⟩
  | join loosest first second => exact .inr ⟨_, _, _, _, _, _, rfl, rfl, loosest, first, second⟩

/-- Of two operators of a consistent chain only one is where it splits. -/
theorem Loosest.not_both {o o' : Link} {before middle after : List Link}
    (consistent : Consistent (before ++ o :: (middle ++ o' :: after)))
    (loosest : Loosest o before (middle ++ o' :: after))
    (loosest' : Loosest o' (before ++ o :: middle) after) : False := by
  have le : o.precedence ≤ o'.precedence := loosest.least o' (by simp)
  have ge : o'.precedence ≤ o.precedence := loosest'.least o (by simp)
  have alike : o.assoc = .left ∧ o'.assoc = .left ∨ o.assoc = .right ∧ o'.assoc = .right := by
    have shape : before ++ o :: (middle ++ o' :: after) = before ++ (o :: middle ++ [o']) ++ after := by
      simp
    rw [shape] at consistent
    exact consistent.alike (Nat.le_antisymm le ge) fun x inside => loosest.least x (by simp [inside])
  rcases alike with ⟨left, -⟩ | ⟨-, right⟩
  · exact absurd (loosest.last left o' (by simp)) (by omega)
  · exact absurd (loosest'.first right o (by simp)) (by omega)

/-- A consistent chain has one tree. -/
theorem Splits.unique (consistent : Consistent (c.map Prod.fst)) (splits : Splits a c t)
    (splits' : Splits a c t') : t = t' := by
  induction splits generalizing t' with
  | operand =>
    rcases splits'.inv with ⟨-, rfl⟩ | ⟨_, _, before, _, _, _, split, -⟩
    · rfl
    · exact absurd split (by simp)
  | @join a b left right before after o loosest first second ih ih' =>
    rcases splits'.inv with ⟨split, -⟩ | ⟨o', b', before', after', left', right', split, rfl, loosest', first', second'⟩
    · exact absurd split (by simp)
    · rw [List.map_append, List.map_cons] at consistent
      obtain ⟨part, part'⟩ := consistent.parts loosest.least
      rw [List.append_eq_append_iff] at split
      rcases split with ⟨more, rfl, split⟩ | ⟨more, rfl, split⟩
      · cases more with
        | nil =>
          obtain ⟨same, rfl⟩ := List.cons.inj split
          obtain ⟨rfl, rfl⟩ := Prod.mk.inj same
          rw [List.append_nil] at first'
          rw [ih part first', ih' part' second']
        | cons x more =>
          obtain ⟨rfl, rfl⟩ := List.cons.inj (split.trans (List.cons_append ..))
          rw [List.map_append, List.map_cons] at consistent loosest loosest'
          exact (loosest.not_both consistent loosest').elim
      · cases more with
        | nil =>
          obtain ⟨same, rfl⟩ := List.cons.inj split
          obtain ⟨rfl, rfl⟩ := Prod.mk.inj same
          rw [List.append_nil] at first part
          rw [List.append_nil] at ih
          rw [ih part first', ih' part' second']
        | cons x more =>
          obtain ⟨rfl, rfl⟩ := List.cons.inj (split.trans (List.cons_append ..))
          rw [List.map_append, List.map_cons] at consistent loosest loosest'
          rw [List.append_assoc] at consistent
          exact (loosest'.not_both consistent loosest).elim

end MixfixLambda
