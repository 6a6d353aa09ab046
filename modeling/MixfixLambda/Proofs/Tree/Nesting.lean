import MixfixLambda.Proofs.Tree.Commas
import MixfixLambda.Tree.Extent

/-!
# Places nest

A tree stands around its parts if its span covers those of its children and of its tags, and no child starts before
the one in front of it has ended. Then the edges of a chain of infix operators tell where the whole of it stands. What
operators and brackets make of trees that stand around their parts, in the order of the source, does so again.
-/
namespace MixfixLambda

namespace Span

variable {a b c s : Span} {spans : List Span}

theorem Contains.refl (a : Span) : a.Contains a :=
  ⟨Nat.le_refl _, Nat.le_refl _⟩

theorem Contains.trans (outer : a.Contains b) (inner : b.Contains c) : a.Contains c :=
  ⟨Nat.le_trans outer.1 inner.1, Nat.le_trans inner.2 outer.2⟩

theorem contains_merge (first : a.Contains b) (second : a.Contains c) : a.Contains (b.merge c) :=
  ⟨Nat.le_min.2 ⟨first.1, second.1⟩, Nat.max_le.2 ⟨first.2, second.2⟩⟩

/-- A span that neither starts nor ends before another one is merged with it up to its own end. -/
theorem merge_of_le (starts : a.start ≤ b.start) (stops : a.stop ≤ b.stop) : a.merge b = ⟨a.start, b.stop⟩ := by
  rw [merge, Nat.min_eq_left starts, Nat.max_eq_right stops]

theorem foldl_merge_contains (first : Span) (rest : List Span) :
    ∀ s ∈ first :: rest, (rest.foldl merge first).Contains s := by
  induction rest generalizing first with
  | nil => exact fun s member => List.mem_singleton.1 member ▸ .refl _
  | cons second rest ih =>
    rw [List.foldl_cons]
    have whole := ih (first.merge second)
    rw [List.forall_mem_cons] at whole ⊢
    refine ⟨whole.1.trans (merge_contains_left ..), List.forall_mem_cons.2 ⟨?_, whole.2⟩⟩
    exact whole.1.trans (merge_contains_right ..)

/-- The joined span covers every part. -/
theorem mergeAll_contains (inside : s ∈ spans) : (mergeAll spans).Contains s := by
  cases spans with
  | nil => cases inside
  | cons first rest => exact foldl_merge_contains first rest s inside

/-- The joined span goes no further than its parts. -/
theorem contains_mergeAll (filled : spans ≠ []) (each : ∀ s ∈ spans, a.Contains s) : a.Contains (mergeAll spans) := by
  obtain ⟨first, rest, rfl⟩ := List.exists_cons_of_ne_nil filled
  rw [mergeAll]
  clear filled
  induction rest generalizing first with
  | nil => exact each first (List.mem_singleton_self _)
  | cons second rest ih =>
    rw [List.forall_mem_cons, List.forall_mem_cons] at each
    exact ih (first.merge second) (List.forall_mem_cons.2 ⟨contains_merge each.1 each.2.1, each.2.2⟩)

theorem mergeAll_stop_le {size : Nat} (bound : ∀ s ∈ spans, s.stop ≤ size) : (mergeAll spans).stop ≤ size := by
  cases spans with
  | nil => exact Nat.zero_le _
  | cons first rest =>
    have within : Contains ⟨0, size⟩ (mergeAll (first :: rest)) :=
      contains_mergeAll (List.cons_ne_nil first rest) fun s inside => ⟨Nat.zero_le _, bound s inside⟩
    exact within.2

end Span

/-- A tag stands between two offsets. -/
structure Tag.Stands (lo hi : Nat) (tag : Tag) : Prop where
  start : lo ≤ tag.span.start
  forward : tag.span.start ≤ tag.span.stop
  stop : tag.span.stop ≤ hi

theorem Tag.Stands.le {lo hi : Nat} {tag : Tag} (stands : tag.Stands lo hi) : lo ≤ hi :=
  (stands.start.trans stands.forward).trans stands.stop

theorem Tag.Stands.mono {lo hi lo' hi' : Nat} {tag : Tag} (stands : tag.Stands lo hi) (before : lo' ≤ lo)
    (behind : hi ≤ hi') : tag.Stands lo' hi' :=
  ⟨before.trans stands.start, stands.forward, stands.stop.trans behind⟩

namespace Tree

/-- The tags of the root. -/
def tags : Tree → List Tag
  | .name tag | .infixOp tag _ _ | .prefixOp tag _ | .postfixOp tag _ | .define tag _ _ | .lambda tag _ _
  | .asPattern tag _ _ => [tag]
  | .mixfix parts _ => parts
  | .bracket opening closing _ => [opening, closing]
  | .declaration d => d.symbols ++ d.prior.toList
  | .int .. | .str .. | .char .. | .placeholder _ | .apply .. | .sequence .. | .comma .. | .unit _ | .tuple ..
  | .list .. | .data .. | .sectionOf .. => []

mutual

/-- The span of a tree, with both operands of an infix operator looked at as a whole. -/
def mergedSpan : Tree → Span
  | .int _ s | .str _ s | .char _ s | .placeholder s | .apply _ _ s | .sequence _ s | .comma _ s
  | .unit s | .tuple _ s | .list _ s | .data _ s | .sectionOf _ s => s
  | .declaration d => d.span
  | .name tag => tag.span
  | .infixOp operator left right => (operator.span.merge left.mergedSpan).merge right.mergedSpan
  | .prefixOp operator operand | .postfixOp operator operand => operator.span.merge operand.mergedSpan
  | .mixfix parts operands => Span.mergeAll (parts.map Tag.span ++ mergedSpans operands)
  | .bracket opening closing _ => opening.span.merge closing.span
  | .define _ pattern body | .lambda _ pattern body => pattern.mergedSpan.merge body.mergedSpan
  | .asPattern _ bound pattern => bound.mergedSpan.merge pattern.mergedSpan

def mergedSpans : List Tree → List Span
  | [] => []
  | t :: rest => t.mergedSpan :: mergedSpans rest

end

theorem mergedSpans_eq_map (ts : List Tree) : mergedSpans ts = ts.map mergedSpan := by
  induction ts with
  | nil => rfl
  | cons t ts ih => simp [mergedSpans, ih]

/-- The root stands around its children and its tags. The children stand in the order of the source, with an infix
operator between its operands. -/
structure Nests (t : Tree) : Prop where
  forward : t.span.start ≤ t.span.stop
  children : ∀ child ∈ t.children, t.span.Contains child.span
  tags : ∀ tag ∈ t.tags, t.span.Contains tag.span
  ordered : t.children.Pairwise fun child next => child.span.stop ≤ next.span.start
  between : ∀ operator left right, t = .infixOp operator left right →
    operator.Stands left.span.stop right.span.start

variable {t left right body x : Tree} {tag opening closing : Tag} {lo mid mid' hi : Nat} {ts us : List Tree}

theorem Each.forward (nests : t.Each Nests) : t.span.start ≤ t.span.stop :=
  (nests _ .root).forward

/-- A tree stands around everything that occurs in it. -/
theorem Each.contains (nests : t.Each Nests) (part : Part x t) : t.span.Contains x.span := by
  induction part with
  | root => exact .refl _
  | under inside _ ih => exact ((nests _ .root).children _ inside).trans (ih (nests.child inside))

theorem sizeOf_child_lt (inside : x ∈ t.children) : sizeOf x < sizeOf t := by
  cases t with
  | mixfix | sequence | comma | tuple | list | data =>
    have smaller := List.sizeOf_lt_of_mem inside
    simp only [children] at smaller
    simp only [mixfix.sizeOf_spec, sequence.sizeOf_spec, comma.sizeOf_spec, tuple.sizeOf_spec, list.sizeOf_spec,
      data.sizeOf_spec]
    omega
  | apply | infixOp | define | lambda | asPattern =>
    simp only [children, List.mem_cons, List.not_mem_nil, or_false] at inside
    rcases inside with rfl | rfl <;> simp <;> omega
  | prefixOp | postfixOp | bracket | sectionOf =>
    cases List.mem_singleton.1 inside
    simp only [prefixOp.sizeOf_spec, postfixOp.sizeOf_spec, bracket.sizeOf_spec, sectionOf.sizeOf_spec]
    omega
  | _ => cases inside

/-! ### Chains of infix operators -/

/-- A chain of infix operators starts with its first operand and ends with its last one. -/
theorem spanOf_edges (t : Tree) (nests : t.Each Nests) :
    ((t.spanOf .first).start = t.span.start ∧ (t.spanOf .first).stop ≤ t.span.stop) ∧
      (t.spanOf .last).stop = t.span.stop ∧ t.span.start ≤ (t.spanOf .last).start := by
  cases t with
  | infixOp operator left right =>
    obtain ⟨start, forward, stop⟩ := (nests _ .root).between _ _ _ rfl
    have first : left.Each Nests := nests.child (by simp [children])
    have second : right.Each Nests := nests.child (by simp [children])
    obtain ⟨begins, -⟩ := spanOf_edges left first
    obtain ⟨-, ends⟩ := spanOf_edges right second
    have := first.forward
    have := second.forward
    simp only [span, spanOf, Span.merge] at *
    omega
  | _ => exact ⟨⟨rfl, Nat.le_refl _⟩, rfl, Nat.le_refl _⟩

theorem span_infixOp (first : left.Each Nests) (second : right.Each Nests)
    (between : tag.Stands left.span.stop right.span.start) :
    (infixOp tag left right).span = ⟨left.span.start, right.span.stop⟩ := by
  obtain ⟨start, forward, stop⟩ := between
  obtain ⟨begins, -⟩ := spanOf_edges left first
  obtain ⟨-, ends⟩ := spanOf_edges right second
  have := first.forward
  have := second.forward
  have whole : (infixOp tag left right).span =
      (tag.span.merge (left.spanOf .first)).merge (right.spanOf .last) := rfl
  rw [whole, Span.merge, Span.merge, Span.mk.injEq]
  simp only
  omega

/-- An infix operator stands where it and its operands stand together. -/
theorem span_infixOp_merge (nests : (infixOp tag left right).Each Nests) :
    (infixOp tag left right).span = (tag.span.merge left.span).merge right.span := by
  have between := (nests _ .root).between _ _ _ rfl
  have first : left.Each Nests := nests.child (by simp [children])
  have second : right.Each Nests := nests.child (by simp [children])
  rw [span_infixOp first second between, Span.merge, Span.merge, Span.mk.injEq]
  obtain ⟨start, forward, stop⟩ := between
  have := first.forward
  have := second.forward
  simp only
  omega

/-- Looking at the edges of a chain finds the same span as looking at all of it. -/
theorem span_eq_mergedSpan (t : Tree) (nests : t.Each Nests) : t.span = t.mergedSpan := by
  have same : ∀ child ∈ t.children, child.span = child.mergedSpan := fun child inside =>
    span_eq_mergedSpan child (nests.child inside)
  cases t with
  | infixOp operator left right =>
    simp only [children, List.forall_mem_cons] at same
    rw [span_infixOp_merge nests, mergedSpan, same.1, same.2.1]
  | mixfix parts operands =>
    have each : operands.map span = operands.map mergedSpan := List.map_congr_left same
    rw [mergedSpan, mergedSpans_eq_map, ← each, ← spans_eq_map]
    rfl
  | prefixOp | postfixOp =>
    rw [mergedSpan, ← same _ (List.mem_singleton_self _)]
    rfl
  | define | lambda | asPattern =>
    simp only [children, List.forall_mem_cons] at same
    rw [mergedSpan, ← same.1, ← same.2.1]
    rfl
  | _ => rfl
termination_by t
decreasing_by
  exact sizeOf_child_lt inside

/-! ### Trees between two offsets -/

/-- A tree that nests, somewhere between two offsets. -/
structure Placed (lo hi : Nat) (t : Tree) : Prop where
  nests : t.Each Nests
  start : lo ≤ t.span.start
  stop : t.span.stop ≤ hi

theorem Placed.le (placed : t.Placed lo hi) : lo ≤ hi :=
  (placed.start.trans placed.nests.forward).trans placed.stop

theorem Placed.mono {lo' hi' : Nat} (placed : t.Placed lo hi) (before : lo' ≤ lo) (behind : hi ≤ hi') :
    t.Placed lo' hi' :=
  ⟨placed.nests, before.trans placed.start, placed.stop.trans behind⟩

theorem Each.placed (nests : t.Each Nests) : t.Placed t.span.start t.span.stop :=
  ⟨nests, Nat.le_refl _, Nat.le_refl _⟩

/-- Trees that follow each other between two offsets. -/
structure Row (lo hi : Nat) (ts : List Tree) : Prop where
  each : ∀ t ∈ ts, t.Placed lo hi
  ordered : ts.Pairwise fun t next => t.span.stop ≤ next.span.start

theorem Row.nil : Row lo hi [] :=
  ⟨by simp, .nil⟩

theorem Row.one (placed : t.Placed lo hi) : Row lo hi [t] :=
  ⟨by simpa using placed, List.pairwise_singleton ..⟩

theorem Row.mono {lo' hi' : Nat} (row : Row lo hi ts) (before : lo' ≤ lo) (behind : hi ≤ hi') : Row lo' hi' ts :=
  ⟨fun t inside => (row.each t inside).mono before behind, row.ordered⟩

theorem Row.append (first : Row lo mid ts) (second : Row mid hi us) (before : lo ≤ mid) (behind : mid ≤ hi) :
    Row lo hi (ts ++ us) := by
  refine ⟨?_, List.pairwise_append.2 ⟨first.ordered, second.ordered, fun t inside u after => ?_⟩⟩
  · intro t inside
    rcases List.mem_append.1 inside with inside | inside
    · exact (first.each t inside).mono (Nat.le_refl _) behind
    · exact (second.each t inside).mono before (Nat.le_refl _)
  · exact (first.each t inside).stop.trans (second.each u after).start

theorem Row.pair (first : left.Each Nests) (second : right.Each Nests) (before : left.span.stop ≤ right.span.start) :
    Row left.span.start right.span.stop [left, right] := by
  have := first.forward
  have := second.forward
  exact (Row.one (first.placed.mono (Nat.le_refl _) before)).append (Row.one second.placed) (by omega) (by omega)

/-- The children of a tree that nests follow each other. -/
theorem Each.row (nests : t.Each Nests) : Row t.span.start t.span.stop t.children where
  each child inside :=
    have within := (nests _ .root).children child inside
    ⟨nests.child inside, within.1, within.2⟩
  ordered := (nests _ .root).ordered

/-- A root around children that follow each other. -/
theorem Row.placed (row : Row lo hi t.children) (span : t.span = ⟨lo, hi⟩) (forward : lo ≤ hi)
    (tags : ∀ tag ∈ t.tags, t.span.Contains tag.span)
    (between : ∀ operator left right, t = .infixOp operator left right →
      operator.Stands left.span.stop right.span.start) : t.Placed lo hi := by
  have within : ∀ child ∈ t.children, t.span.Contains child.span := by
    intro child inside
    rw [span]
    exact ⟨(row.each child inside).start, (row.each child inside).stop⟩
  have nests : t.Nests := ⟨by rwa [span], within, tags, row.ordered, between⟩
  refine ⟨each_iff.2 ⟨nests, fun child inside => (row.each child inside).nests⟩, ?_, ?_⟩ <;> rw [span]

/-- A root without tags of its own. -/
theorem Row.plain (row : Row lo hi t.children) (span : t.span = ⟨lo, hi⟩) (forward : lo ≤ hi) (plain : t.tags = []) :
    t.Placed lo hi := by
  refine row.placed span forward (by simp [plain]) ?_
  rintro operator left right rfl
  cases plain

/-- The last of the trees is the one that ends last. -/
theorem Row.shrink (row : Row lo hi ts) (last : ts.getLast? = some t) : Row lo t.span.stop ts := by
  obtain ⟨front, rfl⟩ := List.getLast?_eq_some_iff.1 last
  have final := (row.each t (by simp)).nests.forward
  have before := (List.pairwise_append.1 row.ordered).2.2
  refine ⟨fun u inside => ⟨(row.each u inside).nests, (row.each u inside).start, ?_⟩, row.ordered⟩
  rcases List.mem_append.1 inside with front | same
  · exact (before u front t (List.mem_singleton_self _)).trans final
  · rw [List.mem_singleton.1 same]

/-! ### Leaves and operators -/

theorem placed_leaf (alone : t.children = []) (forward : t.span.start ≤ t.span.stop)
    (tags : ∀ tag ∈ t.tags, t.span.Contains tag.span) : t.Placed t.span.start t.span.stop := by
  have row : Row t.span.start t.span.stop t.children := alone ▸ .nil
  refine row.placed rfl forward tags ?_
  rintro operator left right rfl
  cases alone

/-- An operand that is left out stands at a point. -/
theorem placed_placeholder (n : Nat) : (placeholder (.point n)).Placed n n :=
  placed_leaf (t := placeholder (.point n)) rfl (Nat.le_refl _) (by simp [tags])

theorem placed_name (stands : tag.Stands lo hi) : (name tag).Placed lo hi := by
  have covers : ∀ tag' ∈ (name tag).tags, (name tag).span.Contains tag'.span := by
    intro tag' inside
    cases List.mem_singleton.1 inside
    exact .refl _
  exact (placed_leaf (t := name tag) rfl stands.forward covers).mono stands.start stands.stop

/-- A root with two children and its tag between them. -/
theorem placed_pair (first : left.Each Nests) (second : right.Each Nests) (before : left.span.stop ≤ right.span.start)
    (both : t.children = [left, right]) (span : t.span = ⟨left.span.start, right.span.stop⟩)
    (tags : ∀ tag ∈ t.tags, tag.Stands left.span.stop right.span.start) :
    t.Placed left.span.start right.span.stop := by
  have := first.forward
  have := second.forward
  have row : Row left.span.start right.span.stop t.children := both ▸ Row.pair first second before
  refine row.placed span (by omega) ?_ ?_
  · intro tag inside
    obtain ⟨start, -, stop⟩ := tags tag inside
    rw [span]
    exact ⟨first.forward.trans start, stop.trans second.forward⟩
  · rintro operator left' right' rfl
    cases both
    exact tags operator (List.mem_singleton_self _)

theorem Each.merge_before (first : left.Each Nests) (second : right.Each Nests)
    (before : left.span.stop ≤ right.span.start) :
    left.span.merge right.span = ⟨left.span.start, right.span.stop⟩ :=
  Span.merge_of_le (first.forward.trans before) (before.trans second.forward)

theorem placed_juxtapose (first : left.Each Nests) (second : right.Each Nests)
    (before : left.span.stop ≤ right.span.start) : (juxtapose left right).Placed left.span.start right.span.stop :=
  placed_pair first second before rfl (first.merge_before second before) (by simp [tags, juxtapose])

theorem placed_infixOp (first : left.Each Nests) (second : right.Each Nests)
    (between : tag.Stands left.span.stop right.span.start) :
    (infixOp tag left right).Placed left.span.start right.span.stop :=
  placed_pair first second between.le rfl (span_infixOp first second between) (by simpa [tags] using between)

theorem placed_lambda (first : left.Each Nests) (second : right.Each Nests)
    (between : tag.Stands left.span.stop right.span.start) :
    (lambda tag left right).Placed left.span.start right.span.stop :=
  placed_pair first second between.le rfl (first.merge_before second between.le) (by simpa [tags] using between)

/-- A root that is merged of its tag and its only child. -/
theorem placed_unary (operand : x.Placed lo hi) (here : Span.Contains ⟨lo, hi⟩ tag.span) (only : t.children = [x])
    (called : t.tags = [tag]) (span : t.span = tag.span.merge x.span) : t.Placed lo hi := by
  have first : t.span.Contains tag.span := span ▸ Span.merge_contains_left ..
  have second : t.span.Contains x.span := span ▸ Span.merge_contains_right ..
  have within : Span.Contains ⟨lo, hi⟩ t.span := span ▸ Span.contains_merge here ⟨operand.start, operand.stop⟩
  have forward : t.span.start ≤ t.span.stop := (second.1.trans operand.nests.forward).trans second.2
  have nests : t.Nests := by
    refine ⟨forward, by simpa [only] using second, by simpa [called] using first, by simp [only], ?_⟩
    rintro operator left right rfl
    cases only
  exact ⟨each_iff.2 ⟨nests, by simpa [only] using operand.nests⟩, within.1, within.2⟩

/-- A chain stands around its parts and its operands, wherever the parts are among them. -/
theorem placed_mixfix {parts : List Tag} (some : parts ≠ []) (each : ∀ tag ∈ parts, tag.Stands lo hi)
    (row : Row lo hi ts) : (mixfix parts ts).Placed lo hi := by
  have span : (mixfix parts ts).span = Span.mergeAll (parts.map Tag.span ++ ts.map Tree.span) := by
    rw [← spans_eq_map]
    rfl
  have covers : ∀ s ∈ parts.map Tag.span ++ ts.map Tree.span, (mixfix parts ts).span.Contains s := fun s inside =>
    span ▸ Span.mergeAll_contains inside
  have tags : ∀ tag ∈ parts, (mixfix parts ts).span.Contains tag.span := fun tag inside =>
    covers _ (List.mem_append_left _ (List.mem_map_of_mem inside))
  have children : ∀ t ∈ ts, (mixfix parts ts).span.Contains t.span := fun t inside =>
    covers _ (List.mem_append_right _ (List.mem_map_of_mem inside))
  have within : Span.Contains ⟨lo, hi⟩ (mixfix parts ts).span := by
    rw [span]
    refine Span.contains_mergeAll (by simp [some]) fun s inside => ?_
    rcases List.mem_append.1 inside with inside | inside
    · obtain ⟨tag, member, rfl⟩ := List.mem_map.1 inside
      exact ⟨(each tag member).start, (each tag member).stop⟩
    · obtain ⟨t, member, rfl⟩ := List.mem_map.1 inside
      exact ⟨(row.each t member).start, (row.each t member).stop⟩
  obtain ⟨first, rest, rfl⟩ := List.exists_cons_of_ne_nil some
  have forward : (mixfix (first :: rest) ts).span.start ≤ (mixfix (first :: rest) ts).span.stop :=
    have first' := List.mem_cons_self (a := first) (l := rest)
    ((tags first first').1.trans (each first first').forward).trans (tags first first').2
  refine ⟨each_iff.2 ⟨⟨forward, children, tags, row.ordered, fun _ _ _ => Tree.noConfusion⟩, ?_⟩, within.1, within.2⟩
  exact fun t inside => (row.each t inside).nests

/-! ### Separators and abstractions -/

theorem row_itemsOf (nests : t.Each Nests) {reduction : Reduction} :
    Row t.span.start t.span.stop ((itemsOf reduction t).getD [t]) := by
  unfold itemsOf
  split
  · exact nests.row
  · exact nests.row
  · exact .one nests.placed

theorem placed_separate (first : left.Each Nests) (second : right.Each Nests)
    (before : left.span.stop ≤ right.span.start) {reduction : Reduction} :
    (separate reduction left right).Placed left.span.start right.span.stop := by
  have := second.forward
  have whole : Row left.span.start right.span.stop (left :: (itemsOf reduction right).getD [right]) :=
    (Row.one (first.placed.mono (Nat.le_refl _) before)).append (row_itemsOf second)
      (first.forward.trans before) second.forward
  unfold separate
  generalize (itemsOf reduction right).getD [right] = items at whole
  obtain ⟨last, final⟩ : ∃ last, (left :: items).getLast? = some last := ⟨_, List.getLast?_cons ..⟩
  have row := whole.shrink final
  have here := row.each left (List.mem_cons_self ..)
  have there := row.each last (List.mem_of_getLast? final)
  have merged : left.span.merge last.span = ⟨left.span.start, last.span.stop⟩ :=
    Span.merge_of_le there.start here.stop
  have stop := (whole.each last (List.mem_of_getLast? final)).stop
  dsimp only
  rw [final, Option.getD_some, merged]
  have forward := there.start.trans there.nests.forward
  have built (t : Tree) (listed : t.children = left :: items) (plain : t.tags = [])
      (span : t.span = ⟨left.span.start, last.span.stop⟩) : t.Placed left.span.start right.span.stop := by
    rw [← listed] at row
    exact (row.plain span forward plain).mono (Nat.le_refl _) stop
  cases reduction <;> exact built _ rfl rfl rfl

/-- A body that a parameter list on the right edge of a tree gets lies behind all of this tree. -/
theorem placed_attachBody? (first : left.Each Nests) (second : body.Each Nests)
    (between : tag.Stands left.span.stop body.span.start) (attached : attachBody? tag body left = some t) :
    t.Placed left.span.start body.span.stop := by
  fun_induction attachBody? tag body left generalizing t with
  | case1 operator operand marker =>
    cases attached
    have inner : operand.Each Nests := first.child (List.mem_singleton_self _)
    have within := (first _ .root).children operand (List.mem_singleton_self _)
    obtain ⟨start, forward, stop⟩ := between
    refine (placed_lambda inner second ⟨within.2.trans start, forward, stop⟩).mono within.1 (Nat.le_refl _)
  | case2 operator operand plain ih =>
    obtain ⟨grown, found, rfl⟩ := Option.map_eq_some_iff.1 attached
    have within := (first _ .root).children operand (List.mem_singleton_self _)
    have marked := (first _ .root).tags operator (List.mem_singleton_self _)
    have grown := ih (first.child (List.mem_singleton_self _)) (between.mono within.2 (Nat.le_refl _)) found
    have behind := between.le.trans second.forward
    exact placed_unary (grown.mono within.1 (Nat.le_refl _)) ⟨marked.1, marked.2.trans behind⟩ rfl rfl rfl
  | case3 function argument span ih =>
    obtain ⟨grown, found, rfl⟩ := Option.map_eq_some_iff.1 attached
    obtain ⟨both, apart⟩ := first.row
    simp only [children, List.forall_mem_cons] at both
    obtain ⟨head, last, -⟩ := both
    have before : function.span.stop ≤ argument.span.start := by simpa [children] using apart
    have grown := ih last.nests (between.mono last.stop (Nat.le_refl _)) found
    have narrow : function.Placed span.start argument.span.start := ⟨head.nests, head.start, before⟩
    have row := (Row.one narrow).append (Row.one grown) narrow.le grown.le
    have merged : span.merge body.span = ⟨span.start, body.span.stop⟩ :=
      Span.merge_of_le (first.forward.trans between.le) (between.le.trans second.forward)
    exact Row.plain row merged (narrow.le.trans grown.le) rfl
  | case4 operator left right ih =>
    obtain ⟨grown, found, rfl⟩ := Option.map_eq_some_iff.1 attached
    have gap := (first _ .root).between _ _ _ rfl
    have head : left.Each Nests := first.child (by simp [children])
    have last : right.Each Nests := first.child (by simp [children])
    rw [span_infixOp head last gap] at between ⊢
    have grown := ih last between found
    exact (placed_infixOp head grown.nests (gap.mono (Nat.le_refl _) grown.start)).mono (Nat.le_refl _) grown.stop
  | case5 => cases attached

/-- What an infix operator makes of its operands stands where these stand, with the operator between them. -/
theorem placed_ofInfix (first : left.Each Nests) (second : right.Each Nests)
    (between : tag.Stands left.span.stop right.span.start) {reduction : Reduction} :
    (ofInfix reduction tag left right).Placed left.span.start right.span.stop := by
  have merged := first.merge_before second between.le
  have stands : ∀ tag' ∈ [tag], tag'.Stands left.span.stop right.span.start := by simpa using between
  cases reduction with
  | apply => exact placed_juxtapose first second between.le
  | sequence | comma =>
    rw [ofInfix]
    exact placed_separate first second between.le
  | define | asPattern => exact placed_pair first second between.le rfl merged stands
  | lambda =>
    rw [ofInfix, abstract]
    cases attached : attachBody? tag right left with
    | none => exact placed_lambda first second between
    | some t => exact placed_attachBody? first second between attached
  | _ => exact placed_infixOp first second between

/-! ### Brackets -/

/-- Between two offsets there is nothing, or a tree. -/
def Between (lo hi : Nat) : Option Tree → Prop
  | none => lo ≤ hi
  | some t => t.Placed lo hi

theorem Between.le {content : Option Tree} (holds : Between lo hi content) : lo ≤ hi := by
  cases content with
  | none => exact holds
  | some t => exact Placed.le holds

theorem Between.mono {content : Option Tree} {lo' hi' : Nat} (holds : Between lo hi content) (before : lo' ≤ lo)
    (behind : hi ≤ hi') : Between lo' hi' content := by
  cases content with
  | none => exact (before.trans holds).trans behind
  | some t => exact Placed.mono holds before behind

theorem row_listed {content : Option Tree} (holds : Between lo hi content) : Row lo hi (listed content) := by
  unfold listed
  split
  · exact .nil
  · next items span => exact (Each.row holds.nests).mono holds.start holds.stop
  · exact .one holds

/-- A bracket stands where its two tags stand, around its content. -/
theorem placed_ofBracket {kind : BracketKind} {content : Option Tree} {sectioned : Bool}
    (opens : opening.Stands lo mid) (holds : Between mid mid' content) (closes : closing.Stands mid' hi)
    (made : ofBracket kind opening closing content sectioned = .ok t) : t.Placed lo hi := by
  obtain ⟨start, opened, before⟩ := opens
  obtain ⟨behind, closed, stop⟩ := closes
  have apart := holds.le
  suffices placed : t.Placed opening.span.start closing.span.stop from placed.mono start stop
  have merged : opening.span.merge closing.span = ⟨opening.span.start, closing.span.stop⟩ :=
    Span.merge_of_le (by omega) (by omega)
  have forward : opening.span.start ≤ closing.span.stop := by omega
  have holds := holds.mono (opened.trans before) (behind.trans closed)
  have items := row_listed holds
  have sections {body : Tree} (placed : body.Placed opening.span.start closing.span.stop) :
      (if sectioned then sectionOf body (opening.span.merge closing.span) else body).Placed opening.span.start
        closing.span.stop := by
    cases sectioned
    · exact placed
    · exact Row.plain (Row.one placed) merged forward rfl
  cases kind with
  | paren =>
    cases made
    cases content with
    | none => exact sections (Row.plain Row.nil merged forward rfl)
    | some t =>
      cases t with
      | comma => exact sections (Row.plain items merged forward rfl)
      | _ => exact sections holds
  | square | brace =>
    cases made
    exact Row.plain items merged forward rfl
  | block | file =>
    cases content with
    | none =>
      cases made
      exact Row.plain Row.nil merged forward rfl
    | some t =>
      cases t with
      | comma => cases made
      | _ =>
        cases made
        exact holds
  | user =>
    cases made
    have inner : (content.getD (.unit closing.span)).Placed opening.span.start closing.span.stop := by
      cases content with
      | none =>
        have empty := placed_leaf (t := unit closing.span) rfl closed (by simp [tags])
        exact empty.mono (by dsimp only [span, spanOf]; omega) (Nat.le_refl _)
      | some t => exact holds
    refine Row.placed (Row.one inner) merged forward ?_ (fun _ _ _ => Tree.noConfusion)
    simp only [tags, List.forall_mem_cons, List.not_mem_nil, false_implies, implies_true, and_true]
    exact ⟨Span.merge_contains_left .., Span.merge_contains_right ..⟩

end Tree

end MixfixLambda
