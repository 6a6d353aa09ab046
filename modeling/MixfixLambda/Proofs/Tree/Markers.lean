import MixfixLambda.Proofs.Tree.Standard

/-!
# Markers on the right edge

The right edge of a tree goes down through the arguments of juxtapositions and the right operands of
operators. The body of an abstraction goes to the first marker `\` that it comes to, with everything below
as the pattern. That is the innermost marker just if it is the only one.
-/
namespace MixfixLambda.Tree

/-- A node on the right edge of a tree, without what is below it. -/
inductive EdgeNode where
  | argument (function : Tree) (span : Span)
  | right (operator : Tag) (left : Tree)
  | operand (operator : Tag)

namespace EdgeNode

/-- The node with a tree below it. -/
def above : EdgeNode → Tree → Tree
  | .argument function span, t => .apply function t span
  | .right operator left, t => .infixOp operator left t
  | .operand operator, t => .prefixOp operator t

def isMarker : EdgeNode → Bool
  | .operand operator => operator.text == "\\"
  | _ => false

/-- The node when its end has moved. Only juxtapositions say where they stand. -/
def extend (stop : Span) : EdgeNode → EdgeNode
  | .argument function span => .argument function (span.merge stop)
  | node => node

theorem above_injective (node : EdgeNode) : Function.Injective node.above := by
  intro t t' same
  cases node <;> cases same <;> rfl

theorem eq_operand {node : EdgeNode} (marks : node.isMarker = true) :
    ∃ marker, node = .operand marker ∧ marker.text = "\\" := by
  cases node with
  | operand operator => exact ⟨operator, rfl, eq_of_beq marks⟩
  | argument | right => cases marks

end EdgeNode

/-- The nodes on the right edge, from the root down. -/
def edge : Tree → List EdgeNode
  | .apply function argument span => .argument function span :: argument.edge
  | .infixOp operator left right => .right operator left :: right.edge
  | .prefixOp operator operand => .operand operator :: operand.edge
  | _ => []

/-- What is below the right edge. -/
def edgeEnd : Tree → Tree
  | .apply _ argument _ => argument.edgeEnd
  | .infixOp _ _ right => right.edgeEnd
  | .prefixOp _ operand => operand.edgeEnd
  | t => t

/-- The nodes of an edge with a tree below them. -/
def under (nodes : List EdgeNode) (t : Tree) : Tree :=
  nodes.foldr EdgeNode.above t

theorem under_edge (t : Tree) : under t.edge t.edgeEnd = t := by
  induction t using endsInMarker.induct with
  | case1 operator operand ih => exact congrArg (Tree.prefixOp operator) ih
  | case2 function argument span ih => exact congrArg (Tree.apply function · span) ih
  | case3 operator left right ih => exact congrArg (Tree.infixOp operator left) ih
  | case4 t prefixOp apply infixOp => simp [edge, edgeEnd, under, *]

theorem under_append (nodes nodes' : List EdgeNode) (t : Tree) :
    under (nodes ++ nodes') t = under nodes (under nodes' t) :=
  List.foldr_append

theorem under_injective (nodes : List EdgeNode) : Function.Injective (under nodes) := by
  induction nodes with
  | nil => exact fun _ _ same => same
  | cons node nodes ih => exact fun _ _ same => ih (node.above_injective same)

theorem endsInMarker_eq (t : Tree) : t.endsInMarker = t.edge.any EdgeNode.isMarker := by
  induction t using endsInMarker.induct with
  | case1 operator operand ih => simp [endsInMarker, edge, ih, EdgeNode.isMarker]
  | case2 function argument span ih => simp [endsInMarker, edge, ih, EdgeNode.isMarker]
  | case3 operator left right ih => simp [endsInMarker, edge, ih, EdgeNode.isMarker]
  | case4 t prefixOp apply infixOp => simp [endsInMarker, edge, *]

theorem exists_first_marker {nodes : List EdgeNode} (marked : ¬ ∀ node ∈ nodes, node.isMarker = false) :
    ∃ first marker rest, nodes = first ++ .operand marker :: rest ∧ marker.text = "\\" ∧
      ∀ node ∈ first, node.isMarker = false := by
  cases found : nodes.find? EdgeNode.isMarker with
  | none => exact absurd (fun node member => by simpa using List.find?_eq_none.mp found node member) marked
  | some node =>
    obtain ⟨marks, first, rest, split, plain⟩ := List.find?_eq_some_iff_append.mp found
    obtain ⟨marker, rfl, text⟩ := EdgeNode.eq_operand marks
    exact ⟨first, marker, rest, split, text, fun node member => by simpa using plain node member⟩

section Abstraction

variable {tag : Tag} {body : Tree} {nodes : List EdgeNode}

/-- Nodes that are no markers are passed, and moved. -/
theorem attachBody?_under (plain : ∀ node ∈ nodes, node.isMarker = false) (t : Tree) :
    attachBody? tag body (under nodes t) =
      (attachBody? tag body t).map (under (nodes.map (·.extend body.span))) := by
  induction nodes with
  | nil => exact Option.map_id'.symm
  | cons node nodes ih =>
    rw [List.forall_mem_cons] at plain
    have below := ih plain.2
    cases node with
    | argument function span =>
      change (attachBody? tag body (under nodes t)).map _ = _
      rw [below, Option.map_map]
      rfl
    | right operator left =>
      change (attachBody? tag body (under nodes t)).map _ = _
      rw [below, Option.map_map]
      rfl
    | operand operator =>
      have other : ¬ (operator.text == "\\") = true := by
        rw [show (operator.text == "\\") = false from plain.1]
        exact Bool.false_ne_true
      change attachBody? tag body (.prefixOp operator (under nodes t)) = _
      rw [attachBody?, if_neg other, below, Option.map_map]
      rfl

/-- The first marker takes the body. -/
theorem abstract_under {marker : Tag} (marks : marker.text = "\\")
    (plain : ∀ node ∈ nodes, node.isMarker = false) (pattern : Tree) :
    abstract tag (under nodes (.prefixOp marker pattern)) body =
      under (nodes.map (·.extend body.span)) (.lambda tag pattern body) := by
  have here : attachBody? tag body (.prefixOp marker pattern) = some (.lambda tag pattern body) := by
    rw [attachBody?, if_pos (beq_iff_eq.mpr marks)]
  rw [abstract, attachBody?_under plain, here]
  rfl

end Abstraction

/-- A tree is its right edge with the rest below it. As the left operand of an arrow without a marker on that
edge it is the pattern as a whole. A marker on the edge gives way to the abstraction over what is below, which
leaves all else as it is but for the ends of the juxtapositions above, if and only if no other one is above. -/
theorem ofInfix_lambda_edge (tag : Tag) (left body : Tree) :
    under left.edge left.edgeEnd = left ∧
      ((∀ node ∈ left.edge, node.isMarker = false) → ofInfix .lambda tag left body = .lambda tag left body) ∧
      (∀ above marker below, left.edge = above ++ .operand marker :: below → marker.text = "\\" →
        (ofInfix .lambda tag left body =
            under (above.map (·.extend body.span)) (.lambda tag (under below left.edgeEnd) body) ↔
          ∀ node ∈ above, node.isMarker = false)) := by
  refine ⟨under_edge left, fun plain => ?_, fun above marker below split marks => ?_⟩
  · refine abstract_eq ?_ tag body
    rw [endsInMarker_eq, List.any_eq_false]
    exact fun node member => by simp [plain node member]
  · have whole := under_edge left
    rw [split] at whole
    generalize left.edgeEnd = bottom at whole ⊢
    obtain rfl := whole
    change abstract tag _ body = _ ↔ _
    constructor
    · intro same
      by_contra marked
      obtain ⟨first, earlier, rest, rfl, earlierMarks, plain⟩ := exists_first_marker marked
      -- The marker above has taken the body, but in the other tree it stands there still.
      have taken : abstract tag (under first (.prefixOp earlier (under (rest ++ .operand marker :: below) bottom))) body =
          under (first.map (·.extend body.span)) (.lambda tag (under (rest ++ .operand marker :: below) bottom) body) :=
        abstract_under earlierMarks plain _
      rw [List.append_assoc, under_append, List.map_append, under_append (first.map _)] at same
      cases under_injective _ (taken.symm.trans same)
    · intro plain
      rw [under_append]
      exact abstract_under marks plain (under below bottom)

/-- `map \x`, to the left of an arrow -/
def mapOver : Tree :=
  .apply (.name ⟨"map", ⟨0, 3⟩, .module⟩)
    (.prefixOp ⟨"\\", ⟨4, 5⟩, .module⟩ (.name ⟨"x", ⟨5, 6⟩, .module⟩)) ⟨0, 6⟩

theorem ofInfix_lambda_edge_map :
    let arrow : Tag := ⟨"->", ⟨7, 9⟩, .module⟩
    let body : Tree := .name ⟨"b", ⟨10, 11⟩, .module⟩
    mapOver.edge = [.argument (.name ⟨"map", ⟨0, 3⟩, .module⟩) ⟨0, 6⟩, .operand ⟨"\\", ⟨4, 5⟩, .module⟩] ∧
      ofInfix .lambda arrow mapOver body = .apply (.name ⟨"map", ⟨0, 3⟩, .module⟩)
        (.lambda arrow (.name ⟨"x", ⟨5, 6⟩, .module⟩) body) ⟨0, 11⟩ ∧
      ofInfix .lambda arrow body body = .lambda arrow body body := by
  intro arrow body
  obtain ⟨-, -, marked⟩ := ofInfix_lambda_edge arrow mapOver body
  obtain ⟨-, unmarked, -⟩ := ofInfix_lambda_edge arrow body body
  refine ⟨rfl, (marked [.argument _ _] ⟨"\\", ⟨4, 5⟩, .module⟩ [] rfl rfl).mpr fun node member => ?_, unmarked nofun⟩
  rw [List.mem_singleton.mp member]
  rfl

/-- `\ \x`, to the left of an arrow -/
def twiceMarked : Tree :=
  .prefixOp ⟨"\\", ⟨0, 1⟩, .module⟩ (.prefixOp ⟨"\\", ⟨2, 3⟩, .module⟩ (.name ⟨"x", ⟨3, 4⟩, .module⟩))

/-- Of two markers the outer one takes the body. -/
theorem ofInfix_lambda_outer :
    let arrow : Tag := ⟨"->", ⟨5, 7⟩, .module⟩
    let body : Tree := .name ⟨"b", ⟨8, 9⟩, .module⟩
    twiceMarked.edge = [.operand ⟨"\\", ⟨0, 1⟩, .module⟩] ++ [.operand ⟨"\\", ⟨2, 3⟩, .module⟩] ∧
      twiceMarked.edgeEnd = .name ⟨"x", ⟨3, 4⟩, .module⟩ ∧
      ofInfix .lambda arrow twiceMarked body =
        .lambda arrow (.prefixOp ⟨"\\", ⟨2, 3⟩, .module⟩ (.name ⟨"x", ⟨3, 4⟩, .module⟩)) body ∧
      ofInfix .lambda arrow twiceMarked body ≠
        under [.operand ⟨"\\", ⟨0, 1⟩, .module⟩] (.lambda arrow (.name ⟨"x", ⟨3, 4⟩, .module⟩) body) :=
  ⟨rfl, rfl, rfl, nofun⟩

end MixfixLambda.Tree
