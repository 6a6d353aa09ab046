import MixfixLambda.Proofs.Bind.Lookups
import MixfixLambda.Proofs.Bind.Occurrence

/-!
# Definitions inside blocks

A statement `x = value` of a block becomes `(\x -> rest) value`. What all the statements of an expression have become
is told by a relation that follows the binder construct by construct, without its marks: which variable is used is a
question about the terms alone.
-/
namespace MixfixLambda

namespace Term

/-- Whether a variable occurs, `depth` binders further out than the innermost one around the term. -/
def uses : Term → Nat → Bool
  | .var index _, depth => depth == index
  | .lam _ body, depth => body.uses (depth + 1)
  | .app left right, depth => left.uses depth || right.uses depth
  | .int _, _ | .builtin .., _ | .global .., _ => false

/-- The name that a variable, an operation or a reference stands for. -/
def name? : Term → Option Tag
  | .var _ tag | .builtin _ tag | .global _ tag => some tag
  | .int _ | .lam .. | .app .. => none

theorem uses_iff {t : Term} {depth : Nat} :
    t.uses depth = true ↔ ∃ count tag, (Term.var (depth + count) tag).Beneath count t := by
  induction t generalizing depth with
  | int | builtin | global =>
    simp only [uses, Bool.false_eq_true, false_iff, not_exists]
    rintro count tag ⟨⟩
  | var index tag =>
    simp only [uses, beq_iff_eq]
    constructor
    · rintro rfl
      exact ⟨0, tag, .here _⟩
    · rintro ⟨count, tag, ⟨⟩⟩
      rfl
  | lam tag body ih =>
    rw [uses, ih]
    constructor
    · rintro ⟨count, name, inner⟩
      have deeper : depth + 1 + count = depth + (count + 1) := by omega
      exact ⟨count + 1, name, .body tag (deeper ▸ inner)⟩
    · rintro ⟨count, name, occurs⟩
      obtain _ | ⟨_, inner⟩ := occurs
      exact ⟨_, name, by rw [Nat.add_right_comm]; exact inner⟩
  | app left right ihl ihr =>
    rw [uses, Bool.or_eq_true, ihl, ihr]
    constructor
    · rintro (⟨count, name, inner⟩ | ⟨count, name, inner⟩)
      · exact ⟨count, name, .left right inner⟩
      · exact ⟨count, name, .right left inner⟩
    · rintro ⟨count, name, occurs⟩
      cases occurs with
      | left _ inner => exact .inl ⟨count, name, inner⟩
      | right _ inner => exact .inr ⟨count, name, inner⟩

/-- A scoped term uses no variable out of its scope. -/
theorem Scoped.uses_eq_false {t : Term} {depth limit outer : Nat} (inside : t.Scoped depth limit)
    (out : depth ≤ outer) : t.uses outer = false := by
  induction t generalizing depth outer with
  | int | builtin | global => rfl
  | var index tag =>
    have below : index < depth := inside
    simp only [uses, beq_eq_false_iff_ne]
    omega
  | lam tag body ih => exact ih inside (Nat.succ_le_succ out)
  | app left right ihl ihr => rw [uses, ihl inside.1 out, ihr inside.2 out, Bool.or_false]

/-- A term that is closed by itself uses no variable. -/
theorem Scoped.uses_none {t : Term} (closed : t.Scoped 0 0) : t.uses = fun _ => false :=
  funext fun depth => closed.uses_eq_false (Nat.zero_le depth)

theorem uses_applyAll (head : Term) (arguments : List Term) (depth : Nat) :
    (head.applyAll arguments).uses depth = (head.uses depth || arguments.any (·.uses depth)) := by
  induction arguments generalizing head with
  | nil => simp [applyAll]
  | cons first rest ih =>
    have next := ih (head.app first)
    simp only [applyAll, List.foldl_cons] at next ⊢
    rw [next, uses, List.any_cons, Bool.or_assoc]

theorem nodes_applyAll (head : Term) (arguments : List Term) :
    (head.nodes ++ arguments.flatMap nodes).Sublist (head.applyAll arguments).nodes := by
  induction arguments generalizing head with
  | nil => simp [applyAll]
  | cons first rest ih =>
    have next := ih (head.app first)
    simp only [applyAll, List.foldl_cons] at next ⊢
    rw [List.flatMap_cons, ← List.append_assoc]
    exact (List.Sublist.append_right (List.sublist_cons_self _ _) _).trans next

theorem nodes_arguments (head : Term) (arguments : List Term) :
    (arguments.flatMap nodes).Sublist (head.applyAll arguments).nodes :=
  (List.sublist_append_right _ _).trans (nodes_applyAll head arguments)

end Term

namespace Encoding

theorem uses_list (items : List Term) (depth : Nat) : (list items).uses depth = items.any (·.uses depth) := by
  induction items with
  | nil => exact congrFun (Term.Scoped.uses_none nil_scoped) depth
  | cons head rest ih =>
    have closed := congrFun (Term.Scoped.uses_none cons_scoped) depth
    rw [list_cons, Term.uses_applyAll, closed, List.any_cons, List.any_cons, List.any_cons, ih, List.any_nil,
      Bool.or_false, Bool.false_or]

theorem uses_tuple (arity : Nat) (items : List Term) (depth : Nat) :
    (Term.applyAll (tuple arity) items).uses depth = items.any (·.uses depth) := by
  rw [Term.uses_applyAll, Term.Scoped.uses_none (tuple_scoped arity), Bool.false_or]

theorem nodes_list (items : List Term) : (items.flatMap Term.nodes).Sublist (list items).nodes := by
  induction items with
  | nil => exact List.nil_sublist _
  | cons head rest ih =>
    have arguments := Term.nodes_arguments cons [head, list rest]
    rw [List.flatMap_cons, List.flatMap_singleton] at arguments
    exact (List.Sublist.append_left ih head.nodes).trans arguments

end Encoding

namespace Pattern

mutual

/-- Outside of a pattern, its variables are not counted any more. -/
theorem uses_abstract (body : Term) (pattern : Pattern) (depth : Nat) :
    (abstract body pattern).uses depth = body.uses (pattern.locals.length + depth) := by
  match pattern with
  | .name tag | .unit =>
    rw [abstract, Term.uses, locals, List.length_singleton, Nat.add_comm]
  | .tuple items =>
    have parts : ((List.range items.length).map fun i =>
        Term.app (Encoding.projection items.length i) (.var 0 tupleTag)).any (·.uses (depth + 1)) = false := by
      rw [List.any_eq_false]
      intro part member
      obtain ⟨i, inside, rfl⟩ := List.mem_map.1 member
      have closed := Term.Scoped.uses_none (Encoding.projection_scoped (List.mem_range.1 inside))
      simp [Term.uses, closed]
    rw [abstract, Term.uses, Term.uses_applyAll, parts, Bool.or_false, uses_abstractAll, locals, List.length_cons]
    congr 1
    omega
  | .asPattern tag pattern =>
    rw [abstract, Term.uses, Term.uses, uses_abstract, locals, List.length_cons]
    have inside : (depth + 1 == 0) = false := rfl
    rw [Term.uses, inside, Bool.or_false]
    congr 1
    omega

theorem uses_abstractAll (body : Term) (patterns : List Pattern) (depth : Nat) :
    (abstractAll body patterns).uses depth = body.uses ((localsAll patterns).length + depth) := by
  match patterns with
  | [] => rw [abstractAll, localsAll, List.length_nil, Nat.zero_add]
  | pattern :: rest =>
    rw [abstractAll, uses_abstract, uses_abstractAll, localsAll, List.length_append]
    congr 1
    omega

end

mutual

theorem nodes_abstract (body : Term) (pattern : Pattern) : body.nodes.Sublist (abstract body pattern).nodes := by
  match pattern with
  | .name _ | .unit => exact List.sublist_cons_self _ _
  | .tuple items =>
    have head := (List.sublist_append_left _ _).trans (Term.nodes_applyAll (abstractAll body items)
      ((List.range items.length).map fun i => .app (Encoding.projection items.length i) (.var 0 tupleTag)))
    exact ((nodes_abstractAll body items).trans head).cons _
  | .asPattern tag pattern =>
    exact (((nodes_abstract body pattern).trans (List.sublist_append_left _ _)).cons _).cons _

theorem nodes_abstractAll (body : Term) (patterns : List Pattern) :
    body.nodes.Sublist (abstractAll body patterns).nodes := by
  match patterns with
  | [] => exact List.Sublist.refl _
  | pattern :: rest => exact (nodes_abstractAll body rest).trans (nodes_abstract _ pattern)

end

end Pattern

/-- A definition inside a block, with what it has become: `(\tag -> rest) value`. -/
structure LocalDefinition where
  tag : Tag
  rest : Term
  value : Term

namespace LocalDefinition

def term (d : LocalDefinition) : Term :=
  .app (.lam d.tag d.rest) d.value

/-- The variable of the definition does not occur in the rest of its block, although its name does not start with
`_`. -/
def isUnused (d : LocalDefinition) : Bool :=
  !d.rest.uses 0 && d.tag.text.toList.head? != some '_'

theorem isUnused_iff (d : LocalDefinition) : d.isUnused = true ↔
    (∀ count tag, ¬(Term.var count tag).Beneath count d.rest) ∧ d.tag.text.toList.head? ≠ some '_' := by
  rw [isUnused, Bool.and_eq_true, Bool.not_eq_true', ← Bool.not_eq_true, Term.uses_iff, bne_iff_ne]
  simp only [Nat.zero_add, not_exists]

def warning (d : LocalDefinition) : BindWarning :=
  ⟨.unusedBinding, d.tag.text, d.tag.span⟩

/-- One warning for each definition that is not used. -/
def warnings (definitions : List LocalDefinition) : List BindWarning :=
  (definitions.filter isUnused).map warning

end LocalDefinition

/-- What a definition has become, from its parameters and what its body has become. -/
def definitionTerm (tag : Tag) (recursive : Bool) (patterns : List Pattern) (body : Term) : Term :=
  if recursive then .app Encoding.fix (.lam tag (Pattern.abstractAll body patterns))
  else Pattern.abstractAll body patterns

theorem nodes_definitionTerm (tag : Tag) (recursive : Bool) (patterns : List Pattern) (body : Term) :
    body.nodes.Sublist (definitionTerm tag recursive patterns body).nodes := by
  have function := Pattern.nodes_abstractAll body patterns
  cases recursive with
  | true => exact ((function.cons _).trans (List.sublist_append_right _ _)).cons _
  | false => exact function

namespace Tree

/-- What the left-hand side of a statement defines, if that is one name. -/
def localHead? (lhs : Tree) : Option (Tag × List Tree) :=
  lhs.definitionHead?.filter (·.1.text != "_")

/-- Neither a declaration nor a definition. -/
def isAction : Tree → Bool
  | .declaration _ | .define .. => false
  | _ => true

mutual

/-- The term that an expression has become, and the definitions inside its blocks, in the order in which their blocks
are done with. -/
inductive Becomes : Tree → Term → List LocalDefinition → Prop
  | int {value : Int} {span : Span} : Becomes (.int value span) (.int value) []
  | char {value : Char} {span : Span} : Becomes (.char value span) (.int value.toNat) []
  | str {bytes : List UInt8} {span : Span} : Becomes (.str bytes span) (Encoding.string bytes) []
  | unit {span : Span} : Becomes (.unit span) Encoding.identity []
  | name {tag : Tag} {head : Term} (named : head.name? = some tag) : Becomes (.name tag) head []
  | placeholder {span : Span} {head : Term} (named : head.name? = some ⟨sectionName, span, .synthetic⟩) :
      Becomes (.placeholder span) head []
  | apply {function argument : Tree} {span : Span} {f a : Term} {ds es : List LocalDefinition}
      (first : Becomes function f ds) (second : Becomes argument a es) :
      Becomes (.apply function argument span) (.app f a) (ds ++ es)
  | infixOp {operator : Tag} {left right : Tree} {head x y : Term} {ds es : List LocalDefinition}
      (named : head.name? = some operator) (first : Becomes left x ds) (second : Becomes right y es) :
      Becomes (.infixOp operator left right) (.applyAll head [x, y]) (ds ++ es)
  | prefixOp {operator : Tag} {operand : Tree} {head x : Term} {ds : List LocalDefinition}
      (named : head.name? = some operator) (inner : Becomes operand x ds) :
      Becomes (.prefixOp operator operand) (.app head x) ds
  | postfixOp {operator : Tag} {operand : Tree} {head x : Term} {ds : List LocalDefinition}
      (named : head.name? = some operator) (inner : Becomes operand x ds) :
      Becomes (.postfixOp operator operand) (.app head x) ds
  | mixfix {parts : List Tag} {operands : List Tree} {head : Term} {xs : List Term} {ds : List LocalDefinition}
      (named : head.name? = some (mixfixTag parts)) (each : BecomeEach operands xs ds) :
      Becomes (.mixfix parts operands) (.applyAll head xs) ds
  | bracket {opening closing : Tag} {content : Tree} {head x : Term} {ds : List LocalDefinition}
      (named : head.name? = some (bracketTag opening closing)) (inner : Becomes content x ds) :
      Becomes (.bracket opening closing content) (.app head x) ds
  | tuple {items : List Tree} {span : Span} {xs : List Term} {ds : List LocalDefinition}
      (each : BecomeEach items xs ds) : Becomes (.tuple items span) (.applyAll (Encoding.tuple items.length) xs) ds
  | comma {items : List Tree} {span : Span} {xs : List Term} {ds : List LocalDefinition}
      (each : BecomeEach items xs ds) : Becomes (.comma items span) (.applyAll (Encoding.tuple items.length) xs) ds
  | list {items : List Tree} {span : Span} {xs : List Term} {ds : List LocalDefinition}
      (each : BecomeEach items xs ds) : Becomes (.list items span) (Encoding.list xs) ds
  | lambda {tag : Tag} {pattern body : Tree} {patterns : List Pattern} {x : Term} {ds : List LocalDefinition}
      (parts : Pattern.ofTrees pattern.parameters = .ok patterns) (inner : Becomes body x ds) :
      Becomes (.lambda tag pattern body) (Pattern.abstractAll x patterns) ds
  | sectionOf {body : Tree} {span : Span} {x : Term} {ds : List LocalDefinition} (inner : Becomes body x ds) :
      Becomes (.sectionOf body span) (.lam (.synthetic sectionName) x) ds
  | sequence {items : List Tree} {span : Span} {x : Term} {ds : List LocalDefinition}
      (block : BlockBecomes items x ds) : Becomes (.sequence items span) x ds

/-- Several expressions, from left to right. -/
inductive BecomeEach : List Tree → List Term → List LocalDefinition → Prop
  | nil : BecomeEach [] [] []
  | cons {t : Tree} {rest : List Tree} {x : Term} {xs : List Term} {ds es : List LocalDefinition}
      (first : Becomes t x ds) (others : BecomeEach rest xs es) : BecomeEach (t :: rest) (x :: xs) (ds ++ es)

/-- The statements of a block. A definition is counted behind those of its value and those of the statements behind
it. -/
inductive BlockBecomes : List Tree → Term → List LocalDefinition → Prop
  | declaration {d : Declaration} {rest : List Tree} {x : Term} {ds : List LocalDefinition}
      (behind : BlockBecomes rest x ds) : BlockBecomes (.declaration d :: rest) x ds
  | named {sign : Tag} {d : LocalDefinition} {lhs body : Tree} {parameters rest : List Tree} {patterns : List Pattern}
      {inner : Term} {ds es : List LocalDefinition} (defines : lhs.localHead? = some (d.tag, parameters))
      (parts : Pattern.ofTrees parameters = .ok patterns)
      (function : d.value = definitionTerm d.tag (body.mentions d.tag.text) patterns inner)
      (value : Becomes body inner ds) (behind : BlockBecomes rest d.rest es) :
      BlockBecomes (.define sign lhs body :: rest) d.term (ds ++ (es ++ [d]))
  | destructured {sign : Tag} {lhs body : Tree} {rest : List Tree} {pattern : Pattern} {value x : Term}
      {ds es : List LocalDefinition} (unnamed : lhs.localHead? = none) (parts : Pattern.ofTree lhs = .ok pattern)
      (bound : Becomes body value ds) (behind : BlockBecomes rest x es) :
      BlockBecomes (.define sign lhs body :: rest) (.app (pattern.abstract x) value) (ds ++ es)
  | last {t : Tree} {rest : List Tree} {x : Term} {ds : List LocalDefinition} (action : t.isAction = true)
      (final : rest.all isDeclaration = true) (inner : Becomes t x ds) : BlockBecomes (t :: rest) x ds
  | action {t : Tree} {rest : List Tree} {first x : Term} {ds es : List LocalDefinition} (action : t.isAction = true)
      (inner : Becomes t first ds) (behind : BlockBecomes rest x es) :
      BlockBecomes (t :: rest) (.app first x) (ds ++ es)

end

mutual

/-- The names and operators that the blocks inside an expression define, each behind those of its value and those of
the statements behind it. -/
def localNames : Tree → List Tag
  | .apply first second _ | .infixOp _ first second => first.localNames ++ second.localNames
  | .prefixOp _ inner | .postfixOp _ inner | .bracket _ _ inner | .lambda _ _ inner | .sectionOf inner _ =>
    inner.localNames
  | .mixfix _ items | .tuple items _ | .comma items _ | .list items _ => localNamesEach items
  | .sequence items _ => blockNames items
  | .int .. | .str .. | .char .. | .name _ | .placeholder _ | .define .. | .asPattern .. | .unit _ | .data ..
  | .declaration _ => []

def localNamesEach : List Tree → List Tag
  | [] => []
  | t :: rest => t.localNames ++ localNamesEach rest

def blockNames : List Tree → List Tag
  | [] => []
  | .declaration _ :: rest => blockNames rest
  | .define _ lhs body :: rest => body.localNames ++ (blockNames rest ++ (lhs.localHead?.map Prod.fst).toList)
  | t :: rest => t.localNames ++ blockNames rest

end

theorem blockNames_declarations {items : List Tree} (declarations : items.all isDeclaration = true) :
    blockNames items = [] := by
  induction items with
  | nil => rfl
  | cons t rest ih =>
    rw [List.all_cons, Bool.and_eq_true] at declarations
    cases t with
    | declaration d => rw [blockNames, ih declarations.2]
    | _ => cases declarations.1

theorem blockNames_action {t : Tree} (action : t.isAction = true) (rest : List Tree) :
    blockNames (t :: rest) = t.localNames ++ blockNames rest := by
  cases t with
  | declaration | define => cases action
  | _ => rw [blockNames] <;> intros <;> contradiction

mutual

/-- No definition of a block is left out, and none comes twice. -/
theorem Becomes.names {t : Tree} {x : Term} {definitions : List LocalDefinition} (becomes : Becomes t x definitions) :
    definitions.map LocalDefinition.tag = t.localNames := by
  cases becomes with
  | apply first second | infixOp _ first second =>
    rw [List.map_append, Becomes.names first, Becomes.names second, localNames]
  | prefixOp _ inner | postfixOp _ inner | bracket _ inner | lambda _ inner | sectionOf inner =>
    rw [Becomes.names inner, localNames]
  | mixfix _ each | tuple each | comma each | list each => rw [BecomeEach.names each, localNames]
  | sequence block => rw [BlockBecomes.names block, localNames]
  | _ => rw [List.map_nil, localNames]

theorem BecomeEach.names {items : List Tree} {xs : List Term} {definitions : List LocalDefinition}
    (become : BecomeEach items xs definitions) : definitions.map LocalDefinition.tag = localNamesEach items := by
  cases become with
  | nil => rfl
  | cons first others => rw [List.map_append, Becomes.names first, BecomeEach.names others, localNamesEach]

theorem BlockBecomes.names {items : List Tree} {x : Term} {definitions : List LocalDefinition}
    (becomes : BlockBecomes items x definitions) : definitions.map LocalDefinition.tag = blockNames items := by
  cases becomes with
  | declaration behind => rw [BlockBecomes.names behind, blockNames]
  | named defines _ _ value behind =>
    rw [blockNames, defines, List.map_append, List.map_append, Becomes.names value, BlockBecomes.names behind]
    rfl
  | destructured unnamed _ bound behind =>
    rw [blockNames, unnamed, List.map_append, Becomes.names bound, BlockBecomes.names behind]
    simp
  | last action final inner =>
    rw [blockNames_action action, blockNames_declarations final, List.append_nil, Becomes.names inner]
  | action action inner behind =>
    rw [blockNames_action action, List.map_append, Becomes.names inner, BlockBecomes.names behind]

end

mutual

/-- The definitions stand in the term, each at a node of its own. -/
theorem Becomes.terms {t : Tree} {x : Term} {definitions : List LocalDefinition} (becomes : Becomes t x definitions) :
    (definitions.map LocalDefinition.term).Subperm x.nodes := by
  cases becomes with
  | apply first second =>
    rw [List.map_append]
    exact ((Becomes.terms first).append (Becomes.terms second)).trans (List.sublist_cons_self _ _).subperm
  | @infixOp _ _ _ head y z _ _ _ first second =>
    have operands := Term.nodes_arguments head [y, z]
    rw [List.flatMap_cons, List.flatMap_singleton] at operands
    rw [List.map_append]
    exact ((Becomes.terms first).append (Becomes.terms second)).trans operands.subperm
  | prefixOp _ inner | postfixOp _ inner | bracket _ inner =>
    exact (Becomes.terms inner).trans ((List.sublist_append_right _ _).cons _).subperm
  | mixfix _ each | tuple each | comma each =>
    exact (BecomeEach.terms each).trans (Term.nodes_arguments _ _).subperm
  | list each => exact (BecomeEach.terms each).trans (Encoding.nodes_list _).subperm
  | lambda _ inner => exact (Becomes.terms inner).trans (Pattern.nodes_abstractAll _ _).subperm
  | sectionOf inner => exact (Becomes.terms inner).trans (List.sublist_cons_self _ _).subperm
  | sequence block => exact BlockBecomes.terms block
  | _ => exact List.nil_subperm

theorem BecomeEach.terms {items : List Tree} {xs : List Term} {definitions : List LocalDefinition}
    (become : BecomeEach items xs definitions) :
    (definitions.map LocalDefinition.term).Subperm (xs.flatMap Term.nodes) := by
  cases become with
  | nil => exact List.nil_subperm
  | cons first others =>
    rw [List.map_append, List.flatMap_cons]
    exact (Becomes.terms first).append (BecomeEach.terms others)

theorem BlockBecomes.terms {items : List Tree} {x : Term} {definitions : List LocalDefinition}
    (becomes : BlockBecomes items x definitions) : (definitions.map LocalDefinition.term).Subperm x.nodes := by
  cases becomes with
  | declaration behind => exact BlockBecomes.terms behind
  | @named _ d _ body _ _ patterns inner ds es _ _ function value behind =>
    have bound := (Becomes.terms value).trans
      (nodes_definitionTerm d.tag (body.mentions d.tag.text) patterns inner).subperm
    rw [← function] at bound
    have under := (BlockBecomes.terms behind).trans (List.sublist_cons_self (Term.lam d.tag d.rest) _).subperm
    have last : (ds ++ (es ++ [d])).Perm (d :: (es ++ ds)) :=
      List.perm_append_comm.trans ((List.perm_append_singleton d es).append_right ds)
    refine (last.map LocalDefinition.term).subperm.trans ?_
    rw [List.map_cons, List.map_append]
    exact (List.subperm_cons _).2 (under.append bound)
  | @destructured _ _ _ _ pattern _ rest _ _ _ _ bound behind =>
    have under := (BlockBecomes.terms behind).trans (Pattern.nodes_abstract rest pattern).subperm
    rw [List.map_append]
    refine (List.perm_append_comm.subperm.trans (under.append (Becomes.terms bound))).trans ?_
    exact (List.sublist_cons_self _ _).subperm
  | last action final inner => exact Becomes.terms inner
  | action action inner behind =>
    rw [List.map_append]
    exact ((Becomes.terms inner).append (BlockBecomes.terms behind)).trans (List.sublist_cons_self _ _).subperm

end

/-- What an item at top level has become: the globals that it adds, its value if it is an expression, and the
definitions inside its blocks. -/
inductive ItemBecomes : Tree → List Global → Option Term → List LocalDefinition → Prop
  | declaration {d : Declaration} : ItemBecomes (.declaration d) [] none []
  | data {sign : Tag} {lhs : Tree} {alternatives : List Tree} {span : Span} (globals : List Global) :
      ItemBecomes (.define sign lhs (.data alternatives span)) globals none []
  | definition {sign tag : Tag} {lhs body : Tree} {parameters : List Tree} {patterns : List Pattern} {x : Term}
      {ds : List LocalDefinition} (defines : lhs.definitionHead? = some (tag, parameters))
      (parts : Pattern.ofTrees parameters = .ok patterns) (inner : Becomes body x ds) :
      ItemBecomes (.define sign lhs body) [⟨tag, definitionTerm tag (body.mentions tag.text) patterns x⟩] none ds
  | expression {t : Tree} {x : Term} {ds : List LocalDefinition} (action : t.isAction = true)
      (inner : Becomes t x ds) : ItemBecomes t [] (some x) ds

/-- The items of a source. -/
inductive ItemsBecome : List Tree → List Global → List Term → List LocalDefinition → Prop
  | nil : ItemsBecome [] [] [] []
  | cons {t : Tree} {rest : List Tree} {gs hs : List Global} {x : Option Term} {xs : List Term}
      {ds es : List LocalDefinition} (first : ItemBecomes t gs x ds) (others : ItemsBecome rest hs xs es) :
      ItemsBecome (t :: rest) (gs ++ hs) (x.toList ++ xs) (ds ++ es)

/-- The names that the blocks inside an item define. -/
def itemNames : Tree → List Tag
  | .define _ _ body => body.localNames
  | t => t.localNames

theorem ItemBecomes.names {t : Tree} {globals : List Global} {x : Option Term} {definitions : List LocalDefinition}
    (becomes : ItemBecomes t globals x definitions) : definitions.map LocalDefinition.tag = t.itemNames := by
  cases becomes with
  | declaration | data => rfl
  | definition _ _ inner => exact inner.names
  | expression action inner =>
    rw [inner.names]
    cases t with
    | define => cases action
    | _ => rfl

theorem ItemsBecome.names {items : List Tree} {globals : List Global} {xs : List Term}
    {definitions : List LocalDefinition} (become : ItemsBecome items globals xs definitions) :
    definitions.map LocalDefinition.tag = items.flatMap itemNames := by
  induction become with
  | nil => rfl
  | cons first others ih => rw [List.map_append, first.names, ih, List.flatMap_cons]

theorem ItemBecomes.terms {t : Tree} {globals : List Global} {x : Option Term} {definitions : List LocalDefinition}
    (becomes : ItemBecomes t globals x definitions) :
    (definitions.map LocalDefinition.term).Subperm
      (globals.flatMap (·.term.nodes) ++ x.toList.flatMap Term.nodes) := by
  cases becomes with
  | declaration | data => exact List.nil_subperm
  | definition _ _ inner => simpa using inner.terms.trans (nodes_definitionTerm _ _ _ _).subperm
  | expression _ inner => simpa using inner.terms

theorem ItemsBecome.terms {items : List Tree} {globals : List Global} {xs : List Term}
    {definitions : List LocalDefinition} (become : ItemsBecome items globals xs definitions) :
    (definitions.map LocalDefinition.term).Subperm (globals.flatMap (·.term.nodes) ++ xs.flatMap Term.nodes) := by
  induction become with
  | nil => exact List.nil_subperm
  | @cons _ _ gs hs x xs _ _ first others ih =>
    rw [List.map_append, List.flatMap_append, List.flatMap_append]
    refine (first.terms.append ih).trans (List.Perm.subperm ?_)
    rw [List.append_assoc, List.append_assoc]
    exact (List.perm_append_comm_assoc _ _ _).append_left _

end Tree

end MixfixLambda
