import MixfixLambda.Proofs.Bind.Encoding
import MixfixLambda.Proofs.Term.Beta

/-!
# What patterns match

The function that a pattern becomes, applied to an argument, reduces to the body with the argument and its
parts in place of the pattern's variables. The body may itself be a function that was made of the patterns
after this one, so what is proved of one pattern holds under any values for the variables outside.
-/
namespace MixfixLambda

namespace Encoding

open Term

variable {names : List String} {above i : Nat}

@[simp]
theorem length_vars : (vars names above).length = names.length := by
  simp [vars]

/-- A variable stands for the term that was put in for it. -/
theorem substAll_v (values : List Term) (depth : Nat) (text : String) (inside : depth < values.length) :
    (v depth text).substAll values 0 = values[depth] := by
  rw [v, substAll, if_neg (Nat.not_lt_zero _), Nat.sub_zero, List.getElem?_eq_getElem inside, Option.getD_some]

/-- The variables of the given names stand for the terms that were put in for them. -/
theorem substAll_vars (later fields values : List Term) (same : fields.length = names.length) :
    (vars names later.length).map (·.substAll (later ++ fields.reverse ++ values) 0) = fields := by
  refine List.ext_getElem (by simp [same]) fun i left right => ?_
  have bound : i < names.length := by simpa using left
  have place : later.length + names.length - 1 - i = later.length + (names.length - 1 - i) := by omega
  simp only [vars, List.getElem_map, List.getElem_zipWith, List.getElem_range, v, substAll, Nat.not_lt_zero,
    if_false, Nat.sub_zero, place, List.append_assoc]
  rw [List.getElem?_append_right (Nat.le_add_right _ _), Nat.add_sub_cancel_left,
    List.getElem?_append_left (by simp only [List.length_reverse]; omega),
    List.getElem?_reverse (by omega), List.getElem?_eq_getElem (by omega), Option.getD_some]
  congr 1
  omega

/-- A tuple hands its fields to the function that it is applied to. -/
theorem tuple_reduces (fields : List Term) (consumer : Term) :
    BetaReduces (.app ((tuple fields.length).applyAll fields) consumer) (consumer.applyAll fields) := by
  have taken := BetaReduces.lams ((numbered "x" fields.length ++ ["k"]).map Tag.synthetic)
    (.applyAll (v 0 "k") (vars (numbered "x" fields.length) 1)) (fields ++ [consumer]) [] (by simp)
  have put := substAll_vars [consumer] fields [] (length_numbered "x" fields.length).symm
  have head : (v 0 "k").substAll ([consumer] ++ fields.reverse ++ []) 0 = consumer := rfl
  rw [List.length_singleton] at put
  rw [substAll_nil, substAll_applyAll, List.reverse_append, List.reverse_singleton, put, head,
    Term.applyAll, List.foldl_append] at taken
  exact taken

/-- What a projection hands to a tuple returns one of its arguments. -/
theorem selector_reduces (fields : List Term) (index : Nat) (inside : index < fields.length) (text : String) :
    BetaReduces ((fn (numbered "x" fields.length) (v (fields.length - 1 - index) text)).applyAll fields)
      fields[index] := by
  have taken := BetaReduces.lams ((numbered "x" fields.length).map Tag.synthetic)
    (v (fields.length - 1 - index) text) fields [] (by simp)
  have picked : (v (fields.length - 1 - index) text).substAll (fields.reverse ++ []) 0 = fields[index] := by
    have bound : fields.length - 1 - index < fields.reverse.length := by
      rw [List.length_reverse]
      omega
    rw [substAll_v _ _ _ (by simpa using bound), List.getElem_append_left bound, List.getElem_reverse]
    congr 1
    omega
  rw [picked, substAll_nil] at taken
  exact taken

theorem projection_reduces (fields : List Term) (index : Nat) (inside : index < fields.length) :
    BetaReduces (.app (projection fields.length index) ((tuple fields.length).applyAll fields))
      fields[index] := by
  let text := "x" ++ toString (index + 1)
  let selector := fn (numbered "x" fields.length) (v (fields.length - 1 - index) text)
  let whole := (tuple fields.length).applyAll fields
  have closed : selector.Scoped 0 0 := by
    rw [fn_scoped, length_numbered, v, var_scoped]
    omega
  have taken := BetaReduces.contract (.synthetic "t") (.app (v 0 "t") selector) whole []
  have applied : (Term.app (v 0 "t") selector).substAll [whole] 0 = .app whole selector := by
    rw [substAll, closed.substAll_eq (Nat.le_refl _)]
    rfl
  rw [applied, substAll_nil] at taken
  exact (taken.trans (tuple_reduces fields selector)).trans (selector_reduces fields index inside text)

end Encoding

namespace Pattern

open Term

/-- The parts of an argument that is matched against a tuple. -/
def components (arity : Nat) (argument : Term) : List Term :=
  (List.range arity).map fun i => .app (Encoding.projection arity i) argument

mutual

/-- The variables that a pattern binds, outermost first, each with the term it stands for when the pattern
is matched against `argument`. -/
def bindings (argument : Term) : Pattern → List (Tag × Term)
  | .name tag => [(tag, argument)]
  | .unit => [(unitTag, argument)]
  | .tuple items => (tupleTag, argument) :: bindingsAll (components items.length argument) items
  | .asPattern tag pattern => (tag, argument) :: bindings argument pattern

/-- The same for a list of patterns with an argument for each. -/
def bindingsAll (arguments : List Term) : List Pattern → List (Tag × Term)
  | [] => []
  | pattern :: rest =>
    match arguments with
    | [] => []
    | first :: others => bindings first pattern ++ bindingsAll others rest

end

@[simp]
theorem length_components (arity : Nat) (argument : Term) : (components arity argument).length = arity := by
  simp [components]

/-- The argument takes the place of the tuple's own variable in every part. -/
theorem components_substAll (arity : Nat) (argument : Term) (outer : List Term) :
    (components arity (.var 0 tupleTag)).map (·.substAll (argument :: outer) 0) =
      components arity argument := by
  rw [components, List.map_map]
  refine List.map_congr_left fun i member => ?_
  have closed : (Encoding.projection arity i).Scoped 0 0 :=
    Encoding.projection_scoped (List.mem_range.mp member)
  simp only [Function.comp_apply, substAll]
  rw [closed.substAll_eq (Nat.le_refl _)]
  rfl

mutual

theorem bindings_locals (argument : Term) (pattern : Pattern) :
    (bindings argument pattern).map Prod.fst = pattern.locals := by
  match pattern with
  | .name tag => rfl
  | .unit => rfl
  | .tuple items =>
    rw [bindings, locals, List.map_cons, bindingsAll_locals _ items (length_components _ _)]
  | .asPattern tag pattern => rw [bindings, locals, List.map_cons, bindings_locals argument pattern]

theorem bindingsAll_locals (arguments : List Term) (patterns : List Pattern)
    (full : arguments.length = patterns.length) :
    (bindingsAll arguments patterns).map Prod.fst = localsAll patterns := by
  match patterns, arguments with
  | [], _ => rfl
  | pattern :: rest, first :: others =>
    rw [bindingsAll, localsAll, List.map_append, bindings_locals first pattern,
      bindingsAll_locals others rest (Nat.succ.inj full)]

end

/-- The terms for the variables of some patterns, innermost first. -/
def values (bound : List (Tag × Term)) : List Term :=
  (bound.map Prod.snd).reverse

mutual

/-- The function made of one pattern takes an argument of the pattern's shape. -/
theorem abstract_reduces (body : Term) (pattern : Pattern) (argument : Term) (outer : List Term) :
    BetaReduces (.app ((abstract body pattern).substAll outer 0) argument)
      (body.substAll (values (bindings argument pattern) ++ outer) 0) := by
  match pattern with
  | .name tag => exact BetaReduces.contract tag body argument outer
  | .unit => exact BetaReduces.contract unitTag body argument outer
  | .tuple items =>
    have taken := BetaReduces.contract tupleTag
      (.applyAll (abstractAll body items) (components items.length (.var 0 tupleTag))) argument outer
    rw [substAll_applyAll, components_substAll] at taken
    have matched := abstractAll_reduces body items (components items.length argument) (argument :: outer)
      (length_components _ _)
    have order : values (bindings argument (.tuple items)) ++ outer =
        values (bindingsAll (components items.length argument) items) ++ argument :: outer := by
      simp [values, bindings]
    rw [order]
    exact taken.trans matched
  | .asPattern tag pattern =>
    have taken := BetaReduces.contract tag (.app (abstract body pattern) (.var 0 tag)) argument outer
    have matched := abstract_reduces body pattern argument (argument :: outer)
    have order : values (bindings argument (.asPattern tag pattern)) ++ outer =
        values (bindings argument pattern) ++ argument :: outer := by
      simp [values, bindings]
    rw [order]
    exact taken.trans matched

theorem abstractAll_reduces (body : Term) (patterns : List Pattern) (arguments outer : List Term)
    (full : arguments.length = patterns.length) :
    BetaReduces (((abstractAll body patterns).substAll outer 0).applyAll arguments)
      (body.substAll (values (bindingsAll arguments patterns) ++ outer) 0) := by
  match patterns, arguments with
  | [], [] => exact BetaReduces.refl _
  | pattern :: rest, first :: others =>
    have head := abstract_reduces (abstractAll body rest) pattern first outer
    have tail := abstractAll_reduces body rest others (values (bindings first pattern) ++ outer)
      (Nat.succ.inj full)
    have order : values (bindingsAll (first :: others) (pattern :: rest)) ++ outer =
        values (bindingsAll others rest) ++ (values (bindings first pattern) ++ outer) := by
      simp [values, bindingsAll]
    rw [order]
    exact (head.applyAll others).trans tail

end

/-- The function made of a list of patterns reduces, applied to an argument for each of them, to the body with
every variable of the patterns replaced by what it stands for; what a component of a tuple stands for reduces
to that field where the argument is a tuple. -/
theorem abstractAll_matches (body : Term) (patterns : List Pattern) (arguments : List Term)
    (full : arguments.length = patterns.length) :
    (bindingsAll arguments patterns).map Prod.fst = localsAll patterns ∧
    BetaReduces ((abstractAll body patterns).applyAll arguments)
      (body.substAll ((bindingsAll arguments patterns).map Prod.snd).reverse 0) ∧
    ∀ (fields : List Term) (index : Nat) (inside : index < fields.length),
      BetaReduces
        (.app (Encoding.projection fields.length index) ((Encoding.tuple fields.length).applyAll fields))
        fields[index] := by
  refine ⟨bindingsAll_locals arguments patterns full, ?_, Encoding.projection_reduces⟩
  have matched := abstractAll_reduces body patterns arguments [] full
  rwa [substAll_nil, List.append_nil] at matched

/-- The patterns `p@(a, _)` and `b` around a body that uses both variables of the first pattern, the second
pattern, and a variable from outside. -/
theorem abstractAll_matches_pair :
    let patterns := [asPattern (.synthetic "p") (.tuple [.name (.synthetic "a"), .unit]), .name (.synthetic "b")]
    let pair := (Encoding.tuple 2).applyAll [.int 1, .var 7 (.synthetic "y")]
    let body := Term.applyAll (.var 0 (.synthetic "b"))
      [.var 2 (.synthetic "a"), .var 4 (.synthetic "p"), .var 5 (.synthetic "x")]
    [pair, .int 3].length = patterns.length ∧
    BetaReduces ((abstractAll body patterns).applyAll [pair, .int 3])
      (.applyAll (.int 3) [.app (Encoding.projection 2 0) pair, pair, .var 0 (.synthetic "x")]) :=
  ⟨rfl, (abstractAll_matches _ _ _ rfl).2.1⟩

end Pattern

end MixfixLambda
