import MixfixLambda.Proofs.Bind.Matching

/-!
# What dispatchers choose

The value of a declared type, the function that the type is named after and the `case_` function of each constructor
are encoded apart. They agree: a value hands its fields to the handler of its own constructor, whichever of the two
functions takes the value apart.
-/
namespace MixfixLambda.Encoding

open Term

/-- A constructor takes its fields and a handler for every constructor of the type, and goes on with its own. -/
theorem constructor_reduces {arity count : Nat} (fields handlers : List Term) (full : fields.length = arity)
    (total : handlers.length = count) (index : Nat) (inside : index < handlers.length) :
    BetaReduces (((constructor arity count index).applyAll fields).applyAll handlers)
      (handlers[index].applyAll fields) := by
  subst full total
  let names := numbered "f" fields.length
  let own := handlers.length - 1 - index
  have taken := BetaReduces.lams ((names ++ numbered "h" handlers.length).map Tag.synthetic)
    (.applyAll (v own ("h" ++ toString (index + 1))) (vars names handlers.length)) (fields ++ handlers) []
    (by simp [names])
  have arguments := substAll_vars handlers.reverse fields [] (length_numbered "f" fields.length).symm
  have chosen : (v own ("h" ++ toString (index + 1))).substAll (handlers.reverse ++ fields.reverse ++ []) 0 =
      handlers[index] := by
    have bound : own < handlers.reverse.length := by
      simp only [List.length_reverse, own]
      omega
    rw [substAll_v _ _ _ (by simp only [List.length_append]; omega), List.getElem_append_left (by simp; omega),
      List.getElem_append_left bound, List.getElem_reverse]
    congr 1
    omega
  rw [List.length_reverse] at arguments
  rw [substAll_nil, substAll_applyAll, List.reverse_append, arguments, chosen, applyAll, List.foldl_append] at taken
  exact taken

/-- The function that a type is named after hands its handlers to the value. -/
theorem dispatcher_reduces (value : Term) (handlers : List Term) :
    BetaReduces ((dispatcher handlers.length).applyAll (value :: handlers)) (value.applyAll handlers) := by
  let names := numbered "h" handlers.length
  have taken := BetaReduces.lams (("v" :: names).map Tag.synthetic)
    (.applyAll (v handlers.length "v") (vars names 0)) (value :: handlers) [] (by simp [names])
  have arguments := substAll_vars [] handlers [value] (length_numbered "h" handlers.length).symm
  have head : (v handlers.length "v").substAll (handlers.reverse ++ [value]) 0 = value := by
    rw [substAll_v _ _ _ (by simp), List.getElem_append_right (by simp)]
    simp
  rw [List.length_nil, List.nil_append] at arguments
  rw [substAll_nil, substAll_applyAll, List.reverse_cons, List.append_nil, head, arguments] at taken
  exact taken

/-- What a `case_` function gives a constructor with so many fields for a handler, in terms of its own variables. -/
def alternative (index i fields : Nat) : Term :=
  if i = index then v 1 "handler" else fn (numbered "f" fields) (v fields "otherwise")

/-- What it gives them when it has its arguments. -/
def alternatives (arities : List Nat) (index : Nat) (values : List Term) : List Term :=
  ((List.range arities.length).zipWith (alternative index) arities).map (·.substAll values 0)

@[simp]
theorem length_alternatives (arities : List Nat) (index : Nat) (values : List Term) :
    (alternatives arities index values).length = arities.length := by
  simp [alternatives]

theorem getElem_alternatives (arities : List Nat) (index i : Nat) (values : List Term) (inside : i < arities.length)
    (listed : i < (alternatives arities index values).length) :
    (alternatives arities index values)[i] = (alternative index i arities[i]).substAll values 0 := by
  simp [alternatives]

/-- A `case_` function hands the value its handler for one constructor and something else for the others. -/
theorem caseDispatcher_reduces (arities : List Nat) (index : Nat) (value handler otherwise : Term) :
    BetaReduces ((caseDispatcher arities index).applyAll [value, handler, otherwise])
      (value.applyAll (alternatives arities index [otherwise, handler, value])) := by
  have taken := BetaReduces.lams (["v", "handler", "otherwise"].map Tag.synthetic)
    (.applyAll (v 2 "v") ((List.range arities.length).zipWith (alternative index) arities))
    [value, handler, otherwise] [] rfl
  rw [substAll_nil, substAll_applyAll] at taken
  exact taken

/-- For the constructor that it is about, a `case_` function gives its handler. -/
theorem substAll_alternative_self (index fields : Nat) (value handler otherwise : Term) :
    (alternative index index fields).substAll [otherwise, handler, value] 0 = handler := by
  rw [alternative, if_pos rfl]
  exact substAll_v [otherwise, handler, value] 1 _ (Nat.one_lt_succ_succ 1)

/-- For any other constructor, it gives a function that drops the fields. -/
theorem alternative_reduces {index i : Nat} (other : i ≠ index) (fields : List Term)
    (value handler otherwise : Term) :
    BetaReduces (((alternative index i fields.length).substAll [otherwise, handler, value] 0).applyAll fields)
      otherwise := by
  have dropped := BetaReduces.lams ((numbered "f" fields.length).map Tag.synthetic) (v fields.length "otherwise")
    fields [otherwise, handler, value] (by simp)
  have left : (v fields.length "otherwise").substAll (fields.reverse ++ [otherwise, handler, value]) 0 =
      otherwise := by
    rw [substAll_v _ _ _ (by simp), List.getElem_append_right (by simp)]
    simp
  rw [left] at dropped
  rw [alternative, if_neg other]
  exact dropped

/-- The value of constructor `i` with its fields, taken apart by the function of its type, reduces to the handler of
that constructor applied to the fields; taken apart by the `case_` function of constructor `j`, to the handler applied
to the fields if `i` and `j` are the same, and to `otherwise` if they are not. -/
theorem dispatchers_select (arities : List Nat) (i j : Nat) (inside : i < arities.length)
    (fields handlers : List Term) (full : fields.length = arities[i]) (total : handlers.length = arities.length)
    (handler otherwise : Term) :
    let value := (constructor arities[i] arities.length i).applyAll fields
    BetaReduces ((dispatcher arities.length).applyAll (value :: handlers))
        (handlers[i].applyAll fields) ∧
      (i = j → BetaReduces ((caseDispatcher arities j).applyAll [value, handler, otherwise])
        (handler.applyAll fields)) ∧
      (i ≠ j → BetaReduces ((caseDispatcher arities j).applyAll [value, handler, otherwise]) otherwise) := by
  intro value
  have built (given : List Term) (every : given.length = arities.length) :
      BetaReduces (value.applyAll given) (given[i].applyAll fields) :=
    constructor_reduces fields given full every i (by omega)
  let given := alternatives arities j [otherwise, handler, value]
  have chosen : BetaReduces ((caseDispatcher arities j).applyAll [value, handler, otherwise])
      (((alternative j i arities[i]).substAll [otherwise, handler, value] 0).applyAll fields) := by
    rw [← getElem_alternatives arities j i _ inside (by simpa using inside)]
    exact (caseDispatcher_reduces arities j value handler otherwise).trans
      (built given (length_alternatives arities j _))
  refine ⟨?_, ?_, ?_⟩
  · have handed := dispatcher_reduces value handlers
    rw [total] at handed
    exact handed.trans (built handlers total)
  · rintro rfl
    rwa [substAll_alternative_self] at chosen
  · intro other
    rw [← full] at chosen
    exact chosen.trans (alternative_reduces other fields value handler otherwise)

/-- The second of three constructors, which has two fields, against its own `case_` function. -/
theorem dispatchers_select_second :
    let value := (constructor 2 3 1).applyAll [.int 3, .int 4]
    let handlers : List Term := [.int 0, .builtin .mul (.synthetic "*"), .int 1]
    1 < [1, 2, 0].length ∧ [Term.int 3, Term.int 4].length = [1, 2, 0][1] ∧
    handlers.length = [1, 2, 0].length ∧ 1 ≠ 0 ∧
    BetaReduces ((dispatcher 3).applyAll (value :: handlers))
      (.applyAll (.builtin .mul (.synthetic "*")) [.int 3, .int 4]) ∧
    BetaReduces ((caseDispatcher [1, 2, 0] 1).applyAll [value, .builtin .add (.synthetic "+"), .int 9])
      (.applyAll (.builtin .add (.synthetic "+")) [.int 3, .int 4]) ∧
    BetaReduces ((caseDispatcher [1, 2, 0] 0).applyAll [value, .builtin .add (.synthetic "+"), .int 9]) (.int 9) := by
  let fields : List Term := [.int 3, .int 4]
  let handlers : List Term := [.int 0, .builtin .mul (.synthetic "*"), .int 1]
  have own := dispatchers_select [1, 2, 0] 1 1 (by decide) fields handlers rfl rfl
    (.builtin .add (.synthetic "+")) (.int 9)
  have other := dispatchers_select [1, 2, 0] 1 0 (by decide) fields handlers rfl rfl
    (.builtin .add (.synthetic "+")) (.int 9)
  exact ⟨by decide, rfl, rfl, by decide, own.1, own.2.1 rfl, other.2.2 (by decide)⟩

end MixfixLambda.Encoding
