import Mathlib.Logic.Relation
import MixfixLambda.Bind.Tasks
import MixfixLambda.Proofs.Bind.Effect

/-!
# The stack of tasks binds as the recursion does

A tree on top of the tasks is bound, its term is put on top of the finished terms, and the other tasks go on: by
induction on the tree, with any tasks and terms below it. A block that is bound in one pass and wrapped from the back
gives the term, the marks and the warnings of the nested recursion, since whatever is bound leaves as many variables in
scope as it found.
-/
namespace MixfixLambda

open BindM Binder

/-! ### The statements of a block -/

namespace Binder

/-- The binder with nothing but the outer variables in scope. -/
def leave (outer : Nat) (b : Binder) : Binder :=
  { b with locals := b.locals.drop (b.locals.length - outer) }

theorem leave_self {b : Binder} {outer : Nat} (same : b.locals.length = outer) : b.leave outer = b := by
  rw [leave, same, Nat.sub_self, List.drop_zero]

theorem leave_leave (b : Binder) {outer middle : Nat} (inside : outer ≤ middle) (deep : middle ≤ b.locals.length) :
    (b.leave middle).leave outer = b.leave outer := by
  have count : b.locals.length - middle + (b.locals.length - (b.locals.length - middle) - outer) =
      b.locals.length - outer := by omega
  simp only [leave, List.drop_drop, List.length_drop, count]

@[simp]
theorem length_leave (b : Binder) (outer : Nat) : (b.leave outer).locals.length = min outer b.locals.length := by
  simp only [leave, List.length_drop]
  omega

end Binder

namespace BindM

variable {α : Type}

/-- As many variables are in scope behind the work as before. -/
theorem Settled.depth {work : BindM α} (settled : work.Settled False) (b : Binder) :
    (work b).2.locals.length = b.locals.length := by
  obtain ⟨e, -, effect⟩ := settled b.view
  rw [effect b rfl]
  exact Local.length_mark _ _

/-- Work under more variables, by what it does to the binder inside. -/
theorem withLocals_apply {work : BindM α} {tags : List Tag} {b : Binder}
    (depth : (work (inside tags b)).2.locals.length = b.locals.length + tags.length) :
    withLocals tags work b = ((work (inside tags b)).1, (work (inside tags b)).2.leave b.locals.length) := by
  rw [leave, depth, Nat.add_sub_cancel_left]
  rfl

theorem pushLocals_apply (tags : List Tag) (b : Binder) : pushLocals tags b = (.ok (), inside tags b) :=
  rfl

theorem splitLocals_apply (outer : Nat) (b : Binder) :
    splitLocals outer b = (.ok (b.locals.take (b.locals.length - outer)).reverse, b.leave outer) :=
  rfl

theorem observing_apply (work : BindM α) (b : Binder) :
    (observing work : BindM (Except BindError α)) b = (.ok (work b).1, (work b).2) := by
  simp only [observing, tryCatch, tryCatchThe, MonadExceptOf.tryCatch, ExceptT.tryCatch, ExceptT.mk, bind,
    StateT.bind, ExceptT.bind, ExceptT.bindCont]
  rcases work b with ⟨_ | a, b'⟩ <;> rfl

end BindM

namespace Statement

/-- Wrapping a statement around the rest of a block depends on the marks of its variables and adds warnings. -/
theorem around_apply (inner : List Local) (s : Statement) (rest : Term) :
    ∃ whole new, ∀ b : Binder, s.around inner rest b = (.ok whole, { b with warnings := new ++ b.warnings }) := by
  cases s with
  | action term => exact ⟨_, [], fun b => rfl⟩
  | destructured pattern value => exact ⟨_, [], fun b => rfl⟩
  | named tag value slot =>
    dsimp only [around]
    split
    · exact ⟨_, [⟨.unusedBinding, tag.text, tag.span⟩], fun b => rfl⟩
    · exact ⟨_, [], fun b => rfl⟩

theorem wrap_apply (inner : List Local) (statements : List Statement) (last : Term) :
    ∃ whole new, ∀ b : Binder, (statements.foldrM (·.around inner) last : BindM Term) b =
      (.ok whole, { b with warnings := new ++ b.warnings }) := by
  induction statements with
  | nil => exact ⟨last, [], fun b => rfl⟩
  | cons s rest ih =>
    obtain ⟨body, new, ran⟩ := ih
    obtain ⟨whole, more, wrapped⟩ := around_apply inner s body
    refine ⟨whole, more ++ new, fun b => ?_⟩
    rw [List.foldrM_cons, bind_apply, ran]
    dsimp only
    rw [wrapped, List.append_assoc]

end Statement

namespace Tree

open BindTask (gather applied schedule)

/-- What becomes of a block whose statements are bound: the statements are wrapped around the last expression, with
only the first `kept` variables left in scope. `outer` is the number of variables around the whole block. -/
def finishBlock (outer kept : Nat) (bound : Except BindError (List Statement × Term) × Binder) :
    Except BindError Term × Binder :=
  match bound with
  | (.error e, b) => (.error e, b.leave kept)
  | (.ok (statements, last), b) =>
    (statements.foldrM (·.around (b.locals.take (b.locals.length - outer)).reverse) last : BindM Term) (b.leave kept)

/-- The mark of a variable of the block, found by its slot from the outside and by its depth from the inside. -/
theorem used_slot {locals : List Local} {outer kept : Nat} (around : outer ≤ kept) (deep : kept < locals.length) :
    ((locals.take (locals.length - outer)).reverse[kept - outer]?).any (·.used) =
      ((locals.drop (locals.length - (kept + 1))).head?).any (·.used) := by
  have found : (locals.take (locals.length - outer)).reverse[kept - outer]? =
      locals[locals.length - (kept + 1)]? := by
    rw [List.getElem?_reverse (by simp only [List.length_take]; omega), List.getElem?_take_of_lt (by
      simp only [List.length_take]; omega)]
    congr 1
    simp only [List.length_take]
    omega
  rw [found, List.head?_drop]

/-- A definition of a name in front of statements that are bound already. -/
theorem bindNamed_apply {rest : BindM Term} {tag : Tag} {value : Term} {b : Binder} {outer : Nat}
    {bound : Except BindError (List Statement × Term) × Binder} (around : outer ≤ b.locals.length)
    (deep : b.locals.length < bound.2.locals.length)
    (same : rest (inside [tag] b) = finishBlock outer (b.locals.length + 1) bound) :
    bindNamed tag value rest b = finishBlock outer b.locals.length
      (bound.1.map fun (statements, last) => (.named tag value (b.locals.length - outer) :: statements, last),
        bound.2) := by
  obtain ⟨outcome, after⟩ := bound
  dsimp only at deep
  -- One variable goes out of scope behind the rest.
  have leaves (b' : Binder) (depth : b'.locals.length = b.locals.length + 1) :
      { b' with locals := b'.locals.drop 1 } = b'.leave b.locals.length := by
    rw [leave, depth, Nat.add_sub_cancel_left]
  have kept : (after.leave (b.locals.length + 1)).locals.length = b.locals.length + 1 := by
    rw [length_leave]
    omega
  rw [bindNamed, bind_apply]
  cases outcome with
  | error e =>
    rw [withUsed_apply same, leaves _ kept, leave_leave _ (Nat.le_succ _) deep]
    rfl
  | ok bound =>
    obtain ⟨statements, last⟩ := bound
    let inner := (after.locals.take (after.locals.length - outer)).reverse
    obtain ⟨whole, new, ran⟩ := Statement.wrap_apply inner statements last
    let behind : Binder := { after.leave (b.locals.length + 1) with warnings := new ++ after.warnings }
    have wrapped : rest (inside [tag] b) = (.ok whole, behind) := same.trans (ran _)
    have outside : { after.leave b.locals.length with warnings := new ++ after.warnings } =
        behind.leave b.locals.length := by
      rw [← leave_leave after (Nat.le_succ _) deep]
      rfl
    have mark : (inner[b.locals.length - outer]?).any (·.used) = behind.locals.head?.any (·.used) :=
      used_slot around deep
    rw [withUsed_apply wrapped, leaves behind kept]
    dsimp only [Except.map, finishBlock]
    rw [List.foldrM_cons, bind_apply, ran]
    change _ = (Statement.named tag value (b.locals.length - outer)).around inner whole
      { after.leave b.locals.length with warnings := new ++ after.warnings }
    rw [outside]
    dsimp only [Statement.around]
    rw [mark]

/-- A definition of several names in front of statements that are bound already. -/
theorem bindDestructured_apply {rest : BindM Term} {pattern : Pattern} {value : Term} {b : Binder} {outer : Nat}
    {bound : Except BindError (List Statement × Term) × Binder}
    (deep : b.locals.length + pattern.locals.length ≤ bound.2.locals.length)
    (same : rest (inside pattern.locals b) = finishBlock outer (b.locals.length + pattern.locals.length) bound) :
    bindDestructured pattern value rest b = finishBlock outer b.locals.length
      (bound.1.map fun (statements, last) => (.destructured pattern value :: statements, last), bound.2) := by
  obtain ⟨outcome, after⟩ := bound
  dsimp only at deep
  have kept : (after.leave (b.locals.length + pattern.locals.length)).locals.length =
      b.locals.length + pattern.locals.length := by
    rw [length_leave]
    omega
  rw [bindDestructured, bind_apply]
  cases outcome with
  | error e =>
    have left : rest (inside pattern.locals b) =
        (.error e, after.leave (b.locals.length + pattern.locals.length)) := same
    rw [withLocals_apply (by rw [left]; exact kept), left]
    dsimp only [Except.map, finishBlock]
    rw [leave_leave _ (Nat.le_add_right _ _) deep]
  | ok bound =>
    obtain ⟨statements, last⟩ := bound
    let inner := (after.locals.take (after.locals.length - outer)).reverse
    obtain ⟨whole, new, ran⟩ := Statement.wrap_apply inner statements last
    let behind : Binder :=
      { after.leave (b.locals.length + pattern.locals.length) with warnings := new ++ after.warnings }
    have wrapped : rest (inside pattern.locals b) = (.ok whole, behind) := same.trans (ran _)
    have outside : { after.leave b.locals.length with warnings := new ++ after.warnings } =
        behind.leave b.locals.length := by
      rw [← leave_leave after (Nat.le_add_right _ _) deep]
      rfl
    rw [withLocals_apply (by rw [wrapped]; exact kept), wrapped]
    dsimp only [Except.map, finishBlock]
    rw [List.foldrM_cons, bind_apply, ran]
    exact congrArg (Prod.mk _) outside.symm

/-- An action in front of statements that are bound already. -/
theorem action_apply {rest : BindM Term} {action : Term} {b : Binder} {outer kept : Nat}
    {bound : Except BindError (List Statement × Term) × Binder} (same : rest b = finishBlock outer kept bound) :
    (do return .app action (← rest) : BindM Term) b = finishBlock outer kept
      (bound.1.map fun (statements, last) => (.action action :: statements, last), bound.2) := by
  obtain ⟨outcome, after⟩ := bound
  rw [bind_apply, same]
  cases outcome with
  | error e => rfl
  | ok bound =>
    obtain ⟨statements, last⟩ := bound
    let inner := (after.locals.take (after.locals.length - outer)).reverse
    obtain ⟨whole, new, ran⟩ := Statement.wrap_apply inner statements last
    dsimp only [Except.map, finishBlock]
    rw [List.foldrM_cons, bind_apply, ran]
    rfl

/-- A block that is bound in one pass comes to what the nested recursion makes of it, wherever it is left. -/
def InOnePass (outer : Nat) (nested : BindM Term) (flat : BindM (List Statement × Term)) : Prop :=
  ∀ b : Binder, outer ≤ b.locals.length →
    b.locals.length ≤ (flat b).2.locals.length ∧ nested b = finishBlock outer b.locals.length (flat b)

namespace InOnePass

variable {α : Type} {outer : Nat} {nested : BindM Term} {flat : BindM (List Statement × Term)}

theorem refuse (cause : BindCause) (span : Span) :
    InOnePass outer (BindM.refuse cause span) (BindM.refuse cause span) := by
  intro b around
  refine ⟨Nat.le_refl _, ?_⟩
  have still : b.leave b.locals.length = b := leave_self rfl
  exact congrArg (Prod.mk (Except.error ⟨cause, span⟩ : Except BindError Term)) still.symm

/-- Work in front of both. -/
theorem bind {work : BindM α} {nested : α → BindM Term} {flat : α → BindM (List Statement × Term)}
    (settled : work.Settled False) (each : ∀ a, InOnePass outer (nested a) (flat a)) :
    InOnePass outer (work >>= nested) (work >>= flat) := by
  intro b around
  have depth := settled.depth b
  rw [bind_apply, bind_apply]
  rcases outcome : work b with ⟨e | a, b'⟩
  · rw [outcome] at depth
    refine ⟨Nat.le_of_eq depth.symm, ?_⟩
    dsimp only [finishBlock]
    rw [leave_self depth]
  · rw [outcome] at depth
    dsimp only at depth
    have next := each a b' (depth ▸ around)
    rwa [depth] at next

/-- The last expression. -/
theorem last {work : BindM Term} (settled : work.Settled False) :
    InOnePass outer work (do return ([], ← work)) := by
  intro b around
  have depth := settled.depth b
  rw [bind_apply]
  rcases outcome : work b with ⟨e | a, b'⟩
  · rw [outcome] at depth
    refine ⟨Nat.le_of_eq depth.symm, ?_⟩
    dsimp only [finishBlock]
    rw [leave_self depth]
  · rw [outcome] at depth
    refine ⟨Nat.le_of_eq depth.symm, ?_⟩
    change (Except.ok a, b') = (Except.ok a, b'.leave b.locals.length)
    rw [leave_self depth]

/-- The statements behind one that is bound. -/
theorem cons_apply (s : Statement) (b : Binder) :
    (do
      let (statements, last) ← flat
      return (s :: statements, last) : BindM (List Statement × Term)) b =
      ((flat b).1.map fun (statements, last) => (s :: statements, last), (flat b).2) := by
  rw [bind_apply]
  rcases flat b with ⟨_ | ⟨statements, last⟩, b'⟩ <;> rfl

theorem action (same : InOnePass outer nested flat) (action : Term) :
    InOnePass outer (do return .app action (← nested)) (do
      let (statements, last) ← flat
      return (.action action :: statements, last)) := by
  intro b around
  obtain ⟨deep, equal⟩ := same b around
  rw [cons_apply]
  exact ⟨deep, action_apply equal⟩

theorem named (same : InOnePass outer nested flat) (tag : Tag) (value : Term) :
    InOnePass outer (bindNamed tag value nested) (do
      let slot := (← get).locals.length - outer
      pushLocals [tag]
      let (statements, last) ← flat
      return (.named tag value slot :: statements, last)) := by
  intro b around
  have entered : (inside [tag] b).locals.length = b.locals.length + 1 := by simp [inside]
  obtain ⟨deep, equal⟩ := same (inside [tag] b) (by omega)
  rw [entered] at deep equal
  rw [bind_apply, get_apply]
  dsimp only
  rw [bind_apply, pushLocals_apply]
  dsimp only
  rw [cons_apply]
  exact ⟨by dsimp only; omega, bindNamed_apply around (by omega) equal⟩

theorem destructured (same : InOnePass outer nested flat) (pattern : Pattern) (value : Term) :
    InOnePass outer (bindDestructured pattern value nested) (do
      pushLocals pattern.locals
      let (statements, last) ← flat
      return (.destructured pattern value :: statements, last)) := by
  intro b around
  have entered : (inside pattern.locals b).locals.length = b.locals.length + pattern.locals.length := by
    simp [inside, Nat.add_comm]
  obtain ⟨deep, equal⟩ := same (inside pattern.locals b) (by omega)
  rw [entered] at deep equal
  rw [bind_apply, pushLocals_apply]
  dsimp only
  rw [cons_apply]
  exact ⟨by dsimp only; omega, bindDestructured_apply deep equal⟩

end InOnePass

/-! ### Tasks and finished terms -/

variable {rest : List BindTask} {terms : List Term}

theorem runTasks_apply (head : Term) (operands : List Term) :
    runTasks (.apply (operands.length + 1) :: rest) (operands.reverse ++ head :: terms) =
      runTasks rest (head.applyAll operands :: terms) := by
  have last : gather (operands.length + 1) applied (operands.reverse ++ head :: terms) =
      head.applyAll operands :: terms := by
    have split : operands.reverse ++ head :: terms = (head :: operands).reverse ++ terms := by simp
    rw [split, gather, List.take_left' (by simp), List.drop_left' (by simp), List.reverse_reverse]
    rfl
  rw [runTasks, last]

theorem runTasks_list (items : List Term) :
    runTasks (.list items.length :: rest) (items.reverse ++ terms) =
      runTasks rest (Encoding.list items :: terms) := by
  have last : gather items.length (fun items => [Encoding.list items]) (items.reverse ++ terms) =
      Encoding.list items :: terms := by
    rw [gather, List.take_left' (by simp), List.drop_left' (by simp), List.reverse_reverse]
    rfl
  rw [runTasks, last]

/-- A tree that is bound wherever it stands among the tasks is bound on its own. -/
theorem bindExpr_of {t : Tree} (runs : ∀ rest terms, runTasks (.bind t :: rest) terms =
    t.bind >>= fun term => runTasks rest (term :: terms)) : t.bindExpr = t.bind := by
  rw [bindExpr, runs]
  simp only [runTasks, bind_assoc, pure_bind, bind_pure]

/-- A tree that schedules nothing and is bound at once. -/
theorem runTasks_leaf {t : Tree} (plain : schedule t = []) (node : bindNode t = do return [← t.bind]) :
    runTasks (.bind t :: rest) terms = t.bind >>= fun term => runTasks rest (term :: terms) := by
  rw [runTasks, node, plain]
  simp only [bind_assoc, pure_bind, List.nil_append, List.cons_append]

/-- An operation in front of its operand. -/
theorem runTasks_applied {t operand : Tree} {tag : Tag} (one : schedule t = [.bind operand, .apply 2])
    (node : bindNode t = do return [← resolve tag])
    (runs : ∀ rest terms, runTasks (.bind operand :: rest) terms =
      operand.bind >>= fun term => runTasks rest (term :: terms)) :
    runTasks (.bind t :: rest) terms = (do
      let head ← resolve tag
      return Term.app head (← operand.bind)) >>= fun term => runTasks rest (term :: terms) := by
  rw [runTasks, node, one]
  simp only [bind_assoc, pure_bind]
  refine bind_congr fun head => ?_
  rw [List.cons_append, runs]
  exact bind_congr fun argument => runTasks_apply head [argument]

/-- As many terms come of binding several trees as there are trees. -/
theorem length_bindEach (items : List Tree) (b : Binder) (made : List Term) (b' : Binder)
    (bound : bindEach items b = (.ok made, b')) : made.length = items.length := by
  induction items generalizing b made with
  | nil =>
    rw [bindEach] at bound
    cases bound
    rfl
  | cons t others ih =>
    rw [bindEach] at bound
    obtain ⟨term, middle, -, bound⟩ := bind_success bound
    obtain ⟨tail, after, second, bound⟩ := bind_success bound
    cases bound
    rw [List.length_cons, List.length_cons, ih middle tail second]

/-- Several operands behind their operation. -/
theorem runTasks_applyAll {items : List Tree} {head : Term}
    (runs : ∀ rest terms, runTasks (items.map .bind ++ rest) terms =
      bindEach items >>= fun made => runTasks rest (made.reverse ++ terms)) :
    runTasks (items.map .bind ++ [.apply (items.length + 1)] ++ rest) (head :: terms) =
      (bindEach items >>= fun made => runTasks rest (head.applyAll made :: terms)) := by
  rw [List.append_assoc, runs]
  funext b
  rw [bind_apply, bind_apply]
  rcases made : bindEach items b with ⟨_ | made, b'⟩
  · rfl
  · dsimp only
    rw [← length_bindEach items b _ b' made]
    exact congrFun (runTasks_apply head _) b'

/-- The items of a list. -/
theorem runTasks_items {items : List Tree}
    (runs : ∀ rest terms, runTasks (items.map .bind ++ rest) terms =
      bindEach items >>= fun made => runTasks rest (made.reverse ++ terms)) :
    runTasks (items.map .bind ++ [.list items.length] ++ rest) terms =
      (bindEach items >>= fun made => runTasks rest (Encoding.list made :: terms)) := by
  rw [List.append_assoc, runs]
  funext b
  rw [bind_apply, bind_apply]
  rcases made : bindEach items b with ⟨_ | made, b'⟩
  · rfl
  · dsimp only
    rw [← length_bindEach items b _ b' made]
    exact congrFun (runTasks_list _) b'

/-- A block, once its statements are bound as they should be. -/
theorem bindNode_block {items : List Tree} {span : Span}
    (bound : ∀ outer, InOnePass outer (bindBlock [] span items) (bindStatements outer [] span items)) :
    bindNode (.sequence items span) = (do return [← (Tree.sequence items span).bind]) := by
  funext b
  rw [bindNode, bind, bind_apply, get_apply]
  dsimp only
  rw [bind_apply, observing_apply, bind_apply, (bound _ b (Nat.le_refl _)).2]
  rcases bindStatements b.locals.length [] span items b with ⟨_ | ⟨statements, last⟩, after⟩
  · rfl
  · dsimp only
    let inner := (after.locals.take (after.locals.length - b.locals.length)).reverse
    rw [bind_apply, splitLocals_apply]
    change (do return [← statements.foldrM (·.around inner) last] : BindM (List Term)) (after.leave b.locals.length) = _
    rw [bind_apply]
    rfl

mutual

/-- A tree on top of the tasks is bound, and its term is put on top of the finished terms. -/
theorem runTasks_bind (t : Tree) (rest : List BindTask) (terms : List Term) :
    runTasks (.bind t :: rest) terms = t.bind >>= fun term => runTasks rest (term :: terms) := by
  match t with
  | .int .. | .char .. | .str .. | .unit _ =>
    refine runTasks_leaf rfl ?_
    rw [bindNode, bind, pure_bind]
  | .name _ | .placeholder _ =>
    refine runTasks_leaf rfl ?_
    rw [bindNode, bind]
  | .data .. | .asPattern .. | .define .. | .declaration _ =>
    refine runTasks_leaf rfl ?_
    rw [bindNode, bind]
    rfl
  | .lambda tag pattern body =>
    refine runTasks_leaf rfl ?_
    rw [bindNode, bind, bindExpr_of (runTasks_bind body)]
  | .sectionOf body span =>
    refine runTasks_leaf rfl ?_
    rw [bindNode, bind, bindExpr_of (runTasks_bind body), bind_assoc]
    rfl
  | .sequence items span =>
    exact runTasks_leaf rfl (bindNode_block fun outer => bindStatements_eq outer [] span items)
  | .apply function argument span =>
    rw [runTasks, bindNode, pure_bind, schedule, bind, bind_assoc]
    rw [List.cons_append, List.nil_append, runTasks_bind function]
    refine bind_congr fun head => ?_
    rw [List.cons_append, runTasks_bind argument, bind_assoc]
    exact bind_congr fun operand => (runTasks_apply head [operand]).trans (pure_bind ..).symm
  | .infixOp operator left right =>
    rw [runTasks, bindNode, schedule, bind, bind_assoc, bind_assoc]
    refine bind_congr fun head => ?_
    rw [pure_bind, List.cons_append, runTasks_bind left, bind_assoc]
    refine bind_congr fun first => ?_
    rw [List.cons_append, runTasks_bind right, bind_assoc]
    exact bind_congr fun second => (runTasks_apply head [first, second]).trans (pure_bind ..).symm
  | .prefixOp operator operand =>
    by_cases marker : (operator.text == "\\") = true
    · rw [runTasks, bindNode, if_pos marker, bind, if_pos marker]
      rfl
    · rw [bind, if_neg marker]
      exact runTasks_applied rfl (by rw [bindNode, if_neg marker]) (runTasks_bind operand)
  | .postfixOp operator operand =>
    rw [bind]
    exact runTasks_applied rfl (by rw [bindNode]) (runTasks_bind operand)
  | .bracket opening closing content =>
    rw [bind]
    exact runTasks_applied rfl (by rw [bindNode]) (runTasks_bind content)
  | .mixfix parts operands =>
    rw [runTasks, bindNode, schedule, bind, bind_assoc, bind_assoc]
    refine bind_congr fun head => ?_
    rw [pure_bind, List.singleton_append, runTasks_applyAll (runTasks_each operands), bind_assoc]
    exact bind_congr fun made => (pure_bind ..).symm
  | .tuple items span | .comma items span =>
    rw [runTasks, bindNode, schedule, bind, pure_bind, bind_assoc, List.singleton_append,
      runTasks_applyAll (runTasks_each items)]
    exact bind_congr fun made => (pure_bind ..).symm
  | .list items span =>
    rw [runTasks, bindNode, schedule, bind, pure_bind, bind_assoc, List.nil_append,
      runTasks_items (runTasks_each items)]
    exact bind_congr fun made => (pure_bind ..).symm

theorem runTasks_each (items : List Tree) (rest : List BindTask) (terms : List Term) :
    runTasks (items.map .bind ++ rest) terms =
      bindEach items >>= fun made => runTasks rest (made.reverse ++ terms) := by
  match items with
  | [] =>
    rw [bindEach, pure_bind]
    rfl
  | t :: others =>
    rw [List.map_cons, List.cons_append, runTasks_bind t, bindEach, bind_assoc]
    refine bind_congr fun term => ?_
    rw [runTasks_each others, bind_assoc]
    refine bind_congr fun made => ?_
    rw [pure_bind, List.reverse_cons, List.append_assoc]
    rfl

theorem bindStatements_eq (outer : Nat) (defined : List (String × Span)) (span : Span) (items : List Tree) :
    InOnePass outer (bindBlock defined span items) (bindStatements outer defined span items) := by
  match items with
  | [] =>
    rw [bindStatements, bindBlock]
    exact .refuse _ _
  | t :: rest =>
    have others (defined : List (String × Span)) :
        InOnePass outer (bindBlock defined span rest) (bindStatements outer defined span rest) :=
      bindStatements_eq outer defined span rest
    cases t with
    | declaration d =>
      rw [bindStatements, bindBlock]
      exact others defined
    | define tag lhs body =>
      have inner : body.bindExpr = body.bind := bindExpr_of (runTasks_bind body)
      rw [bindStatements, bindBlock, inner]
      split
      · exact .refuse _ _
      split
      · exact .refuse _ _
      cases lhs.definitionHead?.filter (·.1.text != "_") with
      | some head =>
        obtain ⟨name, parameters⟩ := head
        refine .bind (distinctNames_settled _ _) fun seen => ?_
        refine .bind (bindDefinition_settled _ _ _ (bind_settled body)) fun value => ?_
        exact (others seen).named name value
      | none =>
        refine .bind (destructuring_settled lhs) fun pattern => ?_
        refine .bind (distinctNames_settled _ _) fun seen => ?_
        refine .bind (bind_settled body) fun value => ?_
        exact (others seen).destructured pattern value
    | _ =>
      rw [bindStatements, bindBlock, bindExpr_of (runTasks_bind _)]
      · split
        · exact .last (bind_settled _)
        · exact .bind (bind_settled _) fun action => (others defined).action action
      all_goals
        intros
        contradiction

end

/-- Binding with a stack of tasks is binding by recursion. -/
theorem bindExpr_eq (t : Tree) : t.bindExpr = t.bind :=
  bindExpr_of (runTasks_bind t)

/-! ### The two stacks -/

/-- The tasks, the finished terms and the binder between two turns of the loop. -/
structure Stage where
  tasks : List BindTask
  terms : List Term
  binder : Binder

/-- One turn of the loop. -/
inductive Turn : Stage → Stage → Prop
  | bind {t : Tree} {rest : List BindTask} {terms started : List Term} {b b' : Binder}
      (node : t.bindNode b = (.ok started, b')) :
      Turn ⟨.bind t :: rest, terms, b⟩ ⟨schedule t ++ rest, started ++ terms, b'⟩
  | apply {count : Nat} {rest : List BindTask} {terms : List Term} {b : Binder} :
      Turn ⟨.apply count :: rest, terms, b⟩ ⟨rest, gather count applied terms, b⟩
  | list {count : Nat} {rest : List BindTask} {terms : List Term} {b : Binder} :
      Turn ⟨.list count :: rest, terms, b⟩ ⟨rest, gather count (fun items => [Encoding.list items]) terms, b⟩

theorem Turn.runTasks_eq {s s' : Stage} (turn : Turn s s') :
    runTasks s.tasks s.terms s.binder = runTasks s'.tasks s'.terms s'.binder := by
  cases turn with
  | bind node => rw [runTasks, bind_apply, node]
  | apply => rw [runTasks]
  | list => rw [runTasks]

theorem runTasks_turns {s s' : Stage} (turns : Relation.ReflTransGen Turn s s') :
    runTasks s.tasks s.terms s.binder = runTasks s'.tasks s'.terms s'.binder := by
  induction turns with
  | refl => rfl
  | tail _ turn ih => exact ih.trans turn.runTasks_eq

/-- A run that ends well takes the loop to its end. -/
theorem turns_of_runTasks (tasks : List BindTask) (terms : List Term) (b : Binder) {made : List Term} {b' : Binder}
    (ran : runTasks tasks terms b = (.ok made, b')) : Relation.ReflTransGen Turn ⟨tasks, terms, b⟩ ⟨[], made, b'⟩ := by
  induction bound : BindTask.weights tasks using Nat.strongRecOn generalizing tasks terms b with
  | ind _ ih =>
    subst bound
    cases tasks with
    | nil =>
      rw [runTasks] at ran
      cases ran
      exact .refl
    | cons task rest =>
      cases task with
      | bind t =>
        rw [runTasks] at ran
        obtain ⟨started, middle, node, ran⟩ := bind_success ran
        refine .head (.bind node) (ih _ ?_ _ _ _ ran rfl)
        have lighter := BindTask.weights_schedule t
        rw [BindTask.weights, BindTask.weights_append, BindTask.weight]
        omega
      | apply count =>
        rw [runTasks] at ran
        refine .head .apply (ih _ ?_ _ _ _ ran rfl)
        rw [BindTask.weights, BindTask.weight]
        omega
      | list count =>
        rw [runTasks] at ran
        refine .head .list (ih _ ?_ _ _ _ ran rfl)
        rw [BindTask.weights, BindTask.weight]
        omega

/-- The number of terms that the tasks leave where there are so many, unless one of them finds too few. -/
def leftBy : List BindTask → Nat → Option Nat
  | [], n => some n
  | .bind _ :: rest, n => leftBy rest (n + 1)
  | .apply count :: rest, n => if 0 < count ∧ count ≤ n then leftBy rest (n - count + 1) else none
  | .list count :: rest, n => if count ≤ n then leftBy rest (n - count + 1) else none

theorem leftBy_map (items : List Tree) (rest : List BindTask) (n : Nat) :
    leftBy (items.map .bind ++ rest) n = leftBy rest (n + items.length) := by
  induction items generalizing n with
  | nil => rfl
  | cons t others ih =>
    rw [List.map_cons, List.cons_append, leftBy, ih, List.length_cons]
    congr 1
    omega

/-- How many terms a node finishes at once. -/
def startsWith : Tree → Nat
  | .apply .. | .list .. => 0
  | _ => 1

theorem length_single {work : BindM Term} {make : Term → Term} {b b' : Binder} {started : List Term}
    (ran : (do return [make (← work)] : BindM (List Term)) b = (.ok started, b')) : started.length = 1 := by
  obtain ⟨term, middle, -, ran⟩ := bind_success ran
  cases ran
  rfl

theorem length_bindNode {t : Tree} {b b' : Binder} {started : List Term} (ran : t.bindNode b = (.ok started, b')) :
    started.length = startsWith t := by
  cases t with
  | sequence items span =>
    rw [bindNode_block fun outer => bindStatements_eq outer [] span items] at ran
    exact length_single ran
  | prefixOp operator operand =>
    rw [bindNode] at ran
    split at ran
    · cases ran
    · exact length_single ran
  | data | asPattern | define | declaration =>
    rw [bindNode] at ran
    cases ran
  | int | str | char | unit | apply | tuple | comma | list =>
    rw [bindNode] at ran
    cases ran
    rfl
  | _ =>
    rw [bindNode] at ran
    exact length_single ran

/-- A node and what it schedules come to one term. -/
theorem leftBy_schedule (t : Tree) (rest : List BindTask) (n : Nat) :
    leftBy (schedule t ++ rest) (startsWith t + n) = leftBy rest (n + 1) := by
  cases t with
  | mixfix _ items | tuple items | comma items | list items =>
    rw [schedule, List.append_assoc, leftBy_map]
    simp only [List.singleton_append, leftBy, startsWith]
    rw [if_pos (by omega)]
    congr 1
    omega
  | apply | infixOp | prefixOp | postfixOp | bracket =>
    simp only [schedule, List.cons_append, List.nil_append, leftBy, startsWith]
    rw [if_pos (by omega)]
    congr 1
    omega
  | _ =>
    simp only [schedule, List.nil_append, startsWith]
    rw [Nat.add_comm]

theorem length_gather {count : Nat} {make : List Term → List Term} {terms : List Term}
    (one : (make (terms.take count).reverse).length = 1) :
    (gather count make terms).length = terms.length - count + 1 := by
  rw [gather, List.length_append, one, List.length_drop, Nat.add_comm]

theorem length_applied {operands : List Term} (some : 0 < operands.length) : (applied operands).length = 1 := by
  cases operands with
  | nil => cases some
  | cons head rest => rfl

/-- Every task finds as many terms as it takes, and one term is left in the end. -/
def Stage.Supplied (s : Stage) : Prop :=
  leftBy s.tasks s.terms.length = some 1

theorem Stage.Supplied.turn {s s' : Stage} (supplied : s.Supplied) (turn : Turn s s') : s'.Supplied := by
  cases turn with
  | bind node =>
    rw [Supplied, List.length_append, length_bindNode node, leftBy_schedule]
    exact supplied
  | apply =>
    rw [Supplied, leftBy] at supplied
    split at supplied
    · next enough =>
      dsimp only at enough
      rw [Supplied, length_gather (length_applied ?_)]
      · exact supplied
      · simp only [List.length_reverse, List.length_take]
        omega
    · cases supplied
  | list =>
    rw [Supplied, leftBy] at supplied
    split at supplied
    · rw [Supplied, length_gather rfl]
      exact supplied
    · cases supplied

theorem Stage.Supplied.turns {s s' : Stage} (supplied : s.Supplied) (turns : Relation.ReflTransGen Turn s s') :
    s'.Supplied := by
  induction turns with
  | refl => exact supplied
  | tail _ turn ih => exact ih.turn turn

/-- The stack of tasks gives the result, the warnings and the marks of the recursion that binds an operation before its
operands and these from left to right. Whenever a task applies terms or makes a list of them, there are as many as it
takes; the loop ends well exactly if the recursion does, and then one term is left, which is that of the recursion. -/
theorem bindExpr_recursive (t : Tree) (b : Binder) :
    t.bindExpr b = t.bind b ∧
      (∀ s, Relation.ReflTransGen Turn ⟨[.bind t], [], b⟩ s →
        (∀ count rest, s.tasks = .apply count :: rest → 0 < count ∧ count ≤ s.terms.length) ∧
        (∀ count rest, s.tasks = .list count :: rest → count ≤ s.terms.length) ∧
        (s.tasks = [] → ∃ term, s.terms = [term] ∧ t.bind b = (.ok term, s.binder))) ∧
      ∀ term b', t.bind b = (.ok term, b') →
        Relation.ReflTransGen Turn ⟨[.bind t], [], b⟩ ⟨[], [term], b'⟩ := by
  have start : Stage.Supplied ⟨[.bind t], [], b⟩ := rfl
  have whole : runTasks [.bind t] [] = (do return [← t.bind]) := by
    rw [runTasks_bind]
    exact bind_congr fun term => by rw [runTasks]
  refine ⟨by rw [bindExpr_eq], fun s reached => ?_, fun term b' bound => ?_⟩
  · have supplied := start.turns reached
    have same : runTasks [.bind t] [] b = runTasks s.tasks s.terms s.binder := runTasks_turns reached
    obtain ⟨tasks, terms, after⟩ := s
    refine ⟨?_, ?_, ?_⟩
    · rintro count rest rfl
      rw [Stage.Supplied, leftBy] at supplied
      split at supplied
      · assumption
      · cases supplied
    · rintro count rest rfl
      rw [Stage.Supplied, leftBy] at supplied
      split at supplied
      · assumption
      · cases supplied
    · rintro rfl
      obtain ⟨term, rfl⟩ := List.length_eq_one_iff.1 (Option.some.inj supplied)
      rw [whole, bind_apply, runTasks] at same
      refine ⟨term, rfl, ?_⟩
      rcases outcome : t.bind b with ⟨_ | made, b'⟩
      · rw [outcome] at same
        cases same
      · rw [outcome] at same
        cases same
        rfl
  · refine turns_of_runTasks _ _ _ ?_
    rw [whole, bind_apply, bound]
    rfl

end Tree

end MixfixLambda
