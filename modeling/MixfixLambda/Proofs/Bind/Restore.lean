import Mathlib.Data.List.Forall2
import MixfixLambda.Bind.Module
import MixfixLambda.Proofs.Bind.Tasks

/-!
# What binding leaves behind

However it ends, binding a source leaves the variables in scope that were there before, with their marks and maybe more
of them, and an expression leaves the tables of globals alone as well. Since binding reads neither marks nor warnings,
a later source means the same behind it.
-/
namespace MixfixLambda

namespace BindM

variable {α : Type} {defines : Prop}

/-- Reading what can be seen in the view. -/
theorem get_settled {next : Binder → BindM α} (seen : Binder.View → BindM α) (same : ∀ b, next b = seen b.view)
    (each : ∀ view, (seen view).Settled defines) : ((get : BindM Binder) >>= next).Settled defines := by
  intro view
  obtain ⟨e, kept, effect⟩ := each view view
  refine ⟨e, kept, fun b known => ?_⟩
  rw [bind_apply, get_apply]
  dsimp only
  rw [same, known]
  exact effect b known

end BindM

open BindM

namespace Binder

theorem checkGlobalName_settled {defines : Prop} (tag : Tag) : (checkGlobalName tag).Settled defines := by
  unfold checkGlobalName
  split
  · exact refuse_settled _ _
  · refine get_settled (fun view => ((view.indexOf? tag.text).bind (view.globals[·]?)).elim (pure ()) fun other =>
      if other.tag.origin == .prelude && tag.origin == .module then warn .shadowedPrelude tag.text tag.span
      else refuse (.redefinition tag.text (some other.tag.span)) tag.span) (fun b => ?_) fun view => ?_
    · change _ = ((b.indexOf? tag.text).bind (b.globals[·]?)).elim _ _
      cases (b.indexOf? tag.text).bind (b.globals[·]?) <;> rfl
    · cases (view.indexOf? tag.text).bind (view.globals[·]?) with
      | none => exact .pure _
      | some other =>
        rw [Option.elim_some]
        split
        · exact warn_settled _ _ _
        · exact refuse_settled _ _

theorem addGlobal_settled (tag : Tag) (term : Term) : (addGlobal tag term).Settled True := by
  intro view
  refine ⟨⟨.ok (), view.globals.push ⟨tag, term⟩, (tag.text, view.globals.size) :: view.names, fun _ => false, []⟩,
    fun fixed => absurd trivial fixed, fun b known => ?_⟩
  subst known
  simp only [after, Local.mark_none]
  rfl

theorem addChecked_settled (tag : Tag) (term : Term) : (addChecked tag term).Settled True :=
  (checkGlobalName_settled tag).bind fun _ => addGlobal_settled tag term

theorem defineGlobal_settled (lhs body : Tree) : (defineGlobal lhs body).Settled True := by
  unfold defineGlobal
  split
  · exact refuse_settled _ _
  · split
    · exact refuse_settled _ _
    · refine (checkGlobalName_settled _).bind fun _ => ?_
      exact (bindDefinition_settled _ _ _ body.bind_settled).bind fun term => addGlobal_settled _ term

theorem constructorOf_settled (alternative : Tree) : (constructorOf alternative).Settled True := by
  unfold constructorOf
  split
  · split
    · exact refuse_settled _ _
    · exact .pure _
  · exact refuse_settled _ _

theorem defineType_settled (lhs : Tree) (alternatives : List Tree) : (defineType lhs alternatives).Settled True := by
  unfold defineType
  split
  · exact refuse_settled _ _
  · refine (mapM_settled constructorOf_settled _).bind fun constructors => ?_
    refine (addChecked_settled _ _).bind fun _ => ?_
    refine (forIn_settled (fun _ _ => ?_) _).bind fun _ => ?_
    · exact (addChecked_settled _ _).bind fun _ => .pure _
    · refine (forIn_settled (fun _ _ => ?_) _).bind fun _ => .pure _
      exact (addChecked_settled _ _).bind fun _ => .pure _

theorem bindItem_settled (item : Tree) : (bindItem item).Settled True := by
  cases item with
  | declaration d => exact .pure _
  | define tag lhs body =>
    unfold bindItem
    dsimp only
    split
    · exact (defineType_settled lhs _).bind fun _ => .pure _
    · exact (defineGlobal_settled lhs body).bind fun _ => .pure _
  | _ => exact Settled.bind (Tree.bind_settled _) fun _ => .pure _

/-- The effect of binding a whole source is settled by the view. -/
theorem bindItems_settled (program : Tree) : (bindItems program).Settled True :=
  (mapM_settled bindItem_settled (topItems program)).bind fun _ => .pure _

end Binder

/-- The same variables, with the marks that they had and maybe more. -/
def Local.Marked (before after : List Local) : Prop :=
  List.Forall₂ (fun l l' => l'.tag = l.tag ∧ (l.used = true → l'.used = true)) before after

theorem Local.mark_marked (chosen : Nat → Bool) (locals : List Local) : Marked locals (mark chosen locals) := by
  rw [Marked, List.forall₂_iff_get]
  refine ⟨(length_mark chosen locals).symm, fun depth _ _ => ?_⟩
  simp only [mark, List.get_eq_getElem, List.getElem_mapIdx]
  exact ⟨trivial, fun used => by rw [used, Bool.true_or]⟩

namespace Binder

/-- A later source means the same on both binders: it has the same result, leaves the same tables, and adds the same
warnings. -/
def Alike (b c : Binder) : Prop :=
  ∀ later : Tree, (bindItems later b).1 = (bindItems later c).1 ∧
    (bindItems later b).2.globals = (bindItems later c).2.globals ∧
    (bindItems later b).2.names = (bindItems later c).2.names ∧
    ∃ new, (bindItems later b).2.warnings = new ++ b.warnings ∧ (bindItems later c).2.warnings = new ++ c.warnings

/-- Binders that look the same are alike, whatever marks and warnings they have. -/
theorem alike_of_view {b c : Binder} (same : b.view = c.view) : b.Alike c := by
  intro later
  obtain ⟨e, -, effect⟩ := bindItems_settled later c.view
  rw [effect b same, effect c rfl]
  exact ⟨rfl, rfl, rfl, e.warnings, rfl, rfl⟩

/-- How an expression leaves the binder behind. -/
structure Restored (b after : Binder) : Prop where
  locals : Local.Marked b.locals after.locals
  globals : after.globals = b.globals
  names : after.names = b.names
  later : b.Alike after

theorem restored_of_settled {work : BindM Term} (settled : work.Settled False) (b : Binder) :
    b.Restored (work b).2 := by
  obtain ⟨e, still, effect⟩ := settled b.view
  obtain ⟨globals, names⟩ := still id
  rw [effect b rfl]
  refine ⟨Local.mark_marked e.used b.locals, globals, names, alike_of_view ?_⟩
  rw [view_after, globals, names]

/-- However binding ends, the variables in scope are those that were there before, with nothing but marks added. An
expression, bound by recursion or with the stack of tasks, also leaves the tables and the meaning of later sources
alone. Behind a source that was given up, later sources mean what they mean behind any other way to the same tables. -/
theorem bindItems_restores (t : Tree) (b : Binder) :
    b.Restored (t.bind b).2 ∧ b.Restored (t.bindExpr b).2 ∧
      Local.Marked b.locals (bindItems t b).2.locals ∧
      ∀ c : Binder, c.globals = (bindItems t b).2.globals → c.names = (bindItems t b).2.names →
        c.locals.map Local.tag = b.locals.map Local.tag → c.Alike (bindItems t b).2 := by
  obtain ⟨e, -, effect⟩ := bindItems_settled t b.view
  refine ⟨restored_of_settled t.bind_settled b, ?_, ?_, fun c globals names scope => alike_of_view ?_⟩
  · rw [Tree.bindExpr_eq]
    exact restored_of_settled t.bind_settled b
  · rw [effect b rfl]
    exact Local.mark_marked e.used b.locals
  · rw [effect b rfl] at globals names ⊢
    rw [view_after, view, globals, names, scope]
    rfl

end Binder

end MixfixLambda
