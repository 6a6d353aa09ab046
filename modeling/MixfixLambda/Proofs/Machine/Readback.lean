import Mathlib.Data.List.Induction
import MixfixLambda.Machine.Readback
import MixfixLambda.Proofs.Term.Scope

/-!
# What printed values say

The text of a value, said as rules over the graph of thunks: abstractions in a row share one arrow, applications in a
row one pair of parentheses, and a variable that is not bound in the term is read back. A derivation of the rules is a
printing that ends, so that one for every value, with one text, says that printing ends on every graph, be it cyclic.
-/
namespace MixfixLambda

namespace Readback

/-- The closure that a variable stands for, if there is one. -/
def closure? (heap : Heap) (locals : Env) (index : Nat) : Option Closure :=
  (locals[index]?).bind (heap[·]?)

/-- A term is printed as a text, inside so many values that have been read back and beneath so many abstractions of its
own. -/
inductive Prints (heap : Heap) : Nat → Env → Nat → Term → String → Prop
  | int {nesting : Nat} {locals : Env} {bound : Nat} (n : Int) :
      Prints heap nesting locals bound (.int n) (toString n)
  | builtin {nesting : Nat} {locals : Env} {bound : Nat} (operation : Builtin) (tag : Tag) :
      Prints heap nesting locals bound (.builtin operation tag) operation.render
  | global {nesting : Nat} {locals : Env} {bound : Nat} (index : Nat) (tag : Tag) :
      Prints heap nesting locals bound (.global index tag) tag.asValue
  | own {nesting : Nat} {locals : Env} {bound depth : Nat} {tag : Tag} (inside : depth < bound) :
      Prints heap nesting locals bound (.var depth tag) tag.asValue
  | unbound {nesting : Nat} {locals : Env} {bound depth : Nat} {tag : Tag} (outside : bound ≤ depth)
      (missing : closure? heap locals (depth - bound) = none) :
      Prints heap nesting locals bound (.var depth tag) tag.asValue
  | value {nesting : Nat} {locals : Env} {bound depth : Nat} {tag : Tag} {c : Closure} {text : String}
      (outside : bound ≤ depth) (found : closure? heap locals (depth - bound) = some c) (done : c.state = .done)
      (shallow : nesting < limit) (inner : Prints heap (nesting + 1) c.locals 0 c.term text) :
      Prints heap nesting locals bound (.var depth tag) text
  | deep {nesting : Nat} {locals : Env} {bound depth : Nat} {tag : Tag} {c : Closure} (outside : bound ≤ depth)
      (found : closure? heap locals (depth - bound) = some c) (done : c.state = .done) (deep : limit ≤ nesting) :
      Prints heap nesting locals bound (.var depth tag) tag.asValue
  | thunk {nesting : Nat} {locals : Env} {bound depth : Nat} {tag : Tag} {c : Closure} (outside : bound ≤ depth)
      (found : closure? heap locals (depth - bound) = some c) (waits : c.state ≠ .done) :
      Prints heap nesting locals bound (.var depth tag) "<thunk>"
  | lams {nesting : Nat} {locals : Env} {bound : Nat} {tags : List Tag} {body : Term} {text : String}
      (some : tags ≠ []) (last : ∀ tag inner, body ≠ .lam tag inner)
      (inner : Prints heap nesting locals (bound + tags.length) body text) :
      Prints heap nesting locals bound (.lams tags body)
        ("(\\" ++ " ".intercalate (tags.map Tag.asValue) ++ " -> " ++ text ++ ")")
  | apps {nesting : Nat} {locals : Env} {bound : Nat} {head : Term} {arguments : List Term} {text : String}
      {texts : List String} (some : arguments ≠ []) (first : ∀ left right, head ≠ .app left right)
      (front : Prints heap nesting locals bound head text) (same : arguments.length = texts.length)
      (each : ∀ part ∈ arguments.zip texts, Prints heap nesting locals bound part.1 part.2) :
      Prints heap nesting locals bound (head.applyAll arguments) ("(" ++ " ".intercalate (text :: texts) ++ ")")

/-- What prints the values of closures that may still be nested so many times. -/
def closing (heap : Heap) : Nat → Closure → Option String
  | 0, _ => none
  | left + 1, c => some (render heap left c.locals c.term)

theorem render_eq (heap : Heap) (left : Nat) (locals : Env) (t : Term) :
    render heap left locals t = renderAt heap (closing heap left) locals 0 .alone t := by
  cases left <;> rfl

theorem intercalate_cons (text : String) (texts : List String) :
    " ".intercalate (text :: texts) = text ++ String.join (texts.map (" " ++ ·)) := by
  induction texts generalizing text with
  | nil => simp
  | cons next texts ih => simp [String.intercalate_cons_cons, ih, String.append_assoc]

section Places

variable {heap : Heap} {value : Closure → Option String} {locals : Env} {bound : Nat} {t : Term}

variable (heap value locals bound) in
/-- What stands for a variable needs no parentheses. -/
theorem renderAt_var (depth : Nat) (tag : Tag) :
    ∃ text, ∀ place, renderAt heap value locals bound place (.var depth tag) = place.leaf text := by
  refine ⟨renderAt heap value locals bound .alone (.var depth tag), fun place => ?_⟩
  unfold renderAt
  split
  · rfl
  · split
    · rfl
    · split <;> rfl

theorem renderAt_head (simple : ∀ left right, t ≠ .app left right) :
    renderAt heap value locals bound .head t = renderAt heap value locals bound .alone t := by
  cases t with
  | app left right => exact absurd rfl (simple left right)
  | var depth tag =>
    obtain ⟨text, placed⟩ := renderAt_var heap value locals bound depth tag
    rw [placed, placed]
    rfl
  | _ => rfl

theorem renderAt_body (simple : ∀ tag body, t ≠ .lam tag body) :
    renderAt heap value locals bound .body t = " -> " ++ renderAt heap value locals bound .alone t ++ ")" := by
  cases t with
  | lam tag body => exact absurd rfl (simple tag body)
  | var depth tag =>
    obtain ⟨text, placed⟩ := renderAt_var heap value locals bound depth tag
    rw [placed, placed]
    rfl
  | app left right =>
    simp only [renderAt, Place.application]
    rw [show " -> (" = " -> " ++ "(" from rfl, show "))" = ")" ++ ")" from rfl]
    simp only [String.append_assoc]
  | _ => rfl

/-- Abstractions in a row. -/
theorem renderAt_lams (tags : List Tag) (simple : ∀ tag body, t ≠ .lam tag body) :
    renderAt heap value locals bound .body (.lams tags t) = String.join (tags.map (" " ++ ·.asValue)) ++ " -> " ++
      renderAt heap value locals (bound + tags.length) .alone t ++ ")" := by
  induction tags generalizing bound with
  | nil => simpa [Term.lams] using renderAt_body simple
  | cons tag tags ih =>
    have inner : renderAt heap value locals (bound + 1) .body (.lams tags t) = _ := ih
    rw [Nat.add_right_comm, Nat.add_assoc] at inner
    change " " ++ tag.asValue ++ renderAt heap value locals (bound + 1) .body (.lams tags t) = _
    rw [inner, List.map_cons, String.join_cons, List.length_cons]
    simp only [String.append_assoc]

theorem renderAt_lam (tag : Tag) (tags : List Tag) (simple : ∀ tag body, t ≠ .lam tag body) :
    renderAt heap value locals bound .alone (.lams (tag :: tags) t) =
      "(\\" ++ " ".intercalate ((tag :: tags).map Tag.asValue) ++ " -> " ++
        renderAt heap value locals (bound + (tag :: tags).length) .alone t ++ ")" := by
  have inner : renderAt heap value locals (bound + 1) .body (.lams tags t) = _ := renderAt_lams tags simple
  rw [Nat.add_right_comm, Nat.add_assoc] at inner
  change "(\\" ++ tag.asValue ++ renderAt heap value locals (bound + 1) .body (.lams tags t) = _
  rw [inner, List.map_cons, intercalate_cons, List.map_map, List.length_cons]
  simp only [String.append_assoc, Function.comp_def]

/-- Applications in a row. -/
theorem renderAt_applyAll {head : Term} (simple : ∀ left right, head ≠ .app left right) (arguments : List Term) :
    renderAt heap value locals bound .head (head.applyAll arguments) =
      " ".intercalate ((head :: arguments).map (renderAt heap value locals bound .alone)) := by
  induction arguments using List.reverseRecOn with
  | nil => simpa [Term.applyAll] using renderAt_head simple
  | append_singleton arguments last ih =>
    have split : head.applyAll (arguments ++ [last]) = .app (head.applyAll arguments) last := by
      simp [Term.applyAll]
    rw [split, ← List.cons_append, List.map_append, String.intercalate_append_of_ne_nil (by simp) (by simp), ← ih]
    simp [renderAt, Place.application, String.append_assoc]

theorem renderAt_app {head : Term} (simple : ∀ left right, head ≠ .app left right) {arguments : List Term}
    (some : arguments ≠ []) : renderAt heap value locals bound .alone (head.applyAll arguments) =
      "(" ++ " ".intercalate ((head :: arguments).map (renderAt heap value locals bound .alone)) ++ ")" := by
  rw [← renderAt_applyAll simple]
  rcases List.eq_nil_or_concat arguments with rfl | ⟨front, last, rfl⟩
  · exact absurd rfl some
  · simp [Term.applyAll, renderAt, Place.application]

end Places

/-- The rules give no text but that of the printer. -/
theorem Prints.eq_render {heap : Heap} {nesting : Nat} {locals : Env} {bound : Nat} {t : Term} {text : String}
    (prints : Prints heap nesting locals bound t text) :
    text = renderAt heap (closing heap (limit - nesting)) locals bound .alone t := by
  induction prints with
  | int | builtin | global => rfl
  | own inside => simp [renderAt, inside, Place.leaf]
  | unbound outside missing =>
    rw [closure?] at missing
    simp [renderAt, Nat.not_lt.2 outside, missing, Place.leaf]
  | @value nesting locals bound depth tag c text outside found done shallow inner ih =>
    rw [closure?] at found
    have less : limit - nesting = (limit - (nesting + 1)) + 1 := by omega
    rw [← render_eq] at ih
    simp [renderAt, Nat.not_lt.2 outside, found, done, less, closing, Place.leaf, ih]
  | deep outside found done deep =>
    rw [closure?] at found
    simp [renderAt, Nat.not_lt.2 outside, found, done, Nat.sub_eq_zero_of_le deep, closing, Place.leaf]
  | @thunk nesting locals bound depth tag c outside found waits =>
    rw [closure?] at found
    cases state : c.state with
    | done => exact absurd state waits
    | pending | running => simp [renderAt, Nat.not_lt.2 outside, found, state, Place.leaf]
  | @lams nesting locals bound tags body text some last inner ih =>
    cases tags with
    | nil => exact absurd rfl some
    | cons tag tags => rw [renderAt_lam tag tags last, ih]
  | @apps nesting locals bound head arguments text texts some first front same each ihFront ihEach =>
    have rest : texts = arguments.map (renderAt heap (closing heap (limit - nesting)) locals bound .alone) := by
      calc texts = (arguments.zip texts).map Prod.snd := (List.map_snd_zip (Nat.le_of_eq same.symm)).symm
        _ = (arguments.zip texts).map
              (renderAt heap (closing heap (limit - nesting)) locals bound .alone ∘ Prod.fst) :=
            List.map_congr_left ihEach
        _ = _ := by rw [← List.map_map, List.map_fst_zip (Nat.le_of_eq same)]
    rw [renderAt_app first some, List.map_cons, ← ihFront, ← rest]

/-- A term is printed, and so are the parts of it that share an arrow or parentheses with it: the body behind the
abstractions it starts with, and the head and the arguments of the applications. -/
structure Printed (heap : Heap) (nesting : Nat) (locals : Env) (bound : Nat) (t : Term) : Prop where
  whole : ∃ text, Prints heap nesting locals bound t text
  chain : ∃ tags body text, t = .lams tags body ∧ (∀ tag inner, body ≠ .lam tag inner) ∧
    Prints heap nesting locals (bound + tags.length) body text
  spine : ∃ (head : Term) (arguments : List Term) (text : String) (texts : List String),
    t = head.applyAll arguments ∧ (∀ left right, head ≠ .app left right) ∧
      Prints heap nesting locals bound head text ∧ arguments.length = texts.length ∧
      ∀ part ∈ arguments.zip texts, Prints heap nesting locals bound part.1 part.2

section Printed

variable {heap : Heap} {nesting : Nat} {locals : Env} {bound : Nat}

theorem Printed.leaf {t : Term} {text : String} (prints : Prints heap nesting locals bound t text)
    (last : ∀ tag inner, t ≠ .lam tag inner) (first : ∀ left right, t ≠ .app left right) :
    Printed heap nesting locals bound t :=
  ⟨⟨text, prints⟩, ⟨[], t, text, rfl, last, prints⟩, ⟨t, [], text, [], rfl, first, prints, rfl, by simp⟩⟩

theorem Printed.lam {tag : Tag} {body : Term} (inner : Printed heap nesting locals (bound + 1) body) :
    Printed heap nesting locals bound (.lam tag body) := by
  obtain ⟨tags, last, text, rfl, simple, prints⟩ := inner.chain
  rw [Nat.add_right_comm, Nat.add_assoc] at prints
  have whole : Prints heap nesting locals bound (.lams (tag :: tags) last) _ := .lams (by simp) simple prints
  exact ⟨⟨_, whole⟩, ⟨tag :: tags, last, text, rfl, simple, prints⟩,
    ⟨_, [], _, [], rfl, fun _ _ => Term.noConfusion, whole, rfl, by simp⟩⟩

theorem Printed.app {left right : Term} (function : Printed heap nesting locals bound left)
    (argument : Printed heap nesting locals bound right) : Printed heap nesting locals bound (.app left right) := by
  obtain ⟨head, arguments, text, texts, rfl, first, front, same, each⟩ := function.spine
  obtain ⟨last, behind⟩ := argument.whole
  have split : (head.applyAll arguments).app right = head.applyAll (arguments ++ [right]) := by
    simp [Term.applyAll]
  have lengths : (arguments ++ [right]).length = (texts ++ [last]).length := by simp [same]
  have parts : ∀ part ∈ (arguments ++ [right]).zip (texts ++ [last]),
      Prints heap nesting locals bound part.1 part.2 := by
    intro part member
    rw [List.zip_append same, List.mem_append] at member
    rcases member with member | member
    · exact each part member
    · obtain rfl := List.mem_singleton.1 member
      exact behind
  have whole := Prints.apps (by simp) first front lengths parts
  rw [← split] at whole
  exact ⟨⟨_, whole⟩, ⟨[], _, _, rfl, fun _ _ => Term.noConfusion, whole⟩,
    ⟨head, _, text, _, split, first, front, lengths, parts⟩⟩

/-- Every term is printed if the values that its variables stand for are. -/
theorem printed_of_closures
    (closures : nesting < limit → ∀ c : Closure, ∃ text, Prints heap (nesting + 1) c.locals 0 c.term text)
    (bound : Nat) (t : Term) : Printed heap nesting locals bound t := by
  induction t generalizing bound with
  | int n => exact .leaf (.int n) nofun nofun
  | builtin operation tag => exact .leaf (.builtin operation tag) nofun nofun
  | global index tag => exact .leaf (.global index tag) nofun nofun
  | lam tag body ih => exact .lam (ih (bound + 1))
  | app left right ihl ihr => exact .app (ihl bound) (ihr bound)
  | var depth tag =>
    by_cases inside : depth < bound
    · exact .leaf (.own inside) nofun nofun
    have outside : bound ≤ depth := Nat.le_of_not_lt inside
    cases found : closure? heap locals (depth - bound) with
    | none => exact .leaf (.unbound outside found) nofun nofun
    | some c =>
      by_cases done : c.state = .done
      · by_cases shallow : nesting < limit
        · obtain ⟨text, inner⟩ := closures shallow c
          exact .leaf (.value outside found done shallow inner) nofun nofun
        · exact .leaf (.deep outside found done (Nat.le_of_not_lt shallow)) nofun nofun
      · exact .leaf (.thunk outside found done) nofun nofun

end Printed

/-- Printing ends, on cyclic graphs too: what is left of the limit counts down from value to value, and inside one value
the terms get smaller. -/
theorem exists_prints (heap : Heap) (nesting : Nat) (locals : Env) (bound : Nat) (t : Term) :
    ∃ text, Prints heap nesting locals bound t text := by
  induction left : limit - nesting generalizing nesting locals bound t with
  | zero => exact (printed_of_closures (fun shallow => by omega) bound t).whole
  | succ left ih => exact (printed_of_closures (fun _ c => ih (nesting + 1) c.locals 0 c.term (by omega)) bound t).whole

/-- A term none of whose variables is read back is printed as it stands. -/
theorem renderAt_eq {heap : Heap} {value : Closure → Option String} {locals : Env} {bound : Nat} {t : Term}
    (named : ∀ count depth tag, (Term.var depth tag).Beneath count t →
      depth < bound + count ∨ closure? heap locals (depth - (bound + count)) = none) (place : Place) :
    renderAt heap value locals bound place t = t.renderAt place := by
  induction t generalizing bound place with
  | int | builtin | global => rfl
  | var depth tag =>
    rcases named 0 depth tag (.here _) with inside | missing
    · simp [renderAt, Term.renderAt, show depth < bound from inside]
    · rw [closure?, Nat.add_zero] at missing
      simp [renderAt, Term.renderAt, missing]
  | lam tag body ih =>
    rw [renderAt, Term.renderAt, ih]
    intro count depth other occurs
    have outer := named (count + 1) depth other (.body tag occurs)
    rwa [← Nat.add_assoc, Nat.add_right_comm] at outer
  | app left right ihl ihr =>
    rw [renderAt, Term.renderAt, ihl fun count depth tag occurs => named count depth tag (.left right occurs),
      ihr fun count depth tag occurs => named count depth tag (.right left occurs)]

end Readback

open Readback

/-- A value whose term binds all of its variables itself is printed as the term, whatever its environment holds, and so
is every term without an environment. On every graph of thunks printing ends, with the text that the rules give: a
variable that is not bound in the term shows the value of its thunk, its name inside so many values that the limit is
reached or where it stands for nothing, and `<thunk>` where there is no value yet. -/
theorem Value.render_prints (heap : Heap) (v : Value) :
    ((∀ count depth tag, (Term.var depth tag).Beneath count v.term → depth < count) → v.render heap = v.term.render) ∧
      (v.locals = [] → v.render heap = v.term.render) ∧
      ∀ text, Prints heap 0 v.locals 0 v.term text ↔ v.render heap = text := by
  have placed : v.render heap = renderAt heap (closing heap limit) v.locals 0 .alone v.term := render_eq ..
  refine ⟨fun own => ?_, fun empty => ?_, fun text => ⟨fun prints => ?_, ?_⟩⟩
  · rw [placed]
    exact renderAt_eq (fun count depth tag occurs => .inl (by rw [Nat.zero_add]; exact own count depth tag occurs)) .alone
  · rw [placed, empty]
    exact renderAt_eq (fun _ _ _ _ => .inr rfl) .alone
  · rw [placed]
    exact prints.eq_render.symm
  · rintro rfl
    obtain ⟨text, prints⟩ := exists_prints heap 0 v.locals 0 v.term
    rw [placed]
    exact prints.eq_render ▸ prints

/-- A thunk whose value holds the thunk itself. -/
def knot : Heap :=
  #[⟨.app (.builtin .add (.synthetic "+")) (Builtin.v 0 "x"), [0], .empty, .done⟩]

/-- `\y -> y x` -/
def tied : Term :=
  .lam (.synthetic "y") (.app (Builtin.v 0 "y") (Builtin.v 1 "x"))

theorem Value.render_prints_knot :
    (∀ count depth tag, (Term.var depth tag).Beneath count Machine.identity → depth < count) ∧
      Value.render knot ⟨Machine.identity, [0]⟩ = "(\\x -> x)" ∧
      Value.render knot ⟨tied, []⟩ = "(\\y -> (y x))" ∧
      Prints knot 0 [0] 0 tied ("(\\y -> (y " ++ String.join (List.replicate 16 "((+) ") ++ "x"
        ++ String.join (List.replicate 16 ")") ++ "))") := by
  have own : ∀ count depth tag, (Term.var depth tag).Beneath count Machine.identity → depth < count := by
    intro count depth tag occurs
    cases occurs with
    | body binder inner =>
      cases inner
      exact Nat.zero_lt_one
  refine ⟨own, ?_, ?_, ?_⟩
  · exact (render_prints knot ⟨Machine.identity, [0]⟩).1 own
  · exact (render_prints knot ⟨tied, []⟩).2.1 rfl
  · exact ((render_prints knot ⟨tied, [0]⟩).2.2 _).2 (by decide +kernel)

end MixfixLambda
