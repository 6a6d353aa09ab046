import MixfixLambda.Bind.Module
import MixfixLambda.Proofs.Success

/-!
# The prelude binds

The prelude is read by the same parser and binder as every module. That it binds is a fact about one text,
found by evaluation, and from it follows that no module is refused for what the prelude says. The same
evaluation binds a small module on top.
-/
namespace MixfixLambda

/-- Reads a text by its characters. -/
def parseChars (text : List Char) (origin : Origin) : Except ParseError Tree :=
  match (Parser.start .default origin).run (Lexer.ofChars text).lexemes with
  | .ok (tree, _) => .ok tree
  | .error refusal => .error refusal.error

theorem parse_eq_parseChars (text : String) (origin : Origin) :
    parse text origin = parseChars text.toList origin :=
  rfl

namespace Prelude

/-- The characters of the prelude line by line. To take the text apart as a whole is slow. -/
def chars : List Char :=
  List.intercalate ['\n'] (lines.map String.toList) ++ ['\n']

theorem toList_text : text.toList = chars := by
  simp [text, chars, String.toList_append, String.toList_intercalate]

/-- Texts by their characters. -/
inductive CharsOf : List String → List (List Char) → Prop
  | nil : CharsOf [] []
  | cons (chars : List Char) {texts : List String} {others : List (List Char)} (rest : CharsOf texts others) :
      CharsOf (String.ofList chars :: texts) (chars :: others)

theorem CharsOf.map_toList {texts : List String} {each : List (List Char)} (found : CharsOf texts each) :
    texts.map String.toList = each := by
  induction found with
  | nil => rfl
  | cons chars rest ih => rw [List.map_cons, ih, String.toList_ofList]

/-- The lines of the prelude by their characters. Unification finds these, while evaluation has to decode them. -/
def lineChars : { each : List (List Char) // CharsOf lines each } :=
  ⟨_, by unfold lines; repeat constructor⟩

theorem chars_eq : chars = List.intercalate ['\n'] lineChars.1 ++ ['\n'] := by
  rw [chars, lineChars.2.map_toList]

theorem binder_eq : binder = Binder.ofSource (parseChars chars .prelude) := by
  rw [binder, tree, parse_eq_parseChars, toList_text]

end Prelude

theorem bindModule_eq (text : String) :
    bindModule text = bindOn (Binder.ofSource (parseChars Prelude.chars .prelude)) text := by
  rw [bindModule, Prelude.binder_eq]

/-- A module with a constant that is needed twice. -/
def squareSource : String :=
  "x = 1 + 2\nx * x"

/-- The entry of that module: the product of the constant with itself. -/
def squareEntry : Term :=
  .app (.app (.builtin .mul ⟨"*", ⟨12, 13⟩, .module⟩) (.global 28 ⟨"x", ⟨10, 11⟩, .module⟩))
    (.global 28 ⟨"x", ⟨14, 15⟩, .module⟩)

/-- The definition of the constant. -/
def squareConstant : Term :=
  .app (.app (.builtin .add ⟨"+", ⟨6, 7⟩, .module⟩) (.int 1)) (.int 2)

/-- Whether a module is that one. -/
def Module.isSquare (m : Module) : Bool :=
  m.entry.term == squareEntry && (m.globals[28]?).map Global.term == some squareConstant

theorem bindOn_square :
    (bindOn (Binder.ofSource (parseChars Prelude.chars .prelude)) squareSource).result.toOption.any
      Module.isSquare = true := by
  rw [Prelude.chars_eq]
  decide +kernel

theorem bindModule_square : ∃ m, (bindModule squareSource).result = .ok m ∧
    m.entry.term = squareEntry ∧ ∃ tag, m.globals[28]? = some ⟨tag, squareConstant⟩ := by
  have evaluated := bindOn_square
  rw [← bindModule_eq] at evaluated
  obtain ⟨m, bound, square⟩ := exists_ok_of_any evaluated
  rw [Module.isSquare, Bool.and_eq_true, beq_iff_eq, beq_iff_eq, Option.map_eq_some_iff] at square
  obtain ⟨entry, ⟨tag, term⟩, found, same⟩ := square
  refine ⟨m, bound, entry, tag, ?_⟩
  rw [found]
  exact congrArg (fun term => some (Global.mk tag term)) same

/-- A prelude that is refused refuses every module. -/
theorem bindOn_error {prelude : Except SourceError Binder} {text : String} {e : SourceError}
    (refused : prelude = .error e) : (bindOn prelude text).result = .error e := by
  rw [refused]
  rfl

theorem bindOn_inPrelude {prelude : Except SourceError Binder} {text : String} {b : Binder}
    (binds : prelude = .ok b) : (bindOn prelude text).inPrelude = false := by
  rw [binds]
  unfold bindOn
  dsimp only
  split
  · rfl
  · split <;> rfl

/-- The prelude is never why a module does not bind. -/
theorem bindModule_inPrelude (text : String) : (bindModule text).inPrelude = false := by
  have evaluated := bindOn_square
  cases prelude : Binder.ofSource (parseChars Prelude.chars .prelude) with
  | error e =>
    rw [bindOn_error prelude] at evaluated
    cases evaluated
  | ok b =>
    rw [bindModule_eq]
    exact bindOn_inPrelude prelude

end MixfixLambda
