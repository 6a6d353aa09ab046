import MixfixLambda.Proofs.Bind.Module
import MixfixLambda.Proofs.Bind.Prelude

/-!
# Variables and references of bound modules

What the scopes of a module say of single occurrences. Beneath so many abstractions a variable reaches one
of them, and a reference inside a definition is to an earlier one, so that no definition can be reached
from itself through the table.
-/
namespace MixfixLambda

/-- In a module that binds, every variable lies beneath its binder, definitions refer to earlier
definitions, and the entry refers to definitions that there are. -/
theorem bindModule_occurrences {text : String} {m : Module} (bound : (bindModule text).result = .ok m)
    (count : Nat) :
    (∀ (place : Nat) (definition : Global), m.globals[place]? = some definition →
      (∀ index tag, (Term.var index tag).Beneath count definition.term → index < count) ∧
        ∀ index tag, (Term.global index tag).Beneath count definition.term → index < place) ∧
      (∀ index tag, (Term.var index tag).Beneath count m.entry.term → index < count) ∧
        ∀ index tag, (Term.global index tag).Beneath count m.entry.term → index < m.globals.size := by
  have wellScoped := bindModule_wellScoped bound
  exact ⟨fun place definition found => (wellScoped.globals place definition found).occurrences,
    wellScoped.entry.occurrences⟩

theorem bindModule_occurrences_square : ∃ m definition, (bindModule squareSource).result = .ok m ∧
    m.globals[28]? = some definition ∧
    (∀ index tag, (Term.global index tag).Beneath 0 definition.term → index < 28) ∧
    ∀ index tag, (Term.global index tag).Beneath 0 m.entry.term → index < m.globals.size := by
  obtain ⟨m, bound, -, tag, found⟩ := bindModule_square
  have occurrences := bindModule_occurrences bound 0
  exact ⟨m, _, bound, found, (occurrences.1 28 _ found).2, occurrences.2.2⟩

end MixfixLambda
