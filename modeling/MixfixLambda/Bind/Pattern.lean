import MixfixLambda.Bind.Encoding
import MixfixLambda.Bind.Error
import MixfixLambda.Tree.Extent

/-!
# Patterns

The shapes of parameters on the left of `=` and `->`. A tuple or an as-pattern becomes a function of
one argument that hands parts of its argument to the patterns inside.
-/
namespace MixfixLambda

inductive Pattern where
  | name (tag : Tag)
  | unit
  | tuple (items : List Pattern)
  | asPattern (tag : Tag) (pattern : Pattern)
  deriving Repr, Inhabited

namespace Pattern

/-- The names of binders that no lexeme can spell start with a space. -/
def unitTag : Tag :=
  .synthetic " unit"

def tupleTag : Tag :=
  .synthetic " tuple"

mutual

def ofTree : Tree → Except BindError Pattern
  | .name tag => .ok (.name tag)
  | .unit _ => .ok .unit
  | .tuple items _ => do return .tuple (← ofTrees items)
  | .asPattern _ bound pattern =>
    match bound with
    | .name tag =>
      if tag.text == "_" then .error ⟨.invalidPattern, bound.span⟩
      else do return .asPattern tag (← ofTree pattern)
    | _ => .error ⟨.invalidPattern, bound.span⟩
  | t => .error ⟨.invalidPattern, t.span⟩

def ofTrees : List Tree → Except BindError (List Pattern)
  | [] => .ok []
  | t :: rest => do
    let pattern ← ofTree t
    return pattern :: (← ofTrees rest)

end

mutual

/-- The variables that a pattern binds, outermost first. -/
def locals : Pattern → List Tag
  | .name tag => [tag]
  | .unit => [unitTag]
  | .tuple items => tupleTag :: localsAll items
  | .asPattern tag pattern => tag :: pattern.locals

def localsAll : List Pattern → List Tag
  | [] => []
  | p :: rest => p.locals ++ localsAll rest

end

mutual

/-- The function that takes one argument of the pattern's shape and goes on with `body`, a term under
the variables of the pattern. -/
def abstract (body : Term) : Pattern → Term
  | .name tag => .lam tag body
  | .unit => .lam unitTag body
  | .tuple items =>
    let parts := (List.range items.length).map fun i =>
      Term.app (Encoding.projection items.length i) (.var 0 tupleTag)
    .lam tupleTag (.applyAll (abstractAll body items) parts)
  | .asPattern tag pattern => .lam tag (.app (abstract body pattern) (.var 0 tag))

/-- The function that takes one argument for each of the patterns. -/
def abstractAll (body : Term) : List Pattern → Term
  | [] => body
  | p :: rest => abstract (abstractAll body rest) p

end

end Pattern

end MixfixLambda
