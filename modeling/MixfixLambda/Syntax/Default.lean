import MixfixLambda.Syntax.Registry

/-!
# The default grammar

The rules that every source starts with.
-/
namespace MixfixLambda

/-- Binary operators by precedence, loosest first. -/
def defaultOperators : List (List String × Nat × Assoc) :=
  [(["$"], 10, .right),
    (["||"], 20, .right),
    (["&&"], 30, .right),
    (["==", "!=", "<", "<=", ">", ">="], 40, .none),
    ([":", "++"], 50, .right),
    (["+", "-"], 60, .left),
    (["*", "/", "%"], 70, .left),
    (["^"], 80, .right),
    (["."], 90, .right)]

/-- Brackets, then the constructs of the language, then operators, then declarations. -/
def defaultRules : List Rule :=
  [.opening "(" ")" .paren, .closing ")" "(" .paren,
    .opening "[" "]" .square, .closing "]" "[" .square,
    .opening "\x7b" "\x7d" .brace, .closing "\x7d" "\x7b" .brace,
    .infixOp ";" 1 .right .sequence,
    .infixOp "," 1 .right .comma,
    .infixOp "=" 2 .none .define,
    .prefixOp "let" 3 .erase,
    .infixOp "->" 3 .right .lambda,
    .prefixOp "if" 3 .operator,
    (Rule.infixOp "then" 3 .right .operator).after "if",
    (Rule.infixOp "else" 3 .right .operator).after "then",
    .prefixOp "\\" 4 .operator,
    .infixOp "@" 97 .right .asPattern]
  ++ defaultOperators.flatMap (fun (symbols, precedence, assoc) =>
    symbols.map fun symbol => .infixOp symbol precedence assoc .operator)
  ++ DeclarationKind.all.map fun kind => .prefixOp kind.keyword 2 (.declare kind)

/-- The registry that holds the default grammar in its base scope. -/
def Registry.default : Registry :=
  Registry.empty.registerAll defaultRules

theorem length_defaultRules : defaultRules.length = 40 := by
  decide

/-- No symbol has two rules in the default grammar. -/
theorem nodup_defaultRules : (defaultRules.map Rule.symbol).Nodup := by
  decide

end MixfixLambda
