import MixfixLambda.Term.Basic

/-!
# Encodings of data

Lists, tuples and the values of declared types are functions that take one continuation for each way
the value may have been made.
-/
namespace MixfixLambda.Encoding

def v (depth : Nat) (text : String) : Term :=
  .var depth (.synthetic text)

/-- An abstraction over variables of the given names. -/
def fn (names : List String) (body : Term) : Term :=
  .lams (names.map Tag.synthetic) body

/-- The names `x1` to `xn`, for a letter in place of `x`. -/
def numbered (letter : String) (count : Nat) : List String :=
  (List.range count).map fun i => letter ++ toString (i + 1)

/-- `\x -> x` -/
def identity : Term :=
  fn ["x"] (v 0 "x")

/-- `\n c -> n` -/
def nil : Term :=
  fn ["n", "c"] (v 1 "n")

/-- `\h t n c -> c h t` -/
def cons : Term :=
  fn ["h", "t", "n", "c"] (.applyAll (v 0 "c") [v 3 "h", v 2 "t"])

/-- `\f -> (\x -> f (x x)) (\x -> f (x x))` -/
def fix : Term :=
  let half := fn ["x"] (.app (v 1 "f") (.app (v 0 "x") (v 0 "x")))
  fn ["f"] (.app half half)

/-- A list of terms. -/
def list (items : List Term) : Term :=
  items.foldr (fun head tail => .applyAll cons [head, tail]) nil

/-- A string is the list of its bytes. -/
def string (bytes : List UInt8) : Term :=
  list (bytes.map fun b => .int b.toNat)

/-- The variables of the given names, which stand `above` binders under the innermost one. -/
def vars (names : List String) (above : Nat) : List Term :=
  (List.range names.length).zipWith (fun i name => v (above + names.length - 1 - i) name) names

/-- `\x1 .. xn k -> k x1 .. xn` -/
def tuple (arity : Nat) : Term :=
  let fields := numbered "x" arity
  fn (fields ++ ["k"]) (.applyAll (v 0 "k") (vars fields 1))

/-- `\t -> t (\x1 .. xn -> xi)`, with `index` counted from zero. -/
def projection (arity index : Nat) : Term :=
  let field := v (arity - 1 - index) ("x" ++ toString (index + 1))
  fn ["t"] (.app (v 0 "t") (fn (numbered "x" arity) field))

/-- Constructor `index` of a type: `\f1 .. fk h1 .. hn -> hi f1 .. fk`. -/
def constructor (fields alternatives index : Nat) : Term :=
  let handler := v (alternatives - 1 - index) ("h" ++ toString (index + 1))
  let arguments := numbered "f" fields
  fn (arguments ++ numbered "h" alternatives) (.applyAll handler (vars arguments alternatives))

/-- The function that a type is named after, which takes a handler for every constructor:
`\v h1 .. hn -> v h1 .. hn`. -/
def dispatcher (alternatives : Nat) : Term :=
  let handlers := numbered "h" alternatives
  fn ("v" :: handlers) (.applyAll (v alternatives "v") (vars handlers 0))

/-- `case_C v handler otherwise`: the handler takes the fields of constructor `index`, and every other
constructor falls through. -/
def caseDispatcher (arities : List Nat) (index : Nat) : Term :=
  let handlers := (List.range arities.length).zipWith (fun i fields =>
    if i = index then v 1 "handler" else fn (numbered "f" fields) (v fields "otherwise")) arities
  fn ["v", "handler", "otherwise"] (.applyAll (v 2 "v") handlers)

end MixfixLambda.Encoding
