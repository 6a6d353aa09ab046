/-!
# The prelude

The definitions that every module sees, as a source of the language.
-/
namespace MixfixLambda.Prelude

/-- How the prelude is called where a path is shown. -/
def path : String :=
  "<prelude>"

def lines : List String :=
  [
    "-- Booleans are Scott encoded: a boolean picks one of two continuations.",
    "true t f = t",
    "false t f = f",
    "if c then a else b = c a b",
    "not b = b false true",
    "a && b = a b false",
    "a || b = a true b",
    "",
    "-- Functions",
    "f . g = x -> f (g x)",
    "f $ x = f x",
    "id x = x",
    "const x _ = x",
    "flip f x y = f y x",
    "",
    "-- Lists: `[]` is `n c -> n`, `h : t` is `n c -> c h t`.",
    "x : xs = n c -> c x xs",
    "null xs = xs true (_ _ -> false)",
    "foldr f z xs = xs z (h t -> f h (foldr f z t))",
    "xs ++ ys = foldr (:) ys xs",
    "map f = foldr (h t -> f h : t) []",
    "filter p = foldr (h t -> if p h then h : t else t) []",
    "length xs = foldr (_ n -> n + 1) 0 xs",
    "sum xs = foldr (+) 0 xs",
    "",
    "-- Tuples",
    "fst (a, _) = a",
    "snd (_, b) = b",
    "",
    "-- Output actions return the identity, so `action; rest` runs in order.",
    "-- Input is a lazy list of bytes.",
    "puts s = s id (c rest -> put c (puts rest))",
    "error message = abort (puts message)",
    "head xs = xs (error \"head of an empty list\\n\") (h _ -> h)",
    "tail xs = xs (error \"tail of an empty list\\n\") (_ t -> t)",
    "digits n = if n < 10 then [n + '0'] else digits (n / 10) ++ [n % 10 + '0']",
    "show n = if n < 0 then '-' : digits (0 - n) else digits n",
    "input_from i = (b -> if b < 0 then [] else b : input_from (i + 1)) (get i)"
  ]

def text : String :=
  "\n".intercalate lines ++ "\n"

end MixfixLambda.Prelude
