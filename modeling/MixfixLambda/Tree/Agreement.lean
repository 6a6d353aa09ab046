import MixfixLambda.Tree.Basic

/-!
# Trees that say the same

Two trees agree when they have the same shape, the same texts, and the same recorded spans of nodes.
Where the tags of names and operators stand is left out.
-/
namespace MixfixLambda

/-- Whether both lists have the same length and agree item by item. -/
def sameTexts : List Tag → List Tag → Bool
  | [], [] => true
  | a :: as, b :: bs => a.SameText b && sameTexts as bs
  | _, _ => false

def Declaration.agrees (a b : Declaration) : Bool :=
  a.kind == b.kind && a.precedence == b.precedence && sameTexts a.symbols b.symbols
    && a.prior.map Tag.text == b.prior.map Tag.text && a.span == b.span

namespace Tree

mutual

def agrees : Tree → Tree → Bool
  | .int a s, .int b t => a == b && s == t
  | .str a s, .str b t => a == b && s == t
  | .char a s, .char b t => a == b && s == t
  | .name a, .name b => a.SameText b
  | .placeholder s, .placeholder t => s == t
  | .apply f a s, .apply g b t => f.agrees g && a.agrees b && s == t
  | .infixOp o a b, .infixOp p c d => o.SameText p && a.agrees c && b.agrees d
  | .prefixOp o a, .prefixOp p b => o.SameText p && a.agrees b
  | .postfixOp o a, .postfixOp p b => o.SameText p && a.agrees b
  | .mixfix p as, .mixfix q bs => sameTexts p q && allAgree as bs
  | .bracket o c a, .bracket p d b => o.SameText p && c.SameText d && a.agrees b
  | .define o a b, .define p c d => o.SameText p && a.agrees c && b.agrees d
  | .lambda o a b, .lambda p c d => o.SameText p && a.agrees c && b.agrees d
  | .asPattern o a b, .asPattern p c d => o.SameText p && a.agrees c && b.agrees d
  | .sequence as s, .sequence bs t => allAgree as bs && s == t
  | .comma as s, .comma bs t => allAgree as bs && s == t
  | .unit s, .unit t => s == t
  | .tuple as s, .tuple bs t => allAgree as bs && s == t
  | .list as s, .list bs t => allAgree as bs && s == t
  | .data as s, .data bs t => allAgree as bs && s == t
  | .sectionOf a s, .sectionOf b t => a.agrees b && s == t
  | .declaration a, .declaration b => a.agrees b
  | _, _ => false

/-- Whether both lists have the same length and agree item by item. -/
def allAgree : List Tree → List Tree → Bool
  | [], [] => true
  | a :: as, b :: bs => a.agrees b && allAgree as bs
  | _, _ => false

end

end Tree

end MixfixLambda
