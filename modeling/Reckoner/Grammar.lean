import Reckoner.Expr
import Reckoner.Lexeme

/-!
# The grammar of expressions

The reference grammar has one rule per level of precedence, and each level is a
chain that grows to the right:

* an expression is a sum, or an expression, `^` and a sum;
* a sum is a product, or a sum, `+` or `-` and a product;
* a product is a factor, or a product, `*` or `/` and a factor;
* a factor is a number, or an expression in brackets.

`Derives level tokens e` says that the tokens read as `e` at a level.  Brackets leave
no trace in `e`.
-/

set_option autoImplicit false

namespace Reckoner

/-- The nonterminals of the grammar, from the loosest to the tightest. -/
inductive Level where
  | expression
  | sum
  | product
  | factor
  deriving DecidableEq

namespace Level

/-- The level of the operands to the right of an operator, one step tighter than the
level that the operator chains. -/
def tighter : Level → Level
  | expression => sum
  | sum => product
  | product | factor => factor

/-- The operators that a level chains. -/
def operators : Level → List Operator
  | expression => [.xor]
  | sum => [.add, .sub]
  | product => [.mul, .div]
  | factor => []

end Level

/-- The tokens read as an expression at a level of the grammar. -/
inductive Derives : Level → List Token → Expr → Prop where
  | number (v : Int64) : Derives .factor [.number v] (.leaf v)
  | bracketed {tokens : List Token} {e : Expr} (inner : Derives .expression tokens e) :
      Derives .factor (.openBracket :: tokens ++ [.closeBracket]) e
  | descend {level : Level} {tokens : List Token} {e : Expr} (loose : level ≠ .factor)
      (inner : Derives level.tighter tokens e) : Derives level tokens e
  | chain {level : Level} {op : Operator} {left right : List Token} {l r : Expr}
      (chained : op ∈ level.operators) (hl : Derives level left l)
      (hr : Derives level.tighter right r) :
      Derives level (left ++ .operator op :: right) (.binary op l r)

end Reckoner
