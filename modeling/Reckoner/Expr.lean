import Reckoner.Operator

/-!
# Expressions

An expression is a 64-bit integer or an operator between two expressions.  This is
the mathematical side of the library: the recursive value of an expression, its
symbols in post-order, its leaves from left to right, and the number of operands
that are pending at once when it is evaluated in post-order.
-/

set_option autoImplicit false

namespace Reckoner

/-- An expression over 64-bit signed integers. -/
inductive Expr where
  | leaf (value : Int64)
  | binary (op : Operator) (left right : Expr)
  deriving DecidableEq

/-- What one node of an expression contributes to a traversal: a value, or an operator
that takes the two results before it. -/
inductive Symbol where
  | value (v : Int64)
  | operator (op : Operator)
  deriving DecidableEq

namespace Expr

/-- The number of leaves and operators. -/
def size : Expr → Nat
  | leaf _ => 1
  | binary _ l r => 1 + l.size + r.size

/-- Every expression has a node. -/
theorem size_pos (e : Expr) : 0 < e.size := by
  cases e <;> simp only [size] <;> omega

/-- The value of an expression: both operands first, then the operator. -/
def eval : Expr → Except EvaluationError Int64
  | leaf v => .ok v
  | binary op l r => do
    let x ← l.eval
    let y ← r.eval
    op.apply x y

/-- The symbols of an expression: left operand, right operand, then the operator. -/
def postOrder : Expr → List Symbol
  | leaf v => [.value v]
  | binary op l r => l.postOrder ++ r.postOrder ++ [.operator op]

/-- The post-order lists each node of an expression once. -/
theorem length_postOrder (e : Expr) : e.postOrder.length = e.size := by
  induction e with
  | leaf v => rfl
  | binary op l r ihl ihr =>
    simp only [postOrder, size, List.length_append, ihl, ihr, List.length_cons, List.length_nil]
    omega

/-- The values at the leaves, from left to right. -/
def leaves : Expr → List Int64
  | leaf v => [v]
  | binary _ l r => l.leaves ++ r.leaves

/-- The number of operators. -/
def operatorCount : Expr → Nat
  | leaf _ => 0
  | binary _ l r => l.operatorCount + r.operatorCount + 1

/-- The most operands that are pending at once when the expression is evaluated in
post-order: the left result waits while the right operand is computed. -/
def stackDepth : Expr → Nat
  | leaf _ => 1
  | binary _ l r => max l.stackDepth (r.stackDepth + 1)

/-- A tree with two operands per operator has one leaf more than it has operators. -/
theorem length_leaves (e : Expr) : e.leaves.length = e.operatorCount + 1 := by
  induction e with
  | leaf v => rfl
  | binary op l r ihl ihr =>
    simp only [leaves, operatorCount, List.length_append, ihl, ihr]
    omega

end Expr

end Reckoner
