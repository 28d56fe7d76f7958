import Reckoner.Tree.Shape
import Reckoner.Proofs.Tree.PostOrder

/-!
# The shape of a tree, by recursion on its expression

The shape is measured in one scan over the symbols.  Scanned from any point on, the
symbols of an expression add its leaves and its operators to the counts, leave one more
operand pending, and raise the greatest depth to that of the expression above the
operands already pending.
-/

set_option autoImplicit false

namespace Reckoner

namespace Expr

/-- Every pending operand has a leaf of its own. -/
theorem stackDepth_le_length_leaves (e : Expr) : e.stackDepth ≤ e.leaves.length := by
  induction e with
  | leaf v => exact Nat.le_refl 1
  | binary op l r ihl ihr =>
    have hl := l.length_leaves
    simp only [stackDepth, leaves, List.length_append]
    omega

/-- Leaves and operators are all the nodes. -/
theorem size_eq (e : Expr) : e.size = e.leaves.length + e.operatorCount := by
  induction e with
  | leaf v => rfl
  | binary op l r ihl ihr =>
    simp only [size, leaves, operatorCount, List.length_append, ihl, ihr]
    omega

end Expr

namespace Shape

/-- A scan that goes on over the symbols of an expression. -/
theorem foldl_step_postOrder (e : Expr) (s : Scan) :
    e.postOrder.foldl Scan.step s =
      { shape :=
          { leafCount := s.shape.leafCount + e.leaves.length
            operatorCount := s.shape.operatorCount + e.operatorCount
            stackDepth := max s.shape.stackDepth (s.depth + e.stackDepth) }
        depth := s.depth + 1 } := by
  induction e generalizing s with
  | leaf v => rfl
  | binary op l r ihl ihr =>
    rw [Expr.postOrder, List.foldl_append, List.foldl_append, ihl, ihr]
    simp only [List.foldl_cons, List.foldl_nil, Scan.step, Expr.leaves, Expr.operatorCount,
      Expr.stackDepth, List.length_append, Scan.mk.injEq, Shape.mk.injEq]
    omega

end Shape

/-- The shape of a tree consists of the counts and the depth of its expression. -/
theorem Tree.shape_eq (t : Tree) :
    t.shape = ⟨t.toExpr.leaves.length, t.toExpr.operatorCount, t.toExpr.stackDepth⟩ := by
  unfold shape Shape.ofSymbols
  rw [symbols_eq, Shape.foldl_step_postOrder]
  simp [Shape.Scan.start]

end Reckoner
