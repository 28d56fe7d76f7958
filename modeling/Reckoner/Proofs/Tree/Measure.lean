import Mathlib.Data.Set.Card
import Reckoner.Proofs.Arena.Ownership
import Reckoner.Proofs.Tree.OperandCount

/-!
# What measuring a tree counts

The counts of a shape are taken over a walk.  In a tree that is built the walk visits every node
under the root once and no other, so the counts are those of the leaves and the operators that paths
from the root lead to.

The scan carries a number of pending operands along.  As long as evaluation in post-order finds the
operands that it takes, this number is theirs; so every operator finds two of them, taking one away
never goes below zero, and one is left at the end.
-/

set_option autoImplicit false

namespace Reckoner

/-- Whether a symbol is a value. -/
def Symbol.isValue : Symbol → Bool
  | value _ => true
  | operator _ => false

namespace Node

/-- The symbol of a node is a value exactly when the node is a leaf. -/
theorem isValue_symbol_eq_true_iff (n : Node) : n.symbol.isValue = true ↔ ∃ v, n = .leaf v := by
  cases n <;> simp [symbol, Symbol.isValue]

/-- The symbol of a node is no value exactly when the node is an operator. -/
theorem isValue_symbol_eq_false_iff (n : Node) :
    n.symbol.isValue = false ↔ ∃ op l r, n = .binary op l r := by
  cases n <;> simp [symbol, Symbol.isValue]

end Node

namespace Expr

/-- The values in the post-order of an expression are as many as its leaves. -/
theorem countP_isValue_postOrder (e : Expr) :
    e.postOrder.countP Symbol.isValue = e.leaves.length := by
  induction e with
  | leaf v => rfl
  | binary op l r ihl ihr => simp [postOrder, leaves, ihl, ihr, Symbol.isValue]

/-- The other symbols are as many as its operators. -/
theorem countP_not_isValue_postOrder (e : Expr) :
    e.postOrder.countP (fun s => !s.isValue) = e.operatorCount := by
  have hsplit := e.postOrder.length_eq_countP_add_countP Symbol.isValue
  rw [e.length_postOrder, e.size_eq, e.countP_isValue_postOrder] at hsplit
  simp only [Bool.not_eq_true, Bool.decide_eq_false] at hsplit
  omega

end Expr

/-! ## Pending operands -/

namespace Shape.Scan

open Reckoner.Symbol

variable {bound k : Nat} {s : Scan}

/-- A step of the scan counts the pending operands, as long as none is missing. -/
theorem depth_step {x : Symbol} (h : x.pendingAfter? bound s.depth = some k) :
    (s.step x).depth = k := by
  cases x with
  | value v => exact (lt_of_pendingAfter?_value_eq_some h).2.symm
  | operator op =>
    obtain ⟨m, hdepth, rfl⟩ := exists_of_pendingAfter?_operator_eq_some h
    rw [step, hdepth]
    rfl

/-- The scan counts the pending operands, as long as none is missing. -/
theorem depth_foldl_step {symbols : List Symbol}
    (h : pendingAfterAll? bound s.depth symbols = some k) :
    (symbols.foldl step s).depth = k := by
  induction symbols generalizing s with
  | nil => exact Option.some.inj h
  | cons x rest ih =>
    rw [pendingAfterAll?_cons] at h
    obtain ⟨m, hm, hrest⟩ := Option.bind_eq_some_iff.1 h
    exact ih (by rwa [depth_step hm])

end Shape.Scan

namespace Tree

open Reckoner.Symbol

variable (t : Tree)

/-- An operator finds its two operands pending. -/
theorem two_le_depth_of_symbols_eq {seen rest : List Symbol} {op : Operator}
    (h : t.symbols = seen ++ .operator op :: rest) :
    2 ≤ (seen.foldl Shape.Scan.step .start).depth := by
  have hpending := t.pendingAfterAll?_symbols
  rw [h, pendingAfterAll?_append] at hpending
  obtain ⟨n, hseen, hpending⟩ := Option.bind_eq_some_iff.1 hpending
  rw [pendingAfterAll?_cons] at hpending
  obtain ⟨after, hoperator, -⟩ := Option.bind_eq_some_iff.1 hpending
  obtain ⟨k, rfl, -⟩ := exists_of_pendingAfter?_operator_eq_some hoperator
  rw [Shape.Scan.depth_foldl_step hseen]
  exact Nat.le_add_left 2 k

/-- One operand is pending at the end. -/
theorem depth_foldl_symbols : (t.symbols.foldl Shape.Scan.step .start).depth = 1 :=
  Shape.Scan.depth_foldl_step t.pendingAfterAll?_symbols

end Tree

/-! ## Counting what the root reaches -/

namespace Tree

variable {t : Tree}

/-- The walk of a tree that is built visits no position twice. -/
theorem Built.nodup_postOrder (h : t.Built) : t.postOrder.Nodup := by
  rw [t.postOrder_eq]
  exact h.oneParent.nodup_postOrderAt t.rootIndex

/-- A count over the symbols is one over the nodes that the root reaches. -/
theorem Built.countP_symbols (h : t.Built) (p : Symbol → Bool) :
    t.symbols.countP p = {i | t.Contains i ∧ p (t.arena.symbolAt i) = true}.ncard := by
  have hset : {i | t.Contains i ∧ p (t.arena.symbolAt i) = true} =
      ↑(t.postOrder.filter fun i => p (t.arena.symbolAt i)).toFinset := by
    ext i
    simp [t.mem_postOrder_iff]
  rw [hset, Set.ncard_coe_finset, List.toFinset_card_of_nodup (h.nodup_postOrder.filter _), symbols,
    List.countP_map, List.countP_eq_length_filter]
  rfl

/-- The counts of a tree that is built are those of the leaves and of the operators that the root
reaches, one leaf more than operators, and its depth is that of the expression it denotes.  During
the scan, at least two operands are pending before each operator, and one is at the end. -/
theorem Built.shape_exact (h : t.Built) :
    t.shape.leafCount = {i | t.Contains i ∧ ∃ v, t.arena.node i = .leaf v}.ncard ∧
    t.shape.operatorCount =
      {i | t.Contains i ∧ ∃ op l r, t.arena.node i = .binary op l r}.ncard ∧
    t.shape.leafCount = t.shape.operatorCount + 1 ∧
    t.shape.stackDepth = t.toExpr.stackDepth ∧
    (∀ seen op rest, t.symbols = seen ++ .operator op :: rest →
      2 ≤ (seen.foldl Shape.Scan.step .start).depth) ∧
    (t.symbols.foldl Shape.Scan.step .start).depth = 1 := by
  have hleaves : t.toExpr.leaves.length =
      {i | t.Contains i ∧ ∃ v, t.arena.node i = .leaf v}.ncard := by
    rw [← t.toExpr.countP_isValue_postOrder, ← t.symbols_eq, h.countP_symbols]
    simp only [Arena.symbolAt, Node.isValue_symbol_eq_true_iff]
  have hoperators : t.toExpr.operatorCount =
      {i | t.Contains i ∧ ∃ op l r, t.arena.node i = .binary op l r}.ncard := by
    rw [← t.toExpr.countP_not_isValue_postOrder, ← t.symbols_eq, h.countP_symbols]
    simp only [Arena.symbolAt, Bool.not_eq_true', Node.isValue_symbol_eq_false_iff]
  rw [t.shape_eq]
  exact ⟨hleaves, hoperators, t.toExpr.length_leaves, rfl,
    fun _ _ _ hsymbols => t.two_le_depth_of_symbols_eq hsymbols, t.depth_foldl_symbols⟩

/-- One less two, next to a node that the root does not reach: two leaves of three are counted. -/
theorem Built.shape_exact_one_less_two :
    ∃ t, Tree.build? [.leaf 99, .leaf 1, .leaf 2, .binary .sub 1 2] 3 = some t ∧ t.Built ∧
      t.arena.size = 4 ∧ t.shape = ⟨2, 1, 2⟩ ∧
      {i | t.Contains i ∧ ∃ v, t.arena.node i = .leaf v}.ncard = 2 := by
  obtain ⟨t, hbuild, hsize, hshape⟩ :
      ∃ t, Tree.build? [.leaf 99, .leaf 1, .leaf 2, .binary .sub 1 2] 3 = some t ∧
        t.arena.size = 4 ∧ t.shape = ⟨2, 1, 2⟩ := ⟨_, rfl, rfl, by decide +kernel⟩
  have hbuilt : t.Built := ⟨⟨_, _, hbuild⟩, by omega⟩
  refine ⟨t, hbuild, hbuilt, hsize, hshape, ?_⟩
  obtain ⟨hleaves, -⟩ := Built.shape_exact hbuilt
  rw [← hleaves, hshape]

end Tree

end Reckoner
