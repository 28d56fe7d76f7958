import Reckoner.Proofs.Tree.Shape

/-!
# How many operands are pending

Evaluated in post-order, an expression leaves one operand more than there were before it.  On the
way there are never more than its stack depth says, an operator always finds the two that it
takes, and at some point the bound is met: behind the deepest leaf.
-/

set_option autoImplicit false

namespace Reckoner

/-- The number of pending operands after a symbol.  There may be no more than a bound, and an
operator needs two. -/
def Symbol.pendingAfter? (bound : Nat) : Nat → Symbol → Option Nat
  | n, .value _ => if n < bound then some (n + 1) else none
  | n + 2, .operator _ => some (n + 1)
  | _, .operator _ => none

/-- The number of pending operands after symbols. -/
def Symbol.pendingAfterAll? (bound n : Nat) (symbols : List Symbol) : Option Nat :=
  symbols.foldlM (pendingAfter? bound) n

namespace Symbol

/-- A value is pending once more, where there is room for it. -/
theorem lt_of_pendingAfter?_value_eq_some {bound n after : Nat} {v : Int64}
    (h : (value v).pendingAfter? bound n = some after) : n < bound ∧ after = n + 1 := by
  rw [pendingAfter?] at h
  split at h
  · next hlt =>
    cases h
    exact ⟨hlt, rfl⟩
  · cases h

/-- An operator finds two pending operands, and leaves one. -/
theorem exists_of_pendingAfter?_operator_eq_some {bound n after : Nat} {op : Operator}
    (h : (operator op).pendingAfter? bound n = some after) : ∃ k, n = k + 2 ∧ after = k + 1 := by
  rcases n with - | - | k
  · cases h
  · cases h
  · cases h
    exact ⟨k, rfl, rfl⟩

/-- Symbols are counted one after the other. -/
theorem pendingAfterAll?_cons (bound n : Nat) (s : Symbol) (rest : List Symbol) :
    pendingAfterAll? bound n (s :: rest) =
      (s.pendingAfter? bound n).bind fun k => pendingAfterAll? bound k rest :=
  List.foldlM_cons

/-- Symbols behind others are counted from the operands that those leave. -/
theorem pendingAfterAll?_append (bound n : Nat) (xs ys : List Symbol) :
    pendingAfterAll? bound n (xs ++ ys) =
      (pendingAfterAll? bound n xs).bind fun k => pendingAfterAll? bound k ys :=
  List.foldlM_append

/-- A single value is one operand more. -/
theorem pendingAfterAll?_value {bound n : Nat} (h : n < bound) (v : Int64) :
    pendingAfterAll? bound n [.value v] = some (n + 1) := by
  rw [pendingAfterAll?_cons, pendingAfter?, if_pos h]
  rfl

end Symbol

namespace Expr

open Reckoner.Symbol

/-- An expression leaves one operand more, and its stack depth is enough for it. -/
theorem pendingAfterAll?_postOrder (e : Expr) {bound n : Nat} (h : n + e.stackDepth ≤ bound) :
    pendingAfterAll? bound n e.postOrder = some (n + 1) := by
  induction e generalizing n with
  | leaf v => exact pendingAfterAll?_value h v
  | binary op l r ihl ihr =>
    rw [stackDepth] at h
    rw [postOrder, pendingAfterAll?_append, pendingAfterAll?_append, ihl (by omega),
      Option.bind_some, ihr (by omega), Option.bind_some]
    rfl

/-- At some point as many operands are pending as the stack depth says. -/
theorem exists_pendingAfterAll?_eq_stackDepth (e : Expr) {bound n : Nat}
    (h : n + e.stackDepth ≤ bound) :
    ∃ xs ys, e.postOrder = xs ++ ys ∧
      pendingAfterAll? bound n xs = some (n + e.stackDepth) := by
  induction e generalizing n with
  | leaf v => exact ⟨[.value v], [], rfl, pendingAfterAll?_value h v⟩
  | binary op l r ihl ihr =>
    rw [stackDepth] at h ⊢
    rcases Nat.le_total (r.stackDepth + 1) l.stackDepth with hle | hle
    · obtain ⟨xs, ys, hsplit, hpending⟩ := ihl (n := n) (by omega)
      rw [Nat.max_eq_left hle]
      refine ⟨xs, ys ++ r.postOrder ++ [.operator op], ?_, hpending⟩
      rw [postOrder, hsplit]
      simp
    · obtain ⟨xs, ys, hsplit, hpending⟩ := ihr (n := n + 1) (by omega)
      rw [Nat.max_eq_right hle]
      refine ⟨l.postOrder ++ xs, ys ++ [.operator op], ?_, ?_⟩
      · rw [postOrder, hsplit]
        simp
      · rw [pendingAfterAll?_append, l.pendingAfterAll?_postOrder (by omega), Option.bind_some,
          hpending]
        exact congrArg some (by omega)

end Expr

/-- The stack depth of a tree is enough for its symbols, which leave one operand. -/
theorem Tree.pendingAfterAll?_symbols (t : Tree) :
    Symbol.pendingAfterAll? t.shape.stackDepth 0 t.symbols = some 1 := by
  rw [t.symbols_eq, t.shape_eq]
  exact t.toExpr.pendingAfterAll?_postOrder (Nat.le_of_eq (Nat.zero_add _))

end Reckoner
