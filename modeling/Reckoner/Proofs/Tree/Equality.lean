import Reckoner.Proofs.Parser.NodeCount
import Reckoner.Proofs.Tree.PostOrder

/-!
# Equality of trees

Two trees are compared by their symbols in post-order.  Every operator takes two operands, so a
stack machine that pushes values and joins the two latest operands at an operator rebuilds the
expression from its symbols.  The symbols therefore fix the expression, and trees are equal just
when they denote one expression, however their nodes are laid out.

The same machine on the nodes of an arena makes a tree.  It adds one node for each symbol, so ids
stay exact as long as there are at most `2 ^ 32` symbols.
-/

set_option autoImplicit false

namespace Reckoner

namespace Expr

/-- Applies a symbol to the expressions so far, latest first. -/
def push? (operands : List Expr) : Symbol → Option (List Expr)
  | .value v => some (.leaf v :: operands)
  | .operator op => join? operands op

/-- The expression with these symbols in post-order. -/
def ofPostOrder? (symbols : List Symbol) : Option Expr :=
  match symbols.foldlM push? [] with
  | some [e] => some e
  | _ => none

/-- The symbols of an expression, in whatever follows, put the expression on top of the operands. -/
theorem foldlM_push?_postOrder (e : Expr) (operands : List Expr) (rest : List Symbol) :
    (e.postOrder ++ rest).foldlM push? operands = rest.foldlM push? (e :: operands) := by
  induction e generalizing operands rest with
  | leaf v => rfl
  | binary op l r ihl ihr =>
    rw [postOrder, List.append_assoc, List.append_assoc, ihl, ihr]
    rfl

/-- An expression is rebuilt from its symbols. -/
theorem ofPostOrder?_postOrder (e : Expr) : ofPostOrder? e.postOrder = some e := by
  have hfold := e.foldlM_push?_postOrder [] []
  rw [List.append_nil] at hfold
  rw [ofPostOrder?, hfold]
  rfl

/-- Different expressions have different symbols in post-order. -/
theorem postOrder_injective : Function.Injective postOrder := by
  intro x y h
  apply Option.some.inj
  rw [← x.ofPostOrder?_postOrder, h, y.ofPostOrder?_postOrder]

end Expr

namespace Forest

/-- Applies a symbol to the operands so far. -/
def push? (f : Forest) : Symbol → Option Forest
  | .value v => some (f.leaf v)
  | .operator op => f.join? op

/-- Applying a symbol goes the same way on nodes and on the expressions that they denote. -/
theorem Denotes.push? {f : Forest} {es : List Expr} (h : f.Denotes es) (s : Symbol) :
    Option.Rel Denotes (f.push? s) (Expr.push? es s) := by
  cases s with
  | value v => exact .some (h.leaf v)
  | operator op => exact h.join? op

/-- Each symbol that is applied adds one node. -/
theorem size_push? {f next : Forest} {s : Symbol} (h : f.push? s = some next) :
    next.arena.size = f.arena.size + 1 := by
  cases s with
  | value v =>
    cases h
    exact Arena.size_leaf f.arena v
  | operator op => exact size_join? h

/-- Symbols that join expressions join the nodes that denote them, one node for each symbol. -/
theorem Denotes.foldlM {f : Forest} {es last : List Expr} (h : f.Denotes es)
    {symbols : List Symbol} (hlast : symbols.foldlM Expr.push? es = some last) :
    ∃ g : Forest, symbols.foldlM Forest.push? f = some g ∧ g.Denotes last ∧
      g.arena.size = f.arena.size + symbols.length := by
  induction symbols generalizing f es with
  | nil =>
    cases hlast
    exact ⟨f, rfl, h, rfl⟩
  | cons s rest ih =>
    obtain ⟨mid, hmid, hrest⟩ := Option.bind_eq_some_iff.1 hlast
    obtain ⟨-, hnone⟩ | ⟨next, _, hnext, hsome, hdenotes⟩ := rel_cases (h.push? s)
    · rw [hnone] at hmid
      cases hmid
    · rw [hmid] at hsome
      cases hsome
      obtain ⟨g, hg, hdenotes, hsize⟩ := ih hdenotes hrest
      refine ⟨g, ?_, hdenotes, ?_⟩
      · rw [List.foldlM_cons, hnext]
        exact hg
      · rw [hsize, size_push? hnext, List.length_cons]
        omega

end Forest

namespace Tree

/-- The root of a forest of one operand belongs to its arena. -/
theorem owns_of_owned_singleton {arena : Arena} {root : NodeId}
    (owned : ∀ id ∈ [root], arena.Owns id) : arena.Owns root :=
  owned root (List.mem_singleton_self root)

/-- A tree with these symbols in post-order. -/
def ofPostOrder? (symbols : List Symbol) : Option Tree :=
  match symbols.foldlM Forest.push? .empty with
  | some ⟨arena, [root], owned⟩ => some ⟨arena, root, owns_of_owned_singleton owned⟩
  | _ => none

/-- A tree can be made of an expression that is not too large. -/
theorem exists_ofPostOrder?_postOrder {e : Expr} (hsize : e.size ≤ 2 ^ 32) :
    ∃ t, ofPostOrder? e.postOrder = some t ∧ t.toExpr = e := by
  have hfold := e.foldlM_push?_postOrder [] []
  rw [List.append_nil] at hfold
  obtain ⟨⟨arena, roots, owned⟩, hg, ⟨hlength, hdenotes⟩, harena⟩ :=
    Forest.denotes_empty.foldlM hfold
  have hroom : arena.size ≤ 2 ^ 32 := by
    have hcount : arena.size = 0 + e.postOrder.length := harena
    rwa [hcount, Nat.zero_add, e.length_postOrder]
  match roots, owned, hg, hlength, hdenotes with
  | [root], owned, hg, _, hdenotes =>
    refine ⟨⟨arena, root, owns_of_owned_singleton owned⟩, ?_, ?_⟩
    · rw [ofPostOrder?, hg]
    · obtain ⟨hroot, -⟩ := List.forall₂_cons.1 (hdenotes hroom)
      exact toExpr_eq_of_denotes hroot

/-- Trees are equal when they denote one expression. -/
theorem same_iff (s t : Tree) : s.same t = true ↔ s.toExpr = t.toExpr := by
  rw [same, beq_iff_eq, symbols_eq, symbols_eq]
  exact Expr.postOrder_injective.eq_iff

end Tree

end Reckoner
