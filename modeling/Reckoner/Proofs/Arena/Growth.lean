import Mathlib.Algebra.Order.Ring.Nat
import Reckoner.Arena

/-!
# Expressions in a growing arena

Adding a node changes nothing that was there: an id goes on denoting its expression.
The node that is added denotes the operator on its operands' expressions, under the id
that is handed out for it, as long as the arena holds fewer than `2 ^ 32` nodes before;
from then on the id refers to another position.
-/

set_option autoImplicit false

namespace Reckoner

namespace Arena

/-- A position whose node is a leaf is seen as that leaf. -/
theorem view_of_node_leaf {a : Arena} {i : Fin a.size} {v : Int64} (h : a.node i = .leaf v) :
    a.view i = .leaf v := by
  unfold view
  split
  · next w hw _ =>
    rw [h] at hw
    cases hw
    rfl
  · next hw _ =>
    rw [h] at hw
    cases hw

/-- A position whose node is an operator is seen as the operator on the positions of its
operands. -/
theorem view_of_node_binary {a : Arena} {i : Fin a.size} {op : Operator} {l r : NodeId}
    (h : a.node i = .binary op l r) (hl : l.index < a.size) (hr : r.index < a.size) :
    ∃ hl' hr', a.view i = .binary op ⟨l.index, hl⟩ ⟨r.index, hr⟩ hl' hr' := by
  have hbelow := a.node_below i
  rw [h] at hbelow
  refine ⟨hbelow.1, hbelow.2, ?_⟩
  unfold view
  split
  · next hw _ =>
    rw [h] at hw
    cases hw
  · next hw _ =>
    rw [h] at hw
    cases hw
    rfl

/-- The expression at a position that holds a leaf. -/
theorem exprAt_of_node_leaf {a : Arena} {i : Fin a.size} {v : Int64} (h : a.node i = .leaf v) :
    a.exprAt i = .leaf v := by
  rw [exprAt, view_of_node_leaf h]

/-- The expression at a position that holds an operator. -/
theorem exprAt_of_node_binary {a : Arena} {i : Fin a.size} {op : Operator} {l r : NodeId}
    (h : a.node i = .binary op l r) (hl : l.index < a.size) (hr : r.index < a.size) :
    a.exprAt i = .binary op (a.exprAt ⟨l.index, hl⟩) (a.exprAt ⟨r.index, hr⟩) := by
  obtain ⟨_, _, hview⟩ := view_of_node_binary h hl hr
  rw [exprAt, hview]

/-- A position of an arena is one of the grown arena. -/
theorem lt_size_push (a : Arena) (n : Node) (h : n.Below a.size) {i : Nat} (hi : i < a.size) :
    i < (a.push n h).size := by
  rw [size_push]
  omega

/-- An earlier position keeps its node. -/
theorem node_push_of_lt (a : Arena) (n : Node) (h : n.Below a.size) {i : Nat} (hi : i < a.size) :
    (a.push n h).node ⟨i, a.lt_size_push n h hi⟩ = a.node ⟨i, hi⟩ :=
  Array.getElem_push_lt (show i < a.nodes.size from hi)

/-- The last position holds the node that was added. -/
theorem node_push_size (a : Arena) (n : Node) (h : n.Below a.size)
    (hsize : a.size < (a.push n h).size) : (a.push n h).node ⟨a.size, hsize⟩ = n :=
  Array.getElem_push_eq

/-- The expression at a position depends on the nodes up to it only. -/
theorem exprAt_congr {a b : Arena} {i : Nat} (ha : i < a.size) (hb : i < b.size)
    (h : ∀ j (hja : j < a.size) (hjb : j < b.size), j ≤ i → a.node ⟨j, hja⟩ = b.node ⟨j, hjb⟩) :
    a.exprAt ⟨i, ha⟩ = b.exprAt ⟨i, hb⟩ := by
  induction i using Nat.strongRecOn with
  | ind i ih =>
    have hnode := h i ha hb (Nat.le_refl i)
    have hbelow := a.node_below ⟨i, ha⟩
    cases hi : a.node ⟨i, ha⟩ with
    | leaf v => rw [exprAt_of_node_leaf hi, exprAt_of_node_leaf (hnode.symm.trans hi)]
    | binary op l r =>
      rw [hi] at hbelow
      obtain ⟨hl, hr⟩ := hbelow
      have hearlier : ∀ k, k < i → ∀ j (hja : j < a.size) (hjb : j < b.size), j ≤ k →
          a.node ⟨j, hja⟩ = b.node ⟨j, hjb⟩ :=
        fun k hk j hja hjb hj => h j hja hjb (Nat.le_trans hj (Nat.le_of_lt hk))
      rw [exprAt_of_node_binary hi (Nat.lt_trans hl ha) (Nat.lt_trans hr ha),
        exprAt_of_node_binary (hnode.symm.trans hi) (Nat.lt_trans hl hb) (Nat.lt_trans hr hb),
        ih l.index hl (Nat.lt_trans hl ha) (Nat.lt_trans hl hb) (hearlier l.index hl),
        ih r.index hr (Nat.lt_trans hr ha) (Nat.lt_trans hr hb) (hearlier r.index hr)]

/-- An earlier position keeps its expression. -/
theorem exprAt_push (a : Arena) (n : Node) (h : n.Below a.size) (i : Nat) (hi : i < a.size) :
    (a.push n h).exprAt ⟨i, a.lt_size_push n h hi⟩ = a.exprAt ⟨i, hi⟩ :=
  exprAt_congr (a.lt_size_push n h hi) hi fun _ _ hj _ => a.node_push_of_lt n h hj

/-- The id refers to a node that denotes the expression. -/
def Denotes (a : Arena) (id : NodeId) (e : Expr) : Prop :=
  ∃ h : a.Owns id, a.exprAt ⟨id.index, h⟩ = e

/-- An id goes on denoting its expression. -/
theorem Denotes.push {a : Arena} {id : NodeId} {e : Expr} (hid : a.Denotes id e) (n : Node)
    (h : n.Below a.size) : (a.push n h).Denotes id e := by
  obtain ⟨howns, he⟩ := hid
  exact ⟨howns.push n h, (a.exprAt_push n h id.index howns).trans he⟩

/-- The position of the node that is added next. -/
theorem index_nextId {a : Arena} (hroom : a.size < 2 ^ 32) : a.nextId.index = a.size :=
  NodeId.index_ofIndex_of_lt hroom

/-- A leaf that is added denotes its value. -/
theorem denotes_leaf {a : Arena} (hroom : a.size < 2 ^ 32) (v : Int64) :
    (a.leaf v).Denotes a.nextId (.leaf v) := by
  refine ⟨a.owns_nextId (.leaf v) trivial, exprAt_of_node_leaf ?_⟩
  simp only [index_nextId hroom]
  exact a.node_push_size (.leaf v) trivial _

/-- An operator that is added denotes the operator on what its operands denote. -/
theorem denotes_binary {a : Arena} (hroom : a.size < 2 ^ 32) (op : Operator) {l r : NodeId}
    {x y : Expr} (hx : a.Denotes l x) (hy : a.Denotes r y) (hl : a.Owns l) (hr : a.Owns r) :
    (a.binary op l r hl hr).Denotes a.nextId (.binary op x y) := by
  obtain ⟨hl', hx'⟩ := hx.push (.binary op l r) ⟨hl, hr⟩
  obtain ⟨hr', hy'⟩ := hy.push (.binary op l r) ⟨hl, hr⟩
  refine ⟨a.owns_nextId (.binary op l r) ⟨hl, hr⟩, ?_⟩
  rw [← hx', ← hy']
  refine exprAt_of_node_binary ?_ hl' hr'
  simp only [index_nextId hroom]
  exact a.node_push_size (.binary op l r) ⟨hl, hr⟩ _

end Arena

/-- The root of a tree denotes the expression of the tree. -/
theorem Tree.toExpr_eq_of_denotes {t : Tree} {e : Expr} (h : t.arena.Denotes t.root e) :
    t.toExpr = e := by
  obtain ⟨_, he⟩ := h
  exact he

end Reckoner
