import Reckoner.Tree.PostOrder

/-!
# What the post-order walk visits

The walk of a tree keeps its own stack, and `Expr.postOrder` is a recursion.  They
agree: every entry of the stack stands for a list of positions (a node that is still
to be opened for the whole list below it, an opened one for itself), each step of the
walk takes the head off the concatenation of these lists, and so `Tree.symbols` are the
symbols of the expression that the tree denotes.
-/

set_option autoImplicit false

namespace Reckoner

namespace Arena

/-- The positions under a node: those of the left operand, those of the right operand, and
the node itself. -/
def postOrderAt (a : Arena) (i : Fin a.size) : List (Fin a.size) :=
  match a.view i with
  | .leaf _ => [i]
  | .binary _ l r _ _ => a.postOrderAt l ++ a.postOrderAt r ++ [i]
termination_by i.val

/-- Under a leaf there is the leaf alone. -/
theorem postOrderAt_of_view_leaf {a : Arena} {i : Fin a.size} {v : Int64}
    (h : a.view i = .leaf v) : a.postOrderAt i = [i] := by
  rw [postOrderAt, h]

/-- Under an operator there is what lies under its operands, left before right, and then the
operator. -/
theorem postOrderAt_of_view_binary {a : Arena} {i : Fin a.size} {op : Operator}
    {l r : Fin a.size} {hl : l.val < i.val} {hr : r.val < i.val}
    (h : a.view i = .binary op l r hl hr) :
    a.postOrderAt i = a.postOrderAt l ++ a.postOrderAt r ++ [i] := by
  rw [postOrderAt, h]

/-- A position that reads as a leaf contributes its value. -/
theorem symbolAt_of_view_leaf {a : Arena} {i : Fin a.size} {v : Int64} (h : a.view i = .leaf v) :
    a.symbolAt i = .value v := by
  unfold view at h
  unfold symbolAt
  split at h
  · next w hw _ =>
    cases h
    rw [hw]
    rfl
  · cases h

/-- A position that reads as an operator contributes the operator. -/
theorem symbolAt_of_view_binary {a : Arena} {i : Fin a.size} {op : Operator} {l r : Fin a.size}
    {hl : l.val < i.val} {hr : r.val < i.val} (h : a.view i = .binary op l r hl hr) :
    a.symbolAt i = .operator op := by
  unfold view at h
  unfold symbolAt
  split at h
  · cases h
  · next o x y _ hn _ =>
    cases h
    rw [hn]
    rfl

/-- The symbols under a node are those of the expression that the node denotes. -/
theorem map_symbolAt_postOrderAt (a : Arena) (i : Fin a.size) :
    (a.postOrderAt i).map a.symbolAt = (a.exprAt i).postOrder := by
  fun_induction a.postOrderAt i with
  | case1 i v hview =>
    rw [exprAt_of_view_leaf hview, List.map_singleton, symbolAt_of_view_leaf hview]
    rfl
  | case2 i op l r hl hr hview ihl ihr =>
    rw [exprAt_of_view_binary hview, List.map_append, List.map_append, ihl, ihr,
      List.map_singleton, symbolAt_of_view_binary hview]
    rfl

end Arena

namespace Cursor

/-- The positions that a stack still stands for. -/
def positions {a : Arena} : List (Pending a.size) → List (Fin a.size)
  | [] => []
  | ⟨i, true⟩ :: rest => i :: positions rest
  | ⟨i, false⟩ :: rest => a.postOrderAt i ++ positions rest

/-- A node that is put back beneath its operands stands for the same positions, at a lower cost. -/
theorem opened_lowers {a : Arena} {i : Fin a.size} {op : Operator} {l r : Fin a.size}
    {hl : l.val < i.val} {hr : r.val < i.val} (h : a.view i = .binary op l r hl hr)
    (rest : List (Pending a.size)) :
    remaining a (⟨l, false⟩ :: ⟨r, false⟩ :: ⟨i, true⟩ :: rest) <
      remaining a (⟨i, false⟩ :: rest) ∧
    positions (⟨l, false⟩ :: ⟨r, false⟩ :: ⟨i, true⟩ :: rest) = positions (⟨i, false⟩ :: rest) := by
  constructor
  · simp only [remaining, cost, Arena.exprAt_of_view_binary h, Expr.size, if_true,
      Bool.false_eq_true, if_false]
    omega
  · simp only [positions, Arena.postOrderAt_of_view_binary h, List.append_assoc,
      List.singleton_append]

/-- An entry that is taken off lowers the cost. -/
theorem remaining_lt_cons {a : Arena} (p : Pending a.size) (rest : List (Pending a.size)) :
    remaining a rest < remaining a (p :: rest) := by
  have hsize := (a.exprAt p.node).size_pos
  simp only [remaining, cost]
  split <;> omega

/-- A walk ends when no position is left. -/
theorem positions_of_advance_eq_none {a : Arena} (stack : List (Pending a.size))
    (h : advance stack = none) : positions stack = [] := by
  fun_induction advance stack with
  | case1 => rfl
  | case2 => cases h
  | case3 => cases h
  | case4 rest i op l r hl hr hview ih =>
    -- opening an operator puts three entries on the stack, and the last of them stays
    have hnil := ih h
    simp [positions] at hnil

/-- A step of a walk hands out the first position and leaves the others. -/
theorem positions_of_advance_eq_some {a : Arena} (stack : List (Pending a.size)) {i : Fin a.size}
    {c : Cursor a} (h : advance stack = some (i, c)) :
    positions stack = i :: positions c.stack := by
  fun_induction advance stack with
  | case1 => cases h
  | case2 => cases h; rfl
  | case3 rest j v hview =>
    cases h
    rw [positions, Arena.postOrderAt_of_view_leaf hview]
    rfl
  | case4 rest j op l r hl hr hview ih => rw [← ih h, (opened_lowers hview _).2]

/-- A walk visits the positions that its stack stands for, in order. -/
theorem drain_eq {a : Arena} (c : Cursor a) (seen : Array (Fin a.size)) :
    (c.drain seen).toList = seen.toList ++ positions c.stack := by
  fun_induction c.drain seen with
  | case1 c seen hnext => rw [positions_of_advance_eq_none c.stack hnext, List.append_nil]
  | case2 c seen i rest hnext ih =>
    rw [ih, positions_of_advance_eq_some c.stack hnext, Array.toList_push, List.append_assoc]
    rfl

end Cursor

namespace Tree

/-- The walk of a tree visits the positions under its root. -/
theorem postOrder_eq (t : Tree) : t.postOrder = t.arena.postOrderAt t.rootIndex := by
  unfold postOrder Cursor.toList
  rw [Cursor.drain_eq]
  simp [Cursor.start, Cursor.positions]

/-- The symbols of a tree are those of the expression that it denotes. -/
theorem symbols_eq (t : Tree) : t.symbols = t.toExpr.postOrder := by
  unfold symbols toExpr
  rw [postOrder_eq, Arena.map_symbolAt_postOrderAt]

end Tree

end Reckoner
