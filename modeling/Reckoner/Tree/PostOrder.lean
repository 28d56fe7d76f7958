import Reckoner.Arena

/-!
# Post-order walks

A cursor walks an arena with an explicit stack, so the depth of a tree costs no
recursion.  An entry of the stack is a node that is still to be opened, or one that
has been opened and comes after its operands.  `Cursor.next?` gives the next node;
what it leaves is smaller, measured by the expressions that the entries denote, so a
walk ends.
-/

set_option autoImplicit false

namespace Reckoner

namespace Arena

/-- A position that holds a leaf denotes its value. -/
theorem exprAt_of_view_leaf {a : Arena} {i : Fin a.size} {v : Int64} (h : a.view i = .leaf v) :
    a.exprAt i = .leaf v := by
  rw [exprAt, h]

/-- A position that holds an operator denotes the operator on what its operands denote. -/
theorem exprAt_of_view_binary {a : Arena} {i : Fin a.size} {op : Operator} {l r : Fin a.size}
    {hl : l.val < i.val} {hr : r.val < i.val} (h : a.view i = .binary op l r hl hr) :
    a.exprAt i = .binary op (a.exprAt l) (a.exprAt r) := by
  rw [exprAt, h]

end Arena

/-- A node that waits on the stack of a walk. -/
structure Pending (n : Nat) where
  node : Fin n
  /-- Whether the node's operands have already been put on the stack. -/
  opened : Bool
  deriving DecidableEq

/-- A post-order walk under way: the waiting nodes, next one first. -/
structure Cursor (a : Arena) where
  stack : List (Pending a.size)

namespace Cursor

/-- What an entry still costs: one step once it is opened, two per node before. -/
def cost (a : Arena) (p : Pending a.size) : Nat :=
  if p.opened then 1 else 2 * (a.exprAt p.node).size

/-- What a stack still costs. -/
def remaining (a : Arena) : List (Pending a.size) → Nat
  | [] => 0
  | p :: rest => cost a p + remaining a rest

/-- The walk from one node. -/
def start {a : Arena} (i : Fin a.size) : Cursor a := ⟨[⟨i, false⟩]⟩

/-- The next node of a walk, and the walk after it. -/
def advance {a : Arena} (stack : List (Pending a.size)) : Option (Fin a.size × Cursor a) :=
  match stack with
  | [] => none
  | ⟨i, true⟩ :: rest => some (i, ⟨rest⟩)
  | ⟨i, false⟩ :: rest =>
    match _hview : a.view i with
    | .leaf _ => some (i, ⟨rest⟩)
    | .binary _ l r _ _ => advance (⟨l, false⟩ :: ⟨r, false⟩ :: ⟨i, true⟩ :: rest)
termination_by remaining a stack
decreasing_by
  simp only [remaining, cost, Arena.exprAt_of_view_binary _hview, Expr.size, if_true,
    Bool.false_eq_true, if_false]
  omega

/-- The next node of a walk, and the walk after it. -/
def next? {a : Arena} (c : Cursor a) : Option (Fin a.size × Cursor a) := advance c.stack

/-- Each step of the walk lowers what remains of it; this is why the walk ends. -/
theorem remaining_advance {a : Arena} (stack : List (Pending a.size)) (i : Fin a.size)
    (c : Cursor a) (h : advance stack = some (i, c)) :
    remaining a c.stack < remaining a stack := by
  fun_induction advance stack with
  | case1 => cases h
  | case2 j rest =>
    cases h
    simp only [remaining, cost, if_true]
    omega
  | case3 rest j v hv =>
    cases h
    have := (a.exprAt i).size_pos
    simp only [remaining, cost, Bool.false_eq_true, if_false]
    omega
  | case4 j rest op l r hl hr hv ih =>
    refine Nat.lt_trans (ih h) ?_
    simp only [remaining, cost, Arena.exprAt_of_view_binary hv, Expr.size, if_true,
      Bool.false_eq_true, if_false]
    omega

/-- Adds the nodes still to come to those already seen. -/
def drain {a : Arena} (c : Cursor a) (seen : Array (Fin a.size)) : Array (Fin a.size) :=
  match _hnext : c.next? with
  | none => seen
  | some (i, rest) => rest.drain (seen.push i)
termination_by remaining a c.stack
decreasing_by exact remaining_advance c.stack i rest _hnext

/-- The nodes still to come. -/
def toList {a : Arena} (c : Cursor a) : List (Fin a.size) := (c.drain #[]).toList

end Cursor

namespace Tree

/-- The positions of the nodes under the root: left operand, right operand, operator. -/
def postOrder (t : Tree) : List (Fin t.arena.size) := (Cursor.start t.rootIndex).toList

/-- The traversal symbols of the nodes in post-order. -/
def symbols (t : Tree) : List Symbol := t.postOrder.map t.arena.symbolAt

/-- Whether two trees give the same symbols in post-order, which fixes the shape because
an operator always takes two operands. -/
def same (s t : Tree) : Bool := s.symbols == t.symbols

/-- The positions that the root reaches, in increasing order. -/
def reachable (t : Tree) : List (Fin t.arena.size) :=
  let marks := t.postOrder.foldl (fun m i => m.set i.val true i.isLt)
    (Vector.replicate t.arena.size false)
  (List.finRange t.arena.size).filter fun i => marks[i]

end Tree

end Reckoner
