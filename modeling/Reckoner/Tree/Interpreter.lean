import Reckoner.Tree.PostOrder

/-!
# Evaluating a tree in place

The interpreter keeps one value per arena position and visits the nodes in
post-order: operands come before their operator, so each value is there when it is
read.  It stops at the first division by zero.
-/

set_option autoImplicit false

namespace Reckoner

namespace Arena

/-- Computes the value of one node from the values of its operands. -/
def evaluateNode (a : Arena) (values : Vector Int64 a.size) (i : Fin a.size) :
    Except EvaluationError (Vector Int64 a.size) :=
  match a.view i with
  | .leaf v => .ok (values.set i.val v (a.val_lt_size i))
  | .binary op l r _ _ =>
    match op.apply (values.get l) (values.get r) with
    | .ok v => .ok (values.set i.val v (a.val_lt_size i))
    | .error e => .error e

/-- Computes the values of nodes in turn. -/
def evaluateNodes (a : Arena) (values : Vector Int64 a.size) :
    List (Fin a.size) → Except EvaluationError (Vector Int64 a.size)
  | [] => .ok values
  | i :: rest =>
    match a.evaluateNode values i with
    | .ok next => a.evaluateNodes next rest
    | .error e => .error e

end Arena

/-- The value of a tree. -/
def Tree.interpret (t : Tree) : Except EvaluationError Int64 :=
  match t.arena.evaluateNodes (Vector.replicate t.arena.size 0) t.postOrder with
  | .ok values => .ok (values.get t.rootIndex)
  | .error e => .error e

end Reckoner
