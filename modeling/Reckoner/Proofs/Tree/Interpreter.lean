import Reckoner.Tree.Interpreter
import Reckoner.Proofs.Tree.PostOrder

/-!
# The interpreter computes the value of the expression

The interpreter writes one value per arena position.  A position may be written more
than once when nodes are shared, and is never written with anything but the value of
the expression that it denotes (`Arena.Settles`); this is why the left result is still
there when the right operand has been computed.  Hence `Tree.interpret` is the recursive
value of the expression, for every arena and every root.
-/

set_option autoImplicit false

namespace Reckoner

/-- Operands are evaluated from left to right, and the first failure is the failure. -/
theorem Expr.eval_binary (op : Operator) (l r : Expr) :
    (Expr.binary op l r).eval =
      match l.eval with
      | .ok x =>
        match r.eval with
        | .ok y => op.apply x y
        | .error e => .error e
      | .error e => .error e := by
  rw [Expr.eval]
  cases l.eval with
  | ok x => cases r.eval <;> rfl
  | error e => rfl

namespace Arena

/-- From one vector of values to another, a position has kept its value or holds the value of
its expression. -/
def Settles (a : Arena) (values next : Vector Int64 a.size) : Prop :=
  ∀ j, next.get j = values.get j ∨ (a.exprAt j).eval = .ok (next.get j)

/-- Values that settle twice in turn have settled from the first to the last. -/
theorem Settles.trans {a : Arena} {x y z : Vector Int64 a.size} (hxy : a.Settles x y)
    (hyz : a.Settles y z) : a.Settles x z := by
  intro j
  rcases hyz j with h | h
  · rw [h]
    exact hxy j
  · exact Or.inr h

/-- A position that holds the value of its expression goes on holding it. -/
theorem Settles.get_eq {a : Arena} {x y : Vector Int64 a.size} (h : a.Settles x y)
    {j : Fin a.size} {v : Int64} (heval : (a.exprAt j).eval = .ok v) (hx : x.get j = v) :
    y.get j = v := by
  rcases h j with hy | hy
  · rw [hy, hx]
  · rw [heval] at hy
    exact (Except.ok.inj hy).symm

/-- Writing a position changes that position only. -/
theorem get_set (a : Arena) (values : Vector Int64 a.size) (i j : Fin a.size) (v : Int64) :
    (values.set i.val v i.isLt).get j = if i = j then v else values.get j := by
  change (values.set i.val v i.isLt)[j.val] = if i = j then v else values[j.val]
  rw [Vector.getElem_set]
  simp only [Fin.ext_iff]

/-- Writing the value of its expression to a position settles it. -/
theorem settles_set (a : Arena) (values : Vector Int64 a.size) (i : Fin a.size) (v : Int64)
    (h : (a.exprAt i).eval = .ok v) : a.Settles values (values.set i.val v i.isLt) := by
  intro j
  rw [get_set]
  by_cases hij : i = j
  · subst hij
    rw [if_pos rfl]
    exact Or.inr h
  · rw [if_neg hij]
    exact Or.inl rfl

/-- Positions are evaluated one list after the other. -/
theorem evaluateNodes_append (a : Arena) (values : Vector Int64 a.size)
    (xs ys : List (Fin a.size)) :
    a.evaluateNodes values (xs ++ ys) =
      match a.evaluateNodes values xs with
      | .ok next => a.evaluateNodes next ys
      | .error e => .error e := by
  induction xs generalizing values with
  | nil => rfl
  | cons i rest ih =>
    rw [List.cons_append, evaluateNodes, evaluateNodes]
    cases a.evaluateNode values i with
    | ok next => exact ih next
    | error e => rfl

/-- Evaluating one node in turn is evaluating it. -/
theorem evaluateNodes_singleton (a : Arena) (values : Vector Int64 a.size) (i : Fin a.size) :
    a.evaluateNodes values [i] = a.evaluateNode values i := by
  rw [evaluateNodes]
  cases a.evaluateNode values i <;> rfl

/-- Visiting the positions under a node whose expression has a value leaves the value at the
node. -/
theorem evaluateNodes_of_eval_ok (a : Arena) (i : Fin a.size) (values : Vector Int64 a.size)
    {v : Int64} (h : (a.exprAt i).eval = .ok v) :
    ∃ next, a.evaluateNodes values (a.postOrderAt i) = .ok next ∧ next.get i = v ∧
      a.Settles values next := by
  fun_induction a.postOrderAt i generalizing values v with
  | case1 i w hview =>
    have hv : w = v := by
      rw [exprAt_of_view_leaf hview] at h
      exact Except.ok.inj h
    refine ⟨values.set i.val v i.isLt, ?_, ?_, settles_set a values i v h⟩
    · rw [evaluateNodes_singleton, evaluateNode, hview, hv]
    · rw [get_set, if_pos rfl]
  | case2 i op l r hl hr hview ihl ihr =>
    have hi := h
    rw [exprAt_of_view_binary hview, Expr.eval_binary] at h
    cases hx : (a.exprAt l).eval with
    | error e => rw [hx] at h; cases h
    | ok x =>
      cases hy : (a.exprAt r).eval with
      | error e => rw [hx, hy] at h; cases h
      | ok y =>
        rw [hx, hy] at h
        obtain ⟨left, hleft, hgetl, hsetl⟩ := ihl values hx
        obtain ⟨right, hright, hgetr, hsetr⟩ := ihr left hy
        -- the left result has survived the visit of the right operand
        have hkept : right.get l = x := hsetr.get_eq hx hgetl
        refine ⟨right.set i.val v i.isLt, ?_, ?_,
          (hsetl.trans hsetr).trans (settles_set a right i v hi)⟩
        · simp only [evaluateNodes_append, hleft, hright, evaluateNodes_singleton, evaluateNode,
            hview, hkept, hgetr, h]
        · rw [get_set, if_pos rfl]

/-- Visiting the positions under a node whose expression has no value fails in the same way. -/
theorem evaluateNodes_of_eval_error (a : Arena) (i : Fin a.size) (values : Vector Int64 a.size)
    {e : EvaluationError} (h : (a.exprAt i).eval = .error e) :
    a.evaluateNodes values (a.postOrderAt i) = .error e := by
  fun_induction a.postOrderAt i generalizing values with
  | case1 i w hview =>
    rw [exprAt_of_view_leaf hview] at h
    cases h
  | case2 i op l r hl hr hview ihl ihr =>
    rw [exprAt_of_view_binary hview, Expr.eval_binary] at h
    rw [evaluateNodes_append, evaluateNodes_append]
    cases hx : (a.exprAt l).eval with
    | error d =>
      rw [hx] at h
      cases h
      rw [ihl values hx]
    | ok x =>
      obtain ⟨left, hleft, hgetl, -⟩ := evaluateNodes_of_eval_ok a l values hx
      cases hy : (a.exprAt r).eval with
      | error d =>
        rw [hx, hy] at h
        cases h
        simp only [hleft, ihr left hy]
      | ok y =>
        rw [hx, hy] at h
        obtain ⟨right, hright, hgetr, hsetr⟩ := evaluateNodes_of_eval_ok a r left hy
        have hkept : right.get l = x := hsetr.get_eq hx hgetl
        simp only [hleft, hright, evaluateNodes_singleton, evaluateNode, hview, hkept, hgetr, h]

/-- Visiting the positions under a node leaves the value of its expression at the node, whatever
the values before. -/
theorem map_get_evaluateNodes (a : Arena) (i : Fin a.size) (values : Vector Int64 a.size) :
    (a.evaluateNodes values (a.postOrderAt i)).map (fun next => next.get i) =
      (a.exprAt i).eval := by
  cases h : (a.exprAt i).eval with
  | ok v =>
    obtain ⟨next, hnext, hget, -⟩ := a.evaluateNodes_of_eval_ok i values h
    rw [hnext, ← hget]
    rfl
  | error e =>
    rw [a.evaluateNodes_of_eval_error i values h]
    rfl

end Arena

/-- The interpreter gives the value of the expression that the tree denotes. -/
theorem Tree.interpret_eq (t : Tree) : t.interpret = t.toExpr.eval := by
  unfold interpret toExpr
  rw [postOrder_eq, ← t.arena.map_get_evaluateNodes t.rootIndex (Vector.replicate t.arena.size 0)]
  cases t.arena.evaluateNodes _ (t.arena.postOrderAt t.rootIndex) <;> rfl

end Reckoner
