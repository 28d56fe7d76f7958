import Reckoner.Decimal
import Reckoner.Tree.PostOrder

/-!
# Writing an expression

An expression is written without blanks and with as few brackets as the reading
rules allow: an operand is bracketed when its operator binds less tightly than the
one above it, or as tightly and stands on the right.  `Expr.render` says so by
recursion; `Tree.render` writes a tree from its arena with an explicit stack of
pieces still to be written.
-/

set_option autoImplicit false

namespace Reckoner

/-- Which operand of an operator. -/
inductive Side where
  | left
  | right
  deriving DecidableEq

/-- Whether an operand with operator `child` is bracketed on one side of `parent`. -/
def Operator.needsBrackets (child parent : Operator) (side : Side) : Bool :=
  decide (child.precedence < parent.precedence) ||
    (side = .right && child.precedence = parent.precedence && !parent.associatesRight)

/-- Whether `child` is bracketed where it stands: never at the top. -/
def Operator.bracketed (child : Operator) : Option (Operator × Side) → Bool
  | none => false
  | some (parent, side) => child.needsBrackets parent side

namespace Expr

/-- The text of an expression that stands in a context. -/
def renderIn (context : Option (Operator × Side)) : Expr → List Char
  | leaf v => Decimal.ofInt64 v
  | binary op l r =>
    let inner := l.renderIn (some (op, .left)) ++ op.symbol :: r.renderIn (some (op, .right))
    if op.bracketed context then '(' :: inner ++ [')'] else inner

/-- The text of an expression. -/
def render (e : Expr) : List Char := e.renderIn none

end Expr

/-- A piece of text still to be written. -/
inductive Piece (n : Nat) where
  | char (c : Char)
  | node (i : Fin n) (context : Option (Operator × Side))

namespace Piece

/-- What a piece still costs: one step for a character, four for each node. -/
def cost (a : Arena) : Piece a.size → Nat
  | char _ => 1
  | node i _ => 4 * (a.exprAt i).size

/-- What a stack of pieces still costs. -/
def remaining (a : Arena) : List (Piece a.size) → Nat
  | [] => 0
  | p :: rest => p.cost a + remaining a rest

/-- No piece is free, so taking one off the stack lowers the cost of the rest. -/
theorem cost_pos (a : Arena) (p : Piece a.size) : 0 < p.cost a := by
  cases p with
  | char c => exact Nat.one_pos
  | node i context =>
    have := (a.exprAt i).size_pos
    simp only [cost]
    omega

/-- Writes the pieces in turn after the text written so far. -/
def write {a : Arena} (pieces : List (Piece a.size)) (text : Array Char) : Array Char :=
  match pieces with
  | [] => text
  | .char c :: rest => write rest (text.push c)
  | .node i context :: rest =>
    match _hview : a.view i with
    | .leaf v => write rest (text.appendList (Decimal.ofInt64 v))
    | .binary op l r _ _ =>
      if op.bracketed context then
        write (.node l (some (op, .left)) :: .char op.symbol :: .node r (some (op, .right))
          :: .char ')' :: rest) (text.push '(')
      else
        write (.node l (some (op, .left)) :: .char op.symbol :: .node r (some (op, .right)) :: rest)
          text
termination_by remaining a pieces
decreasing_by
  · simp only [remaining, cost]; omega
  · have := cost_pos a (.node i context)
    simp only [remaining]; omega
  · simp only [remaining, cost, Arena.exprAt_of_view_binary _hview, Expr.size]; omega
  · simp only [remaining, cost, Arena.exprAt_of_view_binary _hview, Expr.size]; omega

end Piece

/-- The text of a tree. -/
def Tree.render (t : Tree) : List Char := (Piece.write [.node t.rootIndex none] #[]).toList

end Reckoner
