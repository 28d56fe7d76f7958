/-!
# The five operators

An expression joins 64-bit signed integers by `+`, `-`, `*`, `/` and `^`.  This
file fixes what each operator is written as, how tightly it binds, and what it
computes: arithmetic wraps at 64 bits, a quotient is cut off toward zero, and the
only failure is a zero divisor.
-/

set_option autoImplicit false

namespace Reckoner

/-- A binary operator on 64-bit signed integers. -/
inductive Operator where
  | add
  | sub
  | mul
  | div
  | xor
  deriving DecidableEq

/-- The way an evaluation can fail. -/
inductive EvaluationError where
  | divisionByZero
  deriving DecidableEq

/-- The text shown for a failed evaluation. -/
def EvaluationError.message : EvaluationError → String
  | .divisionByZero => "division by zero"

namespace Operator

/-- Every operator, in the order in which they are listed to a user. -/
def all : List Operator := [.add, .sub, .mul, .div, .xor]

/-- The operator's name. -/
def name : Operator → String
  | .add => "Add"
  | .sub => "Sub"
  | .mul => "Mul"
  | .div => "Div"
  | .xor => "Xor"

/-- The character an operator is written as. -/
def symbol : Operator → Char
  | .add => '+'
  | .sub => '-'
  | .mul => '*'
  | .div => '/'
  | .xor => '^'

/-- The operator written as `c`, if there is one. -/
def ofSymbol? (c : Char) : Option Operator := all.find? (fun op => op.symbol = c)

/-- An operator is found by its symbol, so no two operators share one. -/
theorem ofSymbol?_symbol (op : Operator) : ofSymbol? op.symbol = some op := by
  cases op <;> decide

/-- A symbol that is found is the symbol of the operator that is found. -/
theorem symbol_of_ofSymbol?_eq_some {c : Char} {op : Operator} (h : ofSymbol? c = some op) :
    op.symbol = c := by
  have hfound := List.find?_some h
  exact of_decide_eq_true hfound

/-- Binding strength: of two neighbouring operators the one of higher precedence takes
its operands first. -/
def precedence : Operator → Nat
  | .xor => 1
  | .add | .sub => 2
  | .mul | .div => 3

/-- Whether a chain of this operator groups from the right; no operator does. -/
def associatesRight (_op : Operator) : Bool := false

/-- Whether, in `a held b next c`, the operator `held` takes `a` and `b` before `next`
takes anything. -/
def bindsBefore (held next : Operator) : Bool :=
  if held.precedence = next.precedence then !next.associatesRight
  else held.precedence > next.precedence

/-- Operators of one precedence group from the left, so the earlier one goes first
exactly when it binds at least as tightly. -/
theorem bindsBefore_iff (held next : Operator) :
    held.bindsBefore next = true ↔ next.precedence ≤ held.precedence := by
  cases held <;> cases next <;> decide

/-- Whether the operator's machine code leaves a by-product in the register that indexes
the constant pool.  The widening multiply does: its high half lands there. -/
def clobbersIndex : Operator → Bool
  | .mul => true
  | _ => false

/-- The value of `l op r`.  Sums, differences and products wrap; a quotient is truncated
toward zero, and the least integer divided by `-1` is itself. -/
def apply (op : Operator) (l r : Int64) : Except EvaluationError Int64 :=
  match op with
  | .add => .ok (l + r)
  | .sub => .ok (l - r)
  | .mul => .ok (l * r)
  | .xor => .ok (l ^^^ r)
  | .div => if r = 0 then .error .divisionByZero else .ok (l / r)

end Operator

end Reckoner
