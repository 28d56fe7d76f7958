import Reckoner.Code.Regions
import Reckoner.Target
import Reckoner.Tree.Shape

/-!
# Predicting sizes

The sizes of code and constants follow from the shape of a tree before any code is
made: every leaf is one fetch and every operator one sequence, and each leaf may need a
slot of its own.  Shapes with too many slots, too many pending operands or too much
code are refused, in this order.
-/

set_option autoImplicit false

namespace Reckoner

/-- Slots are 32-bit numbers. -/
def maxLeaves : Nat := 0xFFFF_FFFF

/-- The sizes of a program, in bytes. -/
structure CodeSize where
  /-- The exact length of the code. -/
  codeLength : Nat
  codeRegion : Nat
  poolRegion : Nat
  deriving DecidableEq

namespace CodeSize

/-- The refusal of a size that the machine cannot express. -/
def overflow (fault : AllocationFault) : CompileError := .allocationFailed (sizeBound - 1) fault

/-- The value of a size, or its refusal. -/
def orRefuse (size : Option Nat) (fault : AllocationFault) : Except CompileError Nat :=
  match size with
  | some n => .ok n
  | none => .error (overflow fault)

/-- The length of the code of a shape, if the machine can express it. -/
def codeLength? (target : Target) (shape : Shape) : Option Nat := do
  let fetches ← checkedSize (shape.leafCount * target.fetchSize)
  let operators ← checkedSize (shape.operatorCount * target.operatorSize)
  let body ← checkedSize (fetches + operators)
  checkedSize (body + target.epilogueSize)

/-- The sizes of a program for a tree of a shape. -/
def ofShape (target : Target) (shape : Shape) : Except CompileError CodeSize :=
  if maxLeaves < shape.leafCount then .error (overflow .poolOverflow)
  else if maxOperandDepth < shape.stackDepth then
    let stackSize := min (shape.stackDepth * target.stackCell) (sizeBound - 1)
    .error (.allocationFailed stackSize (.tooDeep shape.stackDepth))
  else do
    let codeLength ← orRefuse (codeLength? target shape) .codeOverflow
    let poolLength ← orRefuse (checkedSize (shape.leafCount * cellSize)) .poolOverflow
    let codeRegion ← orRefuse (roundToPages? codeLength) .codeOverflow
    let poolRegion ← orRefuse (roundToPages? poolLength) .poolOverflow
    return ⟨codeLength, codeRegion, poolRegion⟩

end CodeSize

end Reckoner
