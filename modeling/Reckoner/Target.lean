import Reckoner.A64.Machine
import Reckoner.A64.Sequence
import Reckoner.X64.Machine
import Reckoner.X64.Sequence

/-!
# Targets

Code is generated in the same way for every target.  What a target adds is its sizes,
the pieces of code for a fetch, an operator and the end of a program, and the no-op
that fills unused code bytes.
-/

set_option autoImplicit false

namespace Reckoner

/-- The machines that code is generated for. -/
inductive Target where
  | x64
  | a64
  deriving DecidableEq

namespace Target

/-- The bytes of code that push a constant. -/
def fetchSize : Target → Nat
  | x64 => 8
  | a64 => 16

/-- The bytes of code that apply an operator. -/
def operatorSize : Target → Nat
  | x64 => 39
  | a64 => 28

/-- The bytes of code that end a program. -/
def epilogueSize : Target → Nat
  | x64 => 2
  | a64 => 8

/-- The bytes of native stack that a pending operand takes. -/
def stackCell : Target → Nat
  | x64 => X64.stackCell
  | a64 => A64.stackCell

/-- The no-op that fills unused code bytes. -/
def filler : Target → List UInt8
  | x64 => X64.filler.encode
  | a64 => A64.Instruction.nop.encode

/-- The pieces of code that push the constant in a slot, loading the index register or
trusting it. -/
def fetch (target : Target) (slot : UInt32) (reload : Bool) : List (List UInt8) :=
  match target with
  | x64 => (X64.fetch slot reload).map X64.pieceBytes
  | a64 => (A64.fetch slot reload).map A64.pieceBytes

/-- The pieces of code that apply an operator. -/
def operator (target : Target) (op : Operator) : List (List UInt8) :=
  match target with
  | x64 => (X64.operator op).map X64.pieceBytes
  | a64 => (A64.operator op).map A64.pieceBytes

/-- The code that ends a program. -/
def epilogue : Target → List UInt8
  | x64 => X64.pieceBytes X64.epilogue
  | a64 => A64.pieceBytes A64.epilogue

/-- The epilogue has the size that is predicted for it. -/
theorem length_epilogue (target : Target) : target.epilogue.length = target.epilogueSize := by
  cases target <;> rfl

/-- Every operator takes the same number of bytes, however short its own instructions are. -/
theorem length_operator (target : Target) (op : Operator) :
    (target.operator op).flatten.length = target.operatorSize := by
  cases target <;> cases op <;> rfl

/-- A fetch takes the same number of bytes whether its load is elided or not. -/
theorem length_fetch (target : Target) (slot : UInt32) (reload : Bool) :
    (target.fetch slot reload).flatten.length = target.fetchSize := by
  cases target <;> cases reload <;> rfl

/-- What a sealed program does when it is called: its value, a division by zero, or, for
bytes that are no compiled expression, nothing that can be named. -/
def call? (target : Target) (regions : SealedRegions) : Option (Except EvaluationError Int64) :=
  match target with
  | x64 =>
    match X64.runProgram regions with
    | .returned s => some (if s.status = 0 then .ok s.rax else .error .divisionByZero)
    | _ => none
  | a64 =>
    match A64.runProgram regions with
    | .returned s =>
      s.result.map fun v => if s.status = 0 then .ok v else .error .divisionByZero
    | _ => none

end Target

end Reckoner
