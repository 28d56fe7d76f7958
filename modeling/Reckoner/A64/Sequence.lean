import Reckoner.A64.Instruction
import Reckoner.Operator

/-!
# AArch64 instruction sequences

Operands wait on the native stack in cells of 16 bytes; `x9` is the index register.
A fetch has four instructions, whether it loads the index or trusts it, and an operator
seven, the length of a division.  Each instruction is appended to the code on its own,
but for the last two.
-/

set_option autoImplicit false

namespace Reckoner.A64

/-- Instructions that are appended together. -/
abbrev Piece := List Instruction

/-- The bytes of a piece. -/
def pieceBytes (piece : Piece) : List UInt8 := piece.flatMap Instruction.encode

/-- Puts a slot number into the index register, in two halves of 16 bits. -/
def loadIndex (slot : UInt32) : List Instruction :=
  [.movz .x9 (slot.toBitVec.extractLsb' 0 16), .movk .x9 (slot.toBitVec.extractLsb' 16 16)]

/-- Pushes the constant in a slot.  Without a reload the index register is trusted, and
no-ops stand in for the load. -/
def fetch (slot : UInt32) (reload : Bool) : List Piece :=
  let index := if reload then loadIndex slot else [.nop, .nop]
  let push : List Instruction := [.loadConstant .x10 .x9, .push .x10]
  (index ++ push).map fun i => [i]

/-- Applies an operator to the left operand in `x10` and the right one in `x11`.  The high
half of a product goes to the index register.  A zero divisor is reported in the status
word and then divides to zero. -/
def compute : Operator → List Instruction
  | .add => [.arithmetic .add .x10 .x10 .x11]
  | .sub => [.arithmetic .sub .x10 .x10 .x11]
  | .mul => [.arithmetic .smulh .x9 .x10 .x11, .arithmetic .mul .x10 .x10 .x11]
  | .div =>
    [ .branchNonzero .x11 3
    , .movz .x12 1
    , .storeStatus .x12
    , .arithmetic .sdiv .x10 .x10 .x11 ]
  | .xor => [.arithmetic .eor .x10 .x10 .x11]

/-- The number of instructions of an operator sequence. -/
def operatorWords : Nat := 7

/-- Takes two operands and pushes the result. -/
def operator (op : Operator) : List Piece :=
  let body : List Instruction := [.pop .x11, .pop .x10] ++ compute op ++ [.push .x10]
  (body ++ List.replicate (operatorWords - body.length) Instruction.nop).map fun i => [i]

/-- Hands the last operand to the caller. -/
def epilogue : Piece := [.popResult, .ret]

end Reckoner.A64
