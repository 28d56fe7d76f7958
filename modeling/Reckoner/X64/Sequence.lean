import Reckoner.Operator
import Reckoner.X64.Instruction

/-!
# x86-64 instruction sequences

Operands wait on the native stack; `rdx` is the index register.  Every sequence has a
fixed length: a fetch 8 bytes, whether it loads the index or trusts it, an operator 39
bytes, the length of a division.  A sequence is a list of pieces, each of which is
appended to the code as a whole.
-/

set_option autoImplicit false

namespace Reckoner.X64

/-- Instructions that are appended together. -/
abbrev Piece := List Instruction

/-- The bytes of a piece. -/
def pieceBytes (piece : Piece) : List UInt8 := piece.flatMap Instruction.encode

/-- The length of a piece in bytes. -/
def pieceLength (piece : Piece) : Nat := (pieceBytes piece).length

/-- The no-op that fills unused code bytes. -/
def filler : Instruction := .nop 0

/-- Pushes the constant in a slot.  Without a reload the index register is trusted, and a
no-op stands in for the load. -/
def fetch (slot : UInt32) (reload : Bool) : List Piece :=
  [[if reload then .loadIndex slot else .nop 4], [.pushConstant]]

/-- Divides `rax` by `rcx`.  A zero divisor is reported in the status word.  A divisor of
minus one negates, because the division would trap on the least integer.  The index
register is saved around the division. -/
def divide : Piece :=
  [ .test .rcx .rcx
  , .jumpNotEqual 9
  , .storeStatus 1
  , .jump 22
  , .compare .rcx 0xFF
  , .jumpNotEqual 5
  , .neg .rax
  , .jump 11
  , .mov .r8 .rdx
  , .cqo
  , .idiv .rcx
  , .mov .rdx .r8 ]

/-- Applies an operator to the left operand in `rax` and the right one in `rcx`. -/
def compute : Operator → Piece
  | .add => [.add .rax .rcx]
  | .sub => [.sub .rax .rcx]
  | .mul => [.imul .rcx]
  | .div => divide
  | .xor => [.xor .rax .rcx]

/-- No-ops of a given length in all, the longest first. -/
def padding (length : Nat) : List Piece :=
  let last : List Piece :=
    if length % 9 = 0 then [] else [[.nop ⟨(length - 1) % 9, Nat.mod_lt _ (by decide)⟩]]
  List.replicate (length / 9) [.nop 8] ++ last

/-- The length of an operator sequence. -/
def operatorLength : Nat := 39

/-- Takes two operands and pushes the result. -/
def operator (op : Operator) : List Piece :=
  let body : List Piece := [[.pop .rcx, .pop .rax], compute op, [.push .rax]]
  body ++ padding (operatorLength - pieceLength body.flatten)

/-- Hands the last operand to the caller. -/
def epilogue : Piece := [.pop .rax, .ret]

end Reckoner.X64
