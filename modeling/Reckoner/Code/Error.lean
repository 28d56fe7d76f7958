/-!
# Why code cannot be made

Making code fails when memory for it is not granted, for one of a few reasons, or when
a piece of code or of data does not fit the space it was given.

The reasons are those that the request itself gives.  A system that is out of memory, or
that does not let memory be made runnable, has reasons of its own; they are assumed away,
and there is no case for them here.
-/

set_option autoImplicit false

namespace Reckoner

/-- The bytes that were needed, and those that were there. -/
structure SizeMismatch where
  needed : Nat
  capacity : Nat
  deriving DecidableEq

/-- The text shown when something does not fit. -/
def SizeMismatch.message (m : SizeMismatch) : String :=
  "code size mismatch: " ++ m.needed.repr ++ " bytes needed, " ++ m.capacity.repr ++ " available"

/-- The most operands that generated code may have pending on the native stack. -/
def maxOperandDepth : Nat := 16384

/-- Why memory is not granted. -/
inductive AllocationFault where
  | codeOverflow
  | poolOverflow
  /-- More operands would be pending than the native stack is trusted with. -/
  | tooDeep (depth : Nat)
  /-- A region of no bytes was asked for. -/
  | emptyRegion
  deriving DecidableEq

/-- The text shown for a refused allocation. -/
def AllocationFault.message : AllocationFault → String
  | .codeOverflow => "code size overflows"
  | .poolOverflow => "constant pool size overflows"
  | .tooDeep depth =>
    "operand stack depth " ++ depth.repr ++ " exceeds " ++ maxOperandDepth.repr
  | .emptyRegion => "Invalid argument (os error 22)"

/-- Why a tree is not compiled, by a system that grants every region and every change of
protection. -/
inductive CompileError where
  | allocationFailed (size : Nat) (fault : AllocationFault)
  | sizeMismatch (mismatch : SizeMismatch)
  deriving DecidableEq

/-- The text shown when a tree is not compiled. -/
def CompileError.message : CompileError → String
  | .allocationFailed size fault =>
    "failed to allocate " ++ size.repr ++ " bytes of jit memory: " ++ fault.message
  | .sizeMismatch mismatch => mismatch.message

end Reckoner
