import Reckoner.Code.Error

/-!
# Memory for code and constants

A program lives in two regions.  The code region starts out filled with a no-op of the
target, as often as it fits whole, and zeros after that; the pool region starts out
zero.  Constants are written from the start of the pool, eight bytes each.  Sealed
regions are only read.

What the system answers is not part of the model.  It is assumed to grant every region of
at least one byte that is asked for, and every change of protection when regions are
sealed; the one refusal that depends on the request alone, a region of no bytes, is
modelled.  On a real machine a refusal is one more error of compilation, and changes
nothing of what is said here about the programs that are made.
-/

set_option autoImplicit false

namespace Reckoner

/-- The size of a page of memory. -/
def pageSize : Nat := 4096

/-- The sizes that the machine can express are below this bound. -/
def sizeBound : Nat := 0x1_0000_0000_0000_0000

/-- A size, if the machine can express it. -/
def checkedSize (n : Nat) : Option Nat := if n < sizeBound then some n else none

/-- The least whole number of pages, at least one, that holds `n` bytes. -/
def roundToPages? (n : Nat) : Option Nat :=
  (checkedSize (max n 1 + (pageSize - 1))).map fun top => top / pageSize * pageSize

/-- The size of a constant in bytes. -/
def cellSize : Nat := 8

/-- Regions that can still be written. -/
structure Regions where
  code : Array UInt8
  /-- The constants that fit the pool region whole. -/
  pool : Array Int64
  /-- The size of the pool region in bytes. -/
  poolSize : Nat

/-- Regions that can only be read and run. -/
structure SealedRegions where
  code : Array UInt8
  pool : Array Int64

namespace Regions

/-- The initial bytes of a code region. -/
def fill (filler : List UInt8) (size : Nat) : Array UInt8 :=
  let unit := filler.toArray
  let whole := size / unit.size * unit.size
  Array.ofFn fun i : Fin size => if i.val < whole then unit.getD (i.val % unit.size) 0 else 0

/-- Asks for two regions; a region of no bytes is refused, and any other is granted. -/
def allocate (filler : List UInt8) (codeSize poolSize : Nat) : Except CompileError Regions :=
  if codeSize = 0 ∨ poolSize = 0 then .error (.allocationFailed 0 .emptyRegion)
  else .ok ⟨fill filler codeSize, Array.replicate (poolSize / cellSize) 0, poolSize⟩

/-- Overwrites cells from a position on. -/
def overwriteCells (cells : Array Int64) (position : Nat) : List Int64 → Array Int64
  | [] => cells
  | v :: rest => overwriteCells (cells.setIfInBounds position v) (position + 1) rest

/-- Writes constants from the start of the pool, or says why they do not fit. -/
def writePool (r : Regions) (values : Array Int64) : Regions × Option SizeMismatch :=
  let needed := cellSize * values.size
  if needed > r.poolSize then (r, some ⟨needed, r.poolSize⟩)
  else
    match r with
    | ⟨code, pool, poolSize⟩ => (⟨code, overwriteCells pool 0 values.toList, poolSize⟩, none)

/-- Makes the code runnable and both regions read-only, which the system is assumed to allow. -/
def sealed (r : Regions) : SealedRegions := ⟨r.code, r.pool⟩

end Regions

end Reckoner
