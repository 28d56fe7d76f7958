import Std.Data.HashMap

/-!
# The constant pool

Compiled code finds its constants in a table.  Each distinct value has one slot,
numbered in the order in which the values were first asked for; a hash map finds the
slot of a value that is already there.  Sealing a pool keeps its values and gives up
the means to add more.
-/

set_option autoImplicit false

namespace Reckoner

/-- A pool that can still grow. -/
structure ConstantPool where
  /-- The value in each slot. -/
  values : Array Int64
  /-- The slot of each value. -/
  slots : Std.HashMap Int64 UInt32

/-- A pool that can only be read. -/
structure SealedPool where
  values : Array Int64

namespace ConstantPool

/-- The pool without values. -/
def empty : ConstantPool := ⟨#[], ∅⟩

/-- The number of values. -/
def size (p : ConstantPool) : Nat := p.values.size

/-- The slot of a value, which is added unless it is there. -/
def intern (p : ConstantPool) (v : Int64) : UInt32 × ConstantPool :=
  match p with
  | ⟨values, slots⟩ =>
    match slots[v]? with
    | some slot => (slot, ⟨values, slots⟩)
    | none =>
      let slot := UInt32.ofNat values.size
      (slot, ⟨values.push v, slots.insert v slot⟩)

/-- Adds values in turn, with the slot that each one gets. -/
def internAll (p : ConstantPool) : List Int64 → List UInt32 × ConstantPool
  | [] => ([], p)
  | v :: rest =>
    let (slot, next) := p.intern v
    let (slots, last) := next.internAll rest
    (slot :: slots, last)

/-- Ends the growth of a pool. -/
def sealed (p : ConstantPool) : SealedPool := ⟨p.values⟩

end ConstantPool

namespace SealedPool

/-- The number of values. -/
def size (p : SealedPool) : Nat := p.values.size

end SealedPool

end Reckoner
