import Reckoner.Code.Error

/-!
# The code buffer

Code is appended to the front part of a given array of bytes, its capacity.  The last
bytes of the capacity are kept back for the code that ends a program: an ordinary
append may not reach them.  An append that does not fit changes nothing.
-/

set_option autoImplicit false

namespace Reckoner

/-- Bytes that are filled from the front. -/
structure CodeBuffer where
  bytes : Array UInt8
  /-- How many bytes have been appended. -/
  length : Nat
  /-- How many bytes may be appended in all. -/
  capacity : Nat
  /-- How many bytes at the end of the capacity are kept for the final code. -/
  reserve : Nat

namespace CodeBuffer

/-- Overwrites bytes from a position on. -/
def overwrite (bytes : Array UInt8) (position : Nat) : List UInt8 → Array UInt8
  | [] => bytes
  | b :: rest => overwrite (bytes.setIfInBounds position b) (position + 1) rest

/-- Overwriting leaves the size of the memory as it is. -/
@[simp] theorem size_overwrite (bytes : Array UInt8) (position : Nat) (code : List UInt8) :
    (overwrite bytes position code).size = bytes.size := by
  induction code generalizing bytes position with
  | nil => rfl
  | cons b rest ih => rw [overwrite, ih, Array.size_setIfInBounds]

/-- Bytes in front of the position, and behind the code, stay as they are. -/
theorem getElem?_overwrite_outside (bytes : Array UInt8) (position i : Nat) (code : List UInt8)
    (h : i < position ∨ position + code.length ≤ i) :
    (overwrite bytes position code)[i]? = bytes[i]? := by
  induction code generalizing bytes position with
  | nil => rfl
  | cons b rest ih =>
    rw [List.length_cons] at h
    rw [overwrite, ih _ _ (by omega), Array.getElem?_setIfInBounds_ne (by omega)]

/-- The bytes from the position on are the code, as far as there is room for it. -/
theorem getElem?_overwrite_inside (bytes : Array UInt8) (position i : Nat) (code : List UInt8)
    (hi : i < code.length) (hroom : position + code.length ≤ bytes.size) :
    (overwrite bytes position code)[position + i]? = code[i]? := by
  induction code generalizing bytes position i with
  | nil => exact absurd hi (Nat.not_lt_zero i)
  | cons b rest ih =>
    rw [List.length_cons] at hi hroom
    cases i with
    | zero =>
      rw [overwrite, getElem?_overwrite_outside _ _ _ _ (Or.inl (by omega)), Nat.add_zero,
        Array.getElem?_setIfInBounds_self_of_lt (by omega), List.getElem?_cons_zero]
    | succ j =>
      have hj := ih (bytes.setIfInBounds position b) (position + 1) j (by omega)
        (by rw [Array.size_setIfInBounds]; omega)
      rw [overwrite, List.getElem?_cons_succ, ← hj, show position + (j + 1) = position + 1 + j by omega]

/-- A buffer over bytes.  The capacity has to lie within them and to hold the reserve. -/
def create (bytes : Array UInt8) (capacity reserve : Nat) : Except SizeMismatch CodeBuffer :=
  if capacity > bytes.size ∨ capacity < reserve then .error ⟨capacity, bytes.size⟩
  else .ok ⟨bytes, 0, capacity, reserve⟩

/-- Appends code up to a limit, or says why it does not fit. -/
def append (b : CodeBuffer) (limit : Nat) (code : List UInt8) : CodeBuffer × Option SizeMismatch :=
  let stop := b.length + code.length
  if stop > limit then (b, some ⟨stop, limit⟩)
  else
    match b with
    | ⟨bytes, length, capacity, reserve⟩ =>
      (⟨overwrite bytes length code, stop, capacity, reserve⟩, none)

/-- An append that fits advances the length by the length of the code, and one that does not
changes nothing. -/
theorem append_eq (b : CodeBuffer) (limit : Nat) (code : List UInt8) :
    b.append limit code =
      if b.length + code.length ≤ limit then
        ({ b with
            bytes := overwrite b.bytes b.length code
            length := b.length + code.length }, none)
      else (b, some ⟨b.length + code.length, limit⟩) := by
  unfold append
  by_cases h : b.length + code.length ≤ limit
  · rw [if_pos h, if_neg (Nat.not_lt.2 h)]
  · rw [if_neg h, if_pos (Nat.lt_of_not_le h)]

/-- Appends ordinary code, which may not reach the reserve. -/
def emit (b : CodeBuffer) (code : List UInt8) : CodeBuffer × Option SizeMismatch :=
  b.append (b.capacity - b.reserve) code

/-- Appends final code, which may use the whole capacity. -/
def emitFinal (b : CodeBuffer) (code : List UInt8) : CodeBuffer × Option SizeMismatch :=
  b.append b.capacity code

/-- Appends pieces of ordinary code in turn, up to the first one that does not fit. -/
def emitAll (b : CodeBuffer) : List (List UInt8) → CodeBuffer × Option SizeMismatch
  | [] => (b, none)
  | piece :: rest =>
    match b.emit piece with
    | (next, none) => next.emitAll rest
    | (next, some mismatch) => (next, some mismatch)

end CodeBuffer

end Reckoner
