import Mathlib.Algebra.Order.Ring.Nat
import Reckoner.Code.Size

/-!
# When sizes are predicted

A prediction that succeeds is exact for the code, leaves room for every slot, and asks
for whole pages.  With at most `2 ^ 31` leaves and `2 ^ 32` operators no size overflows,
so the one thing that can still refuse a shape is its depth.
-/

set_option autoImplicit false

namespace Reckoner

/-- A checked size is the size itself, when it is below the bound. -/
theorem checkedSize_eq_some_iff {n m : Nat} : checkedSize n = some m ↔ n < sizeBound ∧ m = n := by
  unfold checkedSize
  split
  · next h => simp [h, eq_comm]
  · next h => simp [h]

/-- A size below the bound passes the check. -/
theorem checkedSize_of_lt {n : Nat} (h : n < sizeBound) : checkedSize n = some n := if_pos h

/-- The whole pages hold the bytes, and there is at least one page. -/
theorem le_of_roundToPages?_eq_some {n m : Nat} (h : roundToPages? n = some m) :
    n ≤ m ∧ 0 < m := by
  unfold roundToPages? at h
  obtain ⟨top, htop, hm⟩ := Option.map_eq_some_iff.1 h
  obtain ⟨-, rfl⟩ := checkedSize_eq_some_iff.1 htop
  unfold pageSize at hm
  omega

/-- The whole pages are whole pages. -/
theorem dvd_of_roundToPages?_eq_some {n m : Nat} (h : roundToPages? n = some m) : pageSize ∣ m := by
  unfold roundToPages? at h
  obtain ⟨top, -, rfl⟩ := Option.map_eq_some_iff.1 h
  exact Nat.dvd_mul_left _ _

/-- Sizes that stay a page below the bound are rounded. -/
theorem exists_roundToPages?_eq_some {n : Nat} (h : n + pageSize < sizeBound) :
    ∃ m, roundToPages? n = some m := by
  unfold pageSize at h
  unfold roundToPages? pageSize
  rw [checkedSize_of_lt (by omega)]
  exact ⟨_, rfl⟩

namespace CodeSize

/-- The number of code bytes of a shape. -/
def exactLength (target : Target) (shape : Shape) : Nat :=
  shape.leafCount * target.fetchSize + shape.operatorCount * target.operatorSize +
    target.epilogueSize

/-- A code length that is found is exact: no step of it has overflowed. -/
theorem codeLength?_eq_some {target : Target} {shape : Shape} {n : Nat}
    (h : codeLength? target shape = some n) : n = exactLength target shape := by
  unfold codeLength? at h
  simp only [Option.bind_eq_bind, Option.bind_eq_some_iff] at h
  obtain ⟨fetches, hfetches, operators, hoperators, body, hbody, hn⟩ := h
  obtain ⟨-, rfl⟩ := checkedSize_eq_some_iff.1 hfetches
  obtain ⟨-, rfl⟩ := checkedSize_eq_some_iff.1 hoperators
  obtain ⟨-, rfl⟩ := checkedSize_eq_some_iff.1 hbody
  exact (checkedSize_eq_some_iff.1 hn).2

/-- A code length below the bound is found, since every step on the way is smaller. -/
theorem codeLength?_of_lt {target : Target} {shape : Shape}
    (h : exactLength target shape < sizeBound) :
    codeLength? target shape = some (exactLength target shape) := by
  unfold exactLength at h
  simp only [codeLength?, Option.bind_eq_bind]
  rw [checkedSize_of_lt (by omega), Option.bind_some, checkedSize_of_lt (by omega),
    Option.bind_some, checkedSize_of_lt (by omega), Option.bind_some, checkedSize_of_lt h]
  rfl

/-- A size that is not refused was there. -/
theorem orRefuse_eq_ok {size : Option Nat} {fault : AllocationFault} {n : Nat}
    (h : orRefuse size fault = .ok n) : size = some n := by
  unfold orRefuse at h
  split at h
  · cases h; rfl
  · cases h

/-- A computation in two steps succeeds only when both do. -/
theorem bind_eq_ok {ε α β : Type} {x : Except ε α} {f : α → Except ε β} {b : β}
    (h : (x >>= f) = .ok b) : ∃ a, x = .ok a ∧ f a = .ok b := by
  cases x with
  | ok a => exact ⟨a, rfl, h⟩
  | error e => cases h

/-- What a prediction that succeeds says of the shape and of the sizes. -/
structure Fits (target : Target) (shape : Shape) (size : CodeSize) : Prop where
  leafCount_le : shape.leafCount ≤ maxLeaves
  stackDepth_le : shape.stackDepth ≤ maxOperandDepth
  codeLength_eq : size.codeLength = exactLength target shape
  codeLength_le : size.codeLength ≤ size.codeRegion
  pool_le : shape.leafCount * cellSize ≤ size.poolRegion
  codeRegion_pos : 0 < size.codeRegion
  poolRegion_pos : 0 < size.poolRegion

/-- Sizes that are predicted fit: the code within its pages, the constants within theirs, and the
shape within its limits. -/
theorem fits_of_ofShape_eq_ok {target : Target} {shape : Shape} {size : CodeSize}
    (h : ofShape target shape = .ok size) : Fits target shape size := by
  unfold ofShape at h
  split at h
  · cases h
  next hleaves =>
  split at h
  · cases h
  next hdepth =>
  obtain ⟨codeLength, hcode, h⟩ := bind_eq_ok h
  obtain ⟨poolLength, hpool, h⟩ := bind_eq_ok h
  obtain ⟨codeRegion, hcodeRegion, h⟩ := bind_eq_ok h
  obtain ⟨poolRegion, hpoolRegion, h⟩ := bind_eq_ok h
  cases h
  obtain ⟨-, rfl⟩ := checkedSize_eq_some_iff.1 (orRefuse_eq_ok hpool)
  obtain ⟨hcodeLe, hcodePos⟩ := le_of_roundToPages?_eq_some (orRefuse_eq_ok hcodeRegion)
  obtain ⟨hpoolLe, hpoolPos⟩ := le_of_roundToPages?_eq_some (orRefuse_eq_ok hpoolRegion)
  exact
    { leafCount_le := Nat.le_of_not_lt hleaves
      stackDepth_le := Nat.le_of_not_lt hdepth
      codeLength_eq := codeLength?_eq_some (orRefuse_eq_ok hcode)
      codeLength_le := hcodeLe
      pool_le := hpoolLe
      codeRegion_pos := hcodePos
      poolRegion_pos := hpoolPos }

/-- The code region of a prediction consists of whole pages. -/
theorem dvd_codeRegion_of_ofShape_eq_ok {target : Target} {shape : Shape} {size : CodeSize}
    (h : ofShape target shape = .ok size) : pageSize ∣ size.codeRegion := by
  unfold ofShape at h
  split at h
  · cases h
  split at h
  · cases h
  obtain ⟨_, -, h⟩ := bind_eq_ok h
  obtain ⟨_, -, h⟩ := bind_eq_ok h
  obtain ⟨_, hcodeRegion, h⟩ := bind_eq_ok h
  obtain ⟨_, -, h⟩ := bind_eq_ok h
  cases h
  exact dvd_of_roundToPages?_eq_some (orRefuse_eq_ok hcodeRegion)

/-- A shape that is not too large is predicted when it is not too deep. -/
theorem exists_ofShape_eq_ok (target : Target) {shape : Shape} (hleaves : shape.leafCount ≤ 2 ^ 31)
    (hoperators : shape.operatorCount ≤ 2 ^ 32) (hdepth : shape.stackDepth ≤ maxOperandDepth) :
    ∃ size, ofShape target shape = .ok size := by
  have hfetch : target.fetchSize ≤ 16 := by cases target <;> decide
  have hoperator : target.operatorSize ≤ 39 := by cases target <;> decide
  have hepilogue : target.epilogueSize ≤ 8 := by cases target <;> decide
  have hlength : exactLength target shape ≤ 2 ^ 31 * 16 + 2 ^ 32 * 39 + 8 :=
    Nat.add_le_add (Nat.add_le_add (Nat.mul_le_mul hleaves hfetch)
      (Nat.mul_le_mul hoperators hoperator)) hepilogue
  obtain ⟨codeRegion, hcode⟩ := exists_roundToPages?_eq_some (n := exactLength target shape) (by
    unfold pageSize sizeBound
    omega)
  obtain ⟨poolRegion, hpool⟩ := exists_roundToPages?_eq_some (n := shape.leafCount * cellSize) (by
    unfold pageSize sizeBound cellSize
    omega)
  refine ⟨⟨exactLength target shape, codeRegion, poolRegion⟩, ?_⟩
  unfold ofShape
  rw [if_neg (by unfold maxLeaves; omega), if_neg (by omega),
    codeLength?_of_lt (by unfold sizeBound; omega),
    checkedSize_of_lt (by unfold cellSize sizeBound; omega)]
  simp only [orRefuse, bind, Except.bind, hcode, hpool]
  rfl

/-- A shape that is too deep is refused with the bytes of stack it would need. -/
theorem ofShape_of_lt (target : Target) {shape : Shape} (hleaves : shape.leafCount ≤ 2 ^ 31)
    (hpending : shape.stackDepth ≤ shape.leafCount) (hdepth : maxOperandDepth < shape.stackDepth) :
    ofShape target shape =
      .error (.allocationFailed (shape.stackDepth * target.stackCell)
        (.tooDeep shape.stackDepth)) := by
  have hcell : target.stackCell ≤ 16 := by cases target <;> decide
  have hbytes : shape.stackDepth * target.stackCell ≤ 2 ^ 31 * 16 :=
    Nat.mul_le_mul (Nat.le_trans hpending hleaves) hcell
  unfold ofShape
  rw [if_neg (by unfold maxLeaves; omega), if_pos hdepth]
  dsimp only
  rw [Nat.min_eq_left (by unfold sizeBound; omega)]

end CodeSize

end Reckoner
