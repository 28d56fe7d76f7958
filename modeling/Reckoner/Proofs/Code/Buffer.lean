import Reckoner.Code.Buffer
import Reckoner.Code.Regions

/-!
# What a buffer holds after its appends

Appending pieces one by one writes the same bytes as appending their concatenation at
once, so pieces that fit together leave the buffer as one append of all of them would.
Read from the front, the bytes of a buffer are what has been appended; the cells of a
constant region likewise.
-/

set_option autoImplicit false

namespace Reckoner

namespace CodeBuffer

/-- Code that is written in two parts is written as a whole. -/
theorem overwrite_append (bytes : Array UInt8) (position : Nat) (xs ys : List UInt8) :
    overwrite (overwrite bytes position xs) (position + xs.length) ys =
      overwrite bytes position (xs ++ ys) := by
  induction xs generalizing bytes position with
  | nil => rfl
  | cons x xs ih =>
    rw [overwrite, List.cons_append, overwrite, List.length_cons,
      ← ih (bytes.setIfInBounds position x) (position + 1)]
    congr 1
    omega

/-- The bytes up to the end of the code are those in front of it, then the code. -/
theorem take_overwrite (bytes : Array UInt8) (position : Nat) (code : List UInt8)
    (h : position + code.length ≤ bytes.size) :
    (overwrite bytes position code).toList.take (position + code.length) =
      bytes.toList.take position ++ code := by
  have hfront : (bytes.toList.take position).length = position := by
    rw [List.length_take, Array.length_toList]
    omega
  apply List.ext_getElem?
  intro i
  rw [List.getElem?_append, hfront, List.getElem?_take, List.getElem?_take, Array.getElem?_toList,
    Array.getElem?_toList]
  by_cases hfirst : i < position
  · rw [if_pos (by omega), if_pos hfirst, if_pos hfirst,
      getElem?_overwrite_outside _ _ _ _ (Or.inl hfirst)]
  · rw [if_neg hfirst]
    by_cases hsecond : i < position + code.length
    · have hinside := getElem?_overwrite_inside bytes position (i - position) code (by omega) h
      rw [show position + (i - position) = i by omega] at hinside
      rw [if_pos hsecond, hinside]
    · rw [if_neg hsecond, List.getElem?_eq_none (by omega)]

/-- Behind code at the front, the bytes stay. -/
theorem toList_overwrite_zero (bytes : Array UInt8) (code : List UInt8)
    (h : code.length ≤ bytes.size) :
    (overwrite bytes 0 code).toList = code ++ bytes.toList.drop code.length := by
  have hfront := take_overwrite bytes 0 code (by omega)
  rw [Nat.zero_add, List.take_zero, List.nil_append] at hfront
  have hbehind : (overwrite bytes 0 code).toList.drop code.length =
      bytes.toList.drop code.length := by
    apply List.ext_getElem?
    intro i
    rw [List.getElem?_drop, List.getElem?_drop, Array.getElem?_toList, Array.getElem?_toList,
      getElem?_overwrite_outside _ _ _ _ (Or.inr (by omega))]
  rw [← List.take_append_drop code.length (overwrite bytes 0 code).toList, hfront, hbehind]

/-- The buffer after code has been appended. -/
def extend (b : CodeBuffer) (code : List UInt8) : CodeBuffer :=
  { b with
    bytes := overwrite b.bytes b.length code
    length := b.length + code.length }

/-- Extending a buffer moves its end by the length of the code. -/
@[simp] theorem length_extend (b : CodeBuffer) (code : List UInt8) :
    (b.extend code).length = b.length + code.length := rfl

/-- Extending by no code changes nothing. -/
theorem extend_nil (b : CodeBuffer) : b.extend [] = b := rfl

/-- Extending twice is extending by both codes in order. -/
theorem extend_append (b : CodeBuffer) (xs ys : List UInt8) :
    (b.extend xs).extend ys = b.extend (xs ++ ys) := by
  simp only [extend, overwrite_append, List.length_append, Nat.add_assoc]

/-- Pieces that fit together are all appended. -/
theorem emitAll_of_le (b : CodeBuffer) (pieces : List (List UInt8))
    (h : b.length + pieces.flatten.length ≤ b.capacity - b.reserve) :
    b.emitAll pieces = (b.extend pieces.flatten, none) := by
  induction pieces generalizing b with
  | nil => rfl
  | cons piece rest ih =>
    rw [List.flatten_cons, List.length_append] at h
    have hpiece : b.emit piece = (b.extend piece, none) := by
      unfold emit
      rw [append_eq, if_pos (by omega)]
      rfl
    have hrest := ih (b.extend piece) (by
      rw [length_extend]
      change b.length + piece.length + rest.flatten.length ≤ b.capacity - b.reserve
      omega)
    rw [emitAll, hpiece, List.flatten_cons, ← extend_append]
    exact hrest

/-- Pieces in front of the first one that does not fit are appended. -/
theorem emitAll_append_of_lt (b : CodeBuffer) (front rest : List (List UInt8)) (piece : List UInt8)
    (hfront : b.length + front.flatten.length ≤ b.capacity - b.reserve)
    (hpiece : b.capacity - b.reserve < b.length + front.flatten.length + piece.length) :
    b.emitAll (front ++ piece :: rest) =
      (b.extend front.flatten,
        some ⟨b.length + front.flatten.length + piece.length, b.capacity - b.reserve⟩) := by
  induction front generalizing b with
  | nil =>
    have hlong : ¬b.length + piece.length ≤ b.capacity - b.reserve := Nat.not_le.2 hpiece
    rw [List.nil_append, emitAll, emit, append_eq, if_neg hlong]
    rfl
  | cons first front ih =>
    rw [List.flatten_cons, List.length_append, ← Nat.add_assoc] at hfront hpiece ⊢
    rw [List.cons_append, emitAll, emit, append_eq, if_pos (by omega), ← extend_append]
    exact ih (b.extend first) hfront hpiece

/-- How many more bytes of ordinary code fit. -/
def room (b : CodeBuffer) : Nat := b.capacity - b.reserve - b.length

/-- Pieces that are too long together have a first one that goes too far. -/
theorem exists_first_too_long {pieces : List (List UInt8)} {room : Nat}
    (h : room < pieces.flatten.length) :
    ∃ front piece rest, pieces = front ++ piece :: rest ∧ front.flatten.length ≤ room ∧
      room < front.flatten.length + piece.length := by
  induction pieces generalizing room with
  | nil => exact absurd h (Nat.not_lt_zero room)
  | cons piece pieces ih =>
    rw [List.flatten_cons, List.length_append] at h
    by_cases hpiece : room < piece.length
    · exact ⟨[], piece, pieces, rfl, Nat.zero_le _, by simpa using hpiece⟩
    · have hrest : room - piece.length < pieces.flatten.length := by omega
      obtain ⟨front, next, rest, rfl, hfront, hnext⟩ := ih hrest
      refine ⟨piece :: front, next, rest, rfl, ?_, ?_⟩
      · rw [List.flatten_cons, List.length_append]
        omega
      · rw [List.flatten_cons, List.length_append]
        omega

/-- Pieces are all appended, or those in front of the first one that does not fit. -/
theorem emitAll_cases (b : CodeBuffer) (pieces : List (List UInt8))
    (h : b.length ≤ b.capacity - b.reserve) :
    (pieces.flatten.length ≤ b.room ∧ b.emitAll pieces = (b.extend pieces.flatten, none)) ∨
      ∃ front piece rest mismatch, pieces = front ++ piece :: rest ∧
        front.flatten.length ≤ b.room ∧ b.room < front.flatten.length + piece.length ∧
        b.emitAll pieces = (b.extend front.flatten, some mismatch) := by
  unfold room
  rcases Nat.lt_or_ge (b.capacity - b.reserve - b.length) pieces.flatten.length with hlong | hfits
  · obtain ⟨front, piece, rest, rfl, hfront, hpiece⟩ := exists_first_too_long hlong
    have hall := b.emitAll_append_of_lt front rest piece (by omega) (by omega)
    exact .inr ⟨front, piece, rest, _, rfl, hfront, hpiece, hall⟩
  · exact .inl ⟨hfits, b.emitAll_of_le pieces (by omega)⟩

/-- The bytes that have been appended. -/
def written (b : CodeBuffer) : List UInt8 := b.bytes.toList.take b.length

/-- With room for it, the code stands behind what was written before. -/
theorem written_extend (b : CodeBuffer) (code : List UInt8)
    (h : b.length + code.length ≤ b.bytes.size) :
    (b.extend code).written = b.written ++ code :=
  take_overwrite b.bytes b.length code h

/-- Final code that fits is appended. -/
theorem emitFinal_of_le (b : CodeBuffer) (code : List UInt8)
    (h : b.length + code.length ≤ b.capacity) : b.emitFinal code = (b.extend code, none) := by
  unfold emitFinal
  rw [append_eq, if_pos h]
  rfl

/-- A buffer is created when its capacity lies within the bytes and holds the reserve. -/
theorem create_of_le (bytes : Array UInt8) {capacity reserve : Nat} (hsize : capacity ≤ bytes.size)
    (hreserve : reserve ≤ capacity) :
    create bytes capacity reserve = .ok ⟨bytes, 0, capacity, reserve⟩ := by
  unfold create
  rw [if_neg (by omega)]

/-- A buffer that is made is empty, holds its reserve within its capacity, and its capacity within
its memory. -/
theorem eq_of_create_eq_ok {bytes : Array UInt8} {capacity reserve : Nat} {buffer : CodeBuffer}
    (h : create bytes capacity reserve = .ok buffer) :
    reserve ≤ capacity ∧ capacity ≤ bytes.size ∧ buffer = ⟨bytes, 0, capacity, reserve⟩ := by
  unfold create at h
  split at h
  · cases h
  · next hsize =>
    cases h
    exact ⟨by omega, by omega, rfl⟩

end CodeBuffer

namespace Regions

/-- A filled region has the size that is asked for. -/
@[simp] theorem size_fill (filler : List UInt8) (size : Nat) : (fill filler size).size = size :=
  Array.size_ofFn

/-- The cells after constants have been written: those in front, the constants, and what lies
behind them. -/
theorem toList_overwriteCells (cells : Array Int64) (position : Nat) (values : List Int64)
    (h : position + values.length ≤ cells.size) :
    (overwriteCells cells position values).toList =
      cells.toList.take position ++ values ++ cells.toList.drop (position + values.length) := by
  induction values generalizing cells position with
  | nil => simp [overwriteCells]
  | cons v rest ih =>
    rw [List.length_cons] at h
    have hposition : position < cells.toList.length := by
      rw [Array.length_toList]
      omega
    rw [overwriteCells, ih _ _ (by rw [Array.size_setIfInBounds]; omega),
      Array.toList_setIfInBounds, List.take_add_one, List.take_set_of_le (Nat.le_refl position),
      List.getElem?_set_self hposition, List.drop_set_of_lt (by omega)]
    simp [Nat.add_assoc, Nat.add_comm 1]

/-- Constants written from the start of a region stand at its front. -/
theorem prefix_overwriteCells (cells : Array Int64) (values : List Int64)
    (h : values.length ≤ cells.size) : values <+: (overwriteCells cells 0 values).toList := by
  rw [toList_overwriteCells _ _ _ (by omega), List.take_zero, List.nil_append]
  exact List.prefix_append _ _

end Regions

end Reckoner
