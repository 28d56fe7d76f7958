import Mathlib.Data.List.DropRight
import Reckoner.Text.Lines
import Reckoner.Text.WhiteSpace

/-!
# Lines, from the pieces between line feeds

Line feeds cut some bytes into pieces.  A line feed ends every piece but the last one, and a
carriage return in front of it does not belong to the line; the last piece is a line as it is,
unless it is empty.

A line counts as empty when nothing is left of it once the white space at both ends is gone.
-/

set_option autoImplicit false

namespace Reckoner

/-- A line that a line feed has ended, without a carriage return in front of it. -/
def withoutReturn (line : List UInt8) : List UInt8 :=
  if line.getLast? = some carriageReturn then line.dropLast else line

/-- The lines that some pieces make which line feeds keep apart. -/
def linesOfPieces (pieces : List (List UInt8)) : List (List UInt8) :=
  pieces.dropLast.map withoutReturn ++ pieces.getLast?.toList.filter (· ≠ [])

/-- A line that is collected backwards is ended as it is forwards. -/
theorem endedLine_eq (reversed : List UInt8) :
    endedLine reversed = withoutReturn reversed.reverse := by
  rw [endedLine, withoutReturn, List.getLast?_reverse, List.dropLast_reverse]

/-- A piece that others follow has been ended by a line feed, and is a line of its own. -/
theorem linesOfPieces_cons (piece : List UInt8) {pieces : List (List UInt8)} (h : pieces ≠ []) :
    linesOfPieces (piece :: pieces) = withoutReturn piece :: linesOfPieces pieces := by
  obtain ⟨next, rest, rfl⟩ := List.exists_cons_of_ne_nil h
  simp [linesOfPieces, List.getLast?_cons_cons]

/-- Cutting lines one byte at a time gives those of the pieces between line feeds. -/
theorem toList_cutLines (current : List UInt8) (done : Array (List UInt8)) (bytes : List UInt8) :
    (cutLines current done bytes).toList =
      done.toList ++ linesOfPieces (bytes.splitOnPPrepend (· == lineFeed) current) := by
  induction bytes generalizing current done with
  | nil =>
    rw [cutLines, List.splitOnPPrepend_nil]
    cases current with
    | nil => simp [linesOfPieces]
    | cons b current => simp [linesOfPieces]
  | cons b rest ih =>
    rw [cutLines, List.splitOnPPrepend_cons_eq_if]
    by_cases hb : b = lineFeed
    · rw [if_pos hb, if_pos (beq_iff_eq.2 hb), ih, linesOfPieces_cons _ (List.splitOnP_ne_nil _ _),
        endedLine_eq, List.splitOnPPrepend_nil_right]
      simp
    · rw [if_neg hb, if_neg (fun h => hb (beq_iff_eq.1 h)), ih]

/-- The lines of some bytes are those of the pieces between the line feeds. -/
theorem lines_eq (bytes : List UInt8) : lines bytes = linesOfPieces (bytes.splitOn lineFeed) := by
  rw [lines, toList_cutLines]
  rfl

/-- A text without the white space at both ends. -/
def trimmed (text : List Char) : List Char :=
  (text.dropWhile isWhiteSpace).rdropWhile isWhiteSpace

/-- Nothing is left of a text exactly when it is all white space. -/
theorem trimmed_eq_nil_iff (text : List Char) :
    trimmed text = [] ↔ text.all isWhiteSpace = true := by
  rw [trimmed, List.rdropWhile_eq_nil_iff, List.all_eq_true]
  constructor
  · intro h
    have hnil : text.dropWhile isWhiteSpace = [] := by
      cases hdrop : text.dropWhile isWhiteSpace with
      | nil => rfl
      | cons c rest =>
        -- white space would have been dropped
        have hfirst := List.head?_dropWhile_not isWhiteSpace text
        rw [hdrop] at h hfirst
        have hc := h c List.mem_cons_self
        simp [hc] at hfirst
    exact List.dropWhile_eq_nil_iff.1 hnil
  · intro h c hc
    exact h c ((List.dropWhile_sublist _).subset hc)

/-- A line feed after a carriage return, one by itself, and a carriage return at the end. -/
example : lines [0x31, 0x0D, 0x0A, 0x0A, 0x32, 0x0D] = [[0x31], [], [0x32, 0x0D]] := by decide

end Reckoner
