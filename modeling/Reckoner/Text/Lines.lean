/-!
# Lines of bytes

A line ends with a line feed, or with a carriage return and a line feed; neither is
part of the line.  What follows the last line feed is a line too, unless it is empty,
and a carriage return at its end belongs to it.
-/

set_option autoImplicit false

namespace Reckoner

/-- The byte that ends a line. -/
def lineFeed : UInt8 := 10

/-- The byte that is dropped in front of a line feed. -/
def carriageReturn : UInt8 := 13

/-- A line that a line feed has ended, its bytes given last one first. -/
def endedLine (reversed : List UInt8) : List UInt8 :=
  if reversed.head? = some carriageReturn then reversed.tail.reverse else reversed.reverse

/-- Cuts bytes into lines, after the bytes of the current line, last one first, and the
lines already cut. -/
def cutLines (current : List UInt8) (done : Array (List UInt8)) :
    List UInt8 → Array (List UInt8)
  | [] => if current.isEmpty then done else done.push current.reverse
  | b :: rest =>
    if b = lineFeed then cutLines [] (done.push (endedLine current)) rest
    else cutLines (b :: current) done rest

/-- The lines of some bytes. -/
def lines (bytes : List UInt8) : List (List UInt8) := (cutLines [] #[] bytes).toList

end Reckoner
