import Reckoner.Tree.PostOrder

/-!
# The shape of a tree

Counts of leaves and operators, and the most operands that are pending at once, in
one pass over the post-order: a leaf adds an operand, an operator takes two and
leaves one.
-/

set_option autoImplicit false

namespace Reckoner

/-- What the sizing of compiled code needs to know of a tree. -/
structure Shape where
  leafCount : Nat
  operatorCount : Nat
  /-- The most operands pending at once when the tree is evaluated in post-order. -/
  stackDepth : Nat
  deriving DecidableEq

namespace Shape

/-- A shape being measured, with the number of operands pending now. -/
structure Scan where
  shape : Shape
  depth : Nat
  deriving DecidableEq

namespace Scan

/-- Before the first symbol. -/
def start : Scan := ⟨⟨0, 0, 0⟩, 0⟩

/-- Takes one symbol into account. -/
def step (s : Scan) : Symbol → Scan
  | .value _ =>
    { shape :=
        { s.shape with
          leafCount := s.shape.leafCount + 1
          stackDepth := max s.shape.stackDepth (s.depth + 1) }
      depth := s.depth + 1 }
  | .operator _ =>
    { shape := { s.shape with operatorCount := s.shape.operatorCount + 1 }
      depth := s.depth - 1 }

end Scan

/-- The shape of a sequence of symbols. -/
def ofSymbols (symbols : List Symbol) : Shape := (symbols.foldl Scan.step Scan.start).shape

end Shape

/-- The shape of a tree. -/
def Tree.shape (t : Tree) : Shape := Shape.ofSymbols t.symbols

end Reckoner
