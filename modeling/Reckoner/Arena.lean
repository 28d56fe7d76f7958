import Reckoner.Expr

/-!
# Expressions in an arena

The nodes of a tree lie in one array, each after its operands, and refer to each
other by 32-bit ids.  An id is the position of its node as long as the array holds at
most `2 ^ 32` nodes; the narrowing to 32 bits is unchecked, so from then on ids repeat.
Whatever the ids, a node only ever refers to earlier positions: an arena carries
that fact, and with it every walk down the nodes ends.

A `Tree` is an arena with a root.  Nodes that the root does not reach may lie in the
arena; `Tree.toExpr` is the expression that the root denotes.
-/

set_option autoImplicit false

namespace Reckoner

/-- A 32-bit reference to a node. -/
structure NodeId where
  number : UInt32
  deriving DecidableEq

/-- The array position that an id refers to. -/
def NodeId.index (id : NodeId) : Nat := id.number.toNat

/-- The id handed out for the node at a position: its low 32 bits. -/
def NodeId.ofIndex (i : Nat) : NodeId := ⟨UInt32.ofNat i⟩

/-- An id keeps the low 32 bits of the position it is made from. -/
theorem NodeId.index_ofIndex (i : Nat) : (NodeId.ofIndex i).index = i % UInt32.size :=
  UInt32.toNat_ofNat'

/-- Making an id never leads to a later position. -/
theorem NodeId.index_ofIndex_le (i : Nat) : (NodeId.ofIndex i).index ≤ i := by
  rw [NodeId.index_ofIndex]
  exact Nat.mod_le _ _

/-- Below `2 ^ 32` an id stands for exactly the position it is made from. -/
theorem NodeId.index_ofIndex_of_lt {i : Nat} (h : i < UInt32.size) :
    (NodeId.ofIndex i).index = i := by
  rw [NodeId.index_ofIndex, Nat.mod_eq_of_lt h]

/-- A node: a value, or an operator on two other nodes. -/
inductive Node where
  | leaf (value : Int64)
  | binary (op : Operator) (left right : NodeId)
  deriving DecidableEq

namespace Node

/-- Both operands of the node lie at positions below `bound`. -/
def Below (bound : Nat) : Node → Prop
  | leaf _ => True
  | binary _ l r => l.index < bound ∧ r.index < bound

/-- The node's contribution to a traversal. -/
def symbol : Node → Symbol
  | leaf v => .value v
  | binary op _ _ => .operator op

end Node

/-- Nodes in one array, each after the nodes it refers to. -/
structure Arena where
  nodes : Array Node
  ordered : ∀ (i : Nat) (h : i < nodes.size), nodes[i].Below i

namespace Arena

/-- The number of nodes. -/
def size (a : Arena) : Nat := a.nodes.size

/-- The id refers to a node of the arena. -/
def Owns (a : Arena) (id : NodeId) : Prop := id.index < a.size

instance (a : Arena) (id : NodeId) : Decidable (a.Owns id) :=
  inferInstanceAs (Decidable (id.index < a.size))

/-- The arena without nodes. -/
def empty : Arena where
  nodes := #[]
  ordered := fun i h => absurd h (Nat.not_lt_zero i)

/-- Adds a node after those it refers to. -/
def push (a : Arena) (n : Node) (h : n.Below a.size) : Arena where
  nodes := a.nodes.push n
  ordered := by
    intro i hi
    rw [Array.getElem_push]
    split
    · exact a.ordered i _
    · rename_i hlt
      rw [Array.size_push] at hi
      have : i = a.nodes.size := by omega
      exact this ▸ h

/-- A push adds one node. -/
@[simp] theorem size_push (a : Arena) (n : Node) (h : n.Below a.size) :
    (a.push n h).size = a.size + 1 := Array.size_push ..

/-- The id that the next node will get. -/
def nextId (a : Arena) : NodeId := NodeId.ofIndex a.size

/-- Adds a leaf. -/
def leaf (a : Arena) (v : Int64) : Arena := a.push (.leaf v) trivial

/-- Adds an operator on two nodes of the arena. -/
def binary (a : Arena) (op : Operator) (l r : NodeId) (hl : a.Owns l) (hr : a.Owns r) : Arena :=
  a.push (.binary op l r) ⟨hl, hr⟩

/-- A leaf is one node more. -/
@[simp] theorem size_leaf (a : Arena) (v : Int64) : (a.leaf v).size = a.size + 1 := size_push ..

/-- An operator is one node more: its operands are there already. -/
@[simp] theorem size_binary (a : Arena) (op : Operator) (l r : NodeId) (hl : a.Owns l)
    (hr : a.Owns r) : (a.binary op l r hl hr).size = a.size + 1 := size_push ..

/-- An id that is owned is still owned when the arena has grown. -/
theorem Owns.push {a : Arena} {id : NodeId} (h : a.Owns id) (n : Node) (hn : n.Below a.size) :
    (a.push n hn).Owns id := by
  unfold Owns at *
  rw [size_push]
  omega

/-- The id of a node is one of the arena's as soon as the node is added. -/
theorem owns_nextId (a : Arena) (n : Node) (h : n.Below a.size) : (a.push n h).Owns a.nextId := by
  unfold Owns
  rw [size_push]
  exact Nat.lt_succ_of_le (NodeId.index_ofIndex_le _)

/-- What lies at position `i`, with operands given as the earlier positions they are. -/
inductive View (n i : Nat) where
  | leaf (value : Int64)
  | binary (op : Operator) (left right : Fin n) (hl : left.val < i) (hr : right.val < i)

/-- The node at a position. -/
def node (a : Arena) (i : Fin a.size) : Node :=
  have h : i.val < a.nodes.size := i.isLt
  a.nodes[i.val]

/-- A position of the arena is below its size. -/
theorem val_lt_size (a : Arena) (i : Fin a.size) : i.val < a.size := i.isLt

/-- The operands of a node come before it, in every arena. -/
theorem node_below (a : Arena) (i : Fin a.size) : (a.node i).Below i.val := a.ordered i.val i.isLt

/-- Reads the node at a position. -/
def view (a : Arena) (i : Fin a.size) : View a.size i.val :=
  match a.node i, a.node_below i with
  | .leaf v, _ => .leaf v
  | .binary op l r, h =>
    .binary op ⟨l.index, Nat.lt_trans h.1 i.isLt⟩ ⟨r.index, Nat.lt_trans h.2 i.isLt⟩ h.1 h.2

/-- The traversal symbol of the node at a position. -/
def symbolAt (a : Arena) (i : Fin a.size) : Symbol := (a.node i).symbol

/-- The expression that the node at a position denotes. -/
def exprAt (a : Arena) (i : Fin a.size) : Expr :=
  match a.view i with
  | .leaf v => .leaf v
  | .binary op l r _ _ => .binary op (a.exprAt l) (a.exprAt r)
termination_by i.val

end Arena

/-- An arena with a root among its nodes. -/
structure Tree where
  arena : Arena
  root : NodeId
  owns_root : arena.Owns root

namespace Tree

/-- The position of the root. -/
def rootIndex (t : Tree) : Fin t.arena.size := ⟨t.root.index, t.owns_root⟩

/-- The expression that the tree denotes. -/
def toExpr (t : Tree) : Expr := t.arena.exprAt t.rootIndex

end Tree

end Reckoner
