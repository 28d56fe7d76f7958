import Reckoner.Arena

/-!
# Building a tree by calls

A tree is built by calls that each add one node and hand out its id; a call that
joins two nodes consumes their ids, and so does naming the root.  A builder keeps the
ids it has handed out and which of them are spent, so an id is used at most once.
-/

set_option autoImplicit false

namespace Reckoner

/-- A request to a builder.  An operand is named by the number of the call that added it. -/
inductive BuildCall where
  | leaf (value : Int64)
  | binary (op : Operator) (left right : Nat)
  deriving DecidableEq

/-- An arena under construction, with the ids handed out so far. -/
structure Builder where
  arena : Arena
  /-- The id that each call has handed out, in call order. -/
  ids : Array NodeId
  /-- Whether the id of each call has been consumed. -/
  spent : Array Bool
  owned : ∀ id ∈ ids, arena.Owns id

namespace Builder

/-- The builder before the first call. -/
def empty : Builder where
  arena := .empty
  ids := #[]
  spent := #[]
  owned := fun _ h => absurd h (Array.not_mem_empty _)

/-- Adds a node and hands out its id. -/
def push (b : Builder) (n : Node) (h : n.Below b.arena.size) : Builder :=
  let added := b.arena.nextId
  { arena := b.arena.push n h
    ids := b.ids.push added
    spent := b.spent.push false
    owned := by
      intro id hid
      rcases Array.mem_push.1 hid with hid | hid
      · exact (b.owned id hid).push n h
      · exact hid ▸ b.arena.owns_nextId n h }

/-- The id of an earlier call that nothing has consumed yet. -/
def unspent? (b : Builder) (call : Nat) : Option { id : NodeId // b.arena.Owns id } :=
  if h : call < b.ids.size then
    if b.spent[call]? = some false then some ⟨b.ids[call], b.owned _ (Array.getElem_mem h)⟩ else none
  else none

/-- Answers one call; a call that names an unknown or spent id is refused. -/
def call? (b : Builder) : BuildCall → Option Builder
  | .leaf v => some (b.push (.leaf v) trivial)
  | .binary op l r =>
    if l = r then none else
      match b.unspent? l, b.unspent? r with
      | some left, some right =>
        let joined := b.push (.binary op left.val right.val) ⟨left.property, right.property⟩
        some { joined with spent := (joined.spent.setIfInBounds l true).setIfInBounds r true }
      | _, _ => none

/-- Answers calls in order. -/
def callAll? (b : Builder) : List BuildCall → Option Builder
  | [] => some b
  | c :: cs =>
    match b.call? c with
    | some next => next.callAll? cs
    | none => none

/-- The tree whose root was added by a call. -/
def finish? (b : Builder) (root : Nat) : Option Tree :=
  match b.unspent? root with
  | some id => some ⟨b.arena, id.val, id.property⟩
  | none => none

end Builder

/-- The tree that a sequence of calls builds, its root named by the number of a call. -/
def Tree.build? (calls : List BuildCall) (root : Nat) : Option Tree :=
  match Builder.empty.callAll? calls with
  | some b => b.finish? root
  | none => none

end Reckoner
