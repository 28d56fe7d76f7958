import Reckoner.Proofs.Arena.Builder
import Reckoner.Proofs.Arena.Paths

/-!
# Nodes that are built have one parent

A call that joins two ids spends them, and a spent id is refused.  As long as ids are exact, the id
of a call is the position of the node that the call has added, so a node that has become an operand
is never joined again.  `Builder.Exclusive` is what holds between two calls.  It follows that no
node of a built tree is an operand twice.
-/

set_option autoImplicit false

namespace Reckoner

/-- The id of the operand on a side. -/
def Node.operand? : Node → Side → Option NodeId
  | leaf _, _ => none
  | binary _ l _, .left => some l
  | binary _ _ r, .right => some r

namespace Arena

/-- The number of the position that holds the operand on a side. -/
def operandIndex? (a : Arena) (i : Nat) (side : Side) : Option Nat :=
  a.nodes[i]?.bind fun n => (n.operand? side).map NodeId.index

/-- Operands as positions are operands as numbers. -/
theorem map_val_operand? (a : Arena) (i : Fin a.size) (side : Side) :
    (a.operand? i side).map Fin.val = a.operandIndex? i.val side := by
  have hnode : a.nodes[i.val]? = some (a.node i) := Array.getElem?_eq_getElem i.isLt
  unfold operandIndex? operand? view
  rw [hnode, Option.bind_some]
  split
  · next hview =>
    split at hview
    · next hleaf _ =>
      rw [hleaf]
      rfl
    · cases hview
  · next hview =>
    split at hview
    · cases hview
    · next hbinary _ =>
      cases hview
      rw [hbinary]
      rfl
  · next hview =>
    split at hview
    · cases hview
    · next hbinary _ =>
      cases hview
      rw [hbinary]
      rfl

/-- A push gives operands to the new position and leaves those of all others as they are. -/
theorem operandIndex?_push (a : Arena) (n : Node) (h : n.Below a.size) (i : Nat) (side : Side) :
    (a.push n h).operandIndex? i side =
      if i = a.size then (n.operand? side).map NodeId.index else a.operandIndex? i side := by
  have hnodes : (a.push n h).nodes[i]? = if i = a.size then some n else a.nodes[i]? :=
    Array.getElem?_push
  unfold operandIndex?
  rw [hnodes]
  split <;> rfl

/-- An arena where no number is an operand twice has one parent for each node. -/
theorem oneParent_of_operandIndex? {a : Arena}
    (h : ∀ i j k side other, a.operandIndex? i side = some k → a.operandIndex? j other = some k →
      i = j ∧ side = other) : a.OneParent := by
  intro i j k side other hi hj
  obtain ⟨hval, hside⟩ := h i.val j.val k.val side other
    (by rw [← map_val_operand?, hi]; rfl) (by rw [← map_val_operand?, hj]; rfl)
  exact ⟨Fin.ext hval, hside⟩

end Arena

namespace Builder

/-- What is set stays set. -/
private theorem getElem?_setIfInBounds_of_eq_true {xs : Array Bool} {k : Nat}
    (h : xs[k]? = some true) (i : Nat) : (xs.setIfInBounds i true)[k]? = some true := by
  rw [Array.getElem?_setIfInBounds]
  split
  · next hik => rw [if_pos (hik ▸ (Array.getElem?_eq_some_iff.1 h).1)]
  · exact h

/-- Each id is the position of its call's node, and operands are spent, each by one node. -/
structure Exclusive (b : Builder) : Prop where
  size_ids : b.ids.size = b.arena.size
  size_spent : b.spent.size = b.arena.size
  index_ids : ∀ (k : Nat) (h : k < b.ids.size), b.ids[k].index = k
  spent_of_operand : ∀ i side k, b.arena.operandIndex? i side = some k → b.spent[k]? = some true
  once : ∀ i j k side other, b.arena.operandIndex? i side = some k →
    b.arena.operandIndex? j other = some k → i = j ∧ side = other

/-- The invariant holds before the first call. -/
theorem exclusive_empty : Exclusive empty where
  size_ids := rfl
  size_spent := rfl
  index_ids := fun k h => absurd h (Nat.not_lt_zero k)
  spent_of_operand := fun _ _ _ h => by cases h
  once := fun _ _ _ _ _ h _ => by cases h

/-- An unspent id is the position of its call's node. -/
theorem Exclusive.unspent {b : Builder} (h : b.Exclusive) {k : Nat}
    {id : { id : NodeId // b.arena.Owns id }} (hid : b.unspent? k = some id) :
    id.val.index = k ∧ b.spent[k]? = some false := by
  unfold unspent? at hid
  split at hid
  · next hk =>
    split at hid
    · next hspent =>
      cases hid
      exact ⟨h.index_ids k hk, hspent⟩
    · cases hid
  · cases hid

/-- A node is added whose operands were unspent before and are spent after it, and which does not
take one node twice. -/
theorem Exclusive.push {b next : Builder} (h : b.Exclusive) (hroom : b.arena.size < 2 ^ 32)
    (n : Node) (hn : n.Below b.arena.size) (harena : next.arena = b.arena.push n hn)
    (hids : next.ids = b.ids.push b.arena.nextId) (hsize : next.spent.size = b.spent.size + 1)
    (hkept : ∀ k : Nat, b.spent[k]? = some true → next.spent[k]? = some true)
    (hadded : ∀ side k, (n.operand? side).map NodeId.index = some k →
      b.spent[k]? = some false ∧ next.spent[k]? = some true)
    (hsides : ∀ side other k, (n.operand? side).map NodeId.index = some k →
      (n.operand? other).map NodeId.index = some k → side = other) : next.Exclusive := by
  have hedge : ∀ i side k, next.arena.operandIndex? i side = some k →
      i = b.arena.size ∧ (n.operand? side).map NodeId.index = some k ∨
        b.arena.operandIndex? i side = some k := by
    intro i side k hk
    rw [harena, Arena.operandIndex?_push] at hk
    split at hk
    · next hi => exact .inl ⟨hi, hk⟩
    · exact .inr hk
  -- an operand of an earlier node has been spent, so it is none of the new node
  have hapart : ∀ i side other k, b.arena.operandIndex? i side = some k →
      (n.operand? other).map NodeId.index ≠ some k := by
    intro i side other k hold hnew
    have hspent := h.spent_of_operand i side k hold
    rw [(hadded other k hnew).1] at hspent
    cases hspent
  refine ⟨?_, ?_, ?_, ?_, ?_⟩
  · rw [hids, harena, Array.size_push, Arena.size_push, h.size_ids]
  · rw [hsize, harena, Arena.size_push, h.size_spent]
  · intro k hk
    simp only [hids, Array.size_push] at hk
    simp only [hids, Array.getElem_push]
    split
    · next hlt => exact h.index_ids k hlt
    · rw [Arena.index_nextId hroom, ← h.size_ids]
      omega
  · intro i side k hk
    rcases hedge i side k hk with ⟨-, hnew⟩ | hold
    · exact (hadded side k hnew).2
    · exact hkept k (h.spent_of_operand i side k hold)
  · intro i j k side other hi hj
    rcases hedge i side k hi with ⟨rfl, hnew⟩ | hold
    · rcases hedge j other k hj with ⟨rfl, hnew'⟩ | hold'
      · exact ⟨rfl, hsides side other k hnew hnew'⟩
      · exact absurd hnew (hapart j other side k hold')
    · rcases hedge j other k hj with ⟨-, hnew'⟩ | hold'
      · exact absurd hnew' (hapart i side other k hold)
      · exact h.once i j k side other hold hold'

/-- A call that is answered spends the operands of the node that it adds. -/
theorem Exclusive.call? {b next : Builder} (h : b.Exclusive) {c : BuildCall}
    (hc : b.call? c = some next) (hroom : b.arena.size < 2 ^ 32) : next.Exclusive := by
  have hpushed : ∀ k : Nat, b.spent[k]? = some true → (b.spent.push false)[k]? = some true := by
    intro k hk
    have hlt := (Array.getElem?_eq_some_iff.1 hk).1
    rw [Array.getElem?_push, if_neg (by omega), hk]
  obtain ⟨v, rfl, rfl⟩ | ⟨op, l, r, left, right, joined, rfl, hne, hleft, hright, rfl, rfl⟩ :=
    call?_eq_some hc
  · exact h.push hroom (.leaf v) trivial rfl rfl (Array.size_push _) hpushed
      (fun _ _ hk => by cases hk) (fun _ _ _ hk _ => by cases hk)
  · obtain ⟨hl, hunspentLeft⟩ := h.unspent hleft
    obtain ⟨hr, hunspentRight⟩ := h.unspent hright
    have hoperand : ∀ side k,
        ((Node.binary op left.val right.val).operand? side).map NodeId.index = some k →
          side = .left ∧ k = l ∨ side = .right ∧ k = r := by
      intro side k hk
      cases side with
      | left => exact .inl ⟨rfl, by rw [← hl]; exact (Option.some.inj hk).symm⟩
      | right => exact .inr ⟨rfl, by rw [← hr]; exact (Option.some.inj hk).symm⟩
    refine h.push hroom (.binary op left.val right.val) ⟨left.property, right.property⟩ rfl rfl
      ?_ ?_ ?_ ?_
    · simp [Builder.push]
    · intro k hk
      exact getElem?_setIfInBounds_of_eq_true
        (getElem?_setIfInBounds_of_eq_true (hpushed k hk) l) r
    · intro side k hk
      have hlt : ∀ {k : Nat}, b.spent[k]? = some false → k < (b.spent.push false).size := by
        intro k hk
        rw [Array.size_push]
        exact Nat.lt_succ_of_lt (Array.getElem?_eq_some_iff.1 hk).1
      obtain ⟨rfl, rfl⟩ | ⟨rfl, rfl⟩ := hoperand side k hk
      · exact ⟨hunspentLeft, getElem?_setIfInBounds_of_eq_true
          (Array.getElem?_setIfInBounds_self_of_lt (hlt hunspentLeft)) r⟩
      · refine ⟨hunspentRight, Array.getElem?_setIfInBounds_self_of_lt ?_⟩
        rw [Array.size_setIfInBounds]
        exact hlt hunspentRight
    · intro side other k hk hk'
      obtain ⟨rfl, rfl⟩ | ⟨rfl, rfl⟩ := hoperand side k hk
      · obtain ⟨rfl, -⟩ | ⟨-, hkr⟩ := hoperand other k hk'
        · rfl
        · exact absurd hkr hne
      · obtain ⟨-, hkl⟩ | ⟨rfl, -⟩ := hoperand other k hk'
        · exact absurd hkl.symm hne
        · rfl

/-- Calls that are all answered never make a node an operand twice, while ids are exact. -/
theorem Exclusive.callAll? {b last : Builder} (h : b.Exclusive) {calls : List BuildCall}
    (hcalls : b.callAll? calls = some last) (hroom : last.arena.size ≤ 2 ^ 32) :
    last.Exclusive := by
  induction calls generalizing b with
  | nil =>
    cases hcalls
    exact h
  | cons c cs ih =>
    rw [Builder.callAll?] at hcalls
    split at hcalls
    · next mid hmid =>
      have hstep := size_of_call?_eq_some hmid
      have hrest := size_le_of_callAll?_eq_some hcalls
      exact ih (h.call? hmid (by omega)) hcalls
    · cases hcalls

end Builder

/-- No node of a built tree is an operand twice. -/
theorem Tree.Built.oneParent {t : Tree} (h : t.Built) : t.arena.OneParent := by
  obtain ⟨⟨calls, root, hbuild⟩, hsize⟩ := h
  obtain ⟨b, id, hb, -, rfl⟩ := Tree.build?_eq_some hbuild
  exact Arena.oneParent_of_operandIndex? (Builder.exclusive_empty.callAll? hb hsize).once

end Reckoner
