import Mathlib.Data.Fintype.Card
import Mathlib.Data.List.Nodup
import Reckoner.Proofs.Arena.Ownership
import Reckoner.Proofs.Tree.Loops

/-!
# Ids and positions

The builder answers every sequence of calls that name earlier calls, each of them at most once.  The
node of a call lies at the position that is the call's number, however long the sequence is; its id
keeps the low 32 bits of this number.  Up to `2 ^ 32` calls the ids are therefore different and each
refers to the node of its call.  The next call gets the id of the first one again, and whoever uses
it uses the first node.

What goes wrong then goes no further.  An id refers to one of the first `2 ^ 32` positions, and the
nodes there were added while ids were exact, so a finished tree is one of these nodes with what lies
below it: no node of it is visited twice, and all loops over it end.
-/

set_option autoImplicit false

namespace Reckoner

namespace Arena

/-- An operand stands before the node it is an operand of. -/
theorem lt_of_operandIndex?_eq_some (a : Arena) {i k : Nat} {side : Side}
    (h : a.operandIndex? i side = some k) : k < i := by
  obtain ⟨n, hn, hoperand⟩ := Option.bind_eq_some_iff.1 h
  obtain ⟨hi, rfl⟩ := Array.getElem?_eq_some_iff.1 hn
  have hbelow := a.ordered i hi
  cases hnode : a.nodes[i] with
  | leaf v =>
    rw [hnode] at hoperand
    cases hoperand
  | binary op l r =>
    rw [hnode] at hoperand hbelow
    cases side with
    | left =>
      cases hoperand
      exact hbelow.1
    | right =>
      cases hoperand
      exact hbelow.2

/-- Where no node is an operand twice, an expression has no more nodes than the arena. -/
theorem OneParent.size_exprAt_le {a : Arena} (h : a.OneParent) (i : Fin a.size) :
    (a.exprAt i).size ≤ a.size := by
  have hlength := congrArg List.length (a.map_symbolAt_postOrderAt i)
  rw [List.length_map, Expr.length_postOrder] at hlength
  have hcard := (h.nodup_postOrderAt i).length_le_card
  rwa [hlength, Fintype.card_fin] at hcard

end Arena

namespace BuildCall

/-- The numbers of the calls whose ids a call consumes. -/
def operands : BuildCall → List Nat
  | leaf _ => []
  | binary _ l r => [l, r]

/-- The node that a call adds.  Its operands are the ids that have been handed out for the calls
that it names. -/
def node : BuildCall → Node
  | leaf v => .leaf v
  | binary op l r => .binary op (.ofIndex l) (.ofIndex r)

/-- Calls name earlier calls, and each of them at most once. -/
structure Linear (calls : List BuildCall) : Prop where
  earlier : ∀ (k : Nat) (hk : k < calls.length), ∀ j ∈ calls[k].operands, j < k
  once : (calls.flatMap operands).Nodup

namespace Linear

/-- The first of some linear calls are linear too. -/
theorem left {front back : List BuildCall} (h : Linear (front ++ back)) : Linear front where
  earlier := by
    intro k hk j hj
    apply h.earlier k (by rw [List.length_append]; omega) j
    rwa [List.getElem_append_left hk]
  once := by
    have honce := h.once
    rw [List.flatMap_append] at honce
    exact honce.of_append_left

/-- The call that comes last names calls before it, and none that has been named. -/
theorem last {front : List BuildCall} {c : BuildCall} (h : Linear (front ++ [c])) :
    (∀ j ∈ c.operands, j < front.length) ∧ c.operands.Nodup ∧
      ∀ j ∈ c.operands, j ∉ front.flatMap operands := by
  have honce := h.once
  rw [List.flatMap_append, List.flatMap_singleton, List.nodup_append'] at honce
  obtain ⟨-, hnodup, hdisjoint⟩ := honce
  refine ⟨?_, hnodup, ?_⟩
  · intro j hj
    apply h.earlier front.length (by simp) j
    rwa [List.getElem_concat_length rfl]
  · intro j hj hnamed
    exact hdisjoint hnamed hj

end Linear

end BuildCall

namespace Builder

open BuildCall

/-- What a builder holds when it has answered calls. -/
structure Tracks (b : Builder) (calls : List BuildCall) : Prop where
  nodes : b.arena.nodes.toList = calls.map BuildCall.node
  ids : b.ids.toList = (List.range calls.length).map NodeId.ofIndex
  size_spent : b.spent.size = calls.length
  spent_iff : ∀ j : Nat, b.spent[j]? = some true ↔ j ∈ calls.flatMap operands

/-- A builder that has not been called keeps track of no calls. -/
theorem tracks_empty : Tracks empty [] where
  nodes := rfl
  ids := rfl
  size_spent := rfl
  spent_iff := fun j => by simp [empty]

namespace Tracks

variable {b : Builder} {calls : List BuildCall}

/-- There is one node for each call. -/
theorem size_arena (h : b.Tracks calls) : b.arena.size = calls.length := by
  have hlength := congrArg List.length h.nodes
  rwa [Array.length_toList, List.length_map] at hlength

/-- The node at a position is that of the call with the same number. -/
theorem getElem?_nodes (h : b.Tracks calls) (k : Nat) :
    b.arena.nodes[k]? = calls[k]?.map BuildCall.node := by
  rw [← Array.getElem?_toList, h.nodes, List.getElem?_map]

/-- The id that a call hands out is its number, narrowed to an id. -/
theorem getElem?_ids (h : b.Tracks calls) {k : Nat} (hk : k < calls.length) :
    b.ids[k]? = some (.ofIndex k) := by
  rw [← Array.getElem?_toList, h.ids, List.getElem?_map, List.getElem?_range hk]
  rfl

/-- The id of a call that no call has named is handed out. -/
theorem exists_unspent? (h : b.Tracks calls) {k : Nat} (hk : k < calls.length)
    (hnew : k ∉ calls.flatMap operands) :
    ∃ id, b.unspent? k = some id ∧ id.val = .ofIndex k := by
  obtain ⟨hlt, hid⟩ := Array.getElem?_eq_some_iff.1 (h.getElem?_ids hk)
  have hspent : b.spent[k]? = some false := by
    have hsize : k < b.spent.size := h.size_spent ▸ hk
    rw [← h.spent_iff k, Array.getElem?_eq_getElem hsize, Option.some.injEq] at hnew
    rw [Array.getElem?_eq_getElem hsize, Bool.eq_false_iff.2 hnew]
  refine ⟨⟨b.ids[k], b.owned _ (Array.getElem_mem hlt)⟩, ?_, hid⟩
  rw [unspent?, dif_pos hlt, if_pos hspent]

/-- A call adds its node, with the next number as id. -/
theorem push (h : b.Tracks calls) {next : Builder} {c : BuildCall} {n : Node}
    (hn : n.Below b.arena.size) (hnode : n = c.node) (harena : next.arena = b.arena.push n hn)
    (hids : next.ids = b.ids.push b.arena.nextId) (hsize : next.spent.size = b.spent.size + 1)
    (hspent : ∀ j : Nat, next.spent[j]? = some true ↔ b.spent[j]? = some true ∨ j ∈ c.operands) :
    next.Tracks (calls ++ [c]) where
  nodes := by
    rw [harena, Arena.push, Array.toList_push, h.nodes, hnode, List.map_append, List.map_singleton]
  ids := by
    rw [hids, Array.toList_push, h.ids, Arena.nextId, h.size_arena, List.length_append,
      List.length_singleton, List.range_succ, List.map_append, List.map_singleton]
  size_spent := by
    rw [hsize, h.size_spent, List.length_append, List.length_singleton]
  spent_iff := by
    intro j
    rw [hspent j, h.spent_iff j, List.flatMap_append, List.flatMap_singleton, List.mem_append]

/-- A call that names earlier calls that are not spent is answered. -/
theorem exists_call? (h : b.Tracks calls) {c : BuildCall} (hlinear : Linear (calls ++ [c])) :
    ∃ next, b.call? c = some next ∧ next.Tracks (calls ++ [c]) := by
  have hpushed : ∀ j : Nat, (b.spent.push false)[j]? = some true ↔ b.spent[j]? = some true := by
    intro j
    rw [Array.getElem?_push]
    split
    · next hj => simp [hj]
    · rfl
  obtain ⟨hearlier, hnodup, hnew⟩ := hlinear.last
  cases c with
  | leaf v =>
    have hbelow : (Node.leaf v).Below b.arena.size := trivial
    refine ⟨b.push (.leaf v) hbelow, rfl, ?_⟩
    apply h.push hbelow rfl rfl rfl (Array.size_push _)
    intro j
    simp [Builder.push, hpushed, operands]
  | binary op l r =>
    have hne : l ≠ r := by simpa [operands] using hnodup
    have hl : l < calls.length := hearlier l (by simp [operands])
    have hr : r < calls.length := hearlier r (by simp [operands])
    obtain ⟨left, hleft, hleftId⟩ := h.exists_unspent? hl (hnew l (by simp [operands]))
    obtain ⟨right, hright, hrightId⟩ := h.exists_unspent? hr (hnew r (by simp [operands]))
    have hbelow : (Node.binary op left.val right.val).Below b.arena.size :=
      ⟨left.property, right.property⟩
    let joined := b.push (.binary op left.val right.val) hbelow
    refine ⟨{ joined with spent := (joined.spent.setIfInBounds l true).setIfInBounds r true },
      ?_, ?_⟩
    · simp only [call?, if_neg hne, hleft, hright, joined]
    · apply h.push hbelow _ rfl rfl
      · simp [joined, Builder.push]
      · intro j
        have hsize := h.size_spent
        simp only [joined, Builder.push, Array.getElem?_setIfInBounds, Array.size_setIfInBounds,
          Array.size_push, operands, List.mem_cons, List.not_mem_nil, or_false]
        rw [← hpushed j]
        by_cases hjr : r = j
        · rw [if_pos hjr, if_pos (by omega)]
          simp [hjr]
        · rw [if_neg hjr]
          by_cases hjl : l = j
          · rw [if_pos hjl, if_pos (by omega)]
            simp [hjl]
          · rw [if_neg hjl]
            have hjl' : j ≠ l := Ne.symm hjl
            have hjr' : j ≠ r := Ne.symm hjr
            simp [hjl', hjr']
      · rw [node, hleftId, hrightId]

/-- All calls are answered, when each names earlier calls that are not spent. -/
theorem exists_callAll? (h : b.Tracks calls) {more : List BuildCall}
    (hlinear : Linear (calls ++ more)) :
    ∃ last, b.callAll? more = some last ∧ last.Tracks (calls ++ more) := by
  induction more generalizing b calls with
  | nil => exact ⟨b, rfl, by rwa [List.append_nil]⟩
  | cons c rest ih =>
    have hsplit : calls ++ c :: rest = (calls ++ [c]) ++ rest := by simp
    rw [hsplit] at hlinear ⊢
    obtain ⟨next, hnext, htracks⟩ := h.exists_call? hlinear.left
    rw [callAll?, hnext]
    exact ih htracks hlinear

end Tracks

/-- From the start all calls are answered. -/
theorem exists_tracks {calls : List BuildCall} (h : Linear calls) :
    ∃ b, empty.callAll? calls = some b ∧ b.Tracks calls := by
  obtain ⟨b, hcalls, htracks⟩ := tracks_empty.exists_callAll? h
  rw [List.nil_append] at htracks
  exact ⟨b, hcalls, htracks⟩

/-! ## How far ids go -/

namespace Tracks

variable {b : Builder} {calls : List BuildCall}

/-- Ids are different exactly as long as there are no more than `2 ^ 32` calls. -/
theorem nodup_ids_iff (h : b.Tracks calls) : b.ids.toList.Nodup ↔ calls.length ≤ 2 ^ 32 := by
  rw [h.ids]
  constructor
  · intro hnodup
    by_contra hmany
    have hfirst : 0 ∈ List.range calls.length := List.mem_range.2 (by omega)
    have hagain : 2 ^ 32 ∈ List.range calls.length := List.mem_range.2 (by omega)
    have hsame : NodeId.ofIndex 0 = NodeId.ofIndex (2 ^ 32) := by decide
    have hzero := List.inj_on_of_nodup_map hnodup hfirst hagain hsame
    omega
  · intro hfew
    refine List.Nodup.map_on ?_ List.nodup_range
    intro j hj k hk hsame
    have hindex := congrArg NodeId.index hsame
    rw [List.mem_range] at hj hk
    rwa [NodeId.index_ofIndex_of_lt (Nat.lt_of_lt_of_le hj hfew),
      NodeId.index_ofIndex_of_lt (Nat.lt_of_lt_of_le hk hfew)] at hindex

/-- As long as they are, the id of a call refers to the node of the call. -/
theorem getElem?_nodes_index (h : b.Tracks calls) (hfew : calls.length ≤ 2 ^ 32) {k : Nat}
    {c : BuildCall} (hc : calls[k]? = some c) :
    b.arena.nodes[(NodeId.ofIndex k).index]? = some c.node := by
  obtain ⟨hk, -⟩ := List.getElem?_eq_some_iff.1 hc
  rw [NodeId.index_ofIndex_of_lt (Nat.lt_of_lt_of_le hk hfew), h.getElem?_nodes, hc]
  rfl

/-- An id denotes an expression with no more nodes than there are calls.  It refers to one of the
first `2 ^ 32` nodes, of which none is an operand twice. -/
theorem size_exprAt_le (h : b.Tracks calls) (hlinear : Linear calls) (id : NodeId)
    (howns : b.arena.Owns id) : (b.arena.exprAt ⟨id.index, howns⟩).size ≤ calls.length := by
  have hlow : Linear (calls.take (2 ^ 32)) := by
    rw [← List.take_append_drop (2 ^ 32) calls] at hlinear
    exact hlinear.left
  obtain ⟨low, hcalls, htracks⟩ := exists_tracks hlow
  have hsize : low.arena.size = min (2 ^ 32) calls.length := by
    rw [htracks.size_arena, List.length_take]
  have hbound : id.index < 2 ^ 32 := id.number.toNat_lt
  have hwithin : id.index < low.arena.size := by
    rw [hsize, lt_min_iff]
    exact ⟨hbound, h.size_arena ▸ howns⟩
  have hsame : b.arena.exprAt ⟨id.index, howns⟩ = low.arena.exprAt ⟨id.index, hwithin⟩ := by
    apply Arena.exprAt_congr
    intro j hj hjlow hle
    have hnode := htracks.getElem?_nodes j
    rw [List.getElem?_take_of_lt (Nat.lt_of_le_of_lt hle hbound), ← h.getElem?_nodes j] at hnode
    have hleft : b.arena.nodes[j]? = some (b.arena.node ⟨j, hj⟩) := Array.getElem?_eq_getElem hj
    have hright : low.arena.nodes[j]? = some (low.arena.node ⟨j, hjlow⟩) :=
      Array.getElem?_eq_getElem hjlow
    rw [hleft, hright] at hnode
    exact (Option.some.inj hnode).symm
  have honce := (exclusive_empty.callAll? hcalls (by omega)).once
  have hle := (Arena.oneParent_of_operandIndex? honce).size_exprAt_le ⟨id.index, hwithin⟩
  rw [hsame]
  omega

end Tracks

/-- Calls that name earlier calls, and each of them at most once, are answered.  Whatever their
number, the node of each call lies at its number, operands lie before their operator, and what an
unspent id denotes is walked, evaluated and written by loops that end.  Up to `2 ^ 32` calls, and no
further, the ids are different; then each refers to the node of its call, and no node is an operand
twice. -/
theorem arena_well_formed {calls : List BuildCall} (h : Linear calls) :
    ∃ b, empty.callAll? calls = some b ∧ b.arena.size = calls.length ∧
      (∀ (k : Nat) (c : BuildCall), calls[k]? = some c →
        b.ids[k]? = some (.ofIndex k) ∧ b.arena.nodes[k]? = some c.node) ∧
      (∀ i side k, b.arena.operandIndex? i side = some k → k < i) ∧
      (∀ root < calls.length, root ∉ calls.flatMap operands →
        ∃ t, b.finish? root = some t ∧ t.toExpr.size ≤ calls.length ∧ t.LoopsEnd) ∧
      (b.ids.toList.Nodup ↔ calls.length ≤ 2 ^ 32) ∧
      (calls.length ≤ 2 ^ 32 →
        (∀ (k : Nat) (c : BuildCall), calls[k]? = some c →
          ∃ id, b.ids[k]? = some id ∧ b.arena.nodes[id.index]? = some c.node) ∧
        b.arena.OneParent) := by
  obtain ⟨b, hcalls, htracks⟩ := exists_tracks h
  refine ⟨b, hcalls, htracks.size_arena, ?_, ?_, ?_, htracks.nodup_ids_iff, ?_⟩
  · intro k c hc
    obtain ⟨hk, -⟩ := List.getElem?_eq_some_iff.1 hc
    refine ⟨htracks.getElem?_ids hk, ?_⟩
    rw [htracks.getElem?_nodes, hc]
    rfl
  · intro i side k hk
    exact b.arena.lt_of_operandIndex?_eq_some hk
  · intro root hroot hunspent
    obtain ⟨id, hid, -⟩ := htracks.exists_unspent? hroot hunspent
    refine ⟨⟨b.arena, id.val, id.property⟩, ?_, htracks.size_exprAt_le h id.val id.property,
      Tree.loopsEnd _⟩
    rw [finish?, hid]
  · intro hfew
    constructor
    · intro k c hc
      obtain ⟨hk, -⟩ := List.getElem?_eq_some_iff.1 hc
      exact ⟨.ofIndex k, htracks.getElem?_ids hk, htracks.getElem?_nodes_index hfew hc⟩
    · have hexclusive := exclusive_empty.callAll? hcalls (by rwa [htracks.size_arena])
      exact Arena.oneParent_of_operandIndex? hexclusive.once

/-- In `6 * 7` the ids are 0, 1 and 2, the product has the first two as operands, and the tree can
be walked and evaluated. -/
theorem arena_well_formed_six_times_seven :
    Linear [.leaf 6, .leaf 7, .binary .mul 0 1] ∧
    ∃ b t, empty.callAll? [.leaf 6, .leaf 7, .binary .mul 0 1] = some b ∧
      b.ids.toList = [⟨0⟩, ⟨1⟩, ⟨2⟩] ∧
      b.arena.nodes[2]? = some (.binary .mul ⟨0⟩ ⟨1⟩) ∧ b.arena.OneParent ∧
      b.finish? 2 = some t ∧ t.LoopsEnd ∧ t.interpret = .ok 42 := by
  have hlinear : Linear [.leaf 6, .leaf 7, .binary .mul 0 1] := ⟨by decide, by decide⟩
  obtain ⟨b, hcalls, -, hnodes, -, htrees, -, hexact⟩ := arena_well_formed hlinear
  obtain ⟨t, ht, -, hloops⟩ := htrees 2 (by decide) (by decide)
  obtain ⟨-, honce⟩ := hexact (by decide)
  have hfacts : (empty.callAll? [.leaf 6, .leaf 7, .binary .mul 0 1]).map
      (fun b => (b.ids.toList, (b.finish? 2).map Tree.interpret)) =
        some ([⟨0⟩, ⟨1⟩, ⟨2⟩], some (.ok 42)) := by decide +kernel
  rw [hcalls, Option.map_some, ht, Option.map_some] at hfacts
  obtain ⟨hids, hvalue⟩ := Prod.mk.inj (Option.some.inj hfacts)
  exact ⟨hlinear, b, t, hcalls, hids, (hnodes 2 _ rfl).2, honce, ht, hloops,
    Option.some.inj hvalue⟩

end Builder

/-! ## One call more -/

namespace BuildCall

/-- The calls that add `n` ones to a one, from left to right. -/
def sumOfOnes : Nat → List BuildCall
  | 0 => [.leaf 1]
  | n + 1 => sumOfOnes n ++ [.leaf 1] ++ [.binary .add (2 * n) (2 * n + 1)]

/-- The first one takes one call, and each further one two: a leaf and a sum. -/
theorem length_sumOfOnes (n : Nat) : (sumOfOnes n).length = 2 * n + 1 := by
  induction n with
  | zero => rfl
  | succ n ih =>
    simp only [sumOfOnes, List.length_append, List.length_singleton, ih]
    omega

/-- The first call makes a leaf. -/
theorem getElem?_sumOfOnes_zero (n : Nat) : (sumOfOnes n)[0]? = some (.leaf 1) := by
  induction n with
  | zero => rfl
  | succ n ih =>
    have hlength := length_sumOfOnes n
    rw [sumOfOnes, List.append_assoc, List.getElem?_append_left (by omega), ih]

/-- The last call adds the last one to the sum before it. -/
theorem getElem?_sumOfOnes_last {n : Nat} (h : n ≠ 0) :
    (sumOfOnes n)[2 * n]? = some (.binary .add (2 * n - 2) (2 * n - 1)) := by
  obtain ⟨m, rfl⟩ := Nat.exists_eq_succ_of_ne_zero h
  have hlength : (sumOfOnes m ++ [leaf 1]).length = 2 * (m + 1) := by
    rw [List.length_append, length_sumOfOnes, List.length_singleton]
    omega
  rw [sumOfOnes, ← hlength, List.getElem?_concat_length, hlength]
  rfl

/-- Every call but the last is named. -/
theorem flatMap_operands_sumOfOnes (n : Nat) :
    (sumOfOnes n).flatMap operands = List.range (2 * n) := by
  induction n with
  | zero => rfl
  | succ n ih =>
    have hrange : List.range (2 * (n + 1)) = List.range (2 * n) ++ [2 * n] ++ [2 * n + 1] := by
      rw [← List.range_succ, ← List.range_succ]
      rfl
    rw [sumOfOnes, List.flatMap_append, List.flatMap_append, ih, hrange]
    simp [operands]

/-- The calls of a sum of ones name earlier calls only, each of them once. -/
theorem linear_sumOfOnes (n : Nat) : Linear (sumOfOnes n) where
  earlier := by
    induction n with
    | zero => simp [sumOfOnes, operands]
    | succ n ih =>
      intro k hk j hj
      have hlength := length_sumOfOnes n
      simp only [sumOfOnes, List.getElem_append, List.length_append, List.length_singleton] at hj
      split at hj
      · split at hj
        · next hlt => exact ih k hlt j hj
        · simp [operands] at hj
      · simp only [List.getElem_singleton, operands, List.mem_cons, List.not_mem_nil,
          or_false] at hj
        omega
  once := by
    rw [flatMap_operands_sumOfOnes]
    exact List.nodup_range

end BuildCall

namespace Builder

open BuildCall

/-- With one call too many the last node gets the id of the first one.  The number of ones is a
variable, so that no step has to write the calls out. -/
theorem exists_repeated_id {n : Nat} (hn : 2 * n = 2 ^ 32) :
    ∃ b t, empty.callAll? (sumOfOnes n) = some b ∧
      b.ids[0]? = some ⟨0⟩ ∧ b.ids[2 ^ 32]? = some ⟨0⟩ ∧
      b.arena.nodes[0]? = some (.leaf 1) ∧
      b.arena.nodes[2 ^ 32]? =
        some (.binary .add (.ofIndex (2 ^ 32 - 2)) (.ofIndex (2 ^ 32 - 1))) ∧
      b.finish? (2 ^ 32) = some t ∧ t.interpret = .ok 1 := by
  have hlength := length_sumOfOnes n
  obtain ⟨b, hcalls, htracks⟩ := exists_tracks (linear_sumOfOnes n)
  have hunspent : 2 ^ 32 ∉ (sumOfOnes n).flatMap operands := by
    rw [flatMap_operands_sumOfOnes, List.mem_range]
    omega
  obtain ⟨⟨id, howns⟩, hid, hroot⟩ := htracks.exists_unspent? (by omega) hunspent
  have hfirst : b.arena.nodes[0]? = some (.leaf 1) := by
    rw [htracks.getElem?_nodes, getElem?_sumOfOnes_zero]
    rfl
  have hlast : b.arena.nodes[2 ^ 32]? =
      some (.binary .add (.ofIndex (2 ^ 32 - 2)) (.ofIndex (2 ^ 32 - 1))) := by
    have hcall := getElem?_sumOfOnes_last (n := n) (by omega)
    rw [hn] at hcall
    rw [htracks.getElem?_nodes, hcall]
    rfl
  refine ⟨b, ⟨b.arena, id, howns⟩, hcalls, ?_, ?_, hfirst, hlast, ?_, ?_⟩
  · exact htracks.getElem?_ids (by omega)
  · exact htracks.getElem?_ids (by omega)
  · rw [finish?, hid]
  · obtain rfl : id = ⟨0⟩ := hroot
    obtain ⟨_, hnode⟩ := Array.getElem?_eq_some_iff.1 hfirst
    have hleaf : (⟨b.arena, ⟨0⟩, howns⟩ : Tree).toExpr = .leaf 1 :=
      Arena.exprAt_of_node_leaf hnode
    rw [Tree.interpret_eq, hleaf]
    rfl

/-- The sum of `2 ^ 31` ones and a one has one node too many: its value is the one that was added
first. -/
theorem ids_repeat_sum_of_ones :
    Linear (sumOfOnes (2 ^ 31)) ∧
    ∃ b t, empty.callAll? (sumOfOnes (2 ^ 31)) = some b ∧
      b.ids[0]? = some ⟨0⟩ ∧ b.ids[2 ^ 32]? = some ⟨0⟩ ∧
      b.arena.nodes[0]? = some (.leaf 1) ∧
      b.arena.nodes[2 ^ 32]? =
        some (.binary .add (.ofIndex (2 ^ 32 - 2)) (.ofIndex (2 ^ 32 - 1))) ∧
      b.finish? (2 ^ 32) = some t ∧ t.interpret = .ok 1 :=
  ⟨linear_sumOfOnes (2 ^ 31), exists_repeated_id (by decide)⟩

end Builder

end Reckoner
