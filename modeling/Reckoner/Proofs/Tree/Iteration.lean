import Mathlib.Logic.Relation
import Reckoner.Proofs.Tree.Loops
import Reckoner.Proofs.Tree.Measure

/-!
# What a walk still has to visit

A walk hands out nodes call by call, and within a call it may open several operators before it comes
to a leaf.  At all of these moments its stack tells which nodes are still to come: from top to
bottom, a node that has not been opened stands for everything under it in post-order, and an
opened one for itself.  Opening an operator does not change what the stack stands for, and
handing out a node takes off the first; so the walk ends when all that its stack stood for has been
handed out, and not before.
-/

set_option autoImplicit false

namespace Reckoner

/-- The nodes that an entry on the stack of a walk stands for. -/
def Pending.toCome (a : Arena) (p : Pending a.size) : List (Fin a.size) :=
  if p.opened then [p.node] else a.postOrderAt p.node

namespace Cursor

variable {a : Arena}

/-- What a stack stands for is what its entries stand for, from top to bottom. -/
theorem positions_eq_flatMap (stack : List (Pending a.size)) :
    positions stack = stack.flatMap (Pending.toCome a) := by
  induction stack with
  | nil => rfl
  | cons p rest ih =>
    obtain ⟨i, opened⟩ := p
    cases opened with
    | true => exact congrArg (i :: ·) ih
    | false => exact congrArg (a.postOrderAt i ++ ·) ih

/-! ## Calls -/

/-- Calls in a row hand out nodes and lead from one state of a walk to another. -/
inductive Yields : Cursor a → List (Fin a.size) → Cursor a → Prop
  | nil (c : Cursor a) : Yields c [] c
  | cons {c next last : Cursor a} {i : Fin a.size} {rest : List (Fin a.size)}
      (h : c.next? = some (i, next)) (hrest : Yields next rest last) : Yields c (i :: rest) last

/-- A walk hands out what its stack stands for, and ends. -/
theorem exists_yields (c : Cursor a) :
    ∃ last, c.Yields (positions c.stack) last ∧ last.next? = none := by
  induction hcost : remaining a c.stack using Nat.strongRecOn generalizing c with
  | ind bound ih =>
    cases hnext : c.next? with
    | none =>
      rw [positions_of_advance_eq_none c.stack hnext]
      exact ⟨c, .nil c, hnext⟩
    | some handed =>
      obtain ⟨i, next⟩ := handed
      have hless := remaining_advance c.stack i next hnext
      obtain ⟨last, hrest, hend⟩ := ih _ (hcost ▸ hless) next rfl
      rw [positions_of_advance_eq_some c.stack hnext]
      exact ⟨last, .cons hnext hrest, hend⟩

end Cursor

/-! ## Turns -/

namespace Walk

variable {a : Arena}

/-- Some number of turns leads from one state of the loop to the other. -/
def Reaches : Walk a → Walk a → Prop := Relation.ReflTransGen fun w next => w.turn = some next

/-- Turns never change what a walk hands out in the end. -/
theorem Reaches.result_eq {w last : Walk a} (h : w.Reaches last) : last.result = w.result := by
  induction h with
  | refl => rfl
  | tail _ hturn ih => exact (turn_lowers hturn).2.trans ih

/-- A call takes turns until one hands out a node. -/
theorem reaches_of_advance {stack : List (Pending a.size)} {i : Fin a.size} {c : Cursor a}
    (h : Cursor.advance stack = some (i, c)) (seen : List (Fin a.size)) :
    Reaches ⟨stack, seen⟩ ⟨c.stack, seen ++ [i]⟩ := by
  fun_induction Cursor.advance stack with
  | case1 => cases h
  | case2 j rest =>
    cases h
    exact .single rfl
  | case3 rest j v hview =>
    cases h
    refine .single ?_
    simp only [turn, hview]
  | case4 rest j op l r hl hr hview ih =>
    refine .head ?_ (ih h)
    simp only [turn, hview]

/-- Calls in a row take turns, which hand out the same nodes. -/
theorem reaches_of_yields {c last : Cursor a} {nodes : List (Fin a.size)}
    (h : c.Yields nodes last) (seen : List (Fin a.size)) :
    Reaches ⟨c.stack, seen⟩ ⟨last.stack, seen ++ nodes⟩ := by
  induction h generalizing seen with
  | nil c =>
    rw [List.append_nil]
    exact .refl
  | @cons c next last i rest h hrest ih =>
    have hlast := ih (seen ++ [i])
    rw [List.append_assoc] at hlast
    exact (reaches_of_advance h seen).trans hlast

end Walk

namespace Tree

/-- The walk of a tree that is built visits the nodes under the root in post-order, each of them
once and no others, and ends: in the calls that hand them out, and in the turns that these calls
take.  At every moment, between two calls or within one, the nodes that have been handed out and
those that the stack stands for are all nodes, in order; and from there on exactly those that the
stack stands for are handed out. -/
theorem Built.walk_exact {t : Tree} (h : t.Built) :
    t.postOrder = t.arena.postOrderAt t.rootIndex ∧
    t.postOrder.map t.arena.symbolAt = t.toExpr.postOrder ∧
    t.postOrder.Nodup ∧ (∀ i, i ∈ t.postOrder ↔ t.Contains i) ∧
    (∃ last, (Cursor.start t.rootIndex).Yields t.postOrder last ∧ last.next? = none) ∧
    (∃ n last, n ≤ 2 * t.arena.size ∧ Halts Walk.turn (Walk.start t.rootIndex) n last ∧
      last.seen = t.postOrder) ∧
    (∀ nodes c, (Cursor.start t.rootIndex).Yields nodes c →
      (Walk.start t.rootIndex).Reaches ⟨c.stack, nodes⟩) ∧
    ∀ w, (Walk.start t.rootIndex).Reaches w →
      t.postOrder = w.seen ++ w.stack.flatMap (Pending.toCome t.arena) ∧
      ∃ last, (⟨w.stack⟩ : Cursor t.arena).Yields (w.stack.flatMap (Pending.toCome t.arena)) last ∧
        last.next? = none := by
  have hstart : Cursor.positions (Cursor.start t.rootIndex).stack = t.postOrder := by
    rw [t.postOrder_eq, Cursor.start, Cursor.positions, Cursor.positions, List.append_nil]
  refine ⟨t.postOrder_eq, t.symbols_eq, h.nodup_postOrder, t.mem_postOrder_iff, ?_, ?_, ?_, ?_⟩
  · rw [← hstart]
    exact Cursor.exists_yields _
  · obtain ⟨n, last, hn, hhalts, hseen⟩ := t.loopsEnd.walk
    have hsize := h.size_toExpr_le
    exact ⟨n, last, by omega, hhalts, hseen⟩
  · intro nodes c hc
    have hreaches := Walk.reaches_of_yields hc []
    rwa [List.nil_append] at hreaches
  · intro w hw
    have hresult : w.seen ++ Cursor.positions w.stack = [] ++ _ := hw.result_eq
    rw [List.nil_append] at hresult
    rw [← Cursor.positions_eq_flatMap]
    exact ⟨hstart.symm.trans hresult.symm, Cursor.exists_yields ⟨w.stack⟩⟩

/-- One less two, next to a node that the root does not reach: the walk hands out three of the four
nodes, and the one in front of them is not among them. -/
theorem Built.walk_exact_one_less_two :
    ∃ t, Tree.build? [.leaf 99, .leaf 1, .leaf 2, .binary .sub 1 2] 3 = some t ∧ t.Built ∧
      t.arena.size = 4 ∧ t.postOrder.map Fin.val = [1, 2, 3] ∧
      (∀ i : Fin t.arena.size, i.val = 0 → ¬t.Contains i) ∧
      ∃ last, (Cursor.start t.rootIndex).Yields t.postOrder last ∧ last.next? = none := by
  obtain ⟨t, hbuild, hsize, hnodes⟩ :
      ∃ t, Tree.build? [.leaf 99, .leaf 1, .leaf 2, .binary .sub 1 2] 3 = some t ∧
        t.arena.size = 4 ∧ t.postOrder.map Fin.val = [1, 2, 3] :=
    ⟨_, rfl, rfl, by decide +kernel⟩
  have hbuilt : t.Built := ⟨⟨_, _, hbuild⟩, by omega⟩
  obtain ⟨-, -, -, hcontains, hyields, -⟩ := Built.walk_exact hbuilt
  refine ⟨t, hbuild, hbuilt, hsize, hnodes, ?_, hyields⟩
  intro i hi hreached
  have hmem := List.mem_map_of_mem (f := Fin.val) ((hcontains i).2 hreached)
  rw [hnodes, hi] at hmem
  exact absurd hmem (by decide)

end Tree

end Reckoner
