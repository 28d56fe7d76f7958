import Reckoner.Arena.Builder
import Reckoner.Evaluation
import Reckoner.Proofs.Tree.Equality
import Reckoner.Proofs.Tree.Interpreter
import Reckoner.Proofs.Tree.Printer

/-!
# The layout of an arena does not show

Equal trees may lie in their arenas in different orders, next to different nodes that their roots
do not reach.  The scan that measures a tree and the emitter see its symbols only, which equal trees
share.  The interpreter and the writer follow positions, but what they compute is a function of the
expression that the root denotes, and equal trees denote one expression.
-/

set_option autoImplicit false

namespace Reckoner

namespace Tree

variable {s t : Tree}

/-- Equal trees have the same symbols, since this is what is compared. -/
theorem symbols_eq_of_same (h : s.same t = true) : s.symbols = t.symbols := eq_of_beq h

/-- Equal trees have the same shape. -/
theorem shape_eq_of_same (h : s.same t = true) : s.shape = t.shape := by
  rw [shape, shape, symbols_eq_of_same h]

/-- Equal trees have the same value, or the same error. -/
theorem interpret_eq_of_same (h : s.same t = true) : s.interpret = t.interpret := by
  rw [s.interpret_eq, t.interpret_eq, (s.same_iff t).1 h]

/-- Equal trees have the same text. -/
theorem render_eq_of_same (h : s.same t = true) : s.render = t.render := by
  rw [s.render_eq, t.render_eq, (s.same_iff t).1 h]

end Tree

namespace Emitter

/-- Emitting a tree takes nothing from it but its symbols, whatever has been emitted before. -/
theorem tree_eq_of_same {s t : Tree} (h : s.same t = true) (e : Emitter) : e.tree s = e.tree t := by
  rw [tree, tree, Tree.symbols_eq_of_same h]

end Emitter

namespace Program

/-- Equal trees compile to the same program, or to the same error. -/
theorem compile_eq_of_same {s t : Tree} (h : s.same t = true) (target : Target) :
    compile target s = compile target t := by
  have hemit : emit target s = emit target t := by
    funext size memory
    unfold emit
    cases CodeBuffer.create memory size.codeLength target.epilogueSize with
    | error mismatch => rfl
    | ok buffer => simp only [Emitter.tree_eq_of_same h]
  have hassemble : assemble target s = assemble target t := by
    funext size regions
    unfold assemble
    rw [hemit]
  unfold compile
  rw [Tree.shape_eq_of_same h, hassemble]

end Program

/-- Equal trees show no difference, however they are laid out.  They have the same value, shape and
text.  Compiling them gives the same error, or the same sizes, code, constants and trace, and so the
same number of elided loads.  Evaluating one in any way is evaluating the other. -/
theorem Tree.observations_eq_of_same {s t : Tree} (h : s.same t = true) :
    s.interpret = t.interpret ∧ s.shape = t.shape ∧ s.render = t.render ∧
    (∀ target, Program.compile target s = Program.compile target t) ∧
    ∀ config target, s.evaluate config target = t.evaluate config target := by
  have hinterpret := interpret_eq_of_same h
  have hcompile := Program.compile_eq_of_same h
  refine ⟨hinterpret, shape_eq_of_same h, render_eq_of_same h, hcompile, ?_⟩
  intro config target
  unfold evaluate
  rw [hcompile target, hinterpret]

/-- Six times seven, with its factors added in either order, once behind a node out of the root's
reach.  The walks visit different positions, and the programs are the same. -/
theorem Tree.observations_eq_six_times_seven :
    ∃ s t, Tree.build? [.leaf 6, .leaf 7, .binary .mul 0 1] 2 = some s ∧
      Tree.build? [.leaf 9, .leaf 7, .leaf 6, .binary .mul 2 1] 3 = some t ∧
      s.postOrder.map Fin.val = [0, 1, 2] ∧ t.postOrder.map Fin.val = [2, 1, 3] ∧
      s.same t = true ∧ s.interpret = t.interpret ∧ s.render = t.render ∧
      Program.compile .x64 s = Program.compile .x64 t := by
  obtain ⟨s, t, hs, ht, hwalkS, hwalkT, hsame⟩ : ∃ s t,
      Tree.build? [.leaf 6, .leaf 7, .binary .mul 0 1] 2 = some s ∧
      Tree.build? [.leaf 9, .leaf 7, .leaf 6, .binary .mul 2 1] 3 = some t ∧
      s.postOrder.map Fin.val = [0, 1, 2] ∧ t.postOrder.map Fin.val = [2, 1, 3] ∧
      s.same t = true :=
    ⟨_, _, rfl, rfl, by decide +kernel, by decide +kernel, by decide +kernel⟩
  obtain ⟨hvalue, -, htext, hprogram, -⟩ := Tree.observations_eq_of_same hsame
  exact ⟨s, t, hs, ht, hwalkS, hwalkT, hsame, hvalue, htext, hprogram .x64⟩

end Reckoner
