import Reckoner.Program
import Reckoner.Proofs.Arena.Builder
import Reckoner.Proofs.Code.Size
import Reckoner.Proofs.Emission

/-!
# What compiling a tree gives

Once the sizes are predicted nothing can fail: the code is exactly as long as predicted,
its last bytes are the ones the buffer has kept back, and every constant has room.  So a
tree is compiled exactly when its sizes are predicted, and for a tree that a builder has
made this is a condition on its depth alone.
-/

set_option autoImplicit false

namespace Reckoner

/-- What is known when all symbols of a tree have been emitted. -/
def Tree.finalKnowledge (t : Tree) : Knowledge := Knowledge.start.afterAll t.symbols

/-- The code of a tree, with the code that ends a program. -/
def Tree.code (target : Target) (t : Tree) : List UInt8 :=
  Knowledge.start.code target t.symbols ++ target.epilogue

/-- The code of a tree has the length that its shape predicts. -/
theorem Tree.length_code (target : Target) (t : Tree) :
    (t.code target).length = CodeSize.exactLength target t.shape := by
  rw [code, List.length_append, Knowledge.length_code, Target.length_epilogue, t.symbols_eq,
    Expr.sum_codeSize_postOrder, t.shape_eq]
  rfl

/-- There are no more slots than leaves. -/
theorem Tree.size_pool_le (t : Tree) : t.finalKnowledge.pool.size ≤ t.shape.leafCount := by
  have h := Knowledge.start.size_pool_afterAll_le t.toExpr
  have hempty : Knowledge.start.pool.size = 0 := rfl
  rw [hempty, Nat.zero_add] at h
  rw [finalKnowledge, t.symbols_eq, t.shape_eq]
  exact h

namespace Program

/-- The program of a tree whose sizes have been predicted. -/
def ofTree (target : Target) (t : Tree) (size : CodeSize) : Program where
  target := target
  size := size
  regions :=
    { code := CodeBuffer.overwrite (Regions.fill target.filler size.codeRegion) 0 (t.code target)
      pool := Regions.overwriteCells (Array.replicate (size.poolRegion / cellSize) 0) 0
        t.finalKnowledge.pool.values.toList }
  pool := t.finalKnowledge.pool.sealed
  trace := (Knowledge.start.emissions t.symbols).toArray

/-- A buffer of the predicted length has room for all symbols of a tree. -/
theorem tree_of_fits {target : Target} {t : Tree} {size : CodeSize}
    (h : CodeSize.Fits target t.shape size) (memory : Array UInt8) {e : Emitter}
    (he : e = Emitter.start target ⟨memory, 0, size.codeLength, target.epilogueSize⟩) :
    e.tree t = (e.accept t.symbols, none) := by
  have hlength := t.length_code target
  rw [Tree.code, List.length_append, target.length_epilogue, Knowledge.length_code,
    ← h.codeLength_eq] at hlength
  apply Emitter.symbols_of_le
  subst he
  change 0 + (t.symbols.map (Symbol.codeSize target)).sum ≤ size.codeLength - target.epilogueSize
  omega

/-- The code of a tree fills a buffer of the predicted length to its last byte. -/
theorem emit_of_fits {target : Target} {t : Tree} {size : CodeSize}
    (h : CodeSize.Fits target t.shape size) (memory : Array UInt8)
    (hmemory : size.codeLength ≤ memory.size) :
    emit target t size memory =
      .ok
        { buffer := CodeBuffer.extend ⟨memory, 0, size.codeLength, target.epilogueSize⟩
            (t.code target)
          pool := t.finalKnowledge.pool.sealed
          trace := (Knowledge.start.emissions t.symbols).toArray } := by
  have hlength := t.length_code target
  rw [Tree.code, List.length_append, target.length_epilogue, ← h.codeLength_eq] at hlength
  unfold emit
  rw [CodeBuffer.create_of_le memory hmemory (by omega)]
  dsimp only
  rw [tree_of_fits h memory rfl]
  dsimp only
  rw [Emitter.finish_of_le]
  · simp only [Emitter.accept, Emitter.start, Emitter.knowledge, CodeBuffer.extend_append,
      Array.empty_append]
    rfl
  · change 0 + (Knowledge.start.code target t.symbols).length + target.epilogueSize ≤
      size.codeLength
    omega

/-- A tree whose sizes are predicted is compiled. -/
theorem compile_of_ofShape_eq_ok {target : Target} {t : Tree} {size : CodeSize}
    (h : CodeSize.ofShape target t.shape = .ok size) :
    compile target t = .ok (ofTree target t size) := by
  have hfits := CodeSize.fits_of_ofShape_eq_ok h
  have hcode := hfits.codeRegion_pos
  have hpool := hfits.poolRegion_pos
  have hvalues : cellSize * t.finalKnowledge.pool.sealed.values.size ≤ size.poolRegion := by
    rw [Nat.mul_comm]
    exact Nat.le_trans (Nat.mul_le_mul_right _ t.size_pool_le) hfits.pool_le
  unfold compile
  rw [h]
  dsimp only
  unfold Regions.allocate
  rw [if_neg (by omega)]
  dsimp only
  unfold assemble
  dsimp only
  rw [emit_of_fits hfits _ (by rw [Regions.size_fill]; exact hfits.codeLength_le)]
  dsimp only
  rw [if_neg (by
    rw [CodeBuffer.length_extend, t.length_code, hfits.codeLength_eq, Nat.zero_add]
    exact fun hne => hne rfl)]
  unfold Regions.writePool
  dsimp only
  rw [if_neg (by omega)]
  rfl

/-- A tree whose sizes are refused is refused in the same way, and any other is compiled. -/
theorem compile_eq (target : Target) (t : Tree) :
    compile target t = (CodeSize.ofShape target t.shape).map (ofTree target t) := by
  cases h : CodeSize.ofShape target t.shape with
  | ok size => exact compile_of_ofShape_eq_ok h
  | error e =>
    unfold compile
    rw [h]
    rfl

/-- A program that compiling a tree gives is the program of the tree, and its sizes fit. -/
theorem eq_ofTree_of_compile_eq_ok {target : Target} {t : Tree} {p : Program}
    (h : compile target t = .ok p) :
    p = ofTree target t p.size ∧ CodeSize.Fits target t.shape p.size := by
  rw [compile_eq] at h
  cases hsize : CodeSize.ofShape target t.shape with
  | ok size =>
    rw [hsize] at h
    cases h
    exact ⟨rfl, CodeSize.fits_of_ofShape_eq_ok hsize⟩
  | error e =>
    rw [hsize] at h
    cases h

/-- A tree of not too many leaves is compiled when it is not too deep. -/
theorem exists_compile_eq_ok {t : Tree} (hleaves : t.shape.leafCount ≤ 2 ^ 31) (target : Target)
    (hdepth : t.shape.stackDepth ≤ maxOperandDepth) :
    ∃ p, compile target t = .ok p := by
  have hoperators : t.shape.operatorCount ≤ 2 ^ 32 := by
    have hcount := t.toExpr.length_leaves
    rw [t.shape_eq] at hleaves ⊢
    dsimp only at hleaves ⊢
    omega
  obtain ⟨size, hsize⟩ := CodeSize.exists_ofShape_eq_ok target hleaves hoperators hdepth
  exact ⟨_, compile_of_ofShape_eq_ok hsize⟩

/-- A tree that is too deep is refused with the bytes of stack it would need. -/
theorem compile_eq_error_of_lt {t : Tree} (hleaves : t.shape.leafCount ≤ 2 ^ 31) (target : Target)
    (hdepth : maxOperandDepth < t.shape.stackDepth) :
    compile target t =
      .error (.allocationFailed (t.shape.stackDepth * target.stackCell)
        (.tooDeep t.shape.stackDepth)) := by
  have hpending : t.shape.stackDepth ≤ t.shape.leafCount := by
    rw [t.shape_eq]
    exact t.toExpr.stackDepth_le_length_leaves
  rw [compile_eq, CodeSize.ofShape_of_lt target hleaves hpending hdepth]
  rfl

end Program

/-- A tree that is built and not too deep is compiled. -/
theorem Tree.Built.exists_compile_eq_ok {t : Tree} (h : t.Built) (target : Target)
    (hdepth : t.shape.stackDepth ≤ maxOperandDepth) :
    ∃ p, Program.compile target t = .ok p :=
  Program.exists_compile_eq_ok h.leafCount_le target hdepth

/-- A tree that is built and too deep is refused, for the bytes that its operands would take on the
stack. -/
theorem Tree.Built.compile_of_lt {t : Tree} (h : t.Built) (target : Target)
    (hdepth : maxOperandDepth < t.shape.stackDepth) :
    Program.compile target t =
      .error (.allocationFailed (t.shape.stackDepth * target.stackCell)
        (.tooDeep t.shape.stackDepth)) :=
  Program.compile_eq_error_of_lt h.leafCount_le target hdepth

/-- A built tree is compiled exactly when it is not too deep, and refused with the bytes of stack
it would need when it is.  Its code has the predicted length to the byte, code and constants
have room, and the ways in which a size can turn out to be wrong never occur. -/
theorem Tree.Built.compile_iff_stackDepth_le (target : Target) {t : Tree} (h : t.Built) :
    ((∃ p, Program.compile target t = .ok p) ↔ t.shape.stackDepth ≤ maxOperandDepth) ∧
      (maxOperandDepth < t.shape.stackDepth →
        Program.compile target t =
          .error (.allocationFailed (t.shape.stackDepth * target.stackCell)
            (.tooDeep t.shape.stackDepth))) ∧
      (∀ p, Program.compile target t = .ok p →
        (∃ regions emitted,
          Regions.allocate target.filler p.size.codeRegion p.size.poolRegion = .ok regions ∧
          Program.emit target t p.size regions.code = .ok emitted ∧
          emitted.pool = p.pool ∧
          emitted.buffer.length = p.size.codeLength) ∧
        p.size.codeLength = t.shape.leafCount * target.fetchSize +
          t.shape.operatorCount * target.operatorSize + target.epilogueSize ∧
        p.size.codeLength ≤ p.size.codeRegion ∧
        cellSize * p.pool.size ≤ p.size.poolRegion) ∧
      ∀ mismatch, Program.compile target t ≠ .error (.sizeMismatch mismatch) := by
  have hdeep := h.compile_of_lt target
  have hcompiled := h.exists_compile_eq_ok target
  refine ⟨⟨?_, hcompiled⟩, hdeep, ?_, ?_⟩
  · rintro ⟨p, hp⟩
    exact (Program.eq_ofTree_of_compile_eq_ok hp).2.stackDepth_le
  · intro p hp
    obtain ⟨hprogram, hfits⟩ := Program.eq_ofTree_of_compile_eq_ok hp
    have hcode := hfits.codeRegion_pos
    have hpool := hfits.poolRegion_pos
    have hpoolEq : t.finalKnowledge.pool.sealed = p.pool := by rw [hprogram]; rfl
    refine ⟨⟨_, _, if_neg (by omega), Program.emit_of_fits hfits _ ?_, hpoolEq, ?_⟩,
      hfits.codeLength_eq, hfits.codeLength_le, ?_⟩
    · rw [Regions.size_fill]
      exact hfits.codeLength_le
    · rw [CodeBuffer.length_extend, t.length_code, hfits.codeLength_eq, Nat.zero_add]
    · rw [← hpoolEq, Nat.mul_comm]
      exact Nat.le_trans (Nat.mul_le_mul_right _ t.size_pool_le) hfits.pool_le
  · intro mismatch hmismatch
    rcases Nat.lt_or_ge maxOperandDepth t.shape.stackDepth with hlt | hle
    · rw [hdeep hlt] at hmismatch
      cases hmismatch
    · obtain ⟨p, hp⟩ := hcompiled hle
      rw [hp] at hmismatch
      cases hmismatch

/-- Six times seven has two fetches of eight bytes, one operator of 39 and an end of two. -/
theorem Tree.Built.codeLength_six_times_seven :
    ∃ t p, Tree.build? [.leaf 6, .leaf 7, .binary .mul 0 1] 2 = some t ∧
      Program.compile .x64 t = .ok p ∧ p.size.codeLength = 57 := by
  obtain ⟨t, ht, hbuilt, hshape, -⟩ := exists_six_times_seven
  obtain ⟨hiff, -, hsizes, -⟩ := hbuilt.compile_iff_stackDepth_le .x64
  obtain ⟨p, hp⟩ := hiff.2 (by rw [hshape]; decide)
  obtain ⟨-, hlength, -⟩ := hsizes p hp
  refine ⟨t, p, ht, hp, ?_⟩
  rw [hlength, hshape]
  rfl

end Reckoner
