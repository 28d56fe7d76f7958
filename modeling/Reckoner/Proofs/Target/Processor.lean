import Reckoner.Proofs.A64.Processor
import Reckoner.Proofs.Target.Instructions
import Reckoner.Proofs.Tree.OperandCount
import Reckoner.Proofs.X64.Processor

/-!
# The processors of the targets

What is said about both targets at once is said about the processor of a target, and comes down
to finite checks of its sequences: how many cells they take and leave, and where their branches
land.
-/

set_option autoImplicit false

namespace Reckoner

namespace Target

/-- The states of the machine of a target. -/
abbrev State : Target → Type
  | x64 => X64.State
  | a64 => A64.State

/-- The machine of a target. -/
def processor : (target : Target) → Processor target.State target.Instruction
  | x64 => X64.processor
  | a64 => A64.processor

/-- The parts of a state that compiled code depends on. -/
def view : (target : Target) → View target.State
  | x64 => X64.view
  | a64 => A64.view

/-- On each target the code of every symbol does what the symbol says. -/
theorem view_realizes (target : Target) : target.view.Realizes target := by
  cases target with
  | x64 => exact X64.view_realizes
  | a64 => exact A64.view_realizes

/-- The view of a target and its processor take the same steps. -/
theorem view_step (target : Target) : target.view.step = target.processor.step := by
  cases target <;> rfl

/-- The view of a target and its processor have the same program counter. -/
theorem view_pc (target : Target) : target.view.pc = target.processor.pc := by
  cases target <;> rfl

/-- The view of a target and its processor have the same stack pointer. -/
theorem view_sp (target : Target) : target.view.sp = target.processor.sp := by
  cases target <;> rfl

/-- The view of a target and its processor have the same stack. -/
theorem view_stack (target : Target) : target.view.stack = target.processor.stack := by
  cases target <;> rfl

/-- The processor of a target writes its instructions as the target does. -/
theorem encode_processor (target : Target) : target.processor.encode = target.encode := by
  cases target <;> rfl

/-- The processor of a target writes code as the target does. -/
theorem bytes_processor (target : Target) : target.processor.bytes = target.bytes := by
  cases target <;> rfl

/-- A cell on the stack has the size that is predicted for it. -/
theorem cell_processor (target : Target) :
    target.processor.cell = UInt64.ofNat target.stackCell := by
  cases target <;> rfl

/-- The slot that an instruction reads in a state. -/
def constantSlot? : (target : Target) → target.Instruction → target.State → Option Nat
  | x64, .pushConstant, s => some s.rdx.toUInt64.toNat
  | a64, .loadConstant _ rm, s => some (s.get rm).toUInt64.toNat
  | _, _, _ => none

/-- Only an instruction that reads the pool has a slot to read. -/
theorem loadsConstant_of_constantSlot?_eq_some {target : Target} {i : target.Instruction}
    {s : target.State} {slot : Nat} (h : target.constantSlot? i s = some slot) :
    target.loadsConstant i = true := by
  cases target <;> cases i <;> first | rfl | cases h

/-! ## The sequences -/

/-- A fetch pushes one cell. -/
theorem stackMoves_fetch (target : Target) (slot : UInt32) (reload : Bool) :
    target.processor.stackMoves (target.fetchPieces slot reload).flatten = [.push] := by
  cases target <;> cases reload <;> rfl

/-- The code of an operator pops two cells and then pushes one. -/
theorem stackMoves_operator (target : Target) (op : Operator) :
    target.processor.stackMoves (target.operatorPieces op).flatten = [.pop, .pop, .push] := by
  cases target <;> cases op <;> rfl

/-- The end of a program pops the result. -/
theorem stackMoves_epilogue (target : Target) :
    target.processor.stackMoves target.epilogueInstructions = [.pop] := by
  cases target <;> rfl

/-- A fetch has no branches. -/
theorem skip?_of_mem_fetch (target : Target) (slot : UInt32) (reload : Bool) :
    ∀ i ∈ (target.fetchPieces slot reload).flatten, target.processor.skip? i = none := by
  have hall : ((target.fetchPieces slot reload).flatten.all
      fun i => target.processor.skip? i = none) = true := by
    cases target <;> cases reload <;> rfl
  exact fun i hi => of_decide_eq_true (List.all_eq_true.1 hall i hi)

/-- The branches of an operator stay within its code. -/
theorem closed_operator (target : Target) (op : Operator) :
    target.processor.Closed (target.operatorPieces op).flatten := by
  cases target with
  | x64 => exact X64.closed_operator op
  | a64 => exact A64.closed_operator op

/-- The end of a program has no branches. -/
theorem skip?_of_mem_epilogue (target : Target) :
    ∀ i ∈ target.epilogueInstructions, target.processor.skip? i = none := by
  cases target <;> decide

/-- A fetch comes to its load of a constant, which reads its slot. -/
theorem exists_reaches_load (target : Target) {m : SealedRegions} {s : target.State} {slot : UInt32}
    {elided : Bool} (hcode : CodeAt m (target.view.pc s) ((Emission.fetch slot elided).code target))
    (helided : elided = true → target.view.index s = slot.toNat) {j : Nat} {i : target.Instruction}
    (hi : (target.fetchPieces slot !elided).flatten[j]? = some i)
    (hload : target.loadsConstant i = true) :
    ∃ u, Outcome.Reaches (target.view.step m) s u ∧
      target.view.pc u = target.view.pc s +
        target.processor.offset (target.fetchPieces slot !elided).flatten j ∧
      target.constantSlot? i u = some slot.toNat := by
  have hloads : ((target.fetchPieces slot !elided).flatten.map target.loadsConstant)[j]? =
      some true := by
    rw [List.getElem?_map, hi, Option.map_some, hload]
  cases target with
  | x64 =>
    have hlist : ((Target.fetchPieces .x64 slot !elided).flatten.map (Target.loadsConstant .x64)) =
        [false, true] := by cases elided <;> rfl
    rw [hlist] at hloads
    obtain rfl : j = 1 := by
      match j, hloads with
      | 1, _ => rfl
    obtain ⟨u, hreaches, hpc, hindex⟩ := X64.exists_reaches_pushConstant hcode helided
    obtain rfl : i = .pushConstant := by cases elided <;> exact (Option.some.inj hi).symm
    refine ⟨u, hreaches, hpc.trans ?_, congrArg some hindex⟩
    cases elided <;> rfl
  | a64 =>
    have hlist : ((Target.fetchPieces .a64 slot !elided).flatten.map (Target.loadsConstant .a64)) =
        [false, false, true, false] := by cases elided <;> rfl
    rw [hlist] at hloads
    obtain rfl : j = 2 := by
      match j, hloads with
      | 2, _ => rfl
      | n + 4, h => simp at h
    obtain ⟨u, hreaches, hpc, hindex⟩ := A64.exists_reaches_loadConstant hcode helided
    obtain rfl : i = .loadConstant .x10 .x9 := by
      cases elided <;> exact (Option.some.inj hi).symm
    refine ⟨u, hreaches, hpc.trans ?_, congrArg some hindex⟩
    cases elided <;> rfl

end Target

end Reckoner
