import Reckoner.Proofs.A64.Execution
import Reckoner.Proofs.Machine.Processor

/-!
# The AArch64 machine as a processor

A store in front of the stack pointer pushes a cell and a load behind it pops one.  The one
branch skips as many words as its offset says, counted from itself.
-/

set_option autoImplicit false

namespace Reckoner.A64

namespace Instruction

/-- What the instruction does to the stack. -/
def stackUse : Instruction → StackUse
  | push _ => .push
  | pop _ | popResult => .pop
  | _ => .none

/-- The distance that the instruction may skip. -/
def skip? : Instruction → Option Int
  | branchNonzero _ offset => some (4 * offset.toInt - 4)
  | _ => none

end Instruction

/-- Setting a register does not move the stack pointer. -/
@[simp] theorem State.sp_set (s : State) (r : Register) (v : Int64) : (s.set r v).sp = s.sp := by
  cases r <;> rfl

/-- Setting a register does not change the stack. -/
@[simp] theorem State.stack_set (s : State) (r : Register) (v : Int64) :
    (s.set r v).stack = s.stack := by
  cases r <;> rfl

/-- A pop that succeeds hands on the top cell. -/
theorem State.pop_eq_running {s t : State} {use : State → Int64 → State}
    (h : s.pop use = .running t) :
    ∃ v rest, s.stack = v :: rest ∧
      t = use { s with sp := s.sp + UInt64.ofNat stackCell, stack := rest } v := by
  unfold State.pop at h
  split at h
  · split at h
    · next v rest hstack =>
      cases h
      exact ⟨v, rest, hstack, rfl⟩
    · cases h
  · cases h

/-- What an instruction does to the stack and its pointer is what its stack use says. -/
theorem moves_of_perform {pool : Array Int64} {i : Instruction} {s t : State}
    (h : perform pool i s = .running t) :
    i.stackUse.Moves (UInt64.ofNat stackCell) s.sp t.sp s.stack t.stack := by
  unfold perform at h
  cases i with
  | loadConstant rt rm =>
    simp only [Instruction.execute] at h
    split at h
    · cases h
    · split at h
      · cases h; exact ⟨State.sp_set _ rt _, State.stack_set _ rt _⟩
      · cases h
  | push rt =>
    simp only [Instruction.execute, State.push] at h
    split at h
    · cases h; exact ⟨rfl, _, rfl⟩
    · cases h
  | pop rt =>
    simp only [Instruction.execute] at h
    obtain ⟨v, rest, hstack, rfl⟩ := State.pop_eq_running h
    exact ⟨State.sp_set _ rt _, v, hstack.trans (by rw [State.stack_set])⟩
  | popResult =>
    simp only [Instruction.execute] at h
    obtain ⟨v, rest, hstack, rfl⟩ := State.pop_eq_running h
    exact ⟨rfl, v, hstack⟩
  | branchNonzero rt offset =>
    simp only [Instruction.execute] at h
    split at h
    · cases h; exact ⟨rfl, rfl⟩
    · split at h
      · cases h; exact ⟨rfl, rfl⟩
      · cases h
  | ret => cases h
  | movz rd imm => cases h; exact ⟨State.sp_set _ rd _, State.stack_set _ rd _⟩
  | movk rd imm => cases h; exact ⟨State.sp_set _ rd _, State.stack_set _ rd _⟩
  | arithmetic f rd rn rm => cases h; exact ⟨State.sp_set _ rd _, State.stack_set _ rd _⟩
  | _ => cases h; exact ⟨rfl, rfl⟩

/-- An instruction goes on to the next one or takes the branch that it names. -/
theorem goes_of_perform {pool : Array Int64} {i : Instruction} {s t : State}
    (h : perform pool i s = .running t) :
    t.pc = s.pc + 4 ∨ ∃ d, i.skip? = some d ∧ (t.pc : Int) = s.pc + (4 : Nat) + d := by
  cases hbranch : i.isBranch with
  | false => exact .inl (Instruction.straight_of_isBranch_eq_false hbranch h)
  | true =>
    unfold perform at h
    cases i with
    | branchNonzero rt offset =>
      simp only [Instruction.execute, branchTarget?] at h
      split at h
      · cases h; exact .inl rfl
      · split at h
        · next pc hpc =>
          split at hpc
          · cases hpc
          · cases hpc
            cases h
            exact .inr ⟨_, rfl, by dsimp only; omega⟩
        · cases h
    | _ => cases hbranch

/-- The machine, with what its instructions do to the stack and the program counter. -/
def processor : Processor State Instruction where
  toInstructionSet := instructions
  sp := State.sp
  stack := State.stack
  cell := UInt64.ofNat stackCell
  stackUse := Instruction.stackUse
  skip? := Instruction.skip?
  ret := .ret
  length_encode_pos := fun _ => Nat.succ_pos 3
  moves := moves_of_perform
  goes := goes_of_perform
  ret_stops := by
    intro pool s t h
    cases h

/-- A fetch comes to the load of its constant with its slot in the index register. -/
theorem exists_reaches_loadConstant {m : SealedRegions} {s : State} {slot : UInt32} {elided : Bool}
    (hcode : CodeAt m s.pc ((Emission.fetch slot elided).code .a64))
    (helided : elided = true → s.x9.toUInt64.toNat = slot.toNat) :
    ∃ u, Outcome.Reaches (step m) s u ∧ u.pc = s.pc + 8 ∧ u.x9.toUInt64.toNat = slot.toNat := by
  obtain ⟨is, x, hbytes, hbranch, hrun, hx⟩ := exists_code_fetch helided
  have hindex : instructions.performAll m.pool is s =
      .running { s with x9 := x, pc := s.pc + 8 } := by
    have h := hrun m.pool []
    rw [List.append_nil] at h
    exact h
  rw [hbytes, pieceBytes, List.flatMap_append] at hcode
  obtain ⟨hreaches, -⟩ := instructions.reaches_of_performAll hcode.left
    (fun i hi => Instruction.straight_of_isBranch_eq_false (hbranch i hi)) hindex
  exact ⟨_, hreaches, rfl, hx⟩

/-- The branch of a division lands on the division itself. -/
theorem closed_operator (op : Operator) : processor.Closed (operator op).flatten := by
  cases op <;> decide

end Reckoner.A64
