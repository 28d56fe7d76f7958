import Reckoner.Proofs.Machine.Processor
import Reckoner.Proofs.X64.Execution

/-!
# The x86-64 machine as a processor

A push moves one cell onto the stack and a pop takes one off, and nothing else touches it.  The
two jumps skip as many bytes as they say, and every other instruction leads to the next one.
-/

set_option autoImplicit false

namespace Reckoner.X64

namespace Instruction

/-- What the instruction does to the stack. -/
def stackUse : Instruction → StackUse
  | pushConstant | push _ => .push
  | pop _ => .pop
  | _ => .none

/-- The distance that the instruction may skip. -/
def skip? : Instruction → Option Int
  | jumpNotEqual distance | jump distance => some distance.toInt8.toInt
  | _ => none

end Instruction

/-- Setting a register does not move the stack pointer. -/
@[simp] theorem State.sp_set (s : State) (r : Register) (v : Int64) : (s.set r v).sp = s.sp := by
  cases r <;> rfl

/-- Setting a register does not change the stack. -/
@[simp] theorem State.stack_set (s : State) (r : Register) (v : Int64) :
    (s.set r v).stack = s.stack := by
  cases r <;> rfl

/-- A branch that leads somewhere leads as far as it says, and changes nothing else. -/
theorem State.branch_eq_running {s t : State} {distance : UInt8}
    (h : s.branch distance = .running t) :
    (t.pc : Int) = s.pc + distance.toInt8.toInt ∧ t.sp = s.sp ∧ t.stack = s.stack := by
  unfold State.branch branchTarget? at h
  split at h
  · next pc hpc =>
    split at hpc
    · cases hpc
    · cases hpc
      cases h
      exact ⟨by dsimp only; omega, rfl, rfl⟩
  · cases h

/-- What an instruction does to the stack and its pointer is what its stack use says. -/
theorem moves_of_perform {pool : Array Int64} {i : Instruction} {s t : State}
    (h : perform pool i s = .running t) :
    i.stackUse.Moves (UInt64.ofNat stackCell) s.sp t.sp s.stack t.stack := by
  unfold perform at h
  cases i with
  | pushConstant =>
    simp only [Instruction.execute] at h
    split at h
    · next v _ => cases h; exact ⟨rfl, v, rfl⟩
    · cases h
  | push r => cases h; exact ⟨rfl, _, rfl⟩
  | pop r =>
    simp only [Instruction.execute] at h
    split at h
    · next v rest hstack =>
      cases h
      exact ⟨State.sp_set _ r _, v, hstack.trans (by rw [State.stack_set])⟩
    · cases h
  | idiv r =>
    simp only [Instruction.execute, State.divide] at h
    split at h
    · cases h
    · cases h; exact ⟨rfl, rfl⟩
  | jump distance => exact (State.branch_eq_running h).2
  | jumpNotEqual distance =>
    simp only [Instruction.execute] at h
    split at h
    · cases h; exact ⟨rfl, rfl⟩
    · exact (State.branch_eq_running h).2
    · cases h
  | ret => cases h
  | add dst src => cases h; exact ⟨State.sp_set _ dst _, State.stack_set _ dst _⟩
  | sub dst src => cases h; exact ⟨State.sp_set _ dst _, State.stack_set _ dst _⟩
  | xor dst src => cases h; exact ⟨State.sp_set _ dst _, State.stack_set _ dst _⟩
  | mov dst src => cases h; exact ⟨State.sp_set _ dst _, State.stack_set _ dst _⟩
  | neg r => cases h; exact ⟨State.sp_set _ r _, State.stack_set _ r _⟩
  | _ => cases h; exact ⟨rfl, rfl⟩

/-- An instruction goes on to the next one or takes the branch that it names. -/
theorem goes_of_perform {pool : Array Int64} {i : Instruction} {s t : State}
    (h : perform pool i s = .running t) :
    t.pc = s.pc + i.length ∨ ∃ d, i.skip? = some d ∧ (t.pc : Int) = s.pc + i.length + d := by
  cases hbranch : i.isBranch with
  | false => exact .inl (Instruction.straight_of_isBranch_eq_false hbranch h)
  | true =>
    unfold perform at h
    cases i with
    | jump distance => exact .inr ⟨_, rfl, (State.branch_eq_running h).1⟩
    | jumpNotEqual distance =>
      simp only [Instruction.execute] at h
      split at h
      · cases h; exact .inl rfl
      · exact .inr ⟨_, rfl, (State.branch_eq_running h).1⟩
      · cases h
    | _ => cases hbranch

/-- The machine, with what its instructions do to the stack and the program counter. -/
def processor : Processor State Instruction where
  toInstructionSet := instructions
  sp := State.sp
  stack := State.stack
  cell := UInt64.ofNat stackCell
  stackUse := Instruction.stackUse
  skip? := Instruction.skip?
  ret := .ret
  length_encode_pos := Instruction.length_pos
  moves := moves_of_perform
  goes := goes_of_perform
  ret_stops := by
    intro pool s t h
    cases h

/-- A fetch comes to the push with its slot in the index register. -/
theorem exists_reaches_pushConstant {m : SealedRegions} {s : State} {slot : UInt32} {elided : Bool}
    (hcode : CodeAt m s.pc ((Emission.fetch slot elided).code .x64))
    (helided : elided = true → s.rdx.toUInt64.toNat = slot.toNat) :
    ∃ u, Outcome.Reaches (step m) s u ∧ u.pc = s.pc + 5 ∧ u.rdx.toUInt64.toNat = slot.toNat := by
  cases elided with
  | false =>
    have hsplit : (Emission.fetch slot false).code .x64 =
        (Instruction.loadIndex slot).encode ++ Instruction.pushConstant.encode := rfl
    rw [hsplit] at hcode
    exact ⟨_, .single (step_eq_perform hcode), rfl, by simp⟩
  | true =>
    have hsplit : (Emission.fetch slot true).code .x64 =
        (Instruction.nop 4).encode ++ Instruction.pushConstant.encode := rfl
    rw [hsplit] at hcode
    exact ⟨_, .single (step_eq_perform hcode), rfl, helided rfl⟩

/-- The jumps of a division land on the other ways to divide, or on the push behind them. -/
theorem closed_operator (op : Operator) : processor.Closed (operator op).flatten := by
  cases op <;> decide

end Reckoner.X64
