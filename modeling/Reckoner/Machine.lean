/-!
# Machines

What the two targets have in common: a machine goes from state to state, one
instruction at a time, until it returns to its caller or does something that it must
not do.

The machine sees three separate pieces of memory: the constant pool, the status word,
and the stack, whose cells are listed from the stack pointer upward.
-/

set_option autoImplicit false

namespace Reckoner

/-- What a machine must not do. -/
inductive Fault where
  /-- The bytes at the program counter are no instruction. -/
  | invalidInstruction
  /-- A constant is read outside the pool. -/
  | poolBounds
  /-- The pool is read although its address is lost. -/
  | lostPool
  /-- A cell is taken from an empty stack. -/
  | stackUnderflow
  /-- The stack is used while its pointer is not aligned. -/
  | misalignedStack
  /-- A division traps: the divisor is zero or the quotient does not fit. -/
  | divideError
  /-- A branch depends on a flag that holds no defined value. -/
  | undefinedFlag
  /-- A branch leads in front of the code. -/
  | wildBranch
  deriving DecidableEq

/-- What one instruction leads to. -/
inductive Outcome (σ : Type) where
  | running (s : σ)
  | returned (s : σ)
  | faulted (f : Fault)

namespace Outcome

/-- Takes at most `n` steps from a state. -/
def run {σ : Type} (step : σ → Outcome σ) : Nat → σ → Outcome σ
  | 0, s => .running s
  | n + 1, s =>
    match step s with
    | .running next => run step n next
    | .returned last => .returned last
    | .faulted f => .faulted f

/-- Goes on for at most `n` more steps, unless the machine has stopped. -/
def andThen {σ : Type} (step : σ → Outcome σ) (n : Nat) : Outcome σ → Outcome σ
  | .running s => run step n s
  | .returned s => .returned s
  | .faulted f => .faulted f

/-- A run may be interrupted after any number of steps. -/
theorem run_add {σ : Type} (step : σ → Outcome σ) (m n : Nat) (s : σ) :
    run step (m + n) s = andThen step n (run step m s) := by
  induction m generalizing s with
  | zero => rw [Nat.zero_add]; rfl
  | succ m ih =>
    rw [Nat.succ_add, run, run]
    cases step s with
    | running next => exact ih next
    | returned last => rfl
    | faulted f => rfl

end Outcome

/-- The program counter after a branch by a signed distance. -/
def branchTarget? (pc : Nat) (distance : Int) : Option Nat :=
  if (pc : Int) + distance < 0 then none else some ((pc : Int) + distance).toNat

end Reckoner
