import Reckoner.A64.Instruction
import Reckoner.Code.Regions
import Reckoner.Machine

/-!
# The AArch64 machine

The meaning of the instructions.  A division never traps: by zero it gives zero, and
the least integer divided by minus one is itself.  The stack pointer has to be a
multiple of 16 whenever the stack is used.
-/

set_option autoImplicit false

namespace Reckoner.A64

/-- The bytes of stack that a cell takes. -/
def stackCell : Nat := 16

/-- The state of the machine. -/
structure State where
  x9 : Int64
  x10 : Int64
  x11 : Int64
  x12 : Int64
  /-- The value in `x0`, or nothing while `x0` holds the address of the pool. -/
  result : Option Int64
  /-- The stack pointer. -/
  sp : UInt64
  /-- The cells of the stack, from the stack pointer upward. -/
  stack : List Int64
  /-- The status word. -/
  status : Int64
  /-- The position of the next instruction in the code. -/
  pc : Nat
  deriving DecidableEq

namespace State

/-- The content of a register. -/
def get (s : State) : Register → Int64
  | .x9 => s.x9
  | .x10 => s.x10
  | .x11 => s.x11
  | .x12 => s.x12

/-- Writes a register. -/
def set (s : State) (r : Register) (v : Int64) : State :=
  match r with
  | .x9 => { s with x9 := v }
  | .x10 => { s with x10 := v }
  | .x11 => { s with x11 := v }
  | .x12 => { s with x12 := v }

/-- Whether the stack may be used. -/
def aligned (s : State) : Bool := s.sp % 16 = 0

/-- Puts a cell on the stack. -/
def push (s : State) (v : Int64) : Outcome State :=
  if s.aligned then
    .running { s with sp := s.sp - UInt64.ofNat stackCell, stack := v :: s.stack }
  else .faulted .misalignedStack

/-- Takes a cell from the stack and hands it on. -/
def pop (s : State) (use : State → Int64 → State) : Outcome State :=
  if s.aligned then
    match s.stack with
    | v :: rest => .running (use { s with sp := s.sp + UInt64.ofNat stackCell, stack := rest } v)
    | [] => .faulted .stackUnderflow
  else .faulted .misalignedStack

end State

/-- The value of an operation on two registers. -/
def Arithmetic.value (f : Arithmetic) (x y : Int64) : Int64 :=
  match f with
  | .add => x + y
  | .sub => x - y
  | .eor => x ^^^ y
  | .mul => x * y
  | .smulh => Int64.ofInt (x.toInt * y.toInt / 0x1_0000_0000_0000_0000)
  | .sdiv => x / y

/-- Replaces the second 16 bits of a word. -/
def insertUpper (x : Int64) (imm : BitVec 16) : Int64 :=
  .ofBitVec (x.toBitVec.extractLsb' 32 32 ++ imm ++ x.toBitVec.extractLsb' 0 16)

namespace Instruction

/-- Carries out an instruction in a state whose program counter is already past it. -/
def execute (pool : Array Int64) (i : Instruction) (s : State) : Outcome State :=
  match i with
  | movz rd imm => .running (s.set rd (.ofBitVec (imm.setWidth 64)))
  | movk rd imm => .running (s.set rd (insertUpper (s.get rd) imm))
  | loadConstant rt rm =>
    match s.result with
    | some _ => .faulted .lostPool
    | none =>
      match pool[(s.get rm).toUInt64.toNat]? with
      | some v => .running (s.set rt v)
      | none => .faulted .poolBounds
  | push rt => s.push (s.get rt)
  | pop rt => s.pop fun t v => t.set rt v
  | popResult => s.pop fun t v => { t with result := some v }
  | storeStatus rt => .running { s with status := s.get rt }
  | arithmetic f rd rn rm => .running (s.set rd (f.value (s.get rn) (s.get rm)))
  | branchNonzero rt offset =>
    if s.get rt = 0 then .running s
    else
      match branchTarget? s.pc (4 * offset.toInt - 4) with
      | some pc => .running { s with pc := pc }
      | none => .faulted .wildBranch
  | nop => .running s
  | ret => .returned s

end Instruction

/-- Carries out the instruction at the program counter. -/
def step (m : SealedRegions) (s : State) : Outcome State :=
  match (leadingWord? (m.code.extract s.pc (s.pc + 4)).toList).bind decode? with
  | some i => i.execute m.pool { s with pc := s.pc + 4 }
  | none => .faulted .invalidInstruction

/-- The state in which a program is entered. -/
def entry : State where
  x9 := 0
  x10 := 0
  x11 := 0
  x12 := 0
  result := none
  sp := 0x7FFF_FFFF_0000
  stack := []
  status := 0
  pc := 0

/-- Runs a program from its entry.  Every instruction takes four bytes and branches lead
forward, so the length of the code bounds the number of steps. -/
def runProgram (m : SealedRegions) : Outcome State := Outcome.run (step m) m.code.size entry

end Reckoner.A64
