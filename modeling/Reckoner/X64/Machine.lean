import Reckoner.Code.Regions
import Reckoner.Machine
import Reckoner.X64.Instruction

/-!
# The x86-64 machine

The meaning of the instructions, as far as compiled expressions depend on it.  The only
flag that is ever tested is the zero flag.  Multiplication and division leave it
undefined, and a branch on an undefined flag is a fault, so nothing hangs on what a
processor happens to do.
-/

set_option autoImplicit false

namespace Reckoner.X64

/-- The bytes of stack that a cell takes. -/
def stackCell : Nat := 8

/-- The state of the machine. -/
structure State where
  rax : Int64
  rcx : Int64
  rdx : Int64
  r8 : Int64
  /-- The zero flag, unless it is undefined. -/
  zero : Option Bool
  /-- The stack pointer. -/
  sp : UInt64
  /-- The cells of the stack, from the stack pointer upward. -/
  stack : List Int64
  /-- The status word. -/
  status : Int64
  /-- The position of the next instruction in the code. -/
  pc : Nat
  deriving DecidableEq

namespace State

/-- The content of a register. -/
def get (s : State) : Register → Int64
  | .rax => s.rax
  | .rcx => s.rcx
  | .rdx => s.rdx
  | .r8 => s.r8

/-- Writes a register. -/
def set (s : State) (r : Register) (v : Int64) : State :=
  match r with
  | .rax => { s with rax := v }
  | .rcx => { s with rcx := v }
  | .rdx => { s with rdx := v }
  | .r8 => { s with r8 := v }

/-- Writes a register and sets the zero flag by the value. -/
def setResult (s : State) (r : Register) (v : Int64) : State :=
  { s.set r v with zero := some (v = 0) }

/-- Puts a cell on the stack. -/
def push (s : State) (v : Int64) : State :=
  { s with sp := s.sp - UInt64.ofNat stackCell, stack := v :: s.stack }

/-- Branches by a signed distance. -/
def branch (s : State) (distance : UInt8) : Outcome State :=
  match branchTarget? s.pc distance.toInt8.toInt with
  | some pc => .running { s with pc := pc }
  | none => .faulted .wildBranch

/-- Divides `rdx:rax`, truncating the quotient toward zero. -/
def divide (s : State) (divisor : Int) : Outcome State :=
  let dividend := s.rdx.toInt * 0x1_0000_0000_0000_0000 + s.rax.toUInt64.toNat
  let quotient := dividend.tdiv divisor
  if divisor = 0 ∨ quotient < -0x8000_0000_0000_0000 ∨ 0x8000_0000_0000_0000 ≤ quotient then
    .faulted .divideError
  else
    .running
      { s with
        rax := Int64.ofInt quotient
        rdx := Int64.ofInt (dividend.tmod divisor)
        zero := none }

end State

/-- The high half of the signed product of two words. -/
def highProduct (x y : Int64) : Int64 :=
  Int64.ofInt (x.toInt * y.toInt / 0x1_0000_0000_0000_0000)

namespace Instruction

/-- Carries out an instruction in a state whose program counter is already past it. -/
def execute (pool : Array Int64) (i : Instruction) (s : State) : Outcome State :=
  match i with
  | loadIndex slot => .running { s with rdx := slot.toUInt64.toInt64 }
  | pushConstant =>
    match pool[s.rdx.toUInt64.toNat]? with
    | some v => .running (s.push v)
    | none => .faulted .poolBounds
  | push r => .running (s.push (s.get r))
  | pop r =>
    match s.stack with
    | v :: rest =>
      .running ({ s with sp := s.sp + UInt64.ofNat stackCell, stack := rest }.set r v)
    | [] => .faulted .stackUnderflow
  | add dst src => .running (s.setResult dst (s.get dst + s.get src))
  | sub dst src => .running (s.setResult dst (s.get dst - s.get src))
  | xor dst src => .running (s.setResult dst (s.get dst ^^^ s.get src))
  | mov dst src => .running (s.set dst (s.get src))
  | imul r =>
    .running
      { s with rax := s.rax * s.get r, rdx := highProduct s.rax (s.get r), zero := none }
  | idiv r => s.divide (s.get r).toInt
  | neg r => .running (s.setResult r (-s.get r))
  | cqo => .running { s with rdx := if s.rax < 0 then -1 else 0 }
  | test a b => .running { s with zero := some (s.get a &&& s.get b = 0) }
  | compare r imm => .running { s with zero := some (s.get r = imm.toInt8.toInt64) }
  | jumpNotEqual distance =>
    match s.zero with
    | some true => .running s
    | some false => s.branch distance
    | none => .faulted .undefinedFlag
  | jump distance => s.branch distance
  | storeStatus imm => .running { s with status := imm.toInt32.toInt64 }
  | nop _ => .running s
  | ret => .returned s

end Instruction

/-- The most bytes that an instruction has. -/
def maxLength : Nat := 9

/-- Carries out the instruction at the program counter. -/
def step (m : SealedRegions) (s : State) : Outcome State :=
  match decode? (m.code.extract s.pc (s.pc + maxLength)).toList with
  | some i => i.execute m.pool { s with pc := s.pc + i.length }
  | none => .faulted .invalidInstruction

/-- The state in which a program is entered. -/
def entry : State where
  rax := 0
  rcx := 0
  rdx := 0
  r8 := 0
  zero := none
  sp := 0x7FFF_FFFF_0000
  stack := []
  status := 0
  pc := 0

/-- Runs a program from its entry.  Every instruction takes at least a byte and branches
lead forward, so the length of the code bounds the number of steps. -/
def runProgram (m : SealedRegions) : Outcome State := Outcome.run (step m) m.code.size entry

end Reckoner.X64
