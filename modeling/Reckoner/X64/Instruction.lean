import Reckoner.Code.Bytes

/-!
# x86-64 instructions

The instructions that compiled expressions are made of, each with its bytes.  Data
lives in `rax`, `rcx`, `rdx` and `r8`; `rdi` holds the address of the pool and `rsi`
that of the status word, and neither is ever written, so they occur only inside the two
instructions that use them.  `decode` reads one instruction back from the front of some
bytes.
-/

set_option autoImplicit false

namespace Reckoner.X64

/-- The registers that hold data. -/
inductive Register where
  | rax
  | rcx
  | rdx
  | r8
  deriving DecidableEq

namespace Register

/-- The low three bits of the register's number. -/
def low : Register → UInt8
  | rax | r8 => 0
  | rcx => 1
  | rdx => 2

/-- The high bit of the register's number. -/
def high : Register → UInt8
  | rax | rcx | rdx => 0
  | r8 => 1

/-- The register with a number given by its high bit and its low three bits. -/
def ofBits? (high low : UInt8) : Option Register :=
  if high = 0 then
    if low = 0 then some rax else if low = 1 then some rcx else if low = 2 then some rdx else none
  else if low = 0 then some r8 else none

end Register

/-- An instruction. -/
inductive Instruction where
  /-- `mov edx, imm32`: the upper half of `rdx` becomes zero. -/
  | loadIndex (slot : UInt32)
  /-- `push qword [rdi + rdx*8]`. -/
  | pushConstant
  | push (r : Register)
  | pop (r : Register)
  | add (dst src : Register)
  | sub (dst src : Register)
  | xor (dst src : Register)
  | mov (dst src : Register)
  /-- `imul r`: `rdx:rax` becomes the signed product of `rax` and `r`. -/
  | imul (r : Register)
  /-- `idiv r`: `rax` and `rdx` become quotient and remainder of `rdx:rax` by `r`. -/
  | idiv (r : Register)
  | neg (r : Register)
  /-- `cqo`: `rdx` becomes all sign bits of `rax`. -/
  | cqo
  | test (a b : Register)
  /-- `cmp r, imm8` with a sign-extended immediate. -/
  | compare (r : Register) (imm : UInt8)
  /-- `jne rel8`. -/
  | jumpNotEqual (distance : UInt8)
  /-- `jmp rel8`. -/
  | jump (distance : UInt8)
  /-- `mov qword [rsi], imm32` with a sign-extended immediate. -/
  | storeStatus (imm : UInt32)
  /-- A no-op of one to nine bytes. -/
  | nop (extra : Fin 9)
  | ret
  deriving DecidableEq

/-- The recommended no-ops of one to nine bytes. -/
def nopBytes : Fin 9 → List UInt8
  | 0 => [0x90]
  | 1 => [0x66, 0x90]
  | 2 => [0x0F, 0x1F, 0x00]
  | 3 => [0x0F, 0x1F, 0x40, 0x00]
  | 4 => [0x0F, 0x1F, 0x44, 0x00, 0x00]
  | 5 => [0x66, 0x0F, 0x1F, 0x44, 0x00, 0x00]
  | 6 => [0x0F, 0x1F, 0x80, 0x00, 0x00, 0x00, 0x00]
  | 7 => [0x0F, 0x1F, 0x84, 0x00, 0x00, 0x00, 0x00, 0x00]
  | 8 => [0x66, 0x0F, 0x1F, 0x84, 0x00, 0x00, 0x00, 0x00, 0x00]

/-- There is a no-op of every length from one byte to nine. -/
theorem length_nopBytes (extra : Fin 9) : (nopBytes extra).length = extra.val + 1 := by
  revert extra
  decide

/-- The byte in front of a 64-bit instruction: it extends the numbers of its two operands. -/
def widePrefix (reg rm : UInt8) : UInt8 := 0x48 + 4 * reg + rm

/-- The byte that names a register operand next to another one or to an opcode digit. -/
def operands (reg rm : UInt8) : UInt8 := 0xC0 + 8 * reg + rm

/-- The bytes of a 64-bit instruction on two registers. -/
def wide2 (opcode : UInt8) (reg rm : Register) : List UInt8 :=
  [widePrefix reg.high rm.high, opcode, operands reg.low rm.low]

/-- The bytes of a 64-bit instruction on one register, told apart by a digit. -/
def wide1 (opcode digit : UInt8) (rm : Register) : List UInt8 :=
  [widePrefix 0 rm.high, opcode, operands digit rm.low]

/-- The bytes of an instruction on one register whose number is part of the opcode. -/
def short (opcode : UInt8) (r : Register) : List UInt8 :=
  if r.high = 0 then [opcode + r.low] else [0x41, opcode + r.low]

namespace Instruction

/-- The bytes of an instruction. -/
def encode : Instruction → List UInt8
  | loadIndex slot => 0xBA :: wordBytes slot.toBitVec
  | pushConstant => [0xFF, 0x34, 0xD7]
  | push r => short 0x50 r
  | pop r => short 0x58 r
  | add dst src => wide2 0x01 src dst
  | sub dst src => wide2 0x29 src dst
  | xor dst src => wide2 0x31 src dst
  | mov dst src => wide2 0x89 src dst
  | imul r => wide1 0xF7 5 r
  | idiv r => wide1 0xF7 7 r
  | neg r => wide1 0xF7 3 r
  | cqo => [0x48, 0x99]
  | test a b => wide2 0x85 b a
  | compare r imm => wide1 0x83 7 r ++ [imm]
  | jumpNotEqual distance => [0x75, distance]
  | jump distance => [0xEB, distance]
  | storeStatus imm => [0x48, 0xC7, 0x06] ++ wordBytes imm.toBitVec
  | nop extra => nopBytes extra
  | ret => [0xC3]

/-- The number of bytes of an instruction. -/
def length (i : Instruction) : Nat := i.encode.length

/-- No instruction is empty, so reading code always gets on. -/
theorem length_pos (i : Instruction) : 0 < i.length := by
  cases i with
  | push r => cases r <;> decide
  | pop r => cases r <;> decide
  | nop extra =>
    unfold length
    exact length_nopBytes extra ▸ Nat.succ_pos _
  | _ => exact Nat.succ_pos _

end Instruction

/-- Reads the no-op at the front of some bytes. -/
def decodeNop? (bytes : List UInt8) : Option Instruction :=
  ((List.finRange 9).find? fun extra => (nopBytes extra).isPrefixOf bytes).map .nop

/-- Reads an instruction on one register whose number is part of the opcode. -/
def decodeShort? (high opcode : UInt8) : Option Instruction :=
  if 0x50 ≤ opcode ∧ opcode < 0x58 then (Register.ofBits? high (opcode - 0x50)).map .push
  else if 0x58 ≤ opcode ∧ opcode < 0x60 then (Register.ofBits? high (opcode - 0x58)).map .pop
  else none

/-- Reads a 64-bit instruction on registers: its opcode, the byte that names the registers,
and the bytes after these. -/
def decodeRegisters? (regHigh rmHigh opcode modes : UInt8) (rest : List UInt8) :
    Option Instruction :=
  let digit := modes / 8 % 8
  if modes < 0xC0 then none
  else
    match Register.ofBits? rmHigh (modes % 8) with
    | none => none
    | some rm =>
      if opcode = 0xF7 then
        if regHigh ≠ 0 then none
        else if digit = 5 then some (.imul rm)
        else if digit = 7 then some (.idiv rm)
        else if digit = 3 then some (.neg rm)
        else none
      else if opcode = 0x83 then
        if regHigh = 0 ∧ digit = 7 then rest.head?.map (.compare rm) else none
      else
        match Register.ofBits? regHigh digit with
        | none => none
        | some reg =>
          if opcode = 0x01 then some (.add rm reg)
          else if opcode = 0x29 then some (.sub rm reg)
          else if opcode = 0x31 then some (.xor rm reg)
          else if opcode = 0x89 then some (.mov rm reg)
          else if opcode = 0x85 then some (.test rm reg)
          else none

/-- Reads a 64-bit instruction after the byte in front of it, which gives the high bits of
the numbers of its operands. -/
def decodeWide? (regHigh rmHigh : UInt8) : List UInt8 → Option Instruction
  | [] => none
  | opcode :: rest =>
    if opcode = 0x99 then if regHigh = 0 ∧ rmHigh = 0 then some .cqo else none
    else if opcode = 0xC7 then
      if regHigh = 0 ∧ rmHigh = 0 ∧ rest.head? = some 0x06 then
        (leadingWord? rest.tail).map fun w => .storeStatus ⟨w⟩
      else none
    else
      match rest with
      | modes :: rest => decodeRegisters? regHigh rmHigh opcode modes rest
      | [] => none

/-- Reads the instruction at the front of some bytes. -/
def decode? : List UInt8 → Option Instruction
  | [] => none
  | first :: rest =>
    if first = 0xBA then (leadingWord? rest).map fun w => .loadIndex ⟨w⟩
    else if first = 0xFF then if [0x34, 0xD7].isPrefixOf rest then some .pushConstant else none
    else if first = 0xC3 then some .ret
    else if first = 0x75 then rest.head?.map .jumpNotEqual
    else if first = 0xEB then rest.head?.map .jump
    else if first = 0x41 then rest.head?.bind (decodeShort? 1)
    else if first = 0x48 then decodeWide? 0 0 rest
    else if first = 0x49 then decodeWide? 0 1 rest
    else if first = 0x4C then decodeWide? 1 0 rest
    else if first = 0x4D then decodeWide? 1 1 rest
    else if 0x50 ≤ first ∧ first < 0x60 then decodeShort? 0 first
    else decodeNop? (first :: rest)

/-- An instruction is read back from its bytes, whatever follows them. -/
theorem decode?_encode_append (i : Instruction) (rest : List UInt8) :
    decode? (i.encode ++ rest) = some i := by
  cases i with
  | loadIndex slot =>
    have h := leadingWord?_wordBytes_append slot.toBitVec rest
    exact (congrArg (Option.map fun w => Instruction.loadIndex ⟨w⟩) h :)
  | storeStatus imm =>
    have h := leadingWord?_wordBytes_append imm.toBitVec rest
    exact (congrArg (Option.map fun w => Instruction.storeStatus ⟨w⟩) h :)
  | push r => cases r <;> rfl
  | pop r => cases r <;> rfl
  | add dst src => cases dst <;> cases src <;> rfl
  | sub dst src => cases dst <;> cases src <;> rfl
  | xor dst src => cases dst <;> cases src <;> rfl
  | mov dst src => cases dst <;> cases src <;> rfl
  | test a b => cases a <;> cases b <;> rfl
  | imul r => cases r <;> rfl
  | idiv r => cases r <;> rfl
  | neg r => cases r <;> rfl
  | compare r imm => cases r <;> rfl
  | nop extra =>
    match extra with
    | 0 | 1 | 2 | 3 | 4 | 5 | 6 | 7 | 8 => rfl
  | _ => rfl

end Reckoner.X64
