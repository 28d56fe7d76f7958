import Reckoner.Code.Bytes

/-!
# AArch64 instructions

The instructions that compiled expressions are made of, each with its 32-bit word.
Data lives in `x9` to `x12`.  On entry `x0` holds the address of the pool and `x1` that
of the status word; they occur only inside the instructions that use them, and the
last operand is popped into `x0`.  `decode?` reads a word back.
-/

set_option autoImplicit false

namespace Reckoner.A64

/-- The registers that hold data. -/
inductive Register where
  | x9
  | x10
  | x11
  | x12
  deriving DecidableEq

namespace Register

/-- The register's number. -/
def code : Register → BitVec 5
  | x9 => 9
  | x10 => 10
  | x11 => 11
  | x12 => 12

/-- The register with a number. -/
def ofCode? (c : BitVec 5) : Option Register :=
  if c = 9 then some x9
  else if c = 10 then some x10
  else if c = 11 then some x11
  else if c = 12 then some x12
  else none

/-- A register is read back from its code. -/
theorem ofCode?_code (r : Register) : ofCode? r.code = some r := by cases r <;> decide

end Register

/-- The operations on two registers. -/
inductive Arithmetic where
  | add
  | sub
  | eor
  | mul
  /-- The high half of the signed product. -/
  | smulh
  | sdiv
  deriving DecidableEq

namespace Arithmetic

/-- The bits of the word in front of the second operand's number. -/
def high : Arithmetic → BitVec 11
  | add => 0b10001011000
  | sub => 0b11001011000
  | eor => 0b11001010000
  | mul => 0b10011011000
  | smulh => 0b10011011010
  | sdiv => 0b10011010110

/-- The bits of the word behind the second operand's number. -/
def middle : Arithmetic → BitVec 6
  | add | sub | eor => 0b000000
  | mul | smulh => 0b011111
  | sdiv => 0b000011

/-- The operation with given bits. -/
def ofBits? (high : BitVec 11) (middle : BitVec 6) : Option Arithmetic :=
  [add, sub, eor, mul, smulh, sdiv].find? fun f => f.high = high && f.middle = middle

/-- An arithmetic function is read back from the bits that stand for it. -/
theorem ofBits?_bits (f : Arithmetic) : ofBits? f.high f.middle = some f := by cases f <;> decide

end Arithmetic

/-- An instruction. -/
inductive Instruction where
  /-- `movz Xd, #imm`. -/
  | movz (rd : Register) (imm : BitVec 16)
  /-- `movk Xd, #imm, lsl #16`. -/
  | movk (rd : Register) (imm : BitVec 16)
  /-- `ldr Xt, [x0, Xm, lsl #3]`. -/
  | loadConstant (rt rm : Register)
  /-- `str Xt, [sp, #-16]!`. -/
  | push (rt : Register)
  /-- `ldr Xt, [sp], #16`. -/
  | pop (rt : Register)
  /-- `ldr x0, [sp], #16`. -/
  | popResult
  /-- `str Xt, [x1]`. -/
  | storeStatus (rt : Register)
  | arithmetic (f : Arithmetic) (rd rn rm : Register)
  /-- `cbnz Xt, offset`, the offset in words. -/
  | branchNonzero (rt : Register) (offset : BitVec 19)
  | nop
  | ret
  deriving DecidableEq

namespace Instruction

/-- The number of the stack pointer as a base register. -/
def spCode : BitVec 5 := 31

/-- The word of an instruction. -/
def word : Instruction → BitVec 32
  | movz rd imm => 0b11010010100#11 ++ imm ++ rd.code
  | movk rd imm => 0b11110010101#11 ++ imm ++ rd.code
  | loadConstant rt rm => 0b11111000011#11 ++ rm.code ++ 0b011110#6 ++ 0#5 ++ rt.code
  | push rt => 0b11111000000#11 ++ 0b11111000011#11 ++ spCode ++ rt.code
  | pop rt => 0b11111000010#11 ++ 0b00001000001#11 ++ spCode ++ rt.code
  | popResult => 0b11111000010#11 ++ 0b00001000001#11 ++ spCode ++ 0#5
  | storeStatus rt => 0b11111001000#11 ++ 0b00000000000#11 ++ 1#5 ++ rt.code
  | arithmetic f rd rn rm => f.high ++ rm.code ++ f.middle ++ rn.code ++ rd.code
  | branchNonzero rt offset => 0b10110101#8 ++ offset ++ rt.code
  | nop => 0xD503201F
  | ret => 0xD65F03C0

/-- The bytes of an instruction. -/
def encode (i : Instruction) : List UInt8 := wordBytes i.word

/-- Every instruction is one word long. -/
@[simp] theorem length_encode (i : Instruction) : i.encode.length = 4 := rfl

end Instruction

/-- Reads an instruction that its upper eleven bits select. -/
def decodeFields? (w : BitVec 32) : Option Instruction :=
  let high := w.extractLsb' 21 11
  let second := w.extractLsb' 16 5
  let middle := w.extractLsb' 10 6
  let offset := w.extractLsb' 10 11
  let base := w.extractLsb' 5 5
  let first := w.extractLsb' 0 5
  if high = 0b11010010100 then
    (Register.ofCode? first).map fun rd => .movz rd (w.extractLsb' 5 16)
  else if high = 0b11110010101 then
    (Register.ofCode? first).map fun rd => .movk rd (w.extractLsb' 5 16)
  else if high = 0b11111000011 then
    if middle = 0b011110 ∧ base = 0 then
      (Register.ofCode? first).bind fun rt => (Register.ofCode? second).map (.loadConstant rt)
    else none
  else if high = 0b11111000000 then
    if offset = 0b11111000011 ∧ base = Instruction.spCode then
      (Register.ofCode? first).map .push
    else none
  else if high = 0b11111000010 then
    if offset = 0b00001000001 ∧ base = Instruction.spCode then
      if first = 0 then some .popResult else (Register.ofCode? first).map .pop
    else none
  else if high = 0b11111001000 then
    if offset = 0 ∧ base = 1 then (Register.ofCode? first).map .storeStatus else none
  else if high = 0b11010101000 then if w = Instruction.nop.word then some .nop else none
  else if high = 0b11010110010 then if w = Instruction.ret.word then some .ret else none
  else
    (Arithmetic.ofBits? high middle).bind fun f =>
      (Register.ofCode? first).bind fun rd =>
        (Register.ofCode? base).bind fun rn =>
          (Register.ofCode? second).map (.arithmetic f rd rn)

/-- Reads the instruction that a word is. -/
def decode? (w : BitVec 32) : Option Instruction :=
  if w.extractLsb' 24 8 = 0b10110101 then
    (Register.ofCode? (w.extractLsb' 0 5)).map fun rt => .branchNonzero rt (w.extractLsb' 5 19)
  else decodeFields? w

/-- The number of a register is read back from the low bits of a word. -/
theorem ofCode?_low {n : Nat} (x : BitVec n) (r : Register) :
    Register.ofCode? ((x ++ r.code).extractLsb' 0 5) = some r := by
  rw [BitVec.extractLsb'_append_eq_of_add_le (by decide), BitVec.extractLsb'_eq_self]
  exact r.ofCode?_code

/-- The fields of a word that holds a 16-bit immediate. -/
theorem fields_move (high : BitVec 11) (imm : BitVec 16) (rd : Register) :
    (high ++ imm ++ rd.code).extractLsb' 24 8 = high.extractLsb' 3 8 ∧
      (high ++ imm ++ rd.code).extractLsb' 21 11 = high ∧
      (high ++ imm ++ rd.code).extractLsb' 5 16 = imm := by
  refine ⟨?_, ?_, ?_⟩
  · rw [BitVec.extractLsb'_append_eq_of_le (by decide),
      BitVec.extractLsb'_append_eq_of_le (by decide)]
  · rw [BitVec.extractLsb'_append_eq_of_le (by decide),
      BitVec.extractLsb'_append_eq_of_le (by decide), BitVec.extractLsb'_eq_self]
  · rw [BitVec.extractLsb'_append_eq_of_le (by decide),
      BitVec.extractLsb'_append_eq_of_add_le (by decide), BitVec.extractLsb'_eq_self]

/-- The fields of a word that names three registers. -/
theorem fields_arithmetic (high : BitVec 11) (middle : BitVec 6) (rd rn rm : Register) :
    (high ++ rm.code ++ middle ++ rn.code ++ rd.code).extractLsb' 24 8 = high.extractLsb' 3 8 ∧
      (high ++ rm.code ++ middle ++ rn.code ++ rd.code).extractLsb' 21 11 = high ∧
      (high ++ rm.code ++ middle ++ rn.code ++ rd.code).extractLsb' 16 5 = rm.code ∧
      (high ++ rm.code ++ middle ++ rn.code ++ rd.code).extractLsb' 10 6 = middle ∧
      (high ++ rm.code ++ middle ++ rn.code ++ rd.code).extractLsb' 5 5 = rn.code := by
  refine ⟨?_, ?_, ?_, ?_, ?_⟩
  · rw [BitVec.extractLsb'_append_eq_of_le (by decide),
      BitVec.extractLsb'_append_eq_of_le (by decide),
      BitVec.extractLsb'_append_eq_of_le (by decide),
      BitVec.extractLsb'_append_eq_of_le (by decide)]
  · rw [BitVec.extractLsb'_append_eq_of_le (by decide),
      BitVec.extractLsb'_append_eq_of_le (by decide),
      BitVec.extractLsb'_append_eq_of_le (by decide),
      BitVec.extractLsb'_append_eq_of_le (by decide), BitVec.extractLsb'_eq_self]
  · rw [BitVec.extractLsb'_append_eq_of_le (by decide),
      BitVec.extractLsb'_append_eq_of_le (by decide),
      BitVec.extractLsb'_append_eq_of_le (by decide),
      BitVec.extractLsb'_append_eq_of_add_le (by decide), BitVec.extractLsb'_eq_self]
  · rw [BitVec.extractLsb'_append_eq_of_le (by decide),
      BitVec.extractLsb'_append_eq_of_le (by decide),
      BitVec.extractLsb'_append_eq_of_add_le (by decide), BitVec.extractLsb'_eq_self]
  · rw [BitVec.extractLsb'_append_eq_of_le (by decide),
      BitVec.extractLsb'_append_eq_of_add_le (by decide), BitVec.extractLsb'_eq_self]

/-- The fields of a word that holds a branch offset. -/
theorem fields_branch (high : BitVec 8) (offset : BitVec 19) (rt : Register) :
    (high ++ offset ++ rt.code).extractLsb' 24 8 = high ∧
      (high ++ offset ++ rt.code).extractLsb' 5 19 = offset := by
  refine ⟨?_, ?_⟩
  · rw [BitVec.extractLsb'_append_eq_of_le (by decide),
      BitVec.extractLsb'_append_eq_of_le (by decide), BitVec.extractLsb'_eq_self]
  · rw [BitVec.extractLsb'_append_eq_of_le (by decide),
      BitVec.extractLsb'_append_eq_of_add_le (by decide), BitVec.extractLsb'_eq_self]

/-- An instruction is read back from its word. -/
theorem decode?_word (i : Instruction) : decode? i.word = some i := by
  cases i with
  | movz rd imm =>
    obtain ⟨htop, hhigh, himm⟩ := fields_move 0b11010010100#11 imm rd
    have hrd := ofCode?_low (0b11010010100#11 ++ imm) rd
    simp only [decode?, decodeFields?, Instruction.word, htop, hhigh, himm, hrd]
    rfl
  | movk rd imm =>
    obtain ⟨htop, hhigh, himm⟩ := fields_move 0b11110010101#11 imm rd
    have hrd := ofCode?_low (0b11110010101#11 ++ imm) rd
    simp only [decode?, decodeFields?, Instruction.word, htop, hhigh, himm, hrd]
    rfl
  | branchNonzero rt offset =>
    obtain ⟨htop, hoffset⟩ := fields_branch 0b10110101#8 offset rt
    have hrt := ofCode?_low (0b10110101#8 ++ offset) rt
    simp only [decode?, Instruction.word, htop, hoffset, hrt]
    rfl
  | arithmetic f rd rn rm =>
    obtain ⟨htop, hhigh, hsecond, hmiddle, hbase⟩ := fields_arithmetic f.high f.middle rd rn rm
    have hfirst := ofCode?_low (f.high ++ rm.code ++ f.middle ++ rn.code) rd
    simp only [decode?, decodeFields?, Instruction.word, htop, hhigh, hsecond, hmiddle, hbase,
      hfirst, Register.ofCode?_code, Arithmetic.ofBits?_bits]
    cases f <;> rfl
  | loadConstant rt rm => cases rt <;> cases rm <;> rfl
  | push rt => cases rt <;> rfl
  | pop rt => cases rt <;> rfl
  | storeStatus rt => cases rt <;> rfl
  | popResult => rfl
  | nop => rfl
  | ret => rfl

end Reckoner.A64
