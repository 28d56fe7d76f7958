import Reckoner.Emitter

/-!
# The instructions of a target

Code is bytes, and what is said about code is said about the instructions that the bytes are.
Each target reads back what it writes, so bytes that come from instructions are taken apart into
the same instructions again, and every record of the emitter stands for a list of them.
-/

set_option autoImplicit false

namespace Reckoner

namespace Target

/-- The instructions of a target. -/
abbrev Instruction : Target → Type
  | x64 => X64.Instruction
  | a64 => A64.Instruction

/-- The bytes of an instruction. -/
def encode : (target : Target) → target.Instruction → List UInt8
  | x64 => X64.Instruction.encode
  | a64 => A64.Instruction.encode

/-- Reads the instruction at the front of some bytes. -/
def decode? : (target : Target) → List UInt8 → Option target.Instruction
  | x64, bytes => X64.decode? bytes
  | a64, bytes => (leadingWord? bytes).bind A64.decode?

/-- An instruction is read back from its bytes, whatever follows them. -/
theorem decode?_encode_append (target : Target) (i : target.Instruction) (rest : List UInt8) :
    target.decode? (target.encode i ++ rest) = some i := by
  cases target with
  | x64 => exact X64.decode?_encode_append i rest
  | a64 =>
    change (leadingWord? (wordBytes (A64.Instruction.word i) ++ rest)).bind A64.decode? = some i
    rw [leadingWord?_wordBytes_append]
    exact A64.decode?_word i

/-- Without bytes no instruction is read. -/
theorem decode?_nil (target : Target) : target.decode? [] = none := by cases target <;> rfl

/-- Every instruction has at least one byte, so taking code apart ends. -/
theorem length_encode_pos (target : Target) (i : target.Instruction) :
    0 < (target.encode i).length := by
  cases target with
  | x64 => exact X64.Instruction.length_pos i
  | a64 => exact Nat.succ_pos 3

/-- The instructions that bytes consist of, up to the first byte that starts none. -/
def disassemble (target : Target) (bytes : List UInt8) : List target.Instruction :=
  match _hi : target.decode? bytes with
  | none => []
  | some i => i :: target.disassemble (bytes.drop (target.encode i).length)
termination_by bytes.length
decreasing_by
  have hpos := target.length_encode_pos i
  have hbytes : 0 < bytes.length := by
    refine List.length_pos_iff.2 fun hnil => ?_
    rw [hnil, decode?_nil] at _hi
    cases _hi
  rw [List.length_drop]
  omega

/-- The bytes of instructions. -/
def bytes (target : Target) (is : List target.Instruction) : List UInt8 := is.flatMap target.encode

/-- The bytes of two runs of instructions of a target follow one another. -/
theorem bytes_append (target : Target) (is js : List target.Instruction) :
    target.bytes (is ++ js) = target.bytes is ++ target.bytes js := List.flatMap_append

/-- Code that is appended in pieces is the bytes of all their instructions. -/
theorem bytes_flatten (target : Target) (pieces : List (List target.Instruction)) :
    target.bytes pieces.flatten = (pieces.map target.bytes).flatten := by
  induction pieces with
  | nil => rfl
  | cons piece pieces ih =>
    rw [List.flatten_cons, bytes_append, ih]
    rfl

/-- Where the bytes of pieces are divided, the pieces are. -/
theorem exists_split (target : Target) {pieces : List (List target.Instruction)}
    {front rest : List (List UInt8)} {piece : List UInt8}
    (h : pieces.map target.bytes = front ++ piece :: rest) :
    ∃ fronts cut rests, pieces = fronts ++ cut :: rests ∧
      front.flatten = target.bytes fronts.flatten ∧ piece = target.bytes cut := by
  obtain ⟨fronts, behind, rfl, rfl, hbehind⟩ := List.map_eq_append_iff.1 h
  obtain ⟨cut, rests, rfl, rfl, -⟩ := List.map_eq_cons_iff.1 hbehind
  exact ⟨fronts, cut, rests, rfl, (target.bytes_flatten fronts).symm, rfl⟩

/-- Bytes that come from instructions are these instructions. -/
theorem disassemble_bytes (target : Target) (is : List target.Instruction) :
    target.disassemble (target.bytes is) = is := by
  induction is with
  | nil =>
    rw [disassemble]
    split
    · rfl
    · next i hi =>
      rw [bytes, List.flatMap_nil, decode?_nil] at hi
      cases hi
  | cons i is ih =>
    have hread : target.decode? (target.bytes (i :: is)) = some i :=
      target.decode?_encode_append i _
    rw [disassemble]
    split
    · next hnone =>
      rw [hread] at hnone
      cases hnone
    · next j hj =>
      rw [hread] at hj
      cases hj
      have hrest : (target.bytes (i :: is)).drop (target.encode i).length = target.bytes is :=
        List.drop_left
      rw [hrest, ih]

/-- The instructions that push the constant in a slot, as they are appended. -/
def fetchPieces : (target : Target) → UInt32 → Bool → List (List target.Instruction)
  | x64 => X64.fetch
  | a64 => A64.fetch

/-- The instructions that apply an operator, as they are appended. -/
def operatorPieces : (target : Target) → Operator → List (List target.Instruction)
  | x64 => X64.operator
  | a64 => A64.operator

/-- The instructions that end a program. -/
def epilogueInstructions : (target : Target) → List target.Instruction
  | x64 => X64.epilogue
  | a64 => A64.epilogue

/-- The pieces of a fetch are the bytes of its instructions. -/
theorem fetch_eq (target : Target) (slot : UInt32) (reload : Bool) :
    target.fetch slot reload = (target.fetchPieces slot reload).map target.bytes := by
  cases target <;> rfl

/-- The pieces of an operator are the bytes of its instructions. -/
theorem operator_eq (target : Target) (op : Operator) :
    target.operator op = (target.operatorPieces op).map target.bytes := by
  cases target <;> rfl

/-- The code that ends a program is the bytes of its instructions. -/
theorem epilogue_eq (target : Target) :
    target.epilogue = target.bytes target.epilogueInstructions := by
  cases target <;> rfl

/-- Whether an instruction reads the constant pool. -/
def loadsConstant : (target : Target) → target.Instruction → Bool
  | x64, .pushConstant => true
  | a64, .loadConstant _ _ => true
  | _, _ => false

/-- No instruction of an operator reads the constant pool: operands come from the stack alone. -/
theorem loadsConstant_of_mem_operator (target : Target) (op : Operator) :
    ∀ i ∈ (target.operatorPieces op).flatten, target.loadsConstant i = false := by
  cases target <;> cases op <;> decide

/-- No instruction of the epilogue reads the constant pool. -/
theorem loadsConstant_of_mem_epilogue (target : Target) :
    ∀ i ∈ target.epilogueInstructions, target.loadsConstant i = false := by
  cases target <;> decide

end Target

end Reckoner
