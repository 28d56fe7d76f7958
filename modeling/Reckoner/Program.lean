import Reckoner.Code.Size
import Reckoner.Emitter

/-!
# Compiled programs

A tree is compiled in fixed steps: measure it, predict the sizes, ask for memory, emit
the code, check its length against the prediction, write the constants, and seal the
memory.  The program can then be called any number of times.
-/

set_option autoImplicit false

namespace Reckoner

/-- A program that can be called, with what was learned while it was made. -/
structure Program where
  target : Target
  size : CodeSize
  regions : SealedRegions
  pool : SealedPool
  trace : Array Emission

namespace Program

/-- The code of a tree, emitted into memory that has been granted. -/
def emit (target : Target) (t : Tree) (size : CodeSize) (memory : Array UInt8) :
    Except SizeMismatch Emitted :=
  match CodeBuffer.create memory size.codeLength target.epilogueSize with
  | .error mismatch => .error mismatch
  | .ok buffer =>
    match (Emitter.start target buffer).tree t with
    | (e, none) => e.finish
    | (_, some mismatch) => .error mismatch

/-- Fills granted memory with the code and the constants of a tree. -/
def assemble (target : Target) (t : Tree) (size : CodeSize) (regions : Regions) :
    Except SizeMismatch Program :=
  match regions with
  | ⟨code, pool, poolSize⟩ =>
    match emit target t size code with
    | .error mismatch => .error mismatch
    | .ok emitted =>
      if emitted.buffer.length ≠ size.codeLength then
        .error ⟨emitted.buffer.length, size.codeLength⟩
      else
        match Regions.writePool ⟨emitted.buffer.bytes, pool, poolSize⟩ emitted.pool.values with
        | (written, none) => .ok ⟨target, size, written.sealed, emitted.pool, emitted.trace⟩
        | (_, some mismatch) => .error mismatch

/-- Compiles a tree. -/
def compile (target : Target) (t : Tree) : Except CompileError Program :=
  match CodeSize.ofShape target t.shape with
  | .error e => .error e
  | .ok size =>
    match Regions.allocate target.filler size.codeRegion size.poolRegion with
    | .error e => .error e
    | .ok regions =>
      match assemble target t size regions with
      | .error mismatch => .error (.sizeMismatch mismatch)
      | .ok program => .ok program

/-- What a call of the program gives. -/
def run? (p : Program) : Option (Except EvaluationError Int64) := p.target.call? p.regions

/-- The number of fetches that trusted the index register. -/
def elidedReloads (p : Program) : Nat := p.trace.countP Emission.isElided

/-- A summary of a program. -/
def summary (p : Program) : String :=
  "CompiledProgram \x7b size: CodeSize \x7b code_len: " ++ p.size.codeLength.repr ++
    ", code_region: " ++ p.size.codeRegion.repr ++ ", pool_region: " ++ p.size.poolRegion.repr ++
    " \x7d, pool_len: " ++ p.pool.size.repr ++ ", elided_reloads: " ++ p.elidedReloads.repr ++ " \x7d"

end Program

end Reckoner
