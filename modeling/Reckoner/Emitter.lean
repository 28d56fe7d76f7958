import Reckoner.Code.Buffer
import Reckoner.ConstantPool
import Reckoner.Target
import Reckoner.Tree.PostOrder

/-!
# Emitting code

The emitter turns the symbols of an expression into code, one after the other.  A
number is pushed from its slot in the constant pool; when the index register is known to
hold that slot already, the load of the register is elided.  The widening multiply
writes the register, so after it nothing is known.

A symbol whose code does not fit leaves behind the pieces of it that did fit, and its
constant stays in the pool; what is known of the index register and the trace do not
change.
-/

set_option autoImplicit false

namespace Reckoner

/-- What is known of the index register. -/
inductive IndexState where
  | unknown
  | known (slot : UInt32)
  deriving DecidableEq

/-- What was emitted for one symbol. -/
inductive Emission where
  | fetch (slot : UInt32) (elided : Bool)
  | operator (op : Operator) (indexAfter : IndexState)
  deriving DecidableEq

/-- Whether the record is of a fetch that trusted the index register. -/
def Emission.isElided : Emission → Bool
  | .fetch _ elided => elided
  | .operator _ _ => false

/-- Code under way. -/
structure Emitter where
  target : Target
  buffer : CodeBuffer
  pool : ConstantPool
  index : IndexState
  /-- What has been emitted, in order. -/
  trace : Array Emission

/-- Code that is complete. -/
structure Emitted where
  buffer : CodeBuffer
  pool : SealedPool
  trace : Array Emission

namespace Emitter

/-- An emitter on an empty buffer. -/
def start (target : Target) (buffer : CodeBuffer) : Emitter :=
  ⟨target, buffer, .empty, .unknown, #[]⟩

/-- Emits the push of a number. -/
def fetch (e : Emitter) (v : Int64) : Emitter × Option SizeMismatch :=
  match e with
  | ⟨target, buffer, pool, index, trace⟩ =>
    let (slot, pool) := pool.intern v
    let elided : Bool := index = .known slot
    match buffer.emitAll (target.fetch slot !elided) with
    | (buffer, none) => (⟨target, buffer, pool, .known slot, trace.push (.fetch slot elided)⟩, none)
    | (buffer, some mismatch) => (⟨target, buffer, pool, index, trace⟩, some mismatch)

/-- Emits an operator. -/
def operator (e : Emitter) (op : Operator) : Emitter × Option SizeMismatch :=
  match e with
  | ⟨target, buffer, pool, index, trace⟩ =>
    match buffer.emitAll (target.operator op) with
    | (buffer, none) =>
      let indexAfter := if op.clobbersIndex then .unknown else index
      (⟨target, buffer, pool, indexAfter, trace.push (.operator op indexAfter)⟩, none)
    | (buffer, some mismatch) => (⟨target, buffer, pool, index, trace⟩, some mismatch)

/-- Emits a symbol. -/
def symbol (e : Emitter) : Symbol → Emitter × Option SizeMismatch
  | .value v => e.fetch v
  | .operator op => e.operator op

/-- Emits symbols in turn, up to the first one that does not fit. -/
def symbols (e : Emitter) : List Symbol → Emitter × Option SizeMismatch
  | [] => (e, none)
  | s :: rest =>
    match e.symbol s with
    | (next, none) => next.symbols rest
    | (next, some mismatch) => (next, some mismatch)

/-- Emits a tree. -/
def tree (e : Emitter) (t : Tree) : Emitter × Option SizeMismatch := e.symbols t.symbols

/-- Ends the code, in the bytes that the buffer has kept for it. -/
def finish (e : Emitter) : Except SizeMismatch Emitted :=
  match e.buffer.emitFinal e.target.epilogue with
  | (buffer, none) => .ok ⟨buffer, e.pool.sealed, e.trace⟩
  | (_, some mismatch) => .error mismatch

end Emitter

end Reckoner
