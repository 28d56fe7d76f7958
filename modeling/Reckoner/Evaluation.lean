import Reckoner.Parser
import Reckoner.Program
import Reckoner.Tree.Interpreter

/-!
# Evaluating a text

A text is read and its tree evaluated, by compiling and calling it or by interpreting
it.
-/

set_option autoImplicit false

namespace Reckoner

/-- How expressions are evaluated. -/
structure Config where
  /-- Compile each expression instead of interpreting it. -/
  compiles : Bool := true
  deriving DecidableEq

/-- Evaluation by interpreting. -/
def Config.interpreter : Config := ⟨false⟩

/-- Why a text has no value. -/
inductive Failure where
  | parse (e : ParseError)
  | evaluation (e : EvaluationError)
  | compile (e : CompileError)
  /-- The compiled code did not return; compiled expressions always do. -/
  | crash
  deriving DecidableEq

/-- The text shown for a failure. -/
def Failure.message : Failure → String
  | .parse e => "parse error: " ++ e.message
  | .evaluation e => "evaluation error: " ++ e.message
  | .compile e => "jit error: " ++ e.message
  | .crash => "illegal instruction"

/-- The value of a tree on a target. -/
def Tree.evaluate (t : Tree) (config : Config) (target : Target) : Except Failure Int64 :=
  if config.compiles then
    match Program.compile target t with
    | .error e => .error (.compile e)
    | .ok program =>
      match program.run? with
      | some (.ok v) => .ok v
      | some (.error e) => .error (.evaluation e)
      | none => .error .crash
  else
    match t.interpret with
    | .ok v => .ok v
    | .error e => .error (.evaluation e)

/-- The value of a text on a target. -/
def evaluate (text : List Char) (config : Config) (target : Target) : Except Failure Int64 :=
  match parse text with
  | .ok t => t.evaluate config target
  | .error e => .error (.parse e)

end Reckoner
