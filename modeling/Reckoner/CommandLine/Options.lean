import Reckoner.Evaluation
import Reckoner.Text.Lines
import Reckoner.Text.WhiteSpace
import Reckoner.Tree.Printer

/-!
# A run with given options

Expressions come with the options or, when there are none, as lines of standard input; each
gives one line of output, or two when the normalized text is asked for.  A failure is
reported in its place and does not stop the rest.  Lines of white space are skipped,
and a line that is not UTF-8 ends the run.
-/

set_option autoImplicit false

namespace Reckoner.CommandLine

/-- What the arguments ask for. -/
structure Options where
  /-- Interpret expressions instead of compiling them. -/
  interprets : Bool := false
  /-- Show the normalized text of each expression before its value. -/
  showsTree : Bool := false
  /-- The expressions among the arguments. -/
  expressions : List String := []
  deriving DecidableEq

/-- Adds lines to a text, each with a line feed behind it. -/
def addLines (text : String) : List String → String
  | [] => text
  | line :: rest => addLines (text ++ line ++ "\n") rest

/-- What a run prints, and the code it exits with. -/
structure Output where
  text : String
  exitCode : Nat
  deriving DecidableEq

namespace Options

/-- The configuration that the options ask for. -/
def config (o : Options) : Config := if o.interprets then .interpreter else {}

/-- The line that reports an evaluation. -/
def resultLine : Except Failure Int64 → String
  | .ok v => String.ofList (Decimal.ofInt64 v)
  | .error e => "error: " ++ e.message

/-- The lines that are printed for one expression. -/
def block (o : Options) (target : Target) (text : List Char) : List String :=
  match parse text with
  | .error e => [resultLine (.error (.parse e))]
  | .ok t =>
    let result := resultLine (t.evaluate o.config target)
    if o.showsTree then [String.ofList t.render, result] else [result]

/-- Evaluates expressions in turn. -/
def runExpressions (o : Options) (target : Target) (text : String) : List String → Output
  | [] => ⟨text, 0⟩
  | expression :: rest =>
    o.runExpressions target (addLines text (o.block target expression.toList)) rest

/-- The text of a line, if its bytes are UTF-8. -/
def decodeLine? (line : List UInt8) : Option (List Char) :=
  (String.fromUTF8? ⟨line.toArray⟩).map String.toList

/-- Evaluates lines in turn. -/
def runLines (o : Options) (target : Target) (text : String) : List (List UInt8) → Output
  | [] => ⟨text, 0⟩
  | line :: rest =>
    match decodeLine? line with
    | none => ⟨text, 1⟩
    | some expression =>
      if expression.all isWhiteSpace then o.runLines target text rest
      else o.runLines target (addLines text (o.block target expression)) rest

/-- Evaluates the expressions among the arguments, or else those on standard input. -/
def run (o : Options) (target : Target) (input : List UInt8) : Output :=
  if o.expressions.isEmpty then o.runLines target "" (lines input)
  else o.runExpressions target "" o.expressions

end Options

end Reckoner.CommandLine
