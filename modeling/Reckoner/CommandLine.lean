import Reckoner.CommandLine.Options

/-!
# The command line

The arguments say which options a run has, or that the run is only to show its help, or they are
refused.  What a run does with its options is `Options.run`.
-/

set_option autoImplicit false

namespace Reckoner.CommandLine

/-- What a list of arguments means. -/
inductive Invocation where
  | run (options : Options)
  | help
  | misuse
  deriving DecidableEq

/-- The text shown for help. -/
def helpText : String :=
  addLines ""
    [ "Evaluate integer expressions, optionally via a native JIT"
    , ""
    , "Usage: exprjit [OPTIONS] [EXPRESSIONS]..."
    , ""
    , "Arguments:"
    , "  [EXPRESSIONS]...  Expressions to evaluate; reads stdin line by line when absent"
    , ""
    , "Options:"
    , "      --interpret  Use the tree-walking interpreter instead of compiling to native code"
    , "      --show-ast   Echo each expression in normalized form before its result"
    , "  -h, --help       Print help" ]

/-- Reads arguments in turn.  The first that is wrong, or asks for help, decides: an unknown
option, an option with a value, an option given twice.  After `--` every argument is an
expression, and so is a lone `-`. -/
def readArguments (options : Options) : List String → Invocation
  | [] => .run options
  | argument :: rest =>
    if argument = "--" then .run { options with expressions := options.expressions ++ rest }
    else if argument = "--help" then .help
    else if argument = "--interpret" then
      if options.interprets then .misuse else readArguments { options with interprets := true } rest
    else if argument = "--show-ast" then
      if options.showsTree then .misuse else readArguments { options with showsTree := true } rest
    else
      match argument.toList with
      | '-' :: 'h' :: _ => .help
      | '-' :: _ :: _ => .misuse
      | _ => readArguments { options with expressions := options.expressions ++ [argument] } rest

/-- The invocation that arguments make. -/
def invocation (arguments : List String) : Invocation := readArguments {} arguments

/-- Carries out an invocation. -/
def Invocation.execute (target : Target) (input : List UInt8) : Invocation → Output
  | .run options => options.run target input
  | .help => ⟨helpText, 0⟩
  | .misuse => ⟨"", 2⟩

end Reckoner.CommandLine
