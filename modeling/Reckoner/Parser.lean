import Reckoner.Arena
import Reckoner.Lexeme

/-!
# Reading an expression

The reader takes lexemes from left to right and keeps two stacks: the operands that
are complete, and the operators and open brackets that wait.  An operator that binds
at least as tightly as the next one takes its operands first, so chains group from the
left; a closing bracket completes everything back to its opening one.

The first fault ends the reading.  A lexeme can be bad, or of the wrong kind for its
place, or a closing bracket without an opening one, in this order; at the end of the
text there can be nothing at all, an operand missing, or a bracket left open.
-/

set_option autoImplicit false

namespace Reckoner

/-- Why a text is not an expression.  Positions count bytes. -/
inductive ParseError where
  | invalidToken (snippet : List Char) (position : Nat)
  | unbalancedBrackets (position : Nat)
  | malformedExpression (position : Nat)
  | emptyExpression
  deriving DecidableEq

/-- The text shown for a reading error. -/
def ParseError.message : ParseError → String
  | .invalidToken snippet position =>
    "invalid token '" ++ String.ofList snippet ++ "' at position " ++ position.repr
  | .unbalancedBrackets position => "unbalanced parentheses at position " ++ position.repr
  | .malformedExpression position => "malformed expression at position " ++ position.repr
  | .emptyExpression => "empty expression"

/-- Complete operands, latest first, in the arena that holds their nodes. -/
structure Forest where
  arena : Arena
  roots : List NodeId
  owned : ∀ id ∈ roots, arena.Owns id

namespace Forest

/-- No operands yet. -/
def empty : Forest where
  arena := .empty
  roots := []
  owned := fun _ h => absurd h List.not_mem_nil

/-- Adds a number as an operand. -/
def leaf (f : Forest) (v : Int64) : Forest :=
  let added := f.arena.nextId
  { arena := f.arena.leaf v
    roots := added :: f.roots
    owned := by
      intro id hid
      rcases List.mem_cons.1 hid with hid | hid
      · exact hid ▸ f.arena.owns_nextId (.leaf v) trivial
      · exact (f.owned id hid).push (.leaf v) trivial }

/-- Joins the two latest operands by an operator; there may be fewer than two. -/
def join? (f : Forest) (op : Operator) : Option Forest :=
  match f with
  | ⟨arena, right :: left :: rest, owned⟩ =>
    have hr : arena.Owns right := owned right (by simp)
    have hl : arena.Owns left := owned left (by simp)
    let added := arena.nextId
    some
      { arena := arena.binary op left right hl hr
        roots := added :: rest
        owned := by
          intro id hid
          rcases List.mem_cons.1 hid with hid | hid
          · exact hid ▸ arena.owns_nextId (.binary op left right) ⟨hl, hr⟩
          · exact (owned id (by simp [hid])).push (.binary op left right) ⟨hl, hr⟩ }
  | _ => none

end Forest

/-- What waits on the operator stack. -/
inductive Waiting where
  | operator (op : Operator)
  /-- An open bracket, with its position. -/
  | bracket (position : Nat)
  deriving DecidableEq

/-- A reading under way. -/
structure Parser where
  forest : Forest
  /-- Operators and open brackets, latest first. -/
  waiting : List Waiting
  /-- Whether an operand has to come next. -/
  expectsOperand : Bool

namespace Parser

/-- Before the first lexeme. -/
def start : Parser := ⟨.empty, [], true⟩

/-- Lets waiting operators take their operands until one binds less tightly than `next`,
then puts `next` on the stack. -/
def pushOperator (position : Nat) (next : Operator) :
    List Waiting → Forest → Except ParseError (List Waiting × Forest)
  | .operator held :: below, forest =>
    if held.bindsBefore next then
      match forest.join? held with
      | some joined => pushOperator position next below joined
      | none => .error (.malformedExpression position)
    else .ok (.operator next :: .operator held :: below, forest)
  | waiting, forest => .ok (.operator next :: waiting, forest)

/-- Completes everything back to the latest open bracket and removes the bracket. -/
def closeBracket (position : Nat) :
    List Waiting → Forest → Except ParseError (List Waiting × Forest)
  | .operator held :: below, forest =>
    match forest.join? held with
    | some joined => closeBracket position below joined
    | none => .error (.malformedExpression position)
  | .bracket _ :: below, forest => .ok (below, forest)
  | [], _ => .error (.unbalancedBrackets position)

/-- Completes everything at the end of a text; no bracket may be left open. -/
def closeAll (position : Nat) : List Waiting → Forest → Except ParseError Forest
  | .operator held :: below, forest =>
    match forest.join? held with
    | some joined => closeAll position below joined
    | none => .error (.malformedExpression position)
  | .bracket opened :: _, _ => .error (.unbalancedBrackets opened)
  | [], forest => .ok forest

/-- Takes a token of the right kind for its place. -/
def accept (p : Parser) (t : Token) (position : Nat) : Except ParseError Parser :=
  match t with
  | .number v => .ok { p with forest := p.forest.leaf v, expectsOperand := false }
  | .operator op =>
    match pushOperator position op p.waiting p.forest with
    | .ok (waiting, forest) => .ok ⟨forest, waiting, true⟩
    | .error e => .error e
  | .openBracket => .ok { p with waiting := .bracket position :: p.waiting }
  | .closeBracket =>
    match closeBracket position p.waiting p.forest with
    | .ok (waiting, forest) => .ok ⟨forest, waiting, p.expectsOperand⟩
    | .error e => .error e

/-- Takes one lexeme. -/
def step (p : Parser) (lexeme : Lexeme) : Except ParseError Parser :=
  match lexeme.item with
  | .bad snippet => .error (.invalidToken snippet lexeme.start)
  | .token t =>
    if t.startsOperand = p.expectsOperand then p.accept t lexeme.start
    else .error (.malformedExpression lexeme.start)

/-- Takes lexemes in turn. -/
def run (p : Parser) : List Lexeme → Except ParseError Parser
  | [] => .ok p
  | lexeme :: rest =>
    match p.step lexeme with
    | .ok next => next.run rest
    | .error e => .error e

/-- The tree read when the text ends at a position. -/
def finish (p : Parser) (stop : Nat) : Except ParseError Tree :=
  match closeAll stop p.waiting p.forest with
  | .ok ⟨arena, [root], owned⟩ => .ok ⟨arena, root, owned root (List.mem_singleton_self root)⟩
  | .ok _ => .error (.malformedExpression stop)
  | .error e => .error e

end Parser

/-- Reads a text as an expression. -/
def parse (text : List Char) : Except ParseError Tree :=
  let lexemes := Lexeme.scan text
  match Parser.start.run lexemes with
  | .error e => .error e
  | .ok p =>
    if lexemes.isEmpty then .error .emptyExpression
    else if p.expectsOperand then .error (.malformedExpression (byteLength text))
    else p.finish (byteLength text)

end Reckoner
