import Reckoner.Decimal
import Reckoner.Operator

/-!
# Lexemes

A text is cut into lexemes from left to right: a maximal run of ASCII digits, or a
single character.  Blanks (space, tab, carriage return, line feed) separate lexemes
and are not part of any.  A digit run whose value does not fit a 64-bit signed
integer, and a character that is neither an operator nor a bracket, are bad lexemes;
scanning goes on after them.  Positions count the bytes of the text in UTF-8.
-/

set_option autoImplicit false

namespace Reckoner

/-- The length of a text in bytes. -/
def byteLength : List Char → Nat
  | [] => 0
  | c :: cs => c.utf8Size + byteLength cs

/-- What a well-formed lexeme stands for. -/
inductive Token where
  | number (value : Int64)
  | operator (op : Operator)
  | openBracket
  | closeBracket
  deriving DecidableEq

namespace Token

/-- A token that an operand starts with. -/
def startsOperand : Token → Bool
  | number _ | openBracket => true
  | operator _ | closeBracket => false

end Token

/-- What a lexeme is: a token, or text that is none. -/
inductive Item where
  | token (t : Token)
  | bad (text : List Char)
  deriving DecidableEq

namespace Item

/-- The item that a run of digits makes. -/
def ofDigits (digits : List Char) : Item :=
  match Decimal.toInt64? digits with
  | some v => .token (.number v)
  | none => .bad digits

/-- The item that a character other than a digit or a blank makes. -/
def ofChar (c : Char) : Item :=
  if c = '(' then .token .openBracket
  else if c = ')' then .token .closeBracket
  else
    match Operator.ofSymbol? c with
    | some op => .token (.operator op)
    | none => .bad [c]

end Item

/-- An item with the bytes it spans. -/
structure Lexeme where
  item : Item
  start : Nat
  stop : Nat
  deriving DecidableEq

namespace Lexeme

/-- The characters that separate lexemes. -/
def isBlank (c : Char) : Bool := c = ' ' || c = '\t' || c = '\r' || c = '\n'

/-- Scans a text that starts at a byte position, after the lexemes seen so far. -/
def scanFrom (position : Nat) (text : List Char) (seen : Array Lexeme) : Array Lexeme :=
  match text with
  | [] => seen
  | c :: rest =>
    if isBlank c then scanFrom (position + 1) rest seen
    else if c.isDigit then
      let digits := c :: rest.takeWhile Char.isDigit
      let stop := position + digits.length
      scanFrom stop (rest.dropWhile Char.isDigit) (seen.push ⟨.ofDigits digits, position, stop⟩)
    else
      let stop := position + c.utf8Size
      scanFrom stop rest (seen.push ⟨.ofChar c, position, stop⟩)
termination_by text.length
decreasing_by
  · exact Nat.lt_succ_self _
  · exact Nat.lt_succ_of_le (List.dropWhile_sublist _).length_le
  · exact Nat.lt_succ_self _

/-- Lexemes seen before do not matter to the rest. -/
theorem scanFrom_eq_append (position : Nat) (text : List Char) (seen : Array Lexeme) :
    scanFrom position text seen = seen ++ scanFrom position text #[] := by
  induction hn : text.length using Nat.strongRecOn generalizing position text seen with
  | ind n ih =>
    cases text with
    | nil => rw [scanFrom, scanFrom, Array.append_empty]
    | cons c rest =>
      have hrest : rest.length < n := by rw [← hn, List.length_cons]; exact Nat.lt_succ_self _
      rw [scanFrom, scanFrom.eq_2 _ #[]]
      split
      · exact ih _ hrest _ _ _ rfl
      split
      · have hdrop := Nat.lt_of_le_of_lt (List.dropWhile_sublist Char.isDigit).length_le hrest
        rw [ih _ hdrop _ _ _ rfl, ih _ hdrop _ _ (#[].push _) rfl, ← Array.append_assoc]
        rfl
      · rw [ih _ hrest _ _ _ rfl, ih _ hrest _ _ (#[].push _) rfl, ← Array.append_assoc]
        rfl

/-- The lexemes of a text. -/
def scan (text : List Char) : List Lexeme := (scanFrom 0 text #[]).toList

end Lexeme

end Reckoner
