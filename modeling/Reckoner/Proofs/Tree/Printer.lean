import Mathlib.Data.List.Chain
import Reckoner.Proofs.Parser.Derivation
import Reckoner.Tree.Printer

/-!
# What is written is derived

The writer keeps a stack of pieces, and `Expr.render` is a recursion; they write the same text.
That text consists of tokens, one behind the other, and `Expr.tokens` lists them.  Brackets stand
exactly where the grammar cannot do without them: an operand is read at the level that its place
asks for, and one whose operator binds less tightly than this level is in brackets, which makes
it a factor.  So the tokens of every expression derive the expression.
-/

set_option autoImplicit false

namespace Reckoner

namespace Piece

/-- The text that a piece stands for. -/
def text (a : Arena) : Piece a.size → List Char
  | char c => [c]
  | node i context => (a.exprAt i).renderIn context

/-- The pieces are written one behind the other. -/
theorem write_eq {a : Arena} (pieces : List (Piece a.size)) (written : Array Char) :
    (write pieces written).toList = written.toList ++ pieces.flatMap (text a) := by
  fun_induction write pieces written with
  | case1 written => simp
  | case2 written c rest ih => simp [ih, text]
  | case3 written i context rest v hview ih =>
    rw [ih]
    simp [text, Arena.exprAt_of_view_leaf hview, Expr.renderIn]
  | case4 written i context rest op l r hl hr hview hbracketed ih =>
    simp [ih, text, Arena.exprAt_of_view_binary hview, Expr.renderIn, hbracketed]
  | case5 written i context rest op l r hl hr hview hbracketed ih =>
    simp [ih, text, Arena.exprAt_of_view_binary hview, Expr.renderIn, hbracketed]

end Piece

/-- The text of a tree is the text of the expression that it denotes. -/
theorem Tree.render_eq (t : Tree) : t.render = t.toExpr.render := by
  unfold render
  rw [Piece.write_eq]
  simp [Piece.text, toExpr, Expr.render]

/-! ## The tokens of an expression -/

namespace Token

/-- The text that a token is written as. -/
def text : Token → List Char
  | number v => Decimal.ofInt64 v
  | operator op => [op.symbol]
  | openBracket => ['(']
  | closeBracket => [')']

/-- The value of a token that is a number. -/
def number? : Token → Option Int64
  | number v => some v
  | _ => none

/-- Two tokens that stay apart when their texts are joined: they are not both numbers. -/
def Apart (x y : Token) : Prop := x.number? = none ∨ y.number? = none

end Token

namespace Expr

/-- The tokens of an expression that stands in a context. -/
def tokensIn (context : Option (Operator × Side)) : Expr → List Token
  | leaf v => [.number v]
  | binary op l r =>
    let inner := l.tokensIn (some (op, .left)) ++ .operator op :: r.tokensIn (some (op, .right))
    if op.bracketed context then .openBracket :: inner ++ [.closeBracket] else inner

/-- The tokens of an expression. -/
def tokens (e : Expr) : List Token := e.tokensIn none

/-- The text of an expression is that of its tokens. -/
theorem renderIn_eq (e : Expr) (context : Option (Operator × Side)) :
    e.renderIn context = (e.tokensIn context).flatMap Token.text := by
  induction e generalizing context with
  | leaf v => simp [renderIn, tokensIn, Token.text]
  | binary op l r ihl ihr =>
    rw [renderIn, tokensIn, ihl, ihr]
    by_cases h : op.bracketed context = true
    · simp [h, Token.text]
    · simp [h, Token.text]

/-- The text of an expression is the texts of its tokens. -/
theorem render_eq (e : Expr) : e.render = e.tokens.flatMap Token.text := e.renderIn_eq none

/-- An expression with other values at its leaves. -/
def map (f : Int64 → Int64) : Expr → Expr
  | leaf v => leaf (f v)
  | binary op l r => binary op (l.map f) (r.map f)

end Expr

/-- A token with another value, if it is a number. -/
def Token.map (f : Int64 → Int64) : Token → Token
  | .number v => .number (f v)
  | t => t

namespace Expr

/-- Where brackets stand does not depend on the values. -/
theorem tokensIn_map (f : Int64 → Int64) (e : Expr) (context : Option (Operator × Side)) :
    (e.map f).tokensIn context = (e.tokensIn context).map (Token.map f) := by
  induction e generalizing context with
  | leaf v => rfl
  | binary op l r ihl ihr =>
    rw [map, tokensIn, tokensIn, ihl, ihr]
    by_cases h : op.bracketed context = true
    · simp [h, Token.map]
    · simp [h, Token.map]

/-- The numbers among the tokens are the leaves, from left to right. -/
theorem numbers_tokensIn (e : Expr) (context : Option (Operator × Side)) :
    (e.tokensIn context).filterMap Token.number? = e.leaves := by
  induction e generalizing context with
  | leaf v => rfl
  | binary op l r ihl ihr =>
    rw [tokensIn]
    by_cases h : op.bracketed context = true
    · simp [h, ihl, ihr, leaves, List.filterMap_cons, Token.number?]
    · simp [h, ihl, ihr, leaves, List.filterMap_cons, Token.number?]

/-- A number is not followed by another one. -/
theorem isChain_tokensIn (e : Expr) (context : Option (Operator × Side)) :
    (e.tokensIn context).IsChain Token.Apart := by
  induction e generalizing context with
  | leaf v => exact .singleton _
  | binary op l r ihl ihr =>
    have hright : (Token.operator op :: r.tokensIn (some (op, .right))).IsChain Token.Apart :=
      (ihr _).cons fun _ _ => .inl rfl
    have hinner : (l.tokensIn (some (op, .left)) ++ .operator op ::
        r.tokensIn (some (op, .right))).IsChain Token.Apart := by
      refine (ihl _).append hright fun x _ y hy => ?_
      cases hy
      exact .inr rfl
    rw [tokensIn]
    by_cases h : op.bracketed context = true
    · rw [if_pos h]
      refine (hinner.cons fun _ _ => .inl rfl).append (.singleton _) fun x _ y hy => ?_
      cases hy
      exact .inr rfl
    · rw [if_neg h]
      exact hinner

end Expr

/-! ## The tokens derive the expression -/

namespace Level

/-- The level that chains an operator. -/
def ofOperator : Operator → Level
  | .xor => expression
  | .add | .sub => sum
  | .mul | .div => product

/-- The level at which an operand is read in its place. -/
def ofContext : Option (Operator × Side) → Level
  | none => expression
  | some (op, .left) => ofOperator op
  | some (op, .right) => (ofOperator op).tighter

/-- An operator is chained at its own level. -/
theorem mem_operators_ofOperator (op : Operator) : op ∈ (ofOperator op).operators := by
  cases op <;> decide

/-- An operator is chained at no other level than its own. -/
theorem eq_ofOperator {op : Operator} {level : Level} (h : op ∈ level.operators) :
    level = ofOperator op := by
  revert h
  cases op <;> cases level <;> decide

/-- An operand without brackets binds as tightly as its place asks for. -/
theorem precedence_ofContext_le {op : Operator} {context : Option (Operator × Side)}
    (h : op.bracketed context = false) :
    (ofContext context).precedence ≤ (ofOperator op).precedence := by
  match context with
  | none => exact (ofOperator op).one_le_precedence
  | some (parent, side) => revert h; cases op <;> cases parent <;> cases side <;> decide

end Level

/-- An operand that binds as tightly as its place asks for stands without brackets. -/
theorem Operator.bracketed_eq_false {op : Operator} {context : Option (Operator × Side)}
    (h : (Level.ofContext context).precedence ≤ op.precedence) : op.bracketed context = false := by
  match context with
  | none => rfl
  | some (parent, side) => revert h; cases op <;> cases parent <;> cases side <;> decide

/-- The tokens of an expression derive it at the level that its place asks for. -/
theorem Expr.derives_tokensIn (e : Expr) (context : Option (Operator × Side)) :
    Derives (Level.ofContext context) (e.tokensIn context) e := by
  induction e generalizing context with
  | leaf v => exact (Derives.number v).of_precedence_le (Level.precedence_le _)
  | binary op l r ihl ihr =>
    have hinner : Derives (Level.ofOperator op)
        (l.tokensIn (some (op, .left)) ++ .operator op :: r.tokensIn (some (op, .right)))
        (.binary op l r) :=
      .chain (Level.mem_operators_ofOperator op) (ihl (some (op, .left))) (ihr (some (op, .right)))
    rw [tokensIn]
    by_cases h : op.bracketed context = true
    · have hbracketed := Derives.bracketed
        (hinner.of_precedence_le (Level.one_le_precedence _) : Derives .expression _ _)
      rw [if_pos h]
      exact hbracketed.of_precedence_le (Level.precedence_le _)
    · rw [if_neg h]
      exact hinner.of_precedence_le (Level.precedence_ofContext_le (Bool.eq_false_iff.2 h))

/-- The grammar derives an expression from its own tokens. -/
theorem Expr.derives_tokens (e : Expr) : Derives .expression e.tokens e := e.derives_tokensIn none

end Reckoner
