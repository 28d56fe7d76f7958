import Reckoner.Proofs.Lexeme.Scanning
import Reckoner.Proofs.Tree.Equality

/-!
# Different trees have different texts

The text of a tree with a negative leaf is not read back, so that it fixes the tree does not follow
from what the parser does with it.  It follows from where the tokens stand.  Operands and operators
take turns, hence a minus sign is part of a number where an operand has to come and is an operator
everywhere else: `1--5` and `3-(-2-1)` fall into tokens in one way only.  And the grammar, which
does not ask what values its numbers have, derives one expression from these tokens.
-/

set_option autoImplicit false

namespace Reckoner

/-! ## Numerals -/

/-- Digits that something else follows end where it starts. -/
theorem digits_append_inj {xs ys a b : List Char} (hxs : ∀ c ∈ xs, c.isDigit = true)
    (hys : ∀ c ∈ ys, c.isDigit = true) (ha : ∀ c ∈ a.head?, c.isDigit = false)
    (hb : ∀ c ∈ b.head?, c.isDigit = false) (h : xs ++ a = ys ++ b) : xs = ys ∧ a = b := by
  have htake : ∀ {digits rest : List Char}, (∀ c ∈ digits, c.isDigit = true) →
      (∀ c ∈ rest.head?, c.isDigit = false) →
      (digits ++ rest).takeWhile Char.isDigit = digits := by
    intro digits rest hdigits hrest
    rw [List.takeWhile_append_of_pos hdigits]
    cases rest with
    | nil => exact List.append_nil _
    | cons c rest =>
      rw [List.takeWhile_cons_of_neg (by rw [hrest c rfl]; exact Bool.false_ne_true),
        List.append_nil]
  have hfront : xs = ys := by
    rw [← htake hxs ha, h, htake hys hb]
  rw [hfront] at h
  exact ⟨hfront, List.append_cancel_left h⟩

namespace Decimal

/-- A numeral consists of digits. -/
theorem isDigit_of_mem_toDigits {n : Nat} : ∀ c ∈ Nat.toDigits 10 n, c.isDigit = true :=
  fun _ hc => Nat.isDigit_of_mem_toDigits (by decide) (by decide) hc

/-- A numeral starts with a digit. -/
theorem toDigits_append_ne_cons {c : Char} (hc : c.isDigit = false) (n : Nat) (a b : List Char) :
    Nat.toDigits 10 n ++ a ≠ c :: b := by
  intro h
  obtain ⟨d, digits, hdigits⟩ := List.exists_cons_of_ne_nil (Nat.toDigits_ne_nil (b := 10) (n := n))
  have hd : d.isDigit = true :=
    isDigit_of_mem_toDigits d (by rw [hdigits]; exact List.mem_cons_self)
  rw [hdigits] at h
  obtain ⟨rfl, -⟩ := List.cons.inj h
  rw [hc] at hd
  cases hd

/-- Numerals are told apart by their digits, whatever follows that is not a digit. -/
theorem toDigits_append_inj {m n : Nat} {a b : List Char} (ha : ∀ c ∈ a.head?, c.isDigit = false)
    (hb : ∀ c ∈ b.head?, c.isDigit = false) (h : Nat.toDigits 10 m ++ a = Nat.toDigits 10 n ++ b) :
    m = n ∧ a = b := by
  obtain ⟨hdigits, hrest⟩ :=
    digits_append_inj isDigit_of_mem_toDigits isDigit_of_mem_toDigits ha hb h
  refine ⟨?_, hrest⟩
  have hvalue := congrArg (fun digits => Nat.ofDigitChars 10 digits 0) hdigits
  simpa only [Nat.ofDigitChars_ten_toDigits] using hvalue

/-- Numbers are told apart by their texts, whatever follows that is not a digit. -/
theorem ofInt64_append_inj {v w : Int64} {a b : List Char} (ha : ∀ c ∈ a.head?, c.isDigit = false)
    (hb : ∀ c ∈ b.head?, c.isDigit = false) (h : ofInt64 v ++ a = ofInt64 w ++ b) :
    v = w ∧ a = b := by
  unfold ofInt64 at h
  by_cases hv : v.toInt < 0 <;> by_cases hw : w.toInt < 0
  · rw [if_pos hv, if_pos hw] at h
    obtain ⟨hvalue, hrest⟩ := toDigits_append_inj ha hb (List.cons.inj h).2
    exact ⟨Int64.toInt.inj (by omega), hrest⟩
  · rw [if_pos hv, if_neg hw] at h
    exact absurd h.symm (toDigits_append_ne_cons (by decide) _ b _)
  · rw [if_neg hv, if_pos hw] at h
    exact absurd h (toDigits_append_ne_cons (by decide) _ a _)
  · rw [if_neg hv, if_neg hw] at h
    obtain ⟨hvalue, hrest⟩ := toDigits_append_inj ha hb h
    exact ⟨Int64.toInt.inj (by omega), hrest⟩

/-- A number does not start with a bracket. -/
theorem ofInt64_append_ne_bracket (v : Int64) (a b : List Char) : ofInt64 v ++ a ≠ '(' :: b := by
  unfold ofInt64
  split
  · intro h
    exact absurd (List.cons.inj h).1 (by decide)
  · exact toDigits_append_ne_cons (by decide) _ a b

end Decimal

/-! ## Where tokens stand -/

/-- No operator is written as a closing bracket. -/
theorem Operator.symbol_ne_closeBracket (op : Operator) : op.symbol ≠ ')' := by
  cases op <;> decide

namespace Token

/-- Whether an operand has to follow the token. -/
def wantsOperand : Token → Bool
  | number _ | closeBracket => false
  | operator _ | openBracket => true

/-- Every token is of the right kind for its place, given whether an operand has to come first. -/
def Alternates : Bool → List Token → Prop
  | _, [] => True
  | expects, t :: rest => t.startsOperand = expects ∧ Alternates t.wantsOperand rest

end Token

open Token in
/-- An expression is an operand, so what may follow an operand may follow it. -/
theorem Expr.alternates_tokensIn_append (e : Expr) (context : Option (Operator × Side))
    {rest : List Token} (h : Alternates false rest) :
    Alternates true (e.tokensIn context ++ rest) := by
  induction e generalizing context rest with
  | leaf v => exact ⟨rfl, h⟩
  | binary op l r ihl ihr =>
    have hinner : ∀ {rest}, Alternates false rest →
        Alternates true (l.tokensIn (some (op, .left)) ++ .operator op ::
          r.tokensIn (some (op, .right)) ++ rest) := by
      intro rest hrest
      rw [List.append_assoc]
      exact ihl _ ⟨rfl, ihr _ hrest⟩
    rw [tokensIn]
    by_cases hbracketed : op.bracketed context = true
    · rw [if_pos hbracketed, List.append_assoc]
      exact ⟨rfl, hinner ⟨rfl, h⟩⟩
    · rw [if_neg hbracketed]
      exact hinner h

namespace Token

/-- A number ends where its digits do. -/
def EndsBefore (t : Token) (rest : List Char) : Prop :=
  t.number? = none ∨ ∀ c ∈ rest.head?, c.isDigit = false

/-- Where operands and operators take turns, the text of a token ends before that of the next one
starts. -/
theorem Alternates.endsBefore {t : Token} {rest : List Token}
    (h : Alternates t.wantsOperand rest) : t.EndsBefore (rest.flatMap text) := by
  cases t with
  | number v =>
    right
    intro c hc
    cases rest with
    | nil => cases hc
    | cons u rest =>
      have hu : u.number? = none := by
        cases u with
        | number w => cases h.1
        | _ => rfl
      rw [← List.append_nil ((u :: rest).flatMap text)] at hc
      exact Lexeme.head?_flatMap_text hu rest [] c hc
  | _ => exact .inl rfl

/-- Tokens that may stand in one place are told apart by their texts. -/
theorem text_append_inj {x y : Token} (hplace : x.startsOperand = y.startsOperand)
    {a b : List Char} (ha : x.EndsBefore a) (hb : y.EndsBefore b)
    (h : x.text ++ a = y.text ++ b) : x = y ∧ a = b := by
  cases x with
  | number v =>
    cases y with
    | number w =>
      obtain ⟨rfl, hrest⟩ := Decimal.ofInt64_append_inj (ha.resolve_left (Option.some_ne_none v))
        (hb.resolve_left (Option.some_ne_none w)) h
      exact ⟨rfl, hrest⟩
    | openBracket => exact absurd h (Decimal.ofInt64_append_ne_bracket v a b)
    | operator op => cases hplace
    | closeBracket => cases hplace
  | openBracket =>
    cases y with
    | number w => exact absurd h.symm (Decimal.ofInt64_append_ne_bracket w b a)
    | openBracket => exact ⟨rfl, (List.cons.inj h).2⟩
    | operator op => cases hplace
    | closeBracket => cases hplace
  | operator op =>
    cases y with
    | operator other =>
      obtain ⟨hsymbol, hrest⟩ := List.cons.inj h
      have hop := congrArg Operator.ofSymbol? hsymbol
      rw [Operator.ofSymbol?_symbol, Operator.ofSymbol?_symbol] at hop
      exact ⟨congrArg operator (Option.some.inj hop), hrest⟩
    | closeBracket => exact absurd (List.cons.inj h).1 op.symbol_ne_closeBracket
    | number w => cases hplace
    | openBracket => cases hplace
  | closeBracket =>
    cases y with
    | closeBracket => exact ⟨rfl, (List.cons.inj h).2⟩
    | operator op => exact absurd (List.cons.inj h).1.symm op.symbol_ne_closeBracket
    | number w => cases hplace
    | openBracket => cases hplace

/-- Every token is written with at least one character. -/
theorem text_ne_nil (t : Token) : t.text ≠ [] := by
  cases t with
  | number v => exact Decimal.ofInt64_ne_nil v
  | _ => exact List.cons_ne_nil _ _

/-- Tokens that stand in their places are told apart by the text they make. -/
theorem Alternates.eq_of_flatMap_text_eq {expects : Bool} {xs ys : List Token}
    (hx : Alternates expects xs) (hy : Alternates expects ys)
    (h : xs.flatMap text = ys.flatMap text) : xs = ys := by
  induction xs generalizing expects ys with
  | nil =>
    cases ys with
    | nil => rfl
    | cons y ys => exact absurd (List.append_eq_nil_iff.1 h.symm).1 y.text_ne_nil
  | cons x xs ih =>
    cases ys with
    | nil => exact absurd (List.append_eq_nil_iff.1 h).1 x.text_ne_nil
    | cons y ys =>
      rw [List.flatMap_cons, List.flatMap_cons] at h
      obtain ⟨rfl, hrest⟩ :=
        text_append_inj (hx.1.trans hy.1.symm) hx.2.endsBefore hy.2.endsBefore h
      rw [ih hx.2 hy.2 hrest]

end Token

/-! ## Expressions and trees -/

/-- In the tokens of an expression operands and operators take turns. -/
theorem Expr.alternates_tokens (e : Expr) : Token.Alternates true e.tokens := by
  have h : Token.Alternates true (e.tokens ++ []) := e.alternates_tokensIn_append none trivial
  rwa [List.append_nil] at h

/-- Expressions with the same text are the same, whatever the signs of their leaves. -/
theorem Expr.render_injective : Function.Injective render := by
  intro x y h
  rw [render_eq, render_eq] at h
  have htokens : x.tokens = y.tokens :=
    x.alternates_tokens.eq_of_flatMap_text_eq y.alternates_tokens h
  have hx := x.derives_tokens
  rw [htokens] at hx
  exact hx.unique y.derives_tokens

/-- Two trees have the same text exactly when they are equal. -/
theorem Tree.render_eq_render_iff (a b : Tree) : a.render = b.render ↔ a.same b = true := by
  rw [a.render_eq, b.render_eq, a.same_iff b]
  exact Expr.render_injective.eq_iff

/-- In front of a number a minus sign is a second one. -/
example : (Expr.binary .sub (.leaf 1) (.leaf (-5))).render = ['1', '-', '-', '5'] ∧
    (Expr.binary .sub (.leaf 3) (.binary .sub (.leaf (-2)) (.leaf 1))).render =
      ['3', '-', '(', '-', '2', '-', '1', ')'] := by decide +kernel

end Reckoner
