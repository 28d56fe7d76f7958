import Mathlib.Data.List.Flatten
import Mathlib.Data.List.Induction
import Reckoner.Proofs.Lexeme.Spans
import Reckoner.Proofs.Parser.Passages
import Reckoner.Proofs.Parser.RoundTrip
import Reckoner.Proofs.Tree.Equality

/-!
# The written text is the shortest

Whatever text is read as a tree, the text that the tree is written as is what remains of it when
some characters are deleted.  There are two reasons.  Any tokens that derive an expression have its
numbers and operators in order, and an operand that binds too loosely for its place stands in
brackets there, since a derivation can only go down to it through a factor; these are the brackets
that are written.  And a text has, between blanks, a piece for each of its tokens, which for a
number is the written one behind some zeros.

So no other text of the same tree is as short, and the written text stops being one when anything
is deleted from it.
-/

set_option autoImplicit false

namespace Reckoner

open scoped List

/-! ## Tokens -/

/-- Wherever an expression stands, it has at most one pair of brackets around it. -/
theorem Expr.tokensIn_sublist_bracketed (e : Expr) (context : Option (Operator × Side)) :
    e.tokensIn context <+ .openBracket :: e.tokens ++ [.closeBracket] := by
  have hinner : e.tokens <+ .openBracket :: e.tokens ++ [.closeBracket] :=
    ((List.sublist_append_left _ _).trans (List.sublist_cons_self _ _))
  cases e with
  | leaf v => exact hinner
  | binary op l r =>
    cases h : op.bracketed context with
    | true =>
      rw [tokensIn, if_pos h]
      exact List.Sublist.refl _
    | false =>
      rw [tokensIn, h, if_neg Bool.false_ne_true]
      exact hinner

/-- Tokens from which an expression is derived contain those that it is written with. -/
theorem Derives.tokensIn_sublist {level : Level} {tokens : List Token} {e : Expr}
    (h : Derives level tokens e) {context : Option (Operator × Side)}
    (hcontext : (Level.ofContext context).precedence ≤ level.precedence) :
    e.tokensIn context <+ tokens := by
  induction h generalizing context with
  | number v => exact List.Sublist.refl _
  | @bracketed tokens e inner ih =>
    have houter : (Level.ofContext none).precedence ≤ Level.expression.precedence := Nat.le_refl _
    have hinner : e.tokens <+ tokens := ih houter
    exact (e.tokensIn_sublist_bracketed context).trans
      ((hinner.cons_cons _).append (List.Sublist.refl _))
  | descend loose inner ih =>
    apply ih
    rw [Level.precedence_tighter loose]
    exact Nat.le_succ_of_le hcontext
  | @chain level op left right l r chained hl hr ihl ihr =>
    have hbinds : (Level.ofContext context).precedence ≤ op.precedence := by
      rwa [Level.mem_operators_iff.1 chained]
    have hlevel := Level.eq_ofOperator chained
    have hleft : l.tokensIn (some (op, .left)) <+ left := ihl (hlevel ▸ Nat.le_refl _)
    have hright : r.tokensIn (some (op, .right)) <+ right := ihr (hlevel ▸ Nat.le_refl _)
    rw [Expr.tokensIn, op.bracketed_eq_false hbinds, if_neg Bool.false_ne_true]
    exact hleft.append (hright.cons_cons _)

/-! ## Texts -/

/-- A digit stands for its own value. -/
theorem Decimal.digitChar_toNat {c : Char} (h : c.isDigit = true) :
    c.toNat - 48 < 10 ∧ Nat.digitChar (c.toNat - 48) = c := by
  have hbounds : 48 ≤ c.toNat ∧ c.toNat ≤ 57 := by
    simpa [Char.isDigit, UInt32.le_iff_toNat_le] using h
  have hsmall : c.toNat - 48 < 10 := by omega
  refine ⟨hsmall, Char.toNat_inj.1 ?_⟩
  rw [Nat.toNat_digitChar_of_lt_ten hsmall]
  omega

/-- The numeral of the number that digits denote is the end of these digits. -/
theorem Decimal.toDigits_suffix {digits : List Char} (hne : digits ≠ [])
    (hdigits : ∀ c ∈ digits, c.isDigit = true) :
    Nat.toDigits 10 (Nat.ofDigitChars 10 digits 0) <:+ digits := by
  induction digits using List.reverseRecOn with
  | nil => exact absurd rfl hne
  | append_singleton front c ih =>
    obtain ⟨hsmall, hchar⟩ := digitChar_toNat (hdigits c (by simp))
    have hlast : Nat.toDigits 10 (c.toNat - 48) = [c] := by
      rw [Nat.toDigits_of_lt_base hsmall, hchar]
    have hvalue : Nat.ofDigitChars 10 (front ++ [c]) 0 =
        10 * Nat.ofDigitChars 10 front 0 + (c.toNat - 48) := by
      rw [Nat.ofDigitChars_append, Nat.ofDigitChars_cons]
      rfl
    rw [hvalue]
    rcases Nat.eq_zero_or_pos (Nat.ofDigitChars 10 front 0) with hzero | hpos
    · rw [hzero, Nat.mul_zero, Nat.zero_add, hlast]
      exact List.suffix_append front [c]
    · have hfront : front ≠ [] := by
        rintro rfl
        exact absurd hpos (Nat.lt_irrefl 0)
      obtain ⟨zeros, hzeros⟩ := ih hfront fun d hd => hdigits d (List.mem_append_left _ hd)
      rw [← Nat.toDigits_append_toDigits (by decide) hpos hsmall, hlast]
      refine ⟨zeros, ?_⟩
      rw [← List.append_assoc, hzeros]

/-- A number that is read from digits is written with the last ones of them. -/
theorem Decimal.ofInt64_suffix {digits : List Char} (hne : digits ≠ [])
    (hdigits : ∀ c ∈ digits, c.isDigit = true) {v : Int64} (h : toInt64? digits = some v) :
    ofInt64 v <:+ digits := by
  have hnonneg : ¬v.toInt < 0 :=
    Int.not_lt.2 (Int64.le_iff_toInt_le.1 (nonneg_of_toInt64?_eq_some h))
  have hvalue : v.toInt.natAbs = Nat.ofDigitChars 10 digits 0 := by
    unfold toInt64? maxLiteral at h
    dsimp only at h
    split at h
    · next hle =>
      cases h
      rw [Int64.toInt_ofNat_of_lt (by omega), Int.natAbs_natCast]
    · cases h
  rw [ofInt64, if_neg hnonneg, hvalue]
  exact toDigits_suffix hne hdigits

namespace Lexeme

/-- A token that is one character is written as this character. -/
theorem text_of_ofChar_eq {c : Char} {t : Token} (h : Item.ofChar c = .token t) : t.text = [c] := by
  unfold Item.ofChar at h
  split at h
  · next hc =>
    cases h
    rw [hc]
    rfl
  split at h
  · next hc =>
    cases h
    rw [hc]
    rfl
  split at h
  · next op hop =>
    cases h
    rw [Token.text, Operator.symbol_of_ofSymbol?_eq_some hop]
  · cases h

/-- A token that is a run of digits is written with the last ones of them. -/
theorem text_suffix_of_ofDigits_eq {digits : List Char} (hne : digits ≠ [])
    (hdigits : ∀ c ∈ digits, c.isDigit = true) {t : Token} (h : Item.ofDigits digits = .token t) :
    t.text <:+ digits := by
  unfold Item.ofDigits at h
  split at h
  · next v hv =>
    cases h
    exact Decimal.ofInt64_suffix hne hdigits hv
  · cases h

/-- A text contains its tokens as they are written. -/
theorem flatMap_text_sublist {position : Nat} {text : List Char} {tokens : List Token}
    (h : (scanAt position text).map item = tokens.map Item.token) :
    tokens.flatMap Token.text <+ text := by
  induction text using text_induction generalizing position tokens with
  | nil =>
    rw [scanAt_nil] at h
    cases tokens with
    | nil => exact List.Sublist.refl _
    | cons t tokens => cases h
  | blank c rest hblank ih =>
    rw [scanAt_blank hblank] at h
    exact (ih h).cons c
  | digits run rest hne hrun hrest ih =>
    rw [scanAt_digits hne hrun hrest, List.map_cons] at h
    obtain ⟨t, others, rfl, ht, hothers⟩ := List.map_eq_cons_iff.1 h.symm
    have hpiece : t.text <+ run := (text_suffix_of_ofDigits_eq hne hrun ht.symm).sublist
    exact hpiece.append (ih hothers.symm)
  | char c rest hblank hdigit ih =>
    rw [scanAt_char hblank hdigit, List.map_cons] at h
    obtain ⟨t, others, rfl, ht, hothers⟩ := List.map_eq_cons_iff.1 h.symm
    rw [List.flatMap_cons, text_of_ofChar_eq ht.symm]
    exact (ih hothers.symm).cons_cons c

end Lexeme

/-- Whatever text is read as a tree, deleting characters from it gives the written one. -/
theorem Tree.render_sublist {text : List Char} {t u : Tree} (h : parse text = .ok u)
    (hsame : u.same t = true) : t.render <+ text := by
  obtain ⟨tokens, htokens, passage, hpassage, hderives⟩ := passageOf_of_parse_eq_ok h
  rw [(u.same_iff t).1 hsame] at hderives
  have houter : (Level.ofContext none).precedence ≤ Level.expression.precedence := Nat.le_refl _
  have hwritten : t.toExpr.tokens <+ tokens :=
    (hderives.tokensIn_sublist houter).trans hpassage.sublist
  rw [t.render_eq, t.toExpr.render_eq]
  exact (hwritten.flatMap Token.text).trans (Lexeme.flatMap_text_sublist htokens)

/-- Deleting characters makes a text shorter. -/
theorem byteLength_lt_of_sublist {xs ys : List Char} (h : xs <+ ys) (hne : xs ≠ ys) :
    byteLength xs < byteLength ys := by
  induction h with
  | slnil => exact absurd rfl hne
  | @cons xs ys c h ih =>
    have hle : byteLength xs ≤ byteLength ys := by
      by_cases heq : xs = ys
      · rw [heq]
      · exact Nat.le_of_lt (ih heq)
    have hpos := c.utf8Size_pos
    rw [byteLength]
    omega
  | @cons_cons xs ys c h ih =>
    have hlt := ih fun heq => hne (congrArg (c :: ·) heq)
    rw [byteLength, byteLength]
    omega

/-- A tree without negative leaves is written as the shortest text that is read as it.  Any other
such text is longer in bytes, and no text that is left when characters of the written one are
deleted, be they brackets or others, is read as the tree. -/
theorem render_shortest (t : Tree) :
    ((∀ v ∈ t.toExpr.leaves, 0 ≤ v) → t.toExpr.size ≤ 2 ^ 32 →
      ∃ u, parse t.render = .ok u ∧ u.same t = true) ∧
    (∀ text u, parse text = .ok u → u.same t = true →
      byteLength t.render ≤ byteLength text ∧
        (byteLength t.render = byteLength text → text = t.render)) ∧
    ∀ text u, text <+ t.render → text ≠ t.render → parse text = .ok u → u.same t = false := by
  have hshorter : ∀ text u, parse text = .ok u → u.same t = true → text ≠ t.render →
      byteLength t.render < byteLength text := by
    intro text u hparse hsame hne
    exact byteLength_lt_of_sublist (Tree.render_sublist hparse hsame) hne.symm
  refine ⟨?_, ?_, ?_⟩
  · intro hleaves hsize
    obtain ⟨u, hu, hdenotes, -⟩ := Expr.exists_parse_render_eq_ok hleaves hsize
    rw [t.render_eq]
    exact ⟨u, hu, Tree.same_of_toExpr_eq hdenotes⟩
  · intro text u hparse hsame
    by_cases hne : text = t.render
    · rw [hne]
      exact ⟨Nat.le_refl _, fun _ => rfl⟩
    · have hlt := hshorter text u hparse hsame hne
      exact ⟨Nat.le_of_lt hlt, fun heq => absurd heq (Nat.ne_of_lt hlt)⟩
  · intro text u hpart hne hparse
    cases hsame : u.same t with
    | false => rfl
    | true =>
      have hlonger := hshorter text u hparse hsame hne
      have hlt := byteLength_lt_of_sublist hpart hne
      omega

/-- The text `((1)) - (02-3)` is read as a tree that is written `1-(2-3)`.  This is shorter, and
what is left of it without its brackets is read as another tree. -/
theorem render_shortest_one_minus_difference :
    ∃ t u w,
      Tree.build? [.leaf 1, .leaf 2, .leaf 3, .binary .sub 1 2, .binary .sub 0 3] 4 = some t ∧
      t.render = ['1', '-', '(', '2', '-', '3', ')'] ∧
      (∃ v, parse t.render = .ok v ∧ v.same t = true) ∧
      parse ['(', '(', '1', ')', ')', ' ', '-', ' ', '(', '0', '2', '-', '3', ')'] = .ok u ∧
      u.same t = true ∧ byteLength t.render < 14 ∧
      parse ['1', '-', '2', '-', '3'] = .ok w ∧ w.same t = false := by
  have hbuild : (Tree.build? [.leaf 1, .leaf 2, .leaf 3, .binary .sub 1 2, .binary .sub 0 3]
      4).map Tree.toExpr =
      some (.binary .sub (.leaf 1) (.binary .sub (.leaf 2) (.leaf 3))) := by decide +kernel
  have hlong : (parse ['(', '(', '1', ')', ')', ' ', '-', ' ', '(', '0', '2', '-', '3',
      ')']).toOption.map Tree.toExpr =
      some (.binary .sub (.leaf 1) (.binary .sub (.leaf 2) (.leaf 3))) := by decide +kernel
  have hbare : (parse ['1', '-', '2', '-', '3']).toOption.isSome = true := by decide +kernel
  obtain ⟨t, ht, hexpr⟩ := Option.map_eq_some_iff.1 hbuild
  obtain ⟨u, hu, hread⟩ := Option.map_eq_some_iff.1 hlong
  obtain ⟨w, hw⟩ := Option.isSome_iff_exists.1 hbare
  have hrender : t.render = ['1', '-', '(', '2', '-', '3', ')'] := by
    rw [t.render_eq, hexpr]
    decide +kernel
  have hsame : u.same t = true := (u.same_iff t).2 (hread.trans hexpr.symm)
  have hparse := eq_ok_of_toOption_eq_some hu
  have hother := eq_ok_of_toOption_eq_some hw
  obtain ⟨hwritten, hshortest, hnecessary⟩ := render_shortest t
  obtain ⟨hle, heq⟩ := hshortest _ u hparse hsame
  refine ⟨t, u, w, ht, hrender, ?_, hparse, hsame, ?_, hother, ?_⟩
  · apply hwritten
    · rw [hexpr]
      simp [Expr.leaves]
    · rw [hexpr]
      decide
  · refine Nat.lt_of_le_of_ne hle fun hlength => ?_
    have htext := heq hlength
    rw [hrender] at htext
    cases htext
  · apply hnecessary _ w _ _ hother
    · rw [hrender]
      decide
    · rw [hrender]
      decide

end Reckoner
