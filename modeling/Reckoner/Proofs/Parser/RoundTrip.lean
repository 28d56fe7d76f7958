import Reckoner.Proofs.Arena.Builder
import Reckoner.Proofs.Lexeme.Scanning
import Reckoner.Proofs.Parser.NodeCount
import Reckoner.Proofs.Tree.PostOrder

/-!
# What is written is read back

The text of a tree without negative leaves scans as the tokens of its expression, the tokens
derive the expression, and what is derived is read.  A text that has been read never has a
negative number in it, so its tree is written and read back whatever the text was.

A negative number is written with a minus sign, and where an operand has to come a minus sign is
a fault.  To see that nothing goes wrong before the leftmost negative number, put zeros in place
of the negative leaves: brackets stay where they are, so up to this number the tokens are those
of an expression that is read, and where the number stands an operand is expected.
-/

set_option autoImplicit false

namespace Reckoner

/-- Trees that denote one expression give the same symbols. -/
theorem Tree.same_of_toExpr_eq {s t : Tree} (h : s.toExpr = t.toExpr) : s.same t = true := by
  rw [same, symbols_eq, symbols_eq, h]
  exact beq_self_eq_true _

/-! ## No negative leaf -/

/-- The text of an expression without negative leaves scans as the tokens of the expression. -/
theorem Expr.map_item_scan_render {e : Expr} (hleaves : ∀ v ∈ e.leaves, 0 ≤ v) :
    (Lexeme.scan e.render).map Lexeme.item = e.tokens.map Item.token := by
  have hnumbers : ∀ v ∈ e.tokens.filterMap Token.number?, 0 ≤ v := by
    rw [tokens, numbers_tokensIn]
    exact hleaves
  rw [render_eq, Lexeme.scan_flatMap e.tokens (e.isChain_tokensIn none) hnumbers,
    Lexeme.map_item_place]

/-- The text of an expression without negative leaves is read as the expression. -/
theorem Expr.exists_parse_render_eq_ok {e : Expr} (hleaves : ∀ v ∈ e.leaves, 0 ≤ v)
    (hsize : e.size ≤ 2 ^ 32) :
    ∃ t, parse e.render = .ok t ∧ t.toExpr = e ∧ t.arena.size = e.size :=
  exists_parse_eq_ok (map_item_scan_render hleaves) e.derives_tokens hsize

/-- A tree that has been read has no negative leaf. -/
theorem nonneg_of_parse_eq_ok {text : List Char} {t : Tree} (h : parse text = .ok t)
    (hsize : t.arena.size ≤ 2 ^ 32) : ∀ v ∈ t.toExpr.leaves, 0 ≤ v := by
  obtain ⟨tokens, htokens, hderives, -⟩ := derives_of_parse_eq_ok h hsize
  intro v hv
  have hitem : Item.token (.number v) ∈ (Lexeme.scan text).map Lexeme.item := by
    rw [htokens]
    exact List.mem_map_of_mem (hderives.leaf_mem v hv)
  obtain ⟨lexeme, hlexeme, hnumber⟩ := List.mem_map.1 hitem
  exact Lexeme.nonneg_of_mem_scan hlexeme hnumber

/-! ## The leftmost negative leaf -/

/-- The first negative number among tokens, with the tokens before and after it. -/
structure FirstNegative (tokens before : List Token) (v : Int64) (after : List Token) : Prop where
  split : tokens = before ++ .number v :: after
  negative : v < 0
  nonneg : ∀ w ∈ before.filterMap Token.number?, 0 ≤ w

/-- Among tokens of which one is a negative number there is a first such one. -/
theorem exists_firstNegative {tokens : List Token}
    (h : ∃ v ∈ tokens.filterMap Token.number?, v < 0) :
    ∃ before v after, FirstNegative tokens before v after := by
  induction tokens with
  | nil =>
    obtain ⟨v, hv, -⟩ := h
    cases hv
  | cons t rest ih =>
    by_cases ht : ∃ v ∈ t.number?, v < 0
    · obtain ⟨v, hv, hneg⟩ := ht
      cases t with
      | number w =>
        cases hv
        exact ⟨[], v, rest, rfl, hneg, fun _ hw => by cases hw⟩
      | _ => cases hv
    · have hfirst : ∀ w ∈ t.number?, 0 ≤ w := fun w hw =>
        Int64.not_lt.1 fun hneg => ht ⟨w, hw, hneg⟩
      have hrest : ∃ v ∈ rest.filterMap Token.number?, v < 0 := by
        obtain ⟨v, hv, hneg⟩ := h
        obtain ⟨u, hu, huv⟩ := List.mem_filterMap.1 hv
        rcases List.mem_cons.1 hu with rfl | hu
        · exact absurd ⟨v, huv, hneg⟩ ht
        · exact ⟨v, List.mem_filterMap.2 ⟨u, hu, huv⟩, hneg⟩
      obtain ⟨before, v, after, hsplit, hneg, hbefore⟩ := ih hrest
      refine ⟨t :: before, v, after, congrArg (t :: ·) hsplit, hneg, fun w hw => ?_⟩
      obtain ⟨u, hu, huw⟩ := List.mem_filterMap.1 hw
      rcases List.mem_cons.1 hu with rfl | hu
      · exact hfirst w huw
      · exact hbefore w (List.mem_filterMap.2 ⟨u, hu, huw⟩)

/-- What stands before the first negative number runs as far as no number is negative. -/
theorem FirstNegative.before_eq {tokens before after : List Token} {v : Int64}
    (h : FirstNegative tokens before v after) :
    before = tokens.takeWhile fun t => t.number?.all fun w => 0 ≤ w := by
  have hbefore : ∀ t ∈ before, (t.number?.all fun w => 0 ≤ w) = true := by
    intro t ht
    cases t with
    | number w => exact decide_eq_true (h.nonneg w (List.mem_filterMap.2 ⟨_, ht, rfl⟩))
    | _ => rfl
  have hstop : ¬((Token.number v).number?.all fun w => 0 ≤ w) = true := by
    rw [Token.number?, Option.all_some, decide_eq_true_eq, Int64.not_le]
    exact h.negative
  have hrest : (Token.number v :: after).takeWhile (fun t => t.number?.all fun w => 0 ≤ w) = [] :=
    List.takeWhile_cons_of_neg hstop
  rw [h.split, List.takeWhile_append_of_pos hbefore, hrest, List.append_nil]

/-- A negative value replaced by zero. -/
def clamp (v : Int64) : Int64 := if v < 0 then 0 else v

/-- Tokens without a negative number are not changed by replacing negative values. -/
theorem map_clamp_eq_self {tokens : List Token}
    (h : ∀ w ∈ tokens.filterMap Token.number?, 0 ≤ w) : tokens.map (Token.map clamp) = tokens := by
  refine (List.map_congr_left fun t ht => ?_).trans (List.map_id tokens)
  cases t with
  | number w =>
    have hw : 0 ≤ w := h w (List.mem_filterMap.2 ⟨.number w, ht, rfl⟩)
    rw [Token.map, clamp, if_neg (Int64.not_lt.2 hw)]
    rfl
  | _ => rfl

namespace Parser

/-- Lexemes behind others are taken from where the parser is then. -/
theorem run_append (p : Parser) (xs ys : List Lexeme) :
    p.run (xs ++ ys) = (p.run xs).bind fun next => next.run ys := by
  induction xs generalizing p with
  | nil => rfl
  | cons x xs ih =>
    rw [List.cons_append, run, run]
    cases p.step x with
    | error e => rfl
    | ok next => exact ih next

/-- Where an operand has to come, an operator is a fault. -/
theorem step_operator_eq_error {p : Parser} (h : p.expectsOperand = true) {lexeme : Lexeme}
    {op : Operator} (hitem : lexeme.item = .token (.operator op)) :
    p.step lexeme = .error (.malformedExpression lexeme.start) := by
  unfold step
  rw [hitem]
  exact if_neg (by rw [h]; exact Bool.false_ne_true)

end Parser

/-- In front of a number of an expression the reading succeeds and expects an operand. -/
theorem exists_run_place_eq_ok {e : Expr} {before after : List Token} {v : Int64}
    (h : e.tokens = before ++ .number v :: after) :
    ∃ p, Parser.start.run (Lexeme.place 0 before) = .ok p ∧ p.expectsOperand = true := by
  obtain ⟨last, hrun, -⟩ := e.derives_tokens.exists_run?_eq_some (s := Reading.start)
    (Lexeme.map_item_place 0 e.tokens) rfl trivial
  rw [h, Lexeme.place_append, Reading.run?_append] at hrun
  obtain ⟨mid, hmid, hrest⟩ := Option.bind_eq_some_iff.1 hrun
  rw [Lexeme.place, Reading.run?] at hrest
  obtain ⟨next, hnumber, -⟩ := Option.bind_eq_some_iff.1 hrest
  have hexpects : mid.expectsOperand = true := by
    unfold Reading.step? at hnumber
    dsimp only at hnumber
    split at hnumber
    · next hplace => exact hplace.symm
    · cases hnumber
  have hshows := Parser.Shows.start.run (Lexeme.place 0 before)
  rw [hmid] at hshows
  obtain ⟨-, hnone⟩ | ⟨p, s, hp, hs, hshown⟩ := rel_cases hshows
  · cases hnone
  cases hs
  exact ⟨p, eq_ok_of_toOption_eq_some hp, hshown.expectsOperand.trans hexpects⟩

/-- A text whose tokens go well up to a minus sign in an operand's place is refused there. -/
theorem parse_append_minus {before : List Token} {p : Parser} (happart : before.IsChain Token.Apart)
    (hvalues : ∀ w ∈ before.filterMap Token.number?, 0 ≤ w)
    (hrun : Parser.start.run (Lexeme.place 0 before) = .ok p) (hexpects : p.expectsOperand = true)
    (rest : List Char) :
    parse (before.flatMap Token.text ++ '-' :: rest) =
      .error (.malformedExpression (byteLength (before.flatMap Token.text))) := by
  let position := byteLength (before.flatMap Token.text)
  let minus : Lexeme := ⟨.token (.operator .sub), position, position + 1⟩
  obtain ⟨others, hscan⟩ : ∃ others, Lexeme.scan (before.flatMap Token.text ++ '-' :: rest) =
      Lexeme.place 0 before ++ minus :: others := by
    refine ⟨(Lexeme.scanFrom (position + 1) rest #[]).toList, ?_⟩
    have hsign : ∀ c ∈ ('-' :: rest).head?, c.isDigit = false := by
      rintro c ⟨⟩
      decide
    have hitem : Item.ofChar '-' = .token (.operator .sub) := by decide
    have hwidth : '-'.utf8Size = 1 := by decide
    rw [Lexeme.scan, Lexeme.scanFrom_flatMap_append before happart hvalues 0 _ hsign, Nat.zero_add,
      Lexeme.scanFrom_char (by decide) (by decide), Lexeme.scanFrom_eq_append, hitem, hwidth]
    simp [minus, position]
  have hfault : Parser.start.run (Lexeme.scan (before.flatMap Token.text ++ '-' :: rest)) =
      .error (.malformedExpression position) := by
    rw [hscan, Parser.run_append, hrun]
    change p.run (minus :: others) = _
    rw [Parser.run, Parser.step_operator_eq_error hexpects rfl]
  unfold parse
  dsimp only
  rw [hfault]

/-- The text of an expression is refused at the sign of its leftmost negative leaf. -/
theorem Expr.parse_render_eq_error {e : Expr} {before after : List Token} {v : Int64}
    (h : FirstNegative e.tokens before v after) :
    e.render = before.flatMap Token.text ++
        '-' :: (Nat.toDigits 10 v.toInt.natAbs ++ after.flatMap Token.text) ∧
      parse e.render = .error (.malformedExpression (byteLength (before.flatMap Token.text))) := by
  have hclamped : (e.map clamp).tokens =
      before ++ .number (clamp v) :: after.map (Token.map clamp) := by
    rw [tokens, tokensIn_map, ← tokens, h.split, List.map_append, map_clamp_eq_self h.nonneg]
    rfl
  obtain ⟨p, hrun, hexpects⟩ := exists_run_place_eq_ok hclamped
  have happart : before.IsChain Token.Apart := by
    have hall := e.isChain_tokensIn none
    rw [← tokens, h.split] at hall
    exact hall.left_of_append
  have htext : e.render = before.flatMap Token.text ++
      '-' :: (Nat.toDigits 10 v.toInt.natAbs ++ after.flatMap Token.text) := by
    rw [render_eq, h.split, List.flatMap_append, List.flatMap_cons, Token.text,
      Decimal.ofInt64_of_neg h.negative]
    rfl
  refine ⟨htext, ?_⟩
  rw [htext]
  exact parse_append_minus happart h.nonneg hrun hexpects _

/-- Writing and reading are inverse to each other, up to the sign of numbers.  The text of a tree
without negative leaves is read as an equal tree.  In the text of any other tree the reading
stops, and names the byte of the minus sign of the leftmost negative leaf.  What has been read
from a text is written as a text that is read as an equal tree and written as itself. -/
theorem parse_render :
    (∀ t : Tree, t.Built →
      ((∀ v ∈ t.toExpr.leaves, 0 ≤ v) → ∃ u, parse t.render = .ok u ∧ u.same t = true) ∧
      ((∃ v ∈ t.toExpr.leaves, v < 0) → ∃ before v after,
        FirstNegative t.toExpr.tokens before v after ∧
        t.toExpr.leaves =
          before.filterMap Token.number? ++ v :: after.filterMap Token.number? ∧
        t.render = before.flatMap Token.text ++
          '-' :: (Nat.toDigits 10 v.toInt.natAbs ++ after.flatMap Token.text) ∧
        parse t.render =
          .error (.malformedExpression (byteLength (before.flatMap Token.text))))) ∧
    ∀ (text : List Char) (t : Tree), parse text = .ok t → t.arena.size ≤ 2 ^ 32 →
      ∃ u, parse t.render = .ok u ∧ u.same t = true ∧ u.render = t.render := by
  refine ⟨fun t hbuilt => ⟨fun hleaves => ?_, fun hnegative => ?_⟩, fun text t ht hsize => ?_⟩
  · obtain ⟨u, hu, hdenotes, -⟩ := Expr.exists_parse_render_eq_ok hleaves
      (Nat.le_trans hbuilt.size_toExpr_le hbuilt.size_le)
    rw [t.render_eq]
    exact ⟨u, hu, Tree.same_of_toExpr_eq hdenotes⟩
  · have hnumbers : t.toExpr.tokens.filterMap Token.number? = t.toExpr.leaves :=
      t.toExpr.numbers_tokensIn none
    rw [← hnumbers] at hnegative ⊢
    obtain ⟨before, v, after, hfirst⟩ := exists_firstNegative hnegative
    obtain ⟨htext, hfault⟩ := Expr.parse_render_eq_error hfirst
    rw [← t.render_eq] at htext hfault
    refine ⟨before, v, after, hfirst, ?_, htext, hfault⟩
    rw [hfirst.split, List.filterMap_append]
    rfl
  · obtain ⟨_, -, -, hnodes⟩ := derives_of_parse_eq_ok ht hsize
    obtain ⟨u, hu, hdenotes, -⟩ := Expr.exists_parse_render_eq_ok (nonneg_of_parse_eq_ok ht hsize)
      (hnodes ▸ hsize)
    refine ⟨u, ?_, Tree.same_of_toExpr_eq hdenotes, ?_⟩
    · rw [t.render_eq, hu]
    · rw [u.render_eq, t.render_eq, hdenotes]

/-- The text `1*(2+-3)` is refused at its minus sign; `1*(2+3)` is read back. -/
theorem parse_render_one_times_sum :
    (∃ t, Tree.build? [.leaf 1, .leaf 2, .leaf (-3), .binary .add 1 2, .binary .mul 0 3] 4 = some t ∧
      parse t.render = .error (.malformedExpression 5)) ∧
    ∃ t, Tree.build? [.leaf 1, .leaf 2, .leaf 3, .binary .add 1 2, .binary .mul 0 3] 4 = some t ∧
      ∃ u, parse t.render = .ok u ∧ u.same t = true := by
  have hnegative : (Tree.build? [.leaf 1, .leaf 2, .leaf (-3), .binary .add 1 2, .binary .mul 0 3]
      4).map (fun t => (t.arena.size, t.toExpr)) =
      some (5, .binary .mul (.leaf 1) (.binary .add (.leaf 2) (.leaf (-3)))) := by decide +kernel
  have hpositive : (Tree.build? [.leaf 1, .leaf 2, .leaf 3, .binary .add 1 2, .binary .mul 0 3]
      4).map (fun t => (t.arena.size, t.toExpr)) =
      some (5, .binary .mul (.leaf 1) (.binary .add (.leaf 2) (.leaf 3))) := by decide +kernel
  constructor
  · obtain ⟨t, ht, hfacts⟩ := Option.map_eq_some_iff.1 hnegative
    obtain ⟨hsize, hexpr⟩ := Prod.mk.inj hfacts
    obtain ⟨before, v, after, hfirst, -, -, hfault⟩ :=
      (parse_render.1 t ⟨⟨_, _, ht⟩, by omega⟩).2 ⟨-3, by rw [hexpr]; decide, by decide⟩
    refine ⟨t, ht, ?_⟩
    rw [hfault, hfirst.before_eq, hexpr]
    rfl
  · obtain ⟨t, ht, hfacts⟩ := Option.map_eq_some_iff.1 hpositive
    obtain ⟨hsize, hexpr⟩ := Prod.mk.inj hfacts
    have hleaves : ∀ v ∈ t.toExpr.leaves, 0 ≤ v := by
      rw [hexpr]
      simp [Expr.leaves]
    exact ⟨t, ht, (parse_render.1 t ⟨⟨_, _, ht⟩, by omega⟩).1 hleaves⟩

end Reckoner
