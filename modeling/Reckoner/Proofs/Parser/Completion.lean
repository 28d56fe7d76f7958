import Reckoner.Proofs.Parser.Faults

/-!
# How far a refused text is the start of an expression

A text whose lexemes have no fault can be continued to an expression: a number follows if an
operand has to come next, and then every open bracket is closed.  A text that ends in a lexeme at
fault cannot.  What follows may turn the lexeme into another one only if it is a run of digits;
where no number may stand, a longer one may not either, and a number that is too great stays so.

The error of a text is that of its first lexeme at fault, so the text in front of the reported
place is the start of an expression and the text up to the end of the lexeme is not.
-/

set_option autoImplicit false

namespace Reckoner

/-- The text is the start of an expression. -/
def Completable (text : List Char) : Prop := ∃ more t, parse (text ++ more) = .ok t

/-- The text in front of the lexeme is the start of an expression, the text up to its end is
not. -/
def RefusedAt (text : List Char) (x : Lexeme) : Prop :=
  ∃ front piece back, text = front ++ (piece ++ back) ∧ x.start = byteLength front ∧
    x.stop = byteLength (front ++ piece) ∧ Completable front ∧ ¬Completable (front ++ piece)

/-! ## Completing a text -/

/-- Behind the first lexemes, the others have no fault, and nothing is missing at the end. -/
structure Completes (before more : List Lexeme) : Prop where
  clean : firstFault? before more = none
  operand : operandExpected (before ++ more) = false
  brackets : openBrackets (before ++ more) = []

/-- Lexemes that are not at fault may stand in front of a completion. -/
theorem Completes.append {before xs ys : List Lexeme} (hclean : firstFault? before xs = none)
    (h : Completes (before ++ xs) ys) : Completes before (xs ++ ys) where
  clean := by rw [firstFault?_append, hclean, Option.none_or, h.clean]
  operand := by rw [← List.append_assoc, h.operand]
  brackets := by rw [← List.append_assoc, h.brackets]

/-- A lexeme that is not at fault may stand in front of a completion. -/
theorem Completes.cons {before more : List Lexeme} {x : Lexeme} (hclean : fault? before x = none)
    (h : Completes (before ++ [x]) more) : Completes before (x :: more) := by
  have hfirst : firstFault? before [x] = none := by
    rw [firstFault?, hclean]
    rfl
  exact .append hfirst h

/-- A text whose lexemes are a completion of nothing is an expression. -/
theorem Completes.exists_parse_eq_ok {text : List Char} (h : Completes [] (Lexeme.scan text)) :
    ∃ t, parse text = .ok t := by
  have hoperand := h.operand
  have hbrackets := h.brackets
  rw [List.nil_append] at hoperand hbrackets
  have hne : Lexeme.scan text ≠ [] := by
    intro hnil
    rw [hnil] at hoperand
    cases hoperand
  have hparse := parse_refusal? text
  simp only [refusal?, h.clean, if_neg hne, hoperand, hbrackets, List.head?_nil, Option.map_none,
    Bool.false_eq_true, if_false] at hparse
  exact hparse

/-- As many closing brackets as are open complete a text that lacks no operand. -/
theorem completes_replicate {before : List Lexeme} (hbalanced : Balanced before)
    (hoperand : operandExpected before = false) {n : Nat} (hn : (openBrackets before).length = n)
    (position : Nat) : Completes before (Lexeme.scanAt position (List.replicate n ')')) := by
  induction n generalizing before position with
  | zero =>
    rw [List.replicate_zero, Lexeme.scanAt_nil]
    refine ⟨rfl, ?_, ?_⟩
    · rw [List.append_nil, hoperand]
    · rw [List.append_nil, List.length_eq_zero_iff.1 hn]
  | succ n ih =>
    have hitem : Item.ofChar ')' = .token .closeBracket := by decide
    have hopen : openBrackets before ≠ [] := List.ne_nil_of_length_eq_add_one hn
    rw [List.replicate_succ, Lexeme.scanAt_char (by decide) (by decide), hitem]
    apply Completes.cons
    · have hcount : (openBrackets before).length + occurrences .closeBracket before =
        occurrences .openBracket before := hbalanced
      rw [fault?]
      dsimp only
      rw [hoperand, if_neg (by decide), if_neg (by omega)]
    · apply ih
      · apply hbalanced.append rfl
        intro _
        exact hopen
      · rw [operandExpected_append]
      · rw [openBrackets_append, openedAfter, List.length_tail, hn]
        rfl

/-- A text whose lexemes have no fault is the start of an expression. -/
theorem completable_of_firstFault?_eq_none {text : List Char}
    (hclean : firstFault? [] (Lexeme.scan text) = none) : Completable text := by
  have hbalanced := balanced_of_firstFault?_eq_none hclean
  cases hoperand : operandExpected (Lexeme.scan text) with
  | false =>
    refine ⟨' ' :: List.replicate (openBrackets (Lexeme.scan text)).length ')', ?_⟩
    apply Completes.exists_parse_eq_ok
    rw [Lexeme.scan_append_blank]
    exact .append hclean (completes_replicate hbalanced hoperand rfl _)
  | true =>
    refine ⟨' ' :: (['0'] ++ List.replicate (openBrackets (Lexeme.scan text)).length ')'), ?_⟩
    apply Completes.exists_parse_eq_ok
    have hclosing : ∀ c ∈ (List.replicate (openBrackets (Lexeme.scan text)).length ')').head?,
        c.isDigit = false := by
      intro c hc
      have hmem := List.eq_of_mem_replicate (List.mem_of_mem_head? hc)
      rw [hmem]
      decide
    have hdigit : ∀ c ∈ ['0'], c.isDigit = true := by
      intro c hc
      rw [List.eq_of_mem_singleton hc]
      decide
    rw [Lexeme.scan_append_blank, Lexeme.scanAt_digits (List.cons_ne_nil _ _) hdigit hclosing]
    apply Completes.append hclean
    have hzero : Item.ofDigits ['0'] = .token (.number 0) := by decide
    rw [hzero]
    apply Completes.cons
    · rw [fault?]
      dsimp only
      rw [List.nil_append, hoperand, if_neg (by decide), if_neg (by simp)]
    · apply completes_replicate
      · apply Balanced.append hbalanced rfl
        intro h
        cases h
      · rw [operandExpected_append]
      · rw [openBrackets_append]
        rfl

/-! ## A text that ends in a lexeme at fault -/

/-- Digits are at fault where no operand may come, or if they denote too great a number. -/
theorem exists_fault?_digits_iff {before : List Lexeme} {x : Lexeme} {run : List Char}
    (hitem : x.item = .ofDigits run) :
    (∃ e, fault? before x = some e) ↔
      Decimal.toInt64? run = none ∨ operandExpected before = false := by
  rw [fault?, hitem, Item.ofDigits]
  cases Decimal.toInt64? run with
  | none => simp
  | some v => cases operandExpected before <;> simp [Token.startsOperand]

/-- Whether a lexeme is at fault depends on its item only, and a run of digits that has become
longer is at fault where the shorter one is. -/
theorem exists_fault?_of_growsTo {before : List Lexeme} {x y : Lexeme} {e : ParseError}
    (hfault : fault? before x = some e) (hgrows : Lexeme.GrowsTo x.item y.item) :
    ∃ other, fault? before y = some other := by
  obtain hsame | ⟨run, longer, hx, hy⟩ := hgrows
  · cases hitem : x.item with
    | bad snippet =>
      rw [fault?, hsame, hitem]
      exact ⟨_, rfl⟩
    | token t =>
      rw [fault?, hitem] at hfault
      rw [fault?, hsame, hitem]
      dsimp only at hfault ⊢
      split at hfault
      · next hkind => exact ⟨_, if_pos hkind⟩
      · next hkind =>
        rw [if_neg hkind]
        split at hfault
        · next hunopened => exact ⟨_, if_pos hunopened⟩
        · cases hfault
  · rw [exists_fault?_digits_iff hy]
    refine ((exists_fault?_digits_iff hx).1 ⟨e, hfault⟩).imp_left ?_
    intro hlarge
    exact Decimal.toInt64?_append_eq_none hlarge longer

/-- The first fault is that of a lexeme behind others that have none. -/
theorem exists_of_firstFault?_eq_some {before lexemes : List Lexeme} {e : ParseError}
    (h : firstFault? before lexemes = some e) :
    ∃ front x back, lexemes = front ++ x :: back ∧ firstFault? before front = none ∧
      fault? (before ++ front) x = some e := by
  induction lexemes generalizing before with
  | nil => cases h
  | cons x rest ih =>
    rw [firstFault?] at h
    cases hfault : fault? before x with
    | some other =>
      rw [hfault, Option.some_or] at h
      refine ⟨[], x, rest, rfl, rfl, ?_⟩
      rw [List.append_nil, hfault, h]
    | none =>
      rw [hfault, Option.none_or] at h
      obtain ⟨front, y, back, rfl, hclean, hy⟩ := ih h
      refine ⟨x :: front, y, back, rfl, ?_, ?_⟩
      · rw [firstFault?, hfault, hclean]
        rfl
      · rw [List.append_assoc] at hy
        exact hy

/-- However the text goes on behind a lexeme at fault, it is refused. -/
theorem not_completable_of_fault {before : List Lexeme} {x : Lexeme}
    {front piece back : List Char} (h : Lexeme.PlacedAt 0 before x front piece back)
    (hclean : firstFault? [] before = none) {e : ParseError} (hfault : fault? before x = some e) :
    ¬Completable (front ++ piece) := by
  rintro ⟨more, t, ht⟩
  rw [List.append_assoc] at ht
  obtain ⟨y, after, hscan, -, hgrows⟩ := h.exists_scanAt_eq more
  obtain ⟨other, hother⟩ := exists_fault?_of_growsTo hfault hgrows
  have hfirst : firstFault? [] (Lexeme.scan (front ++ (piece ++ more))) = some other := by
    change firstFault? [] (Lexeme.scanAt 0 (front ++ (piece ++ more))) = some other
    rw [hscan, firstFault?_append, hclean, Option.none_or, firstFault?, List.nil_append, hother]
    rfl
  have hparse := parse_refusal? (front ++ (piece ++ more))
  rw [refusal?, hfirst, ht] at hparse
  cases hparse

/-! ## The place of an error -/

/-- A fault is reported at the start of its lexeme. -/
theorem fault?_cases {before : List Lexeme} {x : Lexeme} {e : ParseError}
    (h : fault? before x = some e) :
    (∃ snippet, e = .invalidToken snippet x.start) ∨ e = .malformedExpression x.start ∨
      (e = .unbalancedBrackets x.start ∧ x.item = .token .closeBracket) := by
  unfold fault? at h
  split at h
  · next snippet hitem =>
    cases h
    exact .inl ⟨snippet, rfl⟩
  · next t hitem =>
    split at h
    · cases h
      exact .inr (.inl rfl)
    split at h
    · next hunopened =>
      cases h
      rw [hitem, hunopened.1]
      exact .inr (.inr ⟨rfl, rfl⟩)
    · cases h

/-- The first lexeme at fault is where the text stops being the start of an expression. -/
theorem exists_refusedAt {text : List Char} {e : ParseError}
    (h : firstFault? [] (Lexeme.scan text) = some e) :
    ∃ before, ∃ x ∈ Lexeme.scan text, fault? before x = some e ∧ RefusedAt text x ∧
      x.start < byteLength text := by
  obtain ⟨before, x, after, hscan, hclean, hfault⟩ := exists_of_firstFault?_eq_some h
  rw [List.nil_append] at hfault
  obtain ⟨front, piece, back, htext, hplaced⟩ := Lexeme.exists_placedAt hscan
  have hstart := hplaced.start_eq
  rw [Nat.zero_add] at hstart
  have hpiece := hplaced.written.byteLength_pos
  refine ⟨before, x, ?_, hfault, ⟨front, piece, back, htext, hstart, ?_, ?_, ?_⟩, ?_⟩
  · rw [hscan]
    exact List.mem_append_right _ List.mem_cons_self
  · rw [hplaced.stop_eq, hstart, byteLength_append]
  · apply completable_of_firstFault?_eq_none
    rw [← hclean, ← hplaced.scanned]
    rfl
  · exact not_completable_of_fault hplaced hclean hfault
  · rw [hstart, htext, byteLength_append, byteLength_append]
    omega

/-- A bracket that is open was opened. -/
theorem exists_of_mem_openBrackets {lexemes : List Lexeme} {position : Nat}
    (h : position ∈ openBrackets lexemes) :
    ∃ x ∈ lexemes, x.start = position ∧ x.item = .token .openBracket := by
  induction lexemes using List.reverseRecOn with
  | nil => cases h
  | append_singleton before x ih =>
    rw [openBrackets_append] at h
    have hearlier : position ∈ openBrackets before →
        ∃ y ∈ before ++ [x], y.start = position ∧ y.item = .token .openBracket := by
      intro hmem
      obtain ⟨y, hy, hopened⟩ := ih hmem
      exact ⟨y, List.mem_append_left _ hy, hopened⟩
    unfold openedAfter at h
    split at h
    · next hitem =>
      rcases List.mem_cons.1 h with rfl | hmem
      · exact ⟨x, List.mem_append_right _ List.mem_cons_self, rfl, hitem⟩
      · exact hearlier hmem
    · exact hearlier (List.mem_of_mem_tail h)
    · exact hearlier h

/-- An error is reported where the text stops being the start of an expression: the text in front
of the lexeme at the reported position still is one, and the text up to the end of the lexeme is
not.  An error at the end of the text, or at a bracket that is left open, is reported only when the
whole text is the start of an expression. -/
theorem error_at_earliest_place {text : List Char} {e : ParseError} (h : parse text = .error e) :
    match e with
    | .invalidToken _ position => ∃ x ∈ Lexeme.scan text, x.start = position ∧ RefusedAt text x
    | .malformedExpression position =>
      (position < byteLength text ∧
        ∃ x ∈ Lexeme.scan text, x.start = position ∧ RefusedAt text x) ∨
      (position = byteLength text ∧ Completable text)
    | .unbalancedBrackets position =>
      ∃ x ∈ Lexeme.scan text, x.start = position ∧
        (x.item = .token .closeBracket ∧ RefusedAt text x ∨
          x.item = .token .openBracket ∧ Completable text)
    | .emptyExpression => Completable text := by
  have hrefusal := refusal?_of_parse_eq_error h
  unfold refusal? at hrefusal
  dsimp only at hrefusal
  cases hfirst : firstFault? [] (Lexeme.scan text) with
  | some fault =>
    rw [hfirst] at hrefusal
    obtain rfl := Option.some.inj hrefusal
    obtain ⟨before, x, hx, hfault, hrefused, hlt⟩ := exists_refusedAt hfirst
    obtain ⟨snippet, rfl⟩ | rfl | ⟨rfl, hclose⟩ := fault?_cases hfault
    · exact ⟨x, hx, rfl, hrefused⟩
    · exact .inl ⟨hlt, x, hx, rfl, hrefused⟩
    · exact ⟨x, hx, rfl, .inl ⟨hclose, hrefused⟩⟩
  | none =>
    have hcompletable := completable_of_firstFault?_eq_none hfirst
    rw [hfirst] at hrefusal
    dsimp only at hrefusal
    split at hrefusal
    · cases hrefusal
      exact hcompletable
    split at hrefusal
    · cases hrefusal
      exact .inr ⟨rfl, hcompletable⟩
    obtain ⟨position, hposition, rfl⟩ := Option.map_eq_some_iff.1 hrefusal
    obtain ⟨x, hx, hstart, hopened⟩ :=
      exists_of_mem_openBrackets (List.mem_of_mem_head? hposition)
    exact ⟨x, hx, hstart, .inr ⟨hopened, hcompletable⟩⟩

/-- A number where none may stand, a bracket that is left open, an operand that is missing. -/
theorem error_at_earliest_place_one_two :
    (∃ x ∈ Lexeme.scan "(1 2".toList, x.start = 3 ∧ RefusedAt "(1 2".toList x) ∧
      Completable "(1+(2".toList ∧ Completable "(1+".toList := by
  have hnumber := error_at_earliest_place (parse_eq_error_of_refusal?
    (show refusal? "(1 2".toList = some (.malformedExpression 3) by decide +kernel))
  have hbracket := error_at_earliest_place (parse_eq_error_of_refusal?
    (show refusal? "(1+(2".toList = some (.unbalancedBrackets 3) by decide +kernel))
  have hoperand := error_at_earliest_place (parse_eq_error_of_refusal?
    (show refusal? "(1+".toList = some (.malformedExpression 3) by decide +kernel))
  refine ⟨?_, ?_, ?_⟩
  · obtain ⟨-, hrefused⟩ | ⟨hlength, -⟩ := hnumber
    · exact hrefused
    · exact absurd hlength (by decide +kernel)
  · have hnone : ∀ x ∈ Lexeme.scan "(1+(2".toList, x.item ≠ .token .closeBracket := by
      decide +kernel
    obtain ⟨x, hx, -, ⟨hclose, -⟩ | ⟨-, hcompletable⟩⟩ := hbracket
    · exact absurd hclose (hnone x hx)
    · exact hcompletable
  · obtain ⟨hlength, -⟩ | ⟨-, hcompletable⟩ := hoperand
    · exact absurd hlength (by decide +kernel)
    · exact hcompletable

end Reckoner
