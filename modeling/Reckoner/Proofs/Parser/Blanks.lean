import Reckoner.Proofs.Parser.Faults

/-!
# Blanks matter only inside a number

The parser looks at what its lexemes are.  Where they start it only remembers, for the open
brackets and for the error it may have to report; so if the lexemes of a text are those of another
one at other places, it builds the same tree, or reports the same error at the place where the
lexeme is now.  The end of the text counts as a place too.

Blanks between two texts move the lexemes of the second one and the end, and nothing else, as long
as they do not cut a run of digits in two.
-/

set_option autoImplicit false

namespace Reckoner

/-- The error, reported at the place to which its position has moved. -/
def ParseError.moved (f : Nat → Nat) : ParseError → ParseError
  | .invalidToken snippet position => .invalidToken snippet (f position)
  | .unbalancedBrackets position => .unbalancedBrackets (f position)
  | .malformedExpression position => .malformedExpression (f position)
  | .emptyExpression => .emptyExpression

/-- What waits, with the position of a bracket at the place to which it has moved. -/
def Waiting.moved (f : Nat → Nat) : Waiting → Waiting
  | .operator op => .operator op
  | .bracket position => .bracket (f position)

/-- Positions do not matter to operators that take their operands. -/
theorem settle_moved {α : Type} (join? : α → Operator → Option α) (least : Nat) (f : Nat → Nat)
    (waiting : List Waiting) (operands : α) :
    settle join? least (waiting.map (Waiting.moved f)) operands =
      (settle join? least waiting operands).map (Prod.map (List.map (Waiting.moved f)) id) := by
  induction waiting generalizing operands with
  | nil => rfl
  | cons w below ih =>
    cases w with
    | bracket position => rfl
    | operator held =>
      rw [List.map_cons, Waiting.moved, settle, settle]
      split
      · cases join? operands held with
        | none => rfl
        | some joined => exact ih joined
      · rfl

namespace Lexeme

/-- The same item at the place to which it has moved. -/
def MovesTo (f : Nat → Nat) (x y : Lexeme) : Prop := y.item = x.item ∧ y.start = f x.start

/-- The lexeme a number of bytes further on. -/
def shift (n : Nat) (x : Lexeme) : Lexeme := ⟨x.item, x.start + n, x.stop + n⟩

end Lexeme

namespace Parser

/-- The parser with the positions of its open brackets at the places to which they have moved. -/
def moved (f : Nat → Nat) (p : Parser) : Parser :=
  { p with waiting := p.waiting.map (Waiting.moved f) }

/-- A token at the place to which it has moved is taken alike, or refused there. -/
theorem accept_moved (f : Nat → Nat) (p : Parser) (t : Token) (position : Nat) :
    (p.moved f).accept t (f position) =
      ((p.accept t position).map (moved f)).mapError (ParseError.moved f) := by
  obtain ⟨forest, waiting, expectsOperand⟩ := p
  cases t with
  | number v => rfl
  | openBracket => rfl
  | operator op =>
    simp only [accept, moved, pushOperator_eq, settle_moved]
    cases settle Forest.join? op.precedence waiting forest with
    | none => rfl
    | some settled => rfl
  | closeBracket =>
    simp only [accept, moved, closeBracket_eq, settle_moved]
    obtain _ | ⟨_ | ⟨_ | _, below⟩, joined⟩ := settle Forest.join? 0 waiting forest <;> rfl

/-- A lexeme that has moved is taken alike, or refused at its new place. -/
theorem step_moved {f : Nat → Nat} {x y : Lexeme} (h : x.MovesTo f y) (p : Parser) :
    (p.moved f).step y = ((p.step x).map (moved f)).mapError (ParseError.moved f) := by
  obtain ⟨hitem, hstart⟩ := h
  rw [step, step, hitem, hstart]
  cases x.item with
  | bad snippet => rfl
  | token t =>
    dsimp only
    by_cases hkind : t.startsOperand = p.expectsOperand
    · rw [if_pos hkind, if_pos (show t.startsOperand = (p.moved f).expectsOperand from hkind)]
      exact p.accept_moved f t x.start
    · rw [if_neg hkind, if_neg (show ¬t.startsOperand = (p.moved f).expectsOperand from hkind)]
      rfl

/-- Lexemes that have moved are taken alike, or refused at the new place of the one at fault. -/
theorem run_moved {f : Nat → Nat} {xs ys : List Lexeme} (h : List.Forall₂ (Lexeme.MovesTo f) xs ys)
    (p : Parser) : (p.moved f).run ys = ((p.run xs).map (moved f)).mapError (ParseError.moved f) := by
  induction h generalizing p with
  | nil => rfl
  | cons hfirst _ ih =>
    rw [run, run, step_moved hfirst]
    cases p.step _ with
    | error e => rfl
    | ok next => exact ih next

/-- An end that has moved gives the same tree, or the error at the new place. -/
theorem finish_moved (f : Nat → Nat) (p : Parser) (stop : Nat) :
    (p.moved f).finish (f stop) = (p.finish stop).mapError (ParseError.moved f) := by
  obtain ⟨forest, waiting, expectsOperand⟩ := p
  simp only [finish, moved, closeAll_eq, settle_moved]
  obtain _ | ⟨_ | ⟨_ | _, below⟩, arena, _ | ⟨root, _ | _⟩, owned⟩ :=
    settle Forest.join? 0 waiting forest <;> rfl

end Parser

/-- If the lexemes and the end of a text have moved, the tree is the same, or the error has moved
with them. -/
theorem parse_moved {f : Nat → Nat} {text other : List Char}
    (hlexemes : List.Forall₂ (Lexeme.MovesTo f) (Lexeme.scan text) (Lexeme.scan other))
    (hstop : byteLength other = f (byteLength text)) :
    parse other = (parse text).mapError (ParseError.moved f) := by
  have hrun : Parser.start.run (Lexeme.scan other) = _ := Parser.run_moved hlexemes Parser.start
  have hempty : (Lexeme.scan other).isEmpty = (Lexeme.scan text).isEmpty := by
    rw [Bool.eq_iff_iff, List.isEmpty_iff_length_eq_zero, List.isEmpty_iff_length_eq_zero,
      hlexemes.length_eq]
  unfold parse
  dsimp only
  rw [hrun, hempty, hstop]
  cases Parser.start.run (Lexeme.scan text) with
  | error e => rfl
  | ok p =>
    have hfinish := p.finish_moved f (byteLength text)
    have hexpects : (p.moved f).expectsOperand = p.expectsOperand := rfl
    simp only [Except.map, Except.mapError, hexpects, hfinish]
    split
    · rfl
    · split <;> rfl

namespace Lexeme

/-- A text that starts further on has the same lexemes, each as much further on. -/
theorem scanAt_add (position n : Nat) (text : List Char) :
    scanAt (position + n) text = (scanAt position text).map (shift n) := by
  induction text using text_induction generalizing position with
  | nil => simp [scanAt_nil]
  | blank c rest hblank ih =>
    rw [scanAt_blank hblank, scanAt_blank hblank, ← ih, Nat.add_right_comm]
  | digits run rest hne hrun hrest ih =>
    rw [scanAt_digits hne hrun hrest, scanAt_digits hne hrun hrest, List.map_cons, ← ih, shift,
      Nat.add_right_comm]
  | char c rest hblank hdigit ih =>
    rw [scanAt_char hblank hdigit, scanAt_char hblank hdigit, List.map_cons, ← ih, shift,
      Nat.add_right_comm]

/-- Blanks only move what follows them. -/
theorem scanAt_blanks_append {w : List Char} (hw : ∀ c ∈ w, isBlank c = true) (position : Nat)
    (text : List Char) : scanAt position (w ++ text) = scanAt (position + byteLength w) text := by
  induction w generalizing position with
  | nil => rfl
  | cons c w ih =>
    have hblank := hw c List.mem_cons_self
    have hrest : ∀ d ∈ w, isBlank d = true := fun d hd => hw d (List.mem_cons_of_mem c hd)
    rw [List.cons_append, scanAt_blank hblank, ih hrest, byteLength, utf8Size_of_isBlank hblank,
      Nat.add_assoc]

/-- Texts are detached when one of them has no digit where they meet. -/
theorem detached_of_apart {a b : List Char}
    (h : (∀ c ∈ a.getLast?, c.isDigit = false) ∨ ∀ c ∈ b.head?, c.isDigit = false) :
    Detached a b := by
  rcases h with ha | hb
  · rintro front c d back rfl - hdigit
    rw [ha c (by simp)] at hdigit
    cases hdigit
  · exact .of_head hb

/-- Blanks between two detached texts keep the first one detached. -/
theorem Detached.blanks_append {a b w : List Char} (h : Detached a b)
    (hw : ∀ c ∈ w, isBlank c = true) : Detached a (w ++ b) := by
  cases w with
  | nil => exact h
  | cons c w =>
    apply Detached.of_head
    intro d hd
    cases hd
    exact isDigit_of_isBlank (hw c List.mem_cons_self)

/-- Texts that are put together, with blanks between them, are scanned one after the other. -/
theorem scan_append_blanks {a b w : List Char} (h : Detached a b)
    (hw : ∀ c ∈ w, isBlank c = true) :
    scan (a ++ (w ++ b)) = scan a ++ (scanAt (byteLength a) b).map (shift (byteLength w)) := by
  have happend := scanAt_append (h.blanks_append hw) 0
  rwa [Nat.zero_add, scanAt_blanks_append hw, scanAt_add (byteLength a)] at happend

/-- What stands behind the blanks moves, and what stands in front of them does not. -/
theorem forall₂_movesTo_scan {a b w : List Char} (h : Detached a b)
    (hw : ∀ c ∈ w, isBlank c = true) :
    List.Forall₂ (MovesTo fun p => if p < byteLength a then p else p + byteLength w)
      (scan (a ++ b)) (scan (a ++ (w ++ b))) := by
  have htext : scan (a ++ b) = scan a ++ scanAt (byteLength a) b := by
    have happend := scanAt_append h 0
    rwa [Nat.zero_add] at happend
  rw [htext, scan_append_blanks h hw]
  apply List.rel_append
  · rw [List.forall₂_same]
    intro x hx
    have hlt : x.start < 0 + byteLength a := (start_of_mem_scanAt hx).2
    rw [Nat.zero_add] at hlt
    exact ⟨rfl, (if_pos hlt).symm⟩
  · rw [List.forall₂_map_right_iff, List.forall₂_same]
    intro x hx
    obtain ⟨hle, -⟩ := start_of_mem_scanAt hx
    exact ⟨rfl, (if_neg (Nat.not_lt.2 hle)).symm⟩

end Lexeme

/-- Blanks may be put anywhere but between two digits.  The lexemes behind them move, and with them
the place that an error is reported at; a tree stays the same. -/
theorem parse_append_blanks {a b : List Char}
    (hapart : (∀ c ∈ a.getLast?, c.isDigit = false) ∨ ∀ c ∈ b.head?, c.isDigit = false)
    {w : List Char} (hw : ∀ c ∈ w, Lexeme.isBlank c = true) :
    Lexeme.scan (a ++ w ++ b) =
      Lexeme.scan a ++ (Lexeme.scan b).map (Lexeme.shift (byteLength a + byteLength w)) ∧
    parse (a ++ w ++ b) =
      (parse (a ++ b)).mapError
        (ParseError.moved fun p => if p < byteLength a then p else p + byteLength w) := by
  have hdetached := Lexeme.detached_of_apart hapart
  rw [List.append_assoc]
  constructor
  · have hscan := Lexeme.scanAt_add 0 (byteLength a) b
    rw [Nat.zero_add] at hscan
    rw [Lexeme.scan_append_blanks hdetached hw, hscan, List.map_map]
    congr 2
    funext x
    simp [Lexeme.shift, Nat.add_assoc]
  · apply parse_moved (Lexeme.forall₂_movesTo_scan hdetached hw)
    rw [if_neg]
    · simp only [byteLength_append]
      omega
    · rw [byteLength_append]
      omega

/-- A bad character four blanks further on, a bracket in front of the blanks, and a sum. -/
theorem parse_append_blanks_behind_twelve :
    (∀ c ∈ "+x)".toList.head?, c.isDigit = false) ∧
    (∀ c ∈ " \t\r\n".toList, Lexeme.isBlank c = true) ∧
    parse ("(12".toList ++ " \t\r\n".toList ++ "+x)".toList) = .error (.invalidToken ['x'] 8) ∧
    parse ("(12".toList ++ " \t\r\n".toList ++ []) = .error (.unbalancedBrackets 0) ∧
    ∃ t, parse "12+3".toList = .ok t ∧
      parse ("12".toList ++ " \t\r\n".toList ++ "+3".toList) = .ok t := by
  have hblanks : ∀ c ∈ " \t\r\n".toList, Lexeme.isBlank c = true := by simp [Lexeme.isBlank]
  have hhead : ∀ c ∈ "+x)".toList.head?, c.isDigit = false := by simp [Char.isDigit]
  have hsign : ∀ c ∈ "+3".toList.head?, c.isDigit = false := by simp [Char.isDigit]
  have hbad : parse ("(12".toList ++ "+x)".toList) = .error (.invalidToken ['x'] 4) :=
    parse_eq_error_of_refusal? (by decide +kernel)
  have hopen : parse ("(12".toList ++ []) = .error (.unbalancedBrackets 0) :=
    parse_eq_error_of_refusal? (by decide +kernel)
  have hsum := parse_refusal? ("12".toList ++ "+3".toList)
  rw [show refusal? ("12".toList ++ "+3".toList) = none by decide +kernel] at hsum
  obtain ⟨t, ht⟩ := hsum
  refine ⟨hhead, hblanks, ?_, ?_, t, ht, ?_⟩
  · rw [(parse_append_blanks (.inr hhead) hblanks).2, hbad]
    rfl
  · rw [(parse_append_blanks (.inr (by simp)) hblanks).2, hopen]
    rfl
  · rw [(parse_append_blanks (.inr hsign) hblanks).2, ht]
    rfl

end Reckoner
