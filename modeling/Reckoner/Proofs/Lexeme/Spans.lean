import Mathlib.Data.List.TakeWhile
import Reckoner.Proofs.Lexeme.Scanning

/-!
# The text of a lexeme

Every lexeme is a piece of the text: a run of digits, or one character.  What stands in front of
the piece is scanned as the lexemes before it.  Two texts that are put together are scanned apart,
unless a run of digits goes on from the first into the second.  So a text that is cut off behind a
lexeme and continued in some other way still has the same lexemes up to there, but for one thing:
the last of them may have been a run of digits that has become longer.
-/

set_option autoImplicit false

namespace Reckoner

namespace Lexeme

/-- The lexemes of a text that starts at a byte position. -/
def scanAt (position : Nat) (text : List Char) : List Lexeme := (scanFrom position text #[]).toList

/-- An empty text has no lexemes. -/
theorem scanAt_nil (position : Nat) : scanAt position [] = [] := by
  rw [scanAt, scanFrom]

/-- Scanning appends the lexemes of the text to those seen before. -/
theorem toList_scanFrom (position : Nat) (text : List Char) (seen : Array Lexeme) :
    (scanFrom position text seen).toList = seen.toList ++ scanAt position text := by
  rw [scanFrom_eq_append, Array.toList_append, scanAt]

/-- A blank is no digit. -/
theorem isDigit_of_isBlank {c : Char} (h : isBlank c = true) : c.isDigit = false := by
  cases hdigit : c.isDigit with
  | false => rfl
  | true =>
    rw [isBlank_eq_false_of_isDigit hdigit] at h
    cases h

/-- A blank takes one byte. -/
theorem utf8Size_of_isBlank {c : Char} (h : isBlank c = true) : c.utf8Size = 1 := by
  simp only [isBlank, Bool.or_eq_true, decide_eq_true_eq] at h
  rcases h with ((rfl | rfl) | rfl) | rfl <;> rfl

/-- A blank is passed over. -/
theorem scanAt_blank {c : Char} (hblank : isBlank c = true) (position : Nat) (rest : List Char) :
    scanAt position (c :: rest) = scanAt (position + 1) rest := by
  rw [scanAt, scanFrom, if_pos hblank, scanAt]

/-- A run of digits that no digit follows is one lexeme. -/
theorem scanAt_digits {digits rest : List Char} (hne : digits ≠ [])
    (hdigits : ∀ c ∈ digits, c.isDigit = true) (hrest : ∀ c ∈ rest.head?, c.isDigit = false)
    (position : Nat) :
    scanAt position (digits ++ rest) =
      ⟨.ofDigits digits, position, position + digits.length⟩ ::
        scanAt (position + digits.length) rest := by
  rw [scanAt, scanFrom_digits_append hne hdigits hrest, toList_scanFrom]
  rfl

/-- A character that is neither a blank nor a digit is one lexeme. -/
theorem scanAt_char {c : Char} (hblank : isBlank c = false) (hdigit : c.isDigit = false)
    (position : Nat) (rest : List Char) :
    scanAt position (c :: rest) =
      ⟨.ofChar c, position, position + c.utf8Size⟩ :: scanAt (position + c.utf8Size) rest := by
  rw [scanAt, scanFrom_char hblank hdigit, toList_scanFrom]
  rfl

/-- What follows a whole run of digits does not start with a digit. -/
theorem head?_dropWhile_isDigit (text : List Char) :
    ∀ c ∈ (text.dropWhile Char.isDigit).head?, c.isDigit = false := by
  intro c hc
  have hstop := List.head?_dropWhile_not Char.isDigit text
  rw [Option.mem_def.1 hc] at hstop
  exact hstop

/-- A text is empty, or it starts with a blank, a whole run of digits, or another character. -/
@[elab_as_elim]
theorem text_induction {motive : List Char → Prop} (nil : motive [])
    (blank : ∀ c rest, isBlank c = true → motive rest → motive (c :: rest))
    (digits : ∀ run rest, run ≠ [] → (∀ c ∈ run, c.isDigit = true) →
      (∀ c ∈ rest.head?, c.isDigit = false) → motive rest → motive (run ++ rest))
    (char : ∀ c rest, isBlank c = false → c.isDigit = false → motive rest → motive (c :: rest))
    (text : List Char) : motive text := by
  induction hn : text.length using Nat.strongRecOn generalizing text with
  | ind n ih =>
    cases text with
    | nil => exact nil
    | cons c rest =>
      have hrest : rest.length < n := by
        rw [← hn]
        exact Nat.lt_succ_self _
      cases hblank : isBlank c with
      | true => exact blank c rest hblank (ih _ hrest rest rfl)
      | false =>
        cases hdigit : c.isDigit with
        | false => exact char c rest hblank hdigit (ih _ hrest rest rfl)
        | true =>
          have hsplit : c :: rest =
              (c :: rest.takeWhile Char.isDigit) ++ rest.dropWhile Char.isDigit := by
            rw [List.cons_append, List.takeWhile_append_dropWhile]
          rw [hsplit]
          apply digits
          · exact List.cons_ne_nil _ _
          · intro d hd
            rcases List.mem_cons.1 hd with rfl | hd
            · exact hdigit
            · exact List.mem_takeWhile_imp hd
          · exact head?_dropWhile_isDigit rest
          · exact ih _ (Nat.lt_of_le_of_lt (List.dropWhile_sublist _).length_le hrest) _ rfl

/-- No run of digits goes on from one text into the other. -/
def Detached (a b : List Char) : Prop :=
  ∀ front c d back, a = front ++ [c] → b = d :: back → c.isDigit = true → d.isDigit = false

/-- No run of digits goes on from an empty text. -/
theorem detached_nil (b : List Char) : Detached [] b := by
  intro front c d back h
  cases front <;> cases h

/-- A text that is detached from what follows is so without its first character. -/
theorem Detached.tail {c : Char} {a b : List Char} (h : Detached (c :: a) b) : Detached a b := by
  intro front d e back ha
  exact h (c :: front) d e back (congrArg (c :: ·) ha)

/-- A text that is detached from what follows is so from any of its characters on. -/
theorem Detached.of_append {a b c : List Char} (h : Detached (a ++ b) c) : Detached b c := by
  intro front d e back hb
  refine h (a ++ front) d e back ?_
  rw [hb, List.append_assoc]

/-- Only the last character of the first text and the first one of the second matter. -/
theorem Detached.cons {c : Char} {a b : List Char} (hc : c.isDigit = false) (h : Detached a b) :
    Detached (c :: a) b := by
  intro front d e back ha hb hd
  cases front with
  | nil =>
    cases ha
    rw [hc] at hd
    cases hd
  | cons f front =>
    exact h front d e back (List.cons.inj ha).2 hb hd

/-- A text that does not start with a digit is detached from all that stands before it. -/
theorem Detached.of_head {a b : List Char} (hb : ∀ c ∈ b.head?, c.isDigit = false) :
    Detached a b := by
  intro front c d back _ hb' _
  exact hb d (by rw [hb']; rfl)

/-- What stands in front of a detached text does not matter, unless that text is empty. -/
theorem Detached.append {a b c : List Char} (hne : b ≠ []) (h : Detached b c) :
    Detached (a ++ b) c := by
  intro front d e back hab hc hd
  have hlast := b.dropLast_append_getLast hne
  rw [← hlast, ← List.append_assoc] at hab
  obtain ⟨-, hx⟩ := List.append_inj' hab rfl
  refine h b.dropLast d e back ?_ hc hd
  rw [← hx, hlast]

/-- Texts that are put together are scanned one after the other. -/
theorem scanAt_append {a b : List Char} (h : Detached a b) (position : Nat) :
    scanAt position (a ++ b) = scanAt position a ++ scanAt (position + byteLength a) b := by
  induction a using text_induction generalizing position with
  | nil =>
    rw [scanAt_nil]
    rfl
  | blank c rest hblank ih =>
    rw [List.cons_append, scanAt_blank hblank, scanAt_blank hblank, ih h.tail, byteLength,
      utf8Size_of_isBlank hblank, Nat.add_assoc]
  | char c rest hblank hdigit ih =>
    rw [List.cons_append, scanAt_char hblank hdigit, scanAt_char hblank hdigit, ih h.tail,
      byteLength, Nat.add_assoc, List.cons_append]
  | digits run rest hne hrun hrest ih =>
    have hhead : ∀ c ∈ (rest ++ b).head?, c.isDigit = false := by
      intro c hc
      cases rest with
      | cons d rest => exact hrest c hc
      | nil =>
        obtain ⟨back, hb⟩ : ∃ back, b = c :: back := List.head?_eq_some_iff.1 hc
        have hlast := run.dropLast_append_getLast hne
        rw [List.append_nil] at h
        exact h _ _ c back hlast.symm hb (hrun _ (List.getLast_mem hne))
    rw [List.append_assoc, scanAt_digits hne hrun hhead, scanAt_digits hne hrun hrest,
      ih h.of_append, byteLength_append, byteLength_of_isDigit hrun, Nat.add_assoc,
      List.cons_append]

/-- What follows a blank is scanned apart from what stands in front of it. -/
theorem scan_append_blank (text more : List Char) :
    scan (text ++ ' ' :: more) = scan text ++ scanAt (byteLength text + 1) more := by
  have hdetached : Detached text (' ' :: more) := by
    apply Detached.of_head
    intro c hc
    cases hc
    decide
  have happend := scanAt_append hdetached 0
  rw [Nat.zero_add, scanAt_blank (by decide)] at happend
  exact happend

/-- How an item is written. -/
inductive WrittenAs : Item → List Char → Prop where
  | digits {run : List Char} (hne : run ≠ []) (hrun : ∀ c ∈ run, c.isDigit = true) :
    WrittenAs (.ofDigits run) run
  | char {c : Char} (hblank : isBlank c = false) (hdigit : c.isDigit = false) :
    WrittenAs (.ofChar c) [c]

/-- No item is written with nothing. -/
theorem WrittenAs.ne_nil {item : Item} {piece : List Char} (h : WrittenAs item piece) :
    piece ≠ [] := by
  cases h with
  | digits hne hrun => exact hne
  | char hblank hdigit => exact List.cons_ne_nil _ _

/-- Every item is written with at least one byte. -/
theorem WrittenAs.byteLength_pos {item : Item} {piece : List Char} (h : WrittenAs item piece) :
    0 < byteLength piece := by
  obtain ⟨c, rest, rfl⟩ := List.exists_cons_of_ne_nil h.ne_nil
  exact Nat.lt_of_lt_of_le c.utf8Size_pos (Nat.le_add_right _ _)

/-- The place of a lexeme in a text that is scanned from a byte position on: the lexemes before
it, what stands in front of it, the piece of the text that it spans, and what follows. -/
structure PlacedAt (position : Nat) (before : List Lexeme) (x : Lexeme)
    (front piece back : List Char) : Prop where
  scanned : scanAt position front = before
  start_eq : x.start = position + byteLength front
  stop_eq : x.stop = x.start + byteLength piece
  written : WrittenAs x.item piece
  detached : Detached front (piece ++ back)

/-- Every lexeme has its place in the text. -/
theorem exists_placedAt {position : Nat} {text : List Char} {before after : List Lexeme}
    {x : Lexeme} (h : scanAt position text = before ++ x :: after) :
    ∃ front piece back, text = front ++ (piece ++ back) ∧
      PlacedAt position before x front piece back := by
  induction text using text_induction generalizing position before with
  | nil =>
    rw [scanAt_nil] at h
    cases before <;> cases h
  | blank c rest hblank ih =>
    rw [scanAt_blank hblank] at h
    obtain ⟨front, piece, back, rfl, hplaced⟩ := ih h
    refine ⟨c :: front, piece, back, rfl, ?_⟩
    exact
      { scanned := (scanAt_blank hblank position front).trans hplaced.scanned
        start_eq := by
          rw [hplaced.start_eq, byteLength, utf8Size_of_isBlank hblank, Nat.add_assoc]
        stop_eq := hplaced.stop_eq
        written := hplaced.written
        detached := .cons (isDigit_of_isBlank hblank) hplaced.detached }
  | char c rest hblank hdigit ih =>
    rw [scanAt_char hblank hdigit] at h
    cases before with
    | nil =>
      obtain ⟨rfl, -⟩ := List.cons.inj h
      refine ⟨[], [c], rest, rfl, ?_⟩
      exact ⟨scanAt_nil position, rfl, rfl, .char hblank hdigit, detached_nil _⟩
    | cons y before =>
      obtain ⟨rfl, hafter⟩ := List.cons.inj h
      obtain ⟨front, piece, back, rfl, hplaced⟩ := ih hafter
      refine ⟨c :: front, piece, back, rfl, ?_⟩
      exact
        { scanned := by rw [scanAt_char hblank hdigit, hplaced.scanned]
          start_eq := by rw [hplaced.start_eq, byteLength, Nat.add_assoc]
          stop_eq := hplaced.stop_eq
          written := hplaced.written
          detached := .cons hdigit hplaced.detached }
  | digits run rest hne hrun hrest ih =>
    rw [scanAt_digits hne hrun hrest] at h
    cases before with
    | nil =>
      obtain ⟨rfl, -⟩ := List.cons.inj h
      refine ⟨[], run, rest, rfl, ?_⟩
      refine ⟨scanAt_nil position, rfl, ?_, .digits hne hrun, detached_nil _⟩
      rw [byteLength_of_isDigit hrun]
    | cons y before =>
      obtain ⟨rfl, hafter⟩ := List.cons.inj h
      obtain ⟨front, piece, back, rfl, hplaced⟩ := ih hafter
      refine ⟨run ++ front, piece, back, (List.append_assoc _ _ _).symm, ?_⟩
      have hfront : ∀ c ∈ front.head?, c.isDigit = false := by
        intro c hc
        apply hrest
        rw [List.head?_append, hc]
        rfl
      exact
        { scanned := by rw [scanAt_digits hne hrun hfront, hplaced.scanned]
          start_eq := by
            rw [hplaced.start_eq, byteLength_append, byteLength_of_isDigit hrun, Nat.add_assoc]
          stop_eq := hplaced.stop_eq
          written := hplaced.written
          detached := by
            cases front with
            | nil => exact .of_head hrest
            | cons d front => exact .append (List.cons_ne_nil d front) hplaced.detached }

/-- A lexeme starts within the text. -/
theorem start_of_mem_scanAt {position : Nat} {text : List Char} {x : Lexeme}
    (h : x ∈ scanAt position text) :
    position ≤ x.start ∧ x.start < position + byteLength text := by
  obtain ⟨before, after, hsplit⟩ := List.mem_iff_append.1 h
  obtain ⟨front, piece, back, rfl, hplaced⟩ := exists_placedAt hsplit
  have hpos := hplaced.written.byteLength_pos
  rw [hplaced.start_eq, byteLength_append, byteLength_append]
  omega

/-- The item is the same, or it is that of a longer run of digits. -/
def GrowsTo (i j : Item) : Prop :=
  j = i ∨ ∃ run longer, i = .ofDigits run ∧ j = .ofDigits (run ++ longer)

/-- Whatever follows the piece of a lexeme, the lexemes before it stay as they are, and it stays
where it is. -/
theorem PlacedAt.exists_scanAt_eq {position : Nat} {before : List Lexeme} {x : Lexeme}
    {front piece back : List Char} (h : PlacedAt position before x front piece back)
    (more : List Char) :
    ∃ y after, scanAt position (front ++ (piece ++ more)) = before ++ y :: after ∧
      y.start = x.start ∧ GrowsTo x.item y.item := by
  obtain ⟨item, start, stop⟩ := x
  have hstart : start = position + byteLength front := h.start_eq
  have hdetached : Detached front (piece ++ more) := by
    intro last c d rest hlast hhead
    obtain ⟨e, tail, rfl⟩ := List.exists_cons_of_ne_nil h.written.ne_nil
    cases hhead
    exact h.detached last c d (tail ++ back) hlast rfl
  rw [scanAt_append hdetached, h.scanned, ← hstart]
  cases h.written with
  | char hblank hdigit =>
    refine ⟨_, _, congrArg _ (scanAt_char hblank hdigit start more), rfl, .inl rfl⟩
  | digits hne hrun =>
    have hmore : piece ++ more =
        (piece ++ more.takeWhile Char.isDigit) ++ more.dropWhile Char.isDigit := by
      rw [List.append_assoc, List.takeWhile_append_dropWhile]
    have hall : ∀ c ∈ piece ++ more.takeWhile Char.isDigit, c.isDigit = true := by
      intro c hc
      rcases List.mem_append.1 hc with hc | hc
      · exact hrun c hc
      · exact List.mem_takeWhile_imp hc
    rw [hmore, scanAt_digits (List.append_ne_nil_of_left_ne_nil hne _) hall
      (head?_dropWhile_isDigit more)]
    exact ⟨_, _, rfl, rfl, .inr ⟨piece, _, rfl, rfl⟩⟩

/-- A lexeme that is no token shows the piece of the text that it spans. -/
theorem WrittenAs.eq_of_bad {item : Item} {piece snippet : List Char} (h : WrittenAs item piece)
    (hbad : item = .bad snippet) : snippet = piece := by
  cases h with
  | digits hne hrun =>
    unfold Item.ofDigits at hbad
    split at hbad
    · cases hbad
    · cases hbad
      rfl
  | char hblank hdigit =>
    unfold Item.ofChar at hbad
    split at hbad
    · cases hbad
    split at hbad
    · cases hbad
    split at hbad
    · cases hbad
    · cases hbad
      rfl

end Lexeme

/-- Reading further digits never makes a number smaller. -/
theorem Decimal.le_ofDigitChars (digits : List Char) (n : Nat) :
    n ≤ Nat.ofDigitChars 10 digits n := by
  induction digits generalizing n with
  | nil => exact Nat.le_refl n
  | cons c digits ih =>
    rw [Nat.ofDigitChars_cons]
    refine Nat.le_trans ?_ (ih _)
    omega

/-- Digits that denote too great a number still do when more follow. -/
theorem Decimal.toInt64?_append_eq_none {run : List Char} (h : toInt64? run = none)
    (longer : List Char) : toInt64? (run ++ longer) = none := by
  have hlarge : ¬Nat.ofDigitChars 10 run 0 ≤ maxLiteral := by
    intro hle
    rw [toInt64?, if_pos hle] at h
    cases h
  have hlarger := le_ofDigitChars longer (Nat.ofDigitChars 10 run 0)
  rw [toInt64?, Nat.ofDigitChars_append, if_neg (by omega)]

end Reckoner
