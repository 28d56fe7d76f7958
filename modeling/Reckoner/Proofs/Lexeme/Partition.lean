import Mathlib.Data.Nat.Digits.Defs
import Reckoner.Proofs.Lexeme.Spans

/-!
# Lexemes partition a text

The spans of the lexemes follow one another without touching the blanks: a byte of the text is in
one of them exactly when it is no blank.  A span is a run of digits that has no digit on either
side, or else a single character, and the item says which one it is.

The first lexeme of a text that does not start with a blank is a piece of the text, and what follows
the piece is scanned by itself.  This is an induction for scans (`Lexeme.scanAt_induction`), and
each statement about all lexemes goes by it.
-/

set_option autoImplicit false

namespace Reckoner

/-- The bytes of a text in UTF-8. -/
def utf8 (text : List Char) : List UInt8 := text.flatMap String.utf8EncodeChar

/-- The bytes of a space, a tab, a carriage return and a line feed. -/
def blankBytes : List UInt8 := [0x20, 0x09, 0x0D, 0x0A]

/-- The bytes of two texts follow one another. -/
theorem utf8_append (xs ys : List Char) : utf8 (xs ++ ys) = utf8 xs ++ utf8 ys :=
  List.flatMap_append

/-- The byte length of a text is the number of its bytes. -/
@[simp] theorem length_utf8 (text : List Char) : (utf8 text).length = byteLength text := by
  induction text with
  | nil => rfl
  | cons c rest ih =>
    rw [utf8, List.flatMap_cons, List.length_append, String.length_utf8EncodeChar, byteLength]
    exact congrArg _ ih

/-- The bytes of a blank are those of blanks, and no other character has one of them. -/
theorem mem_blankBytes_iff {c : Char} {b : UInt8} (hb : b ∈ String.utf8EncodeChar c) :
    b ∈ blankBytes ↔ Lexeme.isBlank c = true := by
  have hblank : Lexeme.isBlank c = true ↔ c.toNat ∈ [0x20, 0x09, 0x0D, 0x0A] := by
    simp only [Lexeme.isBlank, Bool.or_eq_true, decide_eq_true_eq, ← Char.toNat_inj, List.mem_cons,
      List.not_mem_nil, or_false]
    tauto
  have hbytes : b ∈ blankBytes ↔ b.toNat ∈ [0x20, 0x09, 0x0D, 0x0A] := by
    simp [blankBytes, ← UInt8.toNat_inj]
  rw [hblank, hbytes]
  have hval : c.val.toNat = c.toNat := Char.toNat_val
  simp only [String.utf8EncodeChar, hval] at hb
  split at hb
  · -- a character of one byte is that byte
    next hle =>
    rw [List.mem_singleton.1 hb, UInt8.toNat_ofNat', Nat.mod_eq_of_lt (by omega)]
  · -- all bytes of a longer one are beyond ASCII
    next hlt =>
    have hbeyond : 128 ≤ b.toNat := by
      split at hb
      · simp only [List.mem_cons, List.not_mem_nil, or_false] at hb
        rcases hb with rfl | rfl <;> (rw [UInt8.toNat_ofNat']; omega)
      split at hb
      · simp only [List.mem_cons, List.not_mem_nil, or_false] at hb
        rcases hb with rfl | rfl | rfl <;> (rw [UInt8.toNat_ofNat']; omega)
      · simp only [List.mem_cons, List.not_mem_nil, or_false] at hb
        rcases hb with rfl | rfl | rfl | rfl <;> (rw [UInt8.toNat_ofNat']; omega)
    simp only [List.mem_cons, List.not_mem_nil, or_false]
    omega

namespace Lexeme

/-! ## Induction over a scan -/

/-- No item is written with a blank. -/
theorem WrittenAs.isBlank_eq_false {item : Item} {piece : List Char} (h : WrittenAs item piece) :
    ∀ c ∈ piece, isBlank c = false := by
  intro c hc
  cases h with
  | digits hne hrun => exact isBlank_eq_false_of_isDigit (hrun c hc)
  | char hblank hdigit =>
    rw [List.mem_singleton.1 hc]
    exact hblank

/-- A text is empty, or it starts with a blank or with the piece of its first lexeme. -/
@[elab_as_elim]
theorem scanAt_induction {motive : Nat → List Char → List Lexeme → Prop}
    (nil : ∀ position, motive position [] [])
    (blank : ∀ position c rest, isBlank c = true →
      motive (position + 1) rest (scanAt (position + 1) rest) →
      motive position (c :: rest) (scanAt (position + 1) rest))
    (piece : ∀ position item piece rest, WrittenAs item piece →
      motive (position + byteLength piece) rest (scanAt (position + byteLength piece) rest) →
      motive position (piece ++ rest)
        (⟨item, position, position + byteLength piece⟩ ::
          scanAt (position + byteLength piece) rest))
    (position : Nat) (text : List Char) : motive position text (scanAt position text) := by
  induction text using text_induction generalizing position with
  | nil =>
    rw [scanAt_nil]
    exact nil position
  | blank c rest hblank ih =>
    rw [scanAt_blank hblank]
    exact blank position c rest hblank (ih _)
  | digits run rest hne hrun hrest ih =>
    rw [scanAt_digits hne hrun hrest, ← byteLength_of_isDigit hrun]
    exact piece position (.ofDigits run) run rest (.digits hne hrun) (ih _)
  | char c rest hblank hdigit ih =>
    rw [scanAt_char hblank hdigit]
    exact piece position (.ofChar c) [c] rest (.char hblank hdigit) (ih _)

/-- Each lexeme ends where the next one starts, or before. -/
theorem pairwise_scanAt (position : Nat) (text : List Char) :
    (scanAt position text).Pairwise fun x y => x.stop ≤ y.start := by
  induction position, text using scanAt_induction with
  | nil position => exact .nil
  | blank position c rest hblank ih => exact ih
  | piece position item piece rest hwritten ih =>
    apply List.Pairwise.cons _ ih
    intro y hy
    exact (start_of_mem_scanAt hy).1

/-- A byte is in the span of a lexeme exactly when it is no blank. -/
theorem exists_mem_scanAt_iff (position : Nat) (text : List Char) {i : Nat} {b : UInt8}
    (hb : (utf8 text)[i]? = some b) :
    (∃ x ∈ scanAt position text, x.start ≤ position + i ∧ position + i < x.stop) ↔
      b ∉ blankBytes := by
  induction position, text using scanAt_induction generalizing i with
  | nil position => cases hb
  | blank position c rest hblank ih =>
    have hlength : (String.utf8EncodeChar c).length = 1 := by
      rw [String.length_utf8EncodeChar, utf8Size_of_isBlank hblank]
    rw [utf8, List.flatMap_cons] at hb
    cases i with
    | zero =>
      rw [List.getElem?_append_left (by omega)] at hb
      have hmem := (mem_blankBytes_iff (List.mem_of_getElem? hb)).2 hblank
      refine iff_of_false ?_ (not_not_intro hmem)
      rintro ⟨x, hx, hle, -⟩
      have hstart := (start_of_mem_scanAt hx).1
      omega
    | succ i =>
      rw [List.getElem?_append_right (by omega), hlength, Nat.add_sub_cancel] at hb
      rw [← ih hb, Nat.add_assoc, Nat.add_comm 1 i]
  | piece position item piece rest hwritten ih =>
    rw [utf8_append] at hb
    by_cases hi : i < byteLength piece
    · rw [List.getElem?_append_left (by rwa [length_utf8])] at hb
      obtain ⟨c, hc, hbc⟩ := List.mem_flatMap.1 (List.mem_of_getElem? hb)
      rw [mem_blankBytes_iff hbc, hwritten.isBlank_eq_false c hc]
      refine iff_of_true ⟨_, List.mem_cons_self, ?_, ?_⟩ Bool.false_ne_true
      · exact Nat.le_add_right _ _
      · exact Nat.add_lt_add_left hi _
    · rw [List.getElem?_append_right (by rw [length_utf8]; omega), length_utf8] at hb
      have hsum : position + i = position + byteLength piece + (i - byteLength piece) := by omega
      rw [← ih hb, ← hsum, List.exists_mem_cons_iff]
      apply or_iff_right
      rintro ⟨-, hlt⟩
      dsimp only at hlt
      omega

/-! ## What the items say -/

/-- The characters that are tokens by themselves. -/
def signs : List (Char × Token) :=
  [('+', .operator .add), ('-', .operator .sub), ('*', .operator .mul), ('/', .operator .div),
    ('^', .operator .xor), ('(', .openBracket), (')', .closeBracket)]

/-- The number that digits denote in decimal. -/
def decimal (digits : List Char) : Nat :=
  Nat.ofDigits 10 (digits.reverse.map fun c => c.toNat - '0'.toNat)

/-- A run of digits with no digit on either side. -/
structure MaximalRun (front piece back : List Char) : Prop where
  ne_nil : piece ≠ []
  isDigit : ∀ c ∈ piece, c.isDigit = true
  left : ∀ c ∈ front.getLast?, c.isDigit = false
  right : ∀ c ∈ back.head?, c.isDigit = false

/-- Reading digits from the left gives their decimal value, behind what was read before. -/
theorem ofDigitChars_eq_decimal (digits : List Char) (n : Nat) :
    Nat.ofDigitChars 10 digits n = decimal digits + 10 ^ digits.length * n := by
  induction digits generalizing n with
  | nil => simp [decimal]
  | cons c digits ih =>
    rw [Nat.ofDigitChars_cons, ih, decimal, decimal, List.reverse_cons, List.map_append,
      Nat.ofDigits_append]
    simp only [List.map_cons, List.map_nil, Nat.ofDigits_singleton, List.length_map,
      List.length_reverse, List.length_cons, pow_succ]
    ring

/-- Digits are a number exactly when its value is not too great. -/
theorem ofDigits_eq_number_iff (digits : List Char) (v : Int64) :
    Item.ofDigits digits = .token (.number v) ↔ (decimal digits : Int) = v.toInt := by
  have hvalue := ofDigitChars_eq_decimal digits 0
  rw [Nat.mul_zero, Nat.add_zero] at hvalue
  simp only [Item.ofDigits, Decimal.toInt64?, hvalue, Decimal.maxLiteral]
  have hlt := v.toInt_lt
  by_cases hle : decimal digits ≤ 0x7FFF_FFFF_FFFF_FFFF
  · simp only [hle, if_true, Item.token.injEq, Token.number.injEq]
    rw [← Int64.toInt_inj, Int64.toInt_ofNat_of_lt (by omega)]
  · simp only [hle, if_false, reduceCtorEq, false_iff]
    omega

/-- Digits are bad exactly when their value is too great, and are then quoted as a whole. -/
theorem ofDigits_eq_bad_iff (digits snippet : List Char) :
    Item.ofDigits digits = .bad snippet ↔ snippet = digits ∧ 2 ^ 63 - 1 < decimal digits := by
  have hvalue := ofDigitChars_eq_decimal digits 0
  rw [Nat.mul_zero, Nat.add_zero] at hvalue
  simp only [Item.ofDigits, Decimal.toInt64?, hvalue, Decimal.maxLiteral]
  by_cases hle : decimal digits ≤ 0x7FFF_FFFF_FFFF_FFFF
  · simp only [hle, if_true, reduceCtorEq, false_iff, not_and]
    omega
  · simp only [hle, if_false, Item.bad.injEq]
    refine ⟨fun h => ⟨h.symm, by omega⟩, fun h => h.1.symm⟩

/-- Digits are a number, or bad. -/
theorem ofDigits_cases (digits : List Char) :
    (∃ v, Item.ofDigits digits = .token (.number v)) ∨ Item.ofDigits digits = .bad digits := by
  unfold Item.ofDigits
  split
  · exact .inl ⟨_, rfl⟩
  · exact .inr rfl

/-- A character by itself is the token that it is listed with. -/
theorem ofChar_eq_token_iff (c : Char) (t : Token) :
    Item.ofChar c = .token t ↔ (c, t) ∈ signs := by
  constructor
  · intro h
    unfold Item.ofChar at h
    split at h
    · next hc =>
      cases h
      simp [signs, hc]
    split at h
    · next hc =>
      cases h
      simp [signs, hc]
    split at h
    · next op hop =>
      cases h
      rw [← Operator.symbol_of_ofSymbol?_eq_some hop]
      cases op <;> simp [signs, Operator.symbol]
    · cases h
  · intro h
    simp only [signs, List.mem_cons, Prod.mk.injEq, List.not_mem_nil, or_false] at h
    rcases h with ⟨rfl, rfl⟩ | ⟨rfl, rfl⟩ | ⟨rfl, rfl⟩ | ⟨rfl, rfl⟩ | ⟨rfl, rfl⟩ | ⟨rfl, rfl⟩ |
      ⟨rfl, rfl⟩ <;> decide

/-- A character by itself is a token, or bad. -/
theorem ofChar_cases (c : Char) : (∃ t, Item.ofChar c = .token t) ∨ Item.ofChar c = .bad [c] := by
  unfold Item.ofChar
  split
  · exact .inl ⟨_, rfl⟩
  split
  · exact .inl ⟨_, rfl⟩
  split
  · exact .inl ⟨_, rfl⟩
  · exact .inr rfl

/-- A character by itself is bad exactly when it is not listed. -/
theorem ofChar_eq_bad_iff (c : Char) (snippet : List Char) :
    Item.ofChar c = .bad snippet ↔ snippet = [c] ∧ ∀ t, (c, t) ∉ signs := by
  have htoken := ofChar_eq_token_iff c
  rcases ofChar_cases c with ⟨t, ht⟩ | hbad
  · simp only [ht, reduceCtorEq, false_iff, not_and]
    intro _ hnone
    exact hnone t ((htoken t).1 ht)
  · simp only [hbad, reduceCtorEq, false_iff] at htoken
    simp only [hbad, Item.bad.injEq]
    exact ⟨fun h => ⟨h.symm, htoken⟩, fun h => h.1.symm⟩

/-! ## Every lexeme describes its piece of the text -/

/-- What a lexeme says about the piece of a text that it spans. -/
structure Describes (x : Lexeme) (front piece back : List Char) : Prop where
  ne_nil : piece ≠ []
  start_eq : x.start = (utf8 front).length
  stop_eq : x.stop = (utf8 (front ++ piece)).length
  /-- It is an integer, or one that is out of range, exactly when it spans a whole run of digits. -/
  numeral_iff : ((∃ v, x.item = .token (.number v)) ∨
    ∃ digits, x.item = .bad digits ∧ ∀ c ∈ digits, c.isDigit = true) ↔ MaximalRun front piece back
  number_iff : ∀ v, x.item = .token (.number v) ↔
    MaximalRun front piece back ∧ (decimal piece : Int) = v.toInt
  tooGreat_iff : MaximalRun front piece back → (x.item = .bad piece ↔ 2 ^ 63 - 1 < decimal piece)
  /-- Otherwise it spans one character, a sign or one that is bad. -/
  single : ¬MaximalRun front piece back → ∃ c, piece = [c] ∧ c.isDigit = false ∧
    (∀ t, x.item = .token t ↔ (c, t) ∈ signs) ∧ (x.item = .bad [c] ↔ ∀ t, (c, t) ∉ signs)

/-- No digit stands in front of a run of digits that is a lexeme, and none behind it. -/
theorem PlacedAt.maximalRun {position : Nat} {before after : List Lexeme} {x : Lexeme}
    {front piece back : List Char} (h : PlacedAt position before x front piece back)
    (hscan : scanAt position (front ++ (piece ++ back)) = before ++ x :: after)
    (hne : piece ≠ []) (hrun : ∀ c ∈ piece, c.isDigit = true) : MaximalRun front piece back where
  ne_nil := hne
  isDigit := hrun
  left := by
    intro c hc
    obtain ⟨first, hfirst⟩ := List.getLast?_eq_some_iff.1 hc
    obtain ⟨d, rest, rfl⟩ := List.exists_cons_of_ne_nil hne
    cases hdigit : c.isDigit with
    | false => rfl
    | true =>
      have hd := h.detached first c d (rest ++ back) hfirst rfl hdigit
      rw [hrun d List.mem_cons_self] at hd
      cases hd
  right := by
    -- the scan would have gone on with a digit behind the piece
    have hsplit : piece ++ back =
        (piece ++ back.takeWhile Char.isDigit) ++ back.dropWhile Char.isDigit := by
      rw [List.append_assoc, List.takeWhile_append_dropWhile]
    have hall : ∀ c ∈ piece ++ back.takeWhile Char.isDigit, c.isDigit = true := by
      intro c hc
      rcases List.mem_append.1 hc with hc | hc
      · exact hrun c hc
      · exact List.mem_takeWhile_imp hc
    rw [scanAt_append h.detached, h.scanned, List.append_cancel_left_eq, hsplit,
      scanAt_digits (List.append_ne_nil_of_left_ne_nil hne _) hall (head?_dropWhile_isDigit back)]
      at hscan
    have hstop := congrArg Lexeme.stop (List.cons.inj hscan).1
    rw [h.stop_eq, h.start_eq, byteLength_of_isDigit hrun, List.length_append] at hstop
    have hnone : back.takeWhile Char.isDigit = [] := by
      apply List.eq_nil_of_length_eq_zero
      dsimp only at hstop
      omega
    intro c hc
    rw [← List.takeWhile_append_dropWhile (p := Char.isDigit) (l := back), hnone] at hc
    exact head?_dropWhile_isDigit back c hc

/-- Every lexeme of a text describes a piece of it. -/
theorem exists_describes {text : List Char} {x : Lexeme} (h : x ∈ scan text) :
    ∃ front piece back, text = front ++ (piece ++ back) ∧ x.Describes front piece back := by
  obtain ⟨before, after, hscan⟩ := List.mem_iff_append.1 h
  obtain ⟨front, piece, back, rfl, hplaced⟩ := exists_placedAt hscan
  refine ⟨front, piece, back, rfl, ?_⟩
  obtain ⟨item, start, stop⟩ := x
  have hstart : start = (utf8 front).length := by
    have hstart := hplaced.start_eq
    rwa [Nat.zero_add, ← length_utf8] at hstart
  have hstop : stop = (utf8 (front ++ piece)).length := by
    rw [utf8_append, List.length_append, ← hstart, length_utf8]
    exact hplaced.stop_eq
  have hwritten : WrittenAs item piece := hplaced.written
  cases hwritten with
  | digits hne hrun =>
    have hmaximal := hplaced.maximalRun hscan hne hrun
    have hbad := ofDigits_eq_bad_iff piece
    exact
      { ne_nil := hne
        start_eq := hstart
        stop_eq := hstop
        numeral_iff := by
          refine iff_of_true ?_ hmaximal
          rcases ofDigits_cases piece with hnumber | hlarge
          · exact .inl hnumber
          · exact .inr ⟨piece, hlarge, hrun⟩
        number_iff := by
          intro v
          rw [and_iff_right hmaximal]
          exact ofDigits_eq_number_iff piece v
        tooGreat_iff := by
          intro _
          rw [hbad, and_iff_right rfl]
        single := fun hnone => absurd hmaximal hnone }
  | @char c hblank hdigit =>
    have hnone : ¬MaximalRun front [c] back := by
      intro hmaximal
      have hc := hmaximal.isDigit c List.mem_cons_self
      rw [hdigit] at hc
      cases hc
    have htoken := ofChar_eq_token_iff c
    have hnumber : ∀ v, Item.ofChar c ≠ .token (.number v) := by
      intro v hv
      have hsign := (htoken _).1 hv
      simp [signs] at hsign
    have hbad := ofChar_eq_bad_iff c
    exact
      { ne_nil := List.cons_ne_nil c []
        start_eq := hstart
        stop_eq := hstop
        numeral_iff := by
          refine iff_of_false ?_ hnone
          rintro (⟨v, hv⟩ | ⟨digits, hsnippet, hall⟩)
          · exact hnumber v hv
          · rw [((hbad digits).1 hsnippet).1] at hall
            have hc := hall c List.mem_cons_self
            rw [hdigit] at hc
            cases hc
        number_iff := fun v => iff_of_false (hnumber v) (fun hv => hnone hv.1)
        tooGreat_iff := fun hmaximal => absurd hmaximal hnone
        single := by
          intro _
          refine ⟨c, rfl, hdigit, htoken, ?_⟩
          rw [hbad, and_iff_right rfl] }

/-- The lexemes of a text come one after the other, and a byte belongs to one of them exactly when
it is no blank.  Each spans a piece of the text, cut between characters: a whole run of digits,
which is a number as long as it denotes at most `2 ^ 63 - 1` and bad otherwise; or one other
character, which is the token that it is listed with, or else bad. -/
theorem scan_partitions (text : List Char) :
    (scan text).Pairwise (fun x y => x.stop ≤ y.start) ∧
    (∀ (i : Nat) (b : UInt8), (utf8 text)[i]? = some b →
      ((∃ x ∈ scan text, x.start ≤ i ∧ i < x.stop) ↔ b ∉ blankBytes)) ∧
    ∀ x ∈ scan text, ∃ front piece back, text = front ++ (piece ++ back) ∧
      x.Describes front piece back := by
  refine ⟨pairwise_scanAt 0 text, ?_, ?_⟩
  · intro i b hb
    have hcovered := exists_mem_scanAt_iff 0 text hb
    rwa [Nat.zero_add] at hcovered
  · intro x hx
    exact exists_describes hx

/-- Zeros in front of a number, a letter of two bytes, a blank, and a number that is too great. -/
theorem scan_partitions_four_pieces :
    (utf8 "007é 9223372036854775808".toList)[5]? = some 0x20 ∧
    (¬∃ x ∈ scan "007é 9223372036854775808".toList, x.start ≤ 5 ∧ 5 < x.stop) ∧
    ⟨.bad "9223372036854775808".toList, 6, 25⟩ ∈ scan "007é 9223372036854775808".toList ∧
    ∃ front piece back, "007é 9223372036854775808".toList = front ++ (piece ++ back) ∧
      Describes ⟨.bad "9223372036854775808".toList, 6, 25⟩ front piece back := by
  obtain ⟨-, hbytes, hdescribed⟩ := scan_partitions "007é 9223372036854775808".toList
  have hblank : (utf8 "007é 9223372036854775808".toList)[5]? = some 0x20 := by decide +kernel
  have hmem : ⟨.bad "9223372036854775808".toList, 6, 25⟩ ∈
      scan "007é 9223372036854775808".toList := by decide +kernel
  refine ⟨hblank, ?_, hmem, hdescribed _ hmem⟩
  rw [hbytes 5 0x20 hblank]
  decide

end Lexeme

end Reckoner
