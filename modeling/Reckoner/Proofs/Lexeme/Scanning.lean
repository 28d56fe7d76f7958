import Reckoner.Proofs.Tree.Printer

/-!
# Written tokens are scanned back

Tokens written one behind the other are scanned as these tokens, each at the place where it was
written, as long as no number is negative and no two numbers touch.  Conversely a scan never
yields a negative number: a minus sign is a token of its own.
-/

set_option autoImplicit false

namespace Reckoner

/-- The byte lengths of two texts add up. -/
theorem byteLength_append (xs ys : List Char) :
    byteLength (xs ++ ys) = byteLength xs + byteLength ys := by
  induction xs with
  | nil => rw [byteLength, List.nil_append, Nat.zero_add]
  | cons c xs ih => rw [List.cons_append, byteLength, byteLength, ih, Nat.add_assoc]

/-- A digit takes one byte. -/
theorem byteLength_of_isDigit {digits : List Char} (h : ∀ c ∈ digits, c.isDigit = true) :
    byteLength digits = digits.length := by
  induction digits with
  | nil => rfl
  | cons c digits ih =>
    have hc := h c List.mem_cons_self
    simp only [Char.isDigit, Bool.and_eq_true, decide_eq_true_eq] at hc
    have hsize : c.utf8Size = 1 := Char.utf8Size_eq_one_iff.2 (UInt32.le_trans hc.2 (by decide))
    rw [byteLength, hsize, ih fun d hd => h d (List.mem_cons_of_mem c hd), List.length_cons,
      Nat.add_comm]

namespace Decimal

/-- A value that is not negative is written in digits. -/
theorem isDigit_of_mem_ofInt64 {v : Int64} (h : 0 ≤ v) {c : Char} (hc : c ∈ ofInt64 v) :
    c.isDigit = true := by
  have hv : ¬v.toInt < 0 := Int.not_lt.2 (Int64.le_iff_toInt_le.1 h)
  rw [ofInt64, if_neg hv] at hc
  exact Nat.isDigit_of_mem_toDigits (by decide) (by decide) hc

/-- A negative value is written with a minus sign in front. -/
theorem ofInt64_of_neg {v : Int64} (h : v < 0) :
    ofInt64 v = '-' :: Nat.toDigits 10 v.toInt.natAbs :=
  if_pos (Int64.lt_iff_toInt_lt.1 h)

/-- Digits never denote a negative value. -/
theorem nonneg_of_toInt64?_eq_some {digits : List Char} {v : Int64}
    (h : toInt64? digits = some v) : 0 ≤ v := by
  unfold toInt64? maxLiteral at h
  dsimp only at h
  split at h
  · next hle =>
    cases h
    rw [Int64.le_iff_toInt_le, Int64.toInt_ofNat_of_lt (by omega)]
    exact Int.natCast_nonneg _
  · cases h

end Decimal

namespace Lexeme

/-- A digit is no blank. -/
theorem isBlank_eq_false_of_isDigit {c : Char} (h : c.isDigit = true) : isBlank c = false := by
  simp only [isBlank, Bool.or_eq_false_iff, decide_eq_false_iff_not]
  refine ⟨⟨⟨?_, ?_⟩, ?_⟩, ?_⟩ <;> (rintro rfl; exact absurd h (by decide))

/-- A run of digits is scanned as one lexeme, if no digit follows it. -/
theorem scanFrom_digits_append {digits rest : List Char} (hne : digits ≠ [])
    (hdigits : ∀ c ∈ digits, c.isDigit = true) (hrest : ∀ c ∈ rest.head?, c.isDigit = false)
    (position : Nat) (seen : Array Lexeme) :
    scanFrom position (digits ++ rest) seen =
      scanFrom (position + digits.length) rest
        (seen.push ⟨.ofDigits digits, position, position + digits.length⟩) := by
  have hstop : rest.takeWhile Char.isDigit = [] ∧ rest.dropWhile Char.isDigit = rest := by
    cases rest with
    | nil => exact ⟨rfl, rfl⟩
    | cons c rest =>
      have hc := hrest c rfl
      simp [hc]
  cases digits with
  | nil => exact absurd rfl hne
  | cons c digits =>
    have hc := hdigits c List.mem_cons_self
    have hmore : ∀ d ∈ digits, d.isDigit = true := fun d hd => hdigits d (List.mem_cons_of_mem c hd)
    rw [List.cons_append, scanFrom]
    simp only [isBlank_eq_false_of_isDigit hc, hc, Bool.false_eq_true, if_false, if_true,
      List.takeWhile_append_of_pos hmore, List.dropWhile_append_of_pos hmore, hstop.1, hstop.2,
      List.append_nil]

/-- A character that is neither a blank nor a digit is scanned as one lexeme. -/
theorem scanFrom_char {c : Char} (hblank : isBlank c = false) (hdigit : c.isDigit = false)
    (position : Nat) (rest : List Char) (seen : Array Lexeme) :
    scanFrom position (c :: rest) seen =
      scanFrom (position + c.utf8Size) rest
        (seen.push ⟨.ofChar c, position, position + c.utf8Size⟩) := by
  rw [scanFrom]
  simp only [hblank, hdigit, Bool.false_eq_true, if_false]

/-- A token is scanned back, if it is not negative and no number runs on into what follows. -/
theorem scanFrom_text_append (t : Token) (hvalue : ∀ v ∈ t.number?, 0 ≤ v) (position : Nat)
    {rest : List Char} (hrest : t.number? = none ∨ ∀ c ∈ rest.head?, c.isDigit = false)
    (seen : Array Lexeme) :
    scanFrom position (t.text ++ rest) seen =
      scanFrom (position + byteLength t.text) rest
        (seen.push ⟨.token t, position, position + byteLength t.text⟩) := by
  cases t with
  | number v =>
    have hv : 0 ≤ v := hvalue v rfl
    have hdigits : ∀ c ∈ Decimal.ofInt64 v, c.isDigit = true := fun c =>
      Decimal.isDigit_of_mem_ofInt64 hv
    have hitem : Item.ofDigits (Decimal.ofInt64 v) = .token (.number v) := by
      rw [Item.ofDigits, Decimal.toInt64?_ofInt64 v (Int64.le_iff_toInt_le.1 hv)]
    rw [Token.text, byteLength_of_isDigit hdigits,
      scanFrom_digits_append (Decimal.ofInt64_ne_nil v) hdigits
        (hrest.resolve_left (Option.some_ne_none v)), hitem]
  | operator op =>
    have hitem : Item.ofChar op.symbol = .token (.operator op) := by cases op <;> decide
    rw [Token.text, List.singleton_append, byteLength, byteLength, Nat.add_zero,
      scanFrom_char (by cases op <;> decide) (by cases op <;> decide), hitem]
  | openBracket => exact scanFrom_char (by decide) (by decide) _ _ _
  | closeBracket => exact scanFrom_char (by decide) (by decide) _ _ _

/-- Tokens that are written one behind the other from a byte position on. -/
def place (position : Nat) : List Token → List Lexeme
  | [] => []
  | t :: rest =>
    ⟨.token t, position, position + byteLength t.text⟩ :: place (position + byteLength t.text) rest

/-- Tokens in their places are still these tokens. -/
theorem map_item_place (position : Nat) (tokens : List Token) :
    (place position tokens).map item = tokens.map Item.token := by
  induction tokens generalizing position with
  | nil => rfl
  | cons t rest ih => rw [place, List.map_cons, List.map_cons, ih]

/-- Two runs of tokens stand one behind the other. -/
theorem place_append (position : Nat) (xs ys : List Token) :
    place position (xs ++ ys) =
      place position xs ++ place (position + byteLength (xs.flatMap Token.text)) ys := by
  induction xs generalizing position with
  | nil => rfl
  | cons t xs ih =>
    rw [List.cons_append, place, place, ih, List.flatMap_cons, byteLength_append, Nat.add_assoc]
    rfl

/-- A text does not start with a digit if its first token is not a number. -/
theorem head?_flatMap_text {t : Token} (h : t.number? = none) (tokens : List Token)
    (rest : List Char) :
    ∀ c ∈ (((t :: tokens).flatMap Token.text) ++ rest).head?, c.isDigit = false := by
  intro c hc
  cases t with
  | number v => cases h
  | operator op => cases hc; cases op <;> decide
  | openBracket => cases hc; decide
  | closeBracket => cases hc; decide

/-- Written tokens are scanned back in their places, whatever follows that is not a digit. -/
theorem scanFrom_flatMap_append (tokens : List Token) (happart : tokens.IsChain Token.Apart)
    (hvalues : ∀ v ∈ tokens.filterMap Token.number?, 0 ≤ v) (position : Nat) (rest : List Char)
    (hrest : ∀ c ∈ rest.head?, c.isDigit = false) (seen : Array Lexeme) :
    scanFrom position (tokens.flatMap Token.text ++ rest) seen =
      scanFrom (position + byteLength (tokens.flatMap Token.text)) rest
        (seen ++ (place position tokens).toArray) := by
  induction tokens generalizing position seen with
  | nil => simp [place, byteLength]
  | cons t tokens ih =>
    have hfirst : ∀ v ∈ t.number?, 0 ≤ v := fun v hv =>
      hvalues v (List.mem_filterMap.2 ⟨t, List.mem_cons_self, hv⟩)
    have hothers : ∀ v ∈ tokens.filterMap Token.number?, 0 ≤ v := by
      intro v hv
      obtain ⟨u, hu, huv⟩ := List.mem_filterMap.1 hv
      exact hvalues v (List.mem_filterMap.2 ⟨u, List.mem_cons_of_mem t hu, huv⟩)
    have hnext : t.number? = none ∨
        ∀ c ∈ (tokens.flatMap Token.text ++ rest).head?, c.isDigit = false := by
      cases tokens with
      | nil => exact .inr hrest
      | cons u tokens =>
        exact (List.isChain_cons_cons.1 happart).1.imp_right fun hu => head?_flatMap_text hu _ _
    rw [List.flatMap_cons, List.append_assoc, scanFrom_text_append t hfirst position hnext,
      ih happart.tail hothers, place, byteLength_append, Nat.add_assoc]
    simp

/-- A text of tokens is scanned as these tokens. -/
theorem scan_flatMap (tokens : List Token) (happart : tokens.IsChain Token.Apart)
    (hvalues : ∀ v ∈ tokens.filterMap Token.number?, 0 ≤ v) :
    scan (tokens.flatMap Token.text) = place 0 tokens := by
  have h := scanFrom_flatMap_append tokens happart hvalues 0 [] (fun _ hc => by cases hc) #[]
  rw [List.append_nil, scanFrom] at h
  rw [scan, h]
  simp

/-- What holds of every run of digits and of every other character holds of every lexeme. -/
theorem forall_mem_scanFrom {P : Item → Prop} (hdigits : ∀ digits, P (.ofDigits digits))
    (hchar : ∀ c, P (.ofChar c)) (position : Nat) (text : List Char) (seen : Array Lexeme)
    (hseen : ∀ x ∈ seen, P x.item) : ∀ x ∈ scanFrom position text seen, P x.item := by
  have hpush : ∀ {seen : Array Lexeme} (lexeme : Lexeme), (∀ x ∈ seen, P x.item) →
      P lexeme.item → ∀ x ∈ seen.push lexeme, P x.item := by
    intro seen lexeme hseen hlexeme x hx
    rcases Array.mem_push.1 hx with hx | rfl
    · exact hseen x hx
    · exact hlexeme
  fun_induction scanFrom position text seen with
  | case1 position seen => exact hseen
  | case2 position seen c rest hblank ih => exact ih hseen
  | case3 position seen c rest hblank hdigit digits stop ih =>
    exact ih (hpush _ hseen (hdigits digits))
  | case4 position seen c rest hblank hdigit stop ih => exact ih (hpush _ hseen (hchar c))

/-- No lexeme is a negative number. -/
theorem nonneg_of_mem_scan {text : List Char} {lexeme : Lexeme} (h : lexeme ∈ scan text) {v : Int64}
    (hitem : lexeme.item = .token (.number v)) : 0 ≤ v := by
  have hdigits : ∀ digits, Item.ofDigits digits = .token (.number v) → 0 ≤ v := by
    intro digits hv
    unfold Item.ofDigits at hv
    split at hv
    · next w hw =>
      cases hv
      exact Decimal.nonneg_of_toInt64?_eq_some hw
    · cases hv
  have hchar : ∀ c, Item.ofChar c = .token (.number v) → 0 ≤ v := by
    intro c hv
    unfold Item.ofChar at hv
    split at hv
    · cases hv
    split at hv
    · cases hv
    · split at hv <;> cases hv
  have hscan := forall_mem_scanFrom (P := fun item => item = .token (.number v) → 0 ≤ v) hdigits
    hchar 0 text #[] (fun x hx => absurd hx (Array.not_mem_empty x))
  exact hscan lexeme (Array.mem_toList_iff.1 h) hitem

end Lexeme

end Reckoner
