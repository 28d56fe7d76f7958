import Reckoner.CommandLine.Options
import Reckoner.Proofs.Lexeme.Partition
import Reckoner.Proofs.Parser.Completion
import Reckoner.Proofs.Program.Evaluation
import Reckoner.Proofs.Text.Lines

/-!
# Output stays in step with input

Without expressions among its options, a run answers each line of standard input that is not empty
by a block of its own: two lines when the normalized text is asked for and there is one, one line
otherwise.  What keeps the blocks in step is that no line feed gets into them from inside.  An error
quotes the text only where it shows a bad lexeme, and lexemes hold no blanks; everything else that
is printed is made of digits, signs and fixed words.

A line that is not empty holds a character that is not white space.  All blanks are white space, so
it has a lexeme, and it is never refused for being empty.
-/

set_option autoImplicit false

namespace Reckoner

/-! ## What an error quotes -/

namespace Lexeme

/-- A text without lexemes consists of blanks. -/
theorem isBlank_of_scanAt_eq_nil {position : Nat} {text : List Char}
    (h : scanAt position text = []) : ∀ c ∈ text, isBlank c = true := by
  induction position, text using scanAt_induction with
  | nil position => simp
  | blank position c rest hblank ih =>
    intro d hd
    rcases List.mem_cons.1 hd with rfl | hd
    · exact hblank
    · exact ih h d hd
  | piece position item piece rest hwritten ih => cases h

/-- A bad lexeme shows no blanks. -/
theorem isBlank_eq_false_of_mem_bad {text : List Char} {x : Lexeme} (hx : x ∈ scan text)
    {snippet : List Char} (hbad : x.item = .bad snippet) : ∀ c ∈ snippet, isBlank c = false := by
  obtain ⟨before, after, hscan⟩ := List.mem_iff_append.1 hx
  obtain ⟨front, piece, back, -, hplaced⟩ := exists_placedAt hscan
  rw [hplaced.written.eq_of_bad hbad]
  exact hplaced.written.isBlank_eq_false

end Lexeme

/-- A text is refused for a lexeme at fault, or for having none, or for ending too early. -/
theorem refusal?_cases {text : List Char} {e : ParseError} (h : refusal? text = some e) :
    firstFault? [] (Lexeme.scan text) = some e ∨
    (Lexeme.scan text = [] ∧ e = .emptyExpression) ∨
    ∃ position, e = .malformedExpression position ∨ e = .unbalancedBrackets position := by
  unfold refusal? at h
  dsimp only at h
  split at h
  · next other hfault =>
    cases h
    exact .inl hfault
  · split at h
    · next hempty =>
      cases h
      exact .inr (.inl ⟨hempty, rfl⟩)
    split at h
    · cases h
      exact .inr (.inr ⟨_, .inl rfl⟩)
    · obtain ⟨position, -, rfl⟩ := Option.map_eq_some_iff.1 h
      exact .inr (.inr ⟨position, .inr rfl⟩)

/-- What an error shows of a text holds no blanks. -/
theorem isBlank_eq_false_of_invalidToken {text snippet : List Char} {position : Nat}
    (h : parse text = .error (.invalidToken snippet position)) :
    ∀ c ∈ snippet, Lexeme.isBlank c = false := by
  obtain hfault | ⟨-, he⟩ | ⟨_, he | he⟩ := refusal?_cases (refusal?_of_parse_eq_error h)
  · obtain ⟨front, x, back, hscan, -, hx⟩ := exists_of_firstFault?_eq_some hfault
    have hmem : x ∈ Lexeme.scan text := by
      rw [hscan]
      exact List.mem_append_right front List.mem_cons_self
    unfold fault? at hx
    split at hx
    · next hbad =>
      cases hx
      exact Lexeme.isBlank_eq_false_of_mem_bad hmem hbad
    · split at hx
      · cases hx
      split at hx
      · cases hx
      · cases hx
  · cases he
  · cases he
  · cases he

/-- Only blanks are an empty expression. -/
theorem isBlank_of_emptyExpression {text : List Char} (h : parse text = .error .emptyExpression) :
    ∀ c ∈ text, Lexeme.isBlank c = true := by
  obtain hfault | ⟨hempty, -⟩ | ⟨_, he | he⟩ := refusal?_cases (refusal?_of_parse_eq_error h)
  · obtain ⟨front, x, back, -, -, hx⟩ := exists_of_firstFault?_eq_some hfault
    obtain ⟨_, he⟩ | he | ⟨he, -⟩ := fault?_cases hx
    · cases he
    · cases he
    · cases he
  · exact Lexeme.isBlank_of_scanAt_eq_nil hempty
  · cases he
  · cases he

/-- A text that is not all white space is not an empty expression. -/
theorem parse_ne_emptyExpression {text : List Char} (h : trimmed text ≠ []) :
    parse text ≠ .error .emptyExpression := by
  intro hempty
  apply h
  rw [trimmed_eq_nil_iff, List.all_eq_true]
  intro c hc
  have hblank := isBlank_of_emptyExpression hempty c hc
  apply isWhiteSpace_of_isWhitespace
  simp only [Lexeme.isBlank, Bool.or_eq_true, decide_eq_true_eq] at hblank
  simp only [Char.isWhitespace, Bool.or_eq_true, decide_eq_true_eq]
  tauto

/-! ## No line feeds from inside -/

/-- No line feed stands in the text. -/
def OneLine (text : String) : Prop := '\n' ∉ text.toList

instance (text : String) : Decidable (OneLine text) :=
  inferInstanceAs (Decidable ('\n' ∉ text.toList))

/-- Two texts without line feeds make one without. -/
theorem OneLine.append {s t : String} (hs : OneLine s) (ht : OneLine t) : OneLine (s ++ t) := by
  unfold OneLine
  rw [String.toList_append, List.mem_append, not_or]
  exact ⟨hs, ht⟩

/-- Characters that are no line feeds make a text without one. -/
theorem oneLine_ofList {text : List Char} (h : '\n' ∉ text) : OneLine (String.ofList text) := by
  unfold OneLine
  rwa [String.toList_ofList]

/-- The digits of a number hold no line feed. -/
theorem lineFeed_not_mem_toDigits (n : Nat) : '\n' ∉ Nat.toDigits 10 n := by
  intro h
  have hdigit := Nat.isDigit_of_mem_toDigits (by decide) (by decide) h
  cases hdigit

/-- A number is printed on one line. -/
theorem oneLine_repr (n : Nat) : OneLine n.repr := by
  unfold OneLine
  rw [Nat.toList_repr]
  exact lineFeed_not_mem_toDigits n

/-- A value is printed on one line, with or without its sign. -/
theorem lineFeed_not_mem_ofInt64 (v : Int64) : '\n' ∉ Decimal.ofInt64 v := by
  unfold Decimal.ofInt64
  split
  · simp [lineFeed_not_mem_toDigits]
  · exact lineFeed_not_mem_toDigits _

/-- The normalized text of a tree is one line: it consists of numbers, operators and brackets. -/
theorem lineFeed_not_mem_render (t : Tree) : '\n' ∉ t.render := by
  rw [t.render_eq, Expr.render_eq, List.mem_flatMap]
  rintro ⟨token, -, h⟩
  cases token with
  | number v => exact lineFeed_not_mem_ofInt64 v h
  | operator op => cases op <;> simp [Token.text, Operator.symbol] at h
  | openBracket => simp [Token.text] at h
  | closeBracket => simp [Token.text] at h

/-- The text of a parse error is one line, since what it quotes holds no blanks. -/
theorem oneLine_parseError {text : List Char} {e : ParseError} (h : parse text = .error e) :
    OneLine e.message := by
  cases e with
  | invalidToken snippet position =>
    have hsnippet : '\n' ∉ snippet := by
      intro hmem
      have hblank := isBlank_eq_false_of_invalidToken h '\n' hmem
      cases hblank
    have hstart : OneLine "invalid token '" := by decide +kernel
    have hbetween : OneLine "' at position " := by decide +kernel
    exact ((hstart.append (oneLine_ofList hsnippet)).append hbetween).append (oneLine_repr position)
  | unbalancedBrackets position =>
    have hwords : OneLine "unbalanced parentheses at position " := by decide +kernel
    exact hwords.append (oneLine_repr position)
  | malformedExpression position =>
    have hwords : OneLine "malformed expression at position " := by decide +kernel
    exact hwords.append (oneLine_repr position)
  | emptyExpression =>
    have hwords : OneLine "empty expression" := by decide +kernel
    exact hwords

/-- The reason for a refused allocation is one line. -/
theorem oneLine_allocationFault (fault : AllocationFault) : OneLine fault.message := by
  cases fault with
  | tooDeep depth =>
    have hstart : OneLine "operand stack depth " := by decide +kernel
    have hbetween : OneLine " exceeds " := by decide +kernel
    exact ((hstart.append (oneLine_repr depth)).append hbetween).append (oneLine_repr _)
  | codeOverflow =>
    have hwords : OneLine "code size overflows" := by decide +kernel
    exact hwords
  | poolOverflow =>
    have hwords : OneLine "constant pool size overflows" := by decide +kernel
    exact hwords
  | emptyRegion =>
    have hwords : OneLine "Invalid argument (os error 22)" := by decide +kernel
    exact hwords

/-- The text of a compile error is one line. -/
theorem oneLine_compileError (e : CompileError) : OneLine e.message := by
  cases e with
  | allocationFailed size fault =>
    have hstart : OneLine "failed to allocate " := by decide +kernel
    have hbetween : OneLine " bytes of jit memory: " := by decide +kernel
    exact ((hstart.append (oneLine_repr size)).append hbetween).append
      (oneLine_allocationFault fault)
  | sizeMismatch mismatch =>
    have hstart : OneLine "code size mismatch: " := by decide +kernel
    have hbetween : OneLine " bytes needed, " := by decide +kernel
    have hstop : OneLine " available" := by decide +kernel
    exact (((hstart.append (oneLine_repr _)).append hbetween).append (oneLine_repr _)).append hstop

/-! ## The block of a line -/

/-- A tree has a value, or it divides by zero, or it is not compiled: code that has been compiled
always returns. -/
theorem Tree.evaluate_cases (t : Tree) (config : Config) (target : Target) :
    (∃ v, t.evaluate config target = .ok v) ∨
    t.evaluate config target = .error (.evaluation .divisionByZero) ∨
    ∃ e, t.evaluate config target = .error (.compile e) := by
  have hinterpret : (∃ v, t.interpret.mapError Failure.evaluation = .ok v) ∨
      t.interpret.mapError Failure.evaluation = .error (.evaluation .divisionByZero) := by
    cases t.interpret with
    | ok v => exact .inl ⟨v, rfl⟩
    | error e =>
      cases e
      exact .inr rfl
  obtain ⟨_ | _⟩ := config
  · rw [show (⟨false⟩ : Config) = .interpreter from rfl, t.evaluate_interpreter]
    exact hinterpret.imp_right .inl
  · cases hcompile : Program.compile target t with
    | error e =>
      refine .inr (.inr ⟨e, ?_⟩)
      simp only [evaluate, if_true, hcompile]
    | ok p =>
      rw [Tree.evaluate_compiling hcompile]
      exact hinterpret.imp_right .inl

namespace CommandLine

namespace Options

/-- The characters that are printed for one line. -/
def printed (o : Options) (target : Target) (text : List Char) : List Char :=
  (o.block target text).flatMap fun line => line.toList ++ ['\n']

/-- The line that reports an evaluation is one line, whatever the outcome. -/
theorem oneLine_evaluate (t : Tree) (config : Config) (target : Target) :
    OneLine (resultLine (t.evaluate config target)) := by
  have hwords : OneLine "error: " := by decide +kernel
  obtain ⟨v, h⟩ | h | ⟨e, h⟩ := t.evaluate_cases config target
  · rw [h]
    exact oneLine_ofList (lineFeed_not_mem_ofInt64 v)
  · rw [h]
    have hmessage : OneLine (Failure.evaluation .divisionByZero).message := by decide +kernel
    exact hwords.append hmessage
  · rw [h]
    have hjit : OneLine "jit error: " := by decide +kernel
    exact hwords.append (hjit.append (oneLine_compileError e))

/-- What is printed for a line: the normalized text, if it is asked for, and the value or the error
of a text that is read; the error of one that is refused. -/
structure Answers (o : Options) (target : Target) (text printed : List Char) : Prop where
  of_ok : ∀ t, parse text = .ok t →
    t.evaluate o.config target ≠ .error .crash ∧
    printed = (if o.showsTree then t.render ++ ['\n'] else []) ++
      ((resultLine (t.evaluate o.config target)).toList ++ ['\n']) ∧
    printed.count '\n' = if o.showsTree then 2 else 1
  of_error : ∀ e, parse text = .error e →
    e ≠ .emptyExpression ∧
    printed = "error: parse error: ".toList ++ e.message.toList ++ ['\n'] ∧
    printed.count '\n' = 1

/-- A line that is ended has exactly one line feed. -/
theorem count_lineFeed_append {line : List Char} (h : '\n' ∉ line) :
    (line ++ ['\n']).count '\n' = 1 := by
  rw [List.count_append, List.count_eq_zero.2 h]
  rfl

/-- A line that is not empty is answered. -/
theorem answers_printed (o : Options) (target : Target) {text : List Char}
    (h : trimmed text ≠ []) : o.Answers target text (o.printed target text) where
  of_ok := by
    intro t ht
    have hresult := count_lineFeed_append (oneLine_evaluate t o.config target)
    have hrender := count_lineFeed_append (lineFeed_not_mem_render t)
    have hprinted : o.printed target text = (if o.showsTree then t.render ++ ['\n'] else []) ++
        ((resultLine (t.evaluate o.config target)).toList ++ ['\n']) := by
      unfold printed block
      rw [ht]
      cases o.showsTree <;> simp
    refine ⟨?_, hprinted, ?_⟩
    · intro hcrash
      obtain ⟨v, he⟩ | he | ⟨e, he⟩ := t.evaluate_cases o.config target
      · rw [he] at hcrash
        cases hcrash
      · rw [he] at hcrash
        cases hcrash
      · rw [he] at hcrash
        cases hcrash
    · rw [hprinted, List.count_append, hresult]
      cases o.showsTree with
      | false => rfl
      | true => rw [if_pos rfl, if_pos rfl, hrender]
  of_error := by
    intro e he
    have hwords : OneLine "error: parse error: " := by decide +kernel
    have hmessage := hwords.append (oneLine_parseError he)
    have hline : resultLine (.error (.parse e)) = "error: parse error: " ++ e.message := by
      have hjoined : "error: " ++ "parse error: " = "error: parse error: " := by decide +kernel
      rw [← hjoined, String.append_assoc]
      rfl
    have hprinted : o.printed target text =
        "error: parse error: ".toList ++ e.message.toList ++ ['\n'] := by
      unfold printed block
      rw [he, List.flatMap_singleton, hline, String.toList_append]
    refine ⟨?_, hprinted, ?_⟩
    · rintro rfl
      exact parse_ne_emptyExpression h he
    · rw [hprinted, ← String.toList_append]
      exact count_lineFeed_append hmessage

end Options

/-! ## The blocks of all lines -/

/-- Adding lines puts each of them, with its line feed, behind the text. -/
theorem toList_addLines (text : String) (lines : List String) :
    (addLines text lines).toList =
      text.toList ++ lines.flatMap fun line => line.toList ++ ['\n'] := by
  induction lines generalizing text with
  | nil => simp [addLines]
  | cons line rest ih =>
    rw [addLines, ih, String.toList_append, String.toList_append, List.flatMap_cons]
    simp only [List.append_assoc]
    rfl

namespace Options

/-- The texts of the lines before the first that is not UTF-8, and the code that a run exits
with. -/
def Reads (lines : List (List UInt8)) (texts : List (List Char)) (exitCode : Nat) : Prop :=
  (exitCode = 0 ∧ lines.map decodeLine? = texts.map some) ∨
    (exitCode = 1 ∧ ∃ rest, lines.map decodeLine? = texts.map some ++ none :: rest)

/-- Each line that is read adds its block. -/
theorem exists_reads_runLines (o : Options) (target : Target) (text : String)
    (lines : List (List UInt8)) :
    ∃ texts, Reads lines texts (o.runLines target text lines).exitCode ∧
      (o.runLines target text lines).text.toList =
        text.toList ++ (texts.filter (trimmed · ≠ [])).flatMap (o.printed target) := by
  induction lines generalizing text with
  | nil => exact ⟨[], .inl ⟨rfl, rfl⟩, by simp [runLines]⟩
  | cons line rest ih =>
    rw [runLines]
    cases hline : decodeLine? line with
    | none => exact ⟨[], .inr ⟨rfl, rest.map decodeLine?, by simp [hline]⟩, by simp⟩
    | some expression =>
      have hreads : ∀ {texts exitCode}, Reads rest texts exitCode →
          Reads (line :: rest) (expression :: texts) exitCode := by
        intro texts exitCode h
        rcases h with ⟨hcode, hall⟩ | ⟨hcode, more, hall⟩
        · exact .inl ⟨hcode, by simp [hline, hall]⟩
        · exact .inr ⟨hcode, more, by simp [hline, hall]⟩
      dsimp only
      by_cases hwhite : expression.all isWhiteSpace = true
      · obtain ⟨texts, hrest, htext⟩ := ih text
        have hempty : ¬trimmed expression ≠ [] :=
          not_not_intro ((trimmed_eq_nil_iff expression).2 hwhite)
        rw [if_pos hwhite]
        refine ⟨expression :: texts, hreads hrest, ?_⟩
        rw [htext, List.filter_cons_of_neg (by simpa using hempty)]
      · obtain ⟨texts, hrest, htext⟩ := ih (addLines text (o.block target expression))
        have hfull : trimmed expression ≠ [] :=
          fun h => hwhite ((trimmed_eq_nil_iff expression).1 h)
        rw [if_neg hwhite]
        refine ⟨expression :: texts, hreads hrest, ?_⟩
        rw [htext, List.filter_cons_of_pos (by simpa using hfull), toList_addLines,
          List.flatMap_cons, List.append_assoc]
        rfl

end Options

/-- Without expressions among the options, the output of a run is made of blocks, one for each line
of the input whose text is not empty when it is trimmed, in the order of the lines and up to the
first line that is not UTF-8.  A block is the answer to its own line, whatever the others are. -/
theorem output_in_step (o : Options) (hnone : o.expressions = []) (target : Target)
    (input : List UInt8) :
    ∃ texts,
      Options.Reads (linesOfPieces (input.splitOn lineFeed)) texts (o.run target input).exitCode ∧
      (o.run target input).text.toList =
        (texts.filter (trimmed · ≠ [])).flatMap (o.printed target) ∧
      ∀ text ∈ texts, trimmed text ≠ [] → o.Answers target text (o.printed target text) := by
  rw [Options.run, hnone, List.isEmpty_nil, if_pos rfl, lines_eq]
  obtain ⟨texts, hreads, htext⟩ :=
    o.exists_reads_runLines target "" (linesOfPieces (input.splitOn lineFeed))
  refine ⟨texts, hreads, htext, ?_⟩
  intro text _ hfull
  exact o.answers_printed target hfull

/-- The lines `1`, an empty one, `2 x`, `4/0`, one that is not UTF-8, and one that is not read: a
block for each of the three that are answered, and then the run fails. -/
theorem output_in_step_six_lines :
    let o : Options := ⟨true, true, []⟩
    let input : List UInt8 :=
      [0x31, 0x0d, 0x0a, 0x0a, 0x32, 0x20, 0x78, 0x0a, 0x34, 0x2f, 0x30, 0x0a, 0xff, 0x0a, 0x32]
    let output := o.run .x64 input
    output = ⟨"1\n1\nerror: parse error: invalid token 'x' at position 2\n4/0\n" ++
      "error: evaluation error: division by zero\n", 1⟩ ∧
    ∃ texts,
      Options.Reads (linesOfPieces (input.splitOn lineFeed)) texts output.exitCode ∧
      output.text.toList = (texts.filter (trimmed · ≠ [])).flatMap (o.printed .x64) ∧
      ∀ text ∈ texts, trimmed text ≠ [] → o.Answers .x64 text (o.printed .x64 text) :=
  ⟨by decide +kernel, output_in_step ⟨true, true, []⟩ rfl .x64 _⟩

end CommandLine

end Reckoner
