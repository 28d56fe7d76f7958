import Reckoner.Proofs.Lexeme.Spans
import Reckoner.Proofs.Parser.NodeCount

/-!
# Which error a text is refused with

A lexeme is at fault when it is no token, or when it is of the wrong kind for its place, or when it
closes a bracket and none is open; whether it is can be told from the lexemes before it.  The first
lexeme at fault decides.  If there is none, the text can only end too early.

The parser follows this because of what its stacks hold.  Between lexemes there is one operand
more than operators that wait, or as many when an operand has to come next.  So operators that take
their operands always find two, and what stops them is an open bracket or the bottom of the stack.
-/

set_option autoImplicit false

namespace Reckoner

/-! ## Faults -/

/-- Whether an operand has to come next. -/
def operandExpected (before : List Lexeme) : Bool :=
  match before.getLast? with
  | none => true
  | some x =>
    match x.item with
    | .token (.operator _) | .token .openBracket => true
    | _ => false

/-- How often a token occurs. -/
def occurrences (t : Token) (lexemes : List Lexeme) : Nat :=
  (lexemes.map Lexeme.item).count (.token t)

/-- The fault of a lexeme behind others. -/
def fault? (before : List Lexeme) (x : Lexeme) : Option ParseError :=
  match x.item with
  | .bad snippet => some (.invalidToken snippet x.start)
  | .token t =>
    if t.startsOperand ≠ operandExpected before then some (.malformedExpression x.start)
    else if t = .closeBracket ∧
        occurrences .closeBracket before = occurrences .openBracket before then
      some (.unbalancedBrackets x.start)
    else none

/-- The first fault of lexemes behind others. -/
def firstFault? (before : List Lexeme) : List Lexeme → Option ParseError
  | [] => none
  | x :: rest => (fault? before x).or (firstFault? (before ++ [x]) rest)

/-- The positions of the brackets that are open after a lexeme, latest first. -/
def openedAfter (opened : List Nat) (x : Lexeme) : List Nat :=
  match x.item with
  | .token .openBracket => x.start :: opened
  | .token .closeBracket => opened.tail
  | _ => opened

/-- The positions of the brackets that are still open, latest first. -/
def openBrackets (lexemes : List Lexeme) : List Nat := lexemes.foldl openedAfter []

/-- The error that a text is refused with, unless it is an expression. -/
def refusal? (text : List Char) : Option ParseError :=
  let lexemes := Lexeme.scan text
  match firstFault? [] lexemes with
  | some e => some e
  | none =>
    if lexemes = [] then some .emptyExpression
    else if operandExpected lexemes then some (.malformedExpression (byteLength text))
    else (openBrackets lexemes).head?.map .unbalancedBrackets

/-- Whether an operand has to come next depends on the last lexeme alone. -/
theorem operandExpected_append (before : List Lexeme) (x : Lexeme) :
    operandExpected (before ++ [x]) =
      match x.item with
      | .token (.operator _) | .token .openBracket => true
      | _ => false := by
  rw [operandExpected, List.getLast?_concat]

/-- One more lexeme opens a bracket, closes the latest, or leaves them as they are. -/
theorem openBrackets_append (before : List Lexeme) (x : Lexeme) :
    openBrackets (before ++ [x]) = openedAfter (openBrackets before) x := by
  rw [openBrackets, List.foldl_append]
  rfl

/-- One more lexeme occurs once more where it is the token that is counted. -/
theorem occurrences_append (t : Token) (before : List Lexeme) (x : Lexeme) :
    occurrences t (before ++ [x]) =
      occurrences t before + if x.item = .token t then 1 else 0 := by
  simp [occurrences, List.count_singleton]

/-- The first fault is found in front, or else behind. -/
theorem firstFault?_append (before xs ys : List Lexeme) :
    firstFault? before (xs ++ ys) = (firstFault? before xs).or (firstFault? (before ++ xs) ys) := by
  induction xs generalizing before with
  | nil => simp [firstFault?]
  | cons x xs ih =>
    rw [List.cons_append, firstFault?, firstFault?, ih, Option.or_assoc, List.append_assoc,
      List.singleton_append]

/-- The open brackets make up for the closing ones. -/
def Balanced (before : List Lexeme) : Prop :=
  (openBrackets before).length + occurrences .closeBracket before =
    occurrences .openBracket before

/-- A closing bracket keeps the balance as long as a bracket is open; every other token keeps it
anyway. -/
theorem Balanced.append {before : List Lexeme} (h : Balanced before) {x : Lexeme} {t : Token}
    (hitem : x.item = .token t) (hopen : t = .closeBracket → openBrackets before ≠ []) :
    Balanced (before ++ [x]) := by
  unfold Balanced at h ⊢
  rw [openBrackets_append, openedAfter, occurrences_append, occurrences_append, hitem]
  cases t with
  | number v => exact h
  | operator op => exact h
  | openBracket =>
    simp only [List.length_cons, Item.token.injEq, reduceCtorEq, if_true, if_false, Nat.add_zero]
    omega
  | closeBracket =>
    have hpos := List.length_pos_iff.2 (hopen rfl)
    simp only [List.length_tail, Item.token.injEq, reduceCtorEq, if_true, if_false, Nat.add_zero]
    omega

/-! ## Operands for every operator that waits -/

/-- The position of a bracket that waits. -/
def Waiting.position? : Waiting → Option Nat
  | .operator _ => none
  | .bracket position => some position

/-- Two operands can be joined, and make one. -/
theorem Forest.exists_join?_eq_some {f : Forest} (h : 2 ≤ f.roots.length) (op : Operator) :
    ∃ joined, f.join? op = some joined ∧ joined.roots.length + 1 = f.roots.length := by
  obtain ⟨arena, roots, owned⟩ := f
  match roots, owned, h with
  | right :: left :: rest, owned, _ => exact ⟨_, rfl, rfl⟩

/-- With one operand more than operators that wait, operators never lack one.  They stop at an
operator that binds less tightly, at an open bracket, or at the bottom of the stack. -/
theorem exists_settle_eq_some (least : Nat) {waiting : List Waiting} {f : Forest}
    (h : f.roots.length = operatorsWaiting waiting + 1) :
    ∃ below joined, settle Forest.join? least waiting f = some (below, joined) ∧
      joined.roots.length = operatorsWaiting below + 1 ∧
      below.filterMap Waiting.position? = waiting.filterMap Waiting.position? ∧
      ∀ op rest, below = .operator op :: rest → op.precedence < least := by
  induction waiting generalizing f with
  | nil =>
    refine ⟨[], f, rfl, h, rfl, ?_⟩
    intro op rest hbelow
    cases hbelow
  | cons w waiting ih =>
    cases w with
    | bracket position =>
      refine ⟨.bracket position :: waiting, f, rfl, h, rfl, ?_⟩
      intro op rest hbelow
      cases hbelow
    | operator held =>
      by_cases htight : least ≤ held.precedence
      · rw [operatorsWaiting] at h
        have htwo : 2 ≤ f.roots.length := by omega
        obtain ⟨next, hnext, hlength⟩ := Forest.exists_join?_eq_some htwo held
        obtain ⟨below, joined, hsettle, hrest⟩ := ih (f := next) (by omega)
        refine ⟨below, joined, ?_, hrest⟩
        rw [settle, if_pos htight, hnext]
        exact hsettle
      · refine ⟨.operator held :: waiting, f, ?_, h, rfl, ?_⟩
        · rw [settle, if_neg htight]
        · intro op rest hbelow
          cases hbelow
          exact Nat.lt_of_not_le htight

namespace Parser

/-- A parser that has taken lexemes none of which is at fault. -/
structure Follows (p : Parser) (before : List Lexeme) : Prop where
  expectsOperand : p.expectsOperand = operandExpected before
  operands :
    p.forest.roots.length = operatorsWaiting p.waiting + if p.expectsOperand then 0 else 1
  brackets : p.waiting.filterMap Waiting.position? = openBrackets before
  balanced : Balanced before

/-- A parser starts with no lexeme taken. -/
theorem follows_start : start.Follows [] := ⟨rfl, rfl, rfl, rfl⟩

namespace Follows

variable {p : Parser} {before : List Lexeme}

/-- Where an operator or a closing bracket may come next, operators can take their operands. -/
theorem exists_settle_eq_some (h : p.Follows before) (hexpects : p.expectsOperand = false)
    (least : Nat) :
    ∃ below joined, settle Forest.join? least p.waiting p.forest = some (below, joined) ∧
      joined.roots.length = operatorsWaiting below + 1 ∧
      below.filterMap Waiting.position? = openBrackets before ∧
      ∀ op rest, below = .operator op :: rest → op.precedence < least := by
  have hoperands := h.operands
  rw [hexpects] at hoperands
  obtain ⟨below, joined, hsettle, hlength, hbrackets, hlast⟩ :=
    Reckoner.exists_settle_eq_some least hoperands
  exact ⟨below, joined, hsettle, hlength, hbrackets.trans h.brackets, hlast⟩

/-- When all operators have taken their operands, a bracket is on top of the stack or nothing. -/
theorem exists_settle_zero (h : p.Follows before) (hexpects : p.expectsOperand = false) :
    (∃ joined, settle Forest.join? 0 p.waiting p.forest = some ([], joined) ∧
      joined.roots.length = 1 ∧ openBrackets before = []) ∨
    ∃ position below joined,
      settle Forest.join? 0 p.waiting p.forest = some (.bracket position :: below, joined) ∧
        joined.roots.length = operatorsWaiting below + 1 ∧
        openBrackets before = position :: below.filterMap Waiting.position? := by
  obtain ⟨below, joined, hsettle, hlength, hbrackets, hlast⟩ := h.exists_settle_eq_some hexpects 0
  match below with
  | [] => exact .inl ⟨joined, hsettle, hlength, hbrackets.symm⟩
  | .bracket position :: below =>
    exact .inr ⟨position, below, joined, hsettle, hlength, hbrackets.symm⟩
  | .operator op :: rest => exact absurd (hlast op rest rfl) (Nat.not_lt_zero _)

/-- A token of the right kind for its place is taken, unless it closes a bracket and none is
open. -/
theorem accept (h : p.Follows before) {x : Lexeme} {t : Token} (hitem : x.item = .token t)
    (hkind : t.startsOperand = p.expectsOperand) :
    if t = .closeBracket ∧ occurrences .closeBracket before = occurrences .openBracket before then
      p.accept t x.start = .error (.unbalancedBrackets x.start)
    else ∃ next, p.accept t x.start = .ok next ∧ next.Follows (before ++ [x]) := by
  have hoperands := h.operands
  have hbalanced := h.balanced
  cases t with
  | number v =>
    rw [if_neg (by simp)]
    rw [← hkind] at hoperands
    refine ⟨_, rfl, ?_⟩
    exact
      { expectsOperand := by rw [operandExpected_append, hitem]
        operands := congrArg (· + 1) hoperands
        brackets := by
          rw [openBrackets_append, openedAfter, hitem]
          exact h.brackets
        balanced := hbalanced.append hitem (fun hclose => by cases hclose) }
  | openBracket =>
    rw [if_neg (by simp)]
    refine ⟨_, rfl, ?_⟩
    exact
      { expectsOperand := by
          rw [operandExpected_append, hitem]
          exact hkind.symm
        operands := hoperands
        brackets := by
          rw [openBrackets_append, openedAfter, hitem]
          exact congrArg (x.start :: ·) h.brackets
        balanced := hbalanced.append hitem (fun hclose => by cases hclose) }
  | operator op =>
    rw [if_neg (by simp)]
    obtain ⟨below, joined, hsettle, hlength, hbrackets, -⟩ :=
      h.exists_settle_eq_some hkind.symm op.precedence
    refine ⟨⟨joined, .operator op :: below, true⟩, ?_, ?_⟩
    · simp only [Parser.accept, pushOperator_eq, hsettle]
    exact
      { expectsOperand := by rw [operandExpected_append, hitem]
        operands := hlength
        brackets := by
          rw [openBrackets_append, openedAfter, hitem]
          exact hbrackets
        balanced := hbalanced.append hitem (fun hclose => by cases hclose) }
  | closeBracket =>
    obtain ⟨joined, hsettle, -, hnone⟩ | ⟨position, below, joined, hsettle, hlength, hbrackets⟩ :=
      h.exists_settle_zero hkind.symm
    · have hcount := hbalanced
      rw [Balanced, hnone, List.length_nil, Nat.zero_add] at hcount
      rw [if_pos ⟨rfl, hcount⟩]
      simp only [Parser.accept, closeBracket_eq, hsettle]
    · have hcount := hbalanced
      rw [Balanced, hbrackets, List.length_cons] at hcount
      rw [if_neg (by omega)]
      refine ⟨⟨joined, below, p.expectsOperand⟩, ?_, ?_⟩
      · simp only [Parser.accept, closeBracket_eq, hsettle]
      exact
        { expectsOperand := by
            rw [operandExpected_append, hitem]
            exact hkind.symm
          operands := by
            rw [← hkind]
            exact hlength
          brackets := by
            rw [openBrackets_append, openedAfter, hitem, hbrackets]
            rfl
          balanced := by
            apply hbalanced.append hitem
            intro _
            rw [hbrackets]
            exact List.cons_ne_nil _ _ }

/-- The parser takes a lexeme or refuses it for its fault. -/
theorem step (h : p.Follows before) (x : Lexeme) :
    match fault? before x with
    | some e => p.step x = .error e
    | none => ∃ next, p.step x = .ok next ∧ next.Follows (before ++ [x]) := by
  unfold fault? Parser.step
  cases hitem : x.item with
  | bad snippet => rfl
  | token t =>
    dsimp only
    rw [← h.expectsOperand]
    by_cases hkind : t.startsOperand = p.expectsOperand
    · have haccept := h.accept hitem hkind
      rw [if_neg (not_not_intro hkind)]
      by_cases hunopened : t = .closeBracket ∧
          occurrences .closeBracket before = occurrences .openBracket before
      · rw [if_pos hunopened] at haccept ⊢
        rw [if_pos hkind]
        exact haccept
      · rw [if_neg hunopened] at haccept ⊢
        rw [if_pos hkind]
        exact haccept
    · rw [if_pos hkind, if_neg hkind]

/-- Lexemes are taken in turn up to the first one at fault. -/
theorem run (h : p.Follows before) (lexemes : List Lexeme) :
    match firstFault? before lexemes with
    | some e => p.run lexemes = .error e
    | none => ∃ last, p.run lexemes = .ok last ∧ last.Follows (before ++ lexemes) := by
  induction lexemes generalizing p before with
  | nil =>
    rw [List.append_nil]
    exact ⟨p, rfl, h⟩
  | cons x rest ih =>
    have hstep := h.step x
    rw [firstFault?, Parser.run]
    cases hfault : fault? before x with
    | some e =>
      rw [hfault] at hstep
      rw [hstep]
      rfl
    | none =>
      rw [hfault] at hstep
      obtain ⟨next, hnext, hfollows⟩ := hstep
      rw [hnext, Option.none_or]
      have hrest := ih hfollows
      rw [List.append_assoc, List.singleton_append] at hrest
      exact hrest

/-- At the end of a text, where an operator may come next, the latest bracket that is open is the
fault; if there is none, a tree has been read. -/
theorem finish (h : p.Follows before) (hexpects : p.expectsOperand = false) (stop : Nat) :
    match (openBrackets before).head? with
    | some position => p.finish stop = .error (.unbalancedBrackets position)
    | none => ∃ t, p.finish stop = .ok t := by
  unfold Parser.finish
  rw [closeAll_eq]
  obtain ⟨⟨arena, roots, owned⟩, hsettle, hlength, hnone⟩ |
    ⟨position, below, joined, hsettle, -, hbrackets⟩ := h.exists_settle_zero hexpects
  · rw [hnone, hsettle]
    match roots, owned, hlength with
    | [root], owned, _ => exact ⟨_, rfl⟩
  · rw [hbrackets, hsettle]
    rfl

end Follows

end Parser

/-- Lexemes without a fault are balanced, since a bracket that closes nothing is a fault. -/
theorem balanced_of_firstFault?_eq_none {lexemes : List Lexeme}
    (h : firstFault? [] lexemes = none) : Balanced lexemes := by
  have hrun := Parser.follows_start.run lexemes
  rw [h] at hrun
  obtain ⟨p, -, hfollows⟩ := hrun
  exact hfollows.balanced

/-! ## The error of a text -/

/-- A text is read, or refused with the error that its lexemes tell. -/
theorem parse_refusal? (text : List Char) :
    match refusal? text with
    | some e => parse text = .error e
    | none => ∃ t, parse text = .ok t := by
  have hrun := Parser.follows_start.run (Lexeme.scan text)
  unfold refusal? parse
  dsimp only
  cases hfault : firstFault? [] (Lexeme.scan text) with
  | some e =>
    rw [hfault] at hrun
    rw [hrun]
  | none =>
    rw [hfault] at hrun
    obtain ⟨p, hp, hfollows⟩ := hrun
    rw [List.nil_append] at hfollows
    rw [hp]
    dsimp only
    rw [hfollows.expectsOperand]
    by_cases hempty : Lexeme.scan text = []
    · rw [if_pos hempty, if_pos (List.isEmpty_iff.2 hempty)]
    · rw [if_neg hempty, if_neg (fun h => hempty (List.isEmpty_iff.1 h))]
      cases hexpects : operandExpected (Lexeme.scan text) with
      | true => rfl
      | false =>
        have hfinish := hfollows.finish (hfollows.expectsOperand.trans hexpects) (byteLength text)
        cases hopen : (openBrackets (Lexeme.scan text)).head? with
        | some position =>
          rw [hopen] at hfinish
          exact hfinish
        | none =>
          rw [hopen] at hfinish
          exact hfinish

/-- A text that should be refused is refused, with the error that it should have. -/
theorem parse_eq_error_of_refusal? {text : List Char} {e : ParseError}
    (h : refusal? text = some e) : parse text = .error e := by
  have hparse := parse_refusal? text
  rw [h] at hparse
  exact hparse

/-- A text is refused only with the error that it should have. -/
theorem refusal?_of_parse_eq_error {text : List Char} {e : ParseError}
    (h : parse text = .error e) : refusal? text = some e := by
  have hparse := parse_refusal? text
  cases hrefusal : refusal? text with
  | some other =>
    rw [hrefusal, h] at hparse
    exact congrArg some (Except.error.inj hparse).symm
  | none =>
    rw [hrefusal, h] at hparse
    obtain ⟨t, ht⟩ := hparse
    cases ht

/-- The lexemes that a parser has taken have no fault. -/
theorem Parser.follows_of_run_eq_ok {lexemes : List Lexeme} {p : Parser}
    (h : Parser.start.run lexemes = .ok p) : p.Follows lexemes := by
  have hrun := follows_start.run lexemes
  cases hfault : firstFault? [] lexemes with
  | some e =>
    rw [hfault, h] at hrun
    cases hrun
  | none =>
    rw [hfault] at hrun
    obtain ⟨last, hlast, hfollows⟩ := hrun
    rw [h] at hlast
    cases hlast
    exact hfollows

/-- The error of a text is that of its first lexeme at fault, which for a lexeme that is no token
shows what it spans; without such a lexeme, it is that of a text that ends too early.  There is no
other error: a parser that has got anywhere never lacks an operand for an operator that waits. -/
theorem parse_eq_error_iff_refusal (text : List Char) :
    (∀ e, parse text = .error e ↔ refusal? text = some e) ∧
    ((∃ t, parse text = .ok t) ↔ refusal? text = none) ∧
    (∀ x ∈ Lexeme.scan text, ∀ snippet, x.item = .bad snippet →
      ∃ front back, text = front ++ (snippet ++ back) ∧ x.start = byteLength front ∧
        x.stop = byteLength (front ++ snippet)) ∧
    ∀ lexemes p, Parser.start.run lexemes = .ok p → p.expectsOperand = false →
      (∀ position op, ∃ settled,
        Parser.pushOperator position op p.waiting p.forest = .ok settled) ∧
      (∀ position e, Parser.closeBracket position p.waiting p.forest = .error e →
        e = .unbalancedBrackets position) ∧
      ∀ stop e, p.finish stop = .error e → ∃ opened, e = .unbalancedBrackets opened := by
  have hparse := parse_refusal? text
  refine ⟨?_, ?_, ?_, ?_⟩
  · intro e
    constructor
    · exact refusal?_of_parse_eq_error
    · exact parse_eq_error_of_refusal?
  · cases hrefusal : refusal? text with
    | some other =>
      rw [hrefusal] at hparse
      simp only [hparse, reduceCtorEq, exists_false]
    | none =>
      rw [hrefusal] at hparse
      exact ⟨fun _ => rfl, fun _ => hparse⟩
  · intro x hx snippet hbad
    obtain ⟨before, after, hsplit⟩ := List.mem_iff_append.1 hx
    obtain ⟨front, piece, back, htext, hplaced⟩ := Lexeme.exists_placedAt hsplit
    have hsnippet := hplaced.written.eq_of_bad hbad
    rw [← hsnippet] at htext hplaced
    have hstart := hplaced.start_eq
    rw [Nat.zero_add] at hstart
    refine ⟨front, back, htext, hstart, ?_⟩
    rw [byteLength_append, ← hstart]
    exact hplaced.stop_eq
  · intro lexemes p hp hexpects
    have hfollows := Parser.follows_of_run_eq_ok hp
    refine ⟨?_, ?_, ?_⟩
    · intro position op
      obtain ⟨below, joined, hsettle, -⟩ :=
        hfollows.exists_settle_eq_some hexpects op.precedence
      rw [Parser.pushOperator_eq, hsettle]
      exact ⟨_, rfl⟩
    · intro position e he
      rw [Parser.closeBracket_eq] at he
      obtain ⟨_, hsettle, -⟩ | ⟨_, _, _, hsettle, -⟩ := hfollows.exists_settle_zero hexpects
      · rw [hsettle] at he
        exact (Except.error.inj he).symm
      · rw [hsettle] at he
        cases he
    · intro stop e he
      have hfinish := hfollows.finish hexpects stop
      cases hopen : (openBrackets lexemes).head? with
      | some opened =>
        rw [hopen] at hfinish
        exact ⟨opened, Except.error.inj (he.symm.trans hfinish)⟩
      | none =>
        rw [hopen] at hfinish
        obtain ⟨t, ht⟩ := hfinish
        rw [ht] at he
        cases he

/-- One text for each error, an expression, and a parser behind its first number. -/
theorem parse_eq_error_of_each_kind :
    parse "7 x".toList = .error (.invalidToken ['x'] 2) ∧
    parse "1 2".toList = .error (.malformedExpression 2) ∧
    parse "(1))+".toList = .error (.unbalancedBrackets 3) ∧
    parse " ".toList = .error .emptyExpression ∧
    parse "(1+".toList = .error (.malformedExpression 3) ∧
    parse "((1)".toList = .error (.unbalancedBrackets 0) ∧
    (∃ t, parse "(1)".toList = .ok t) ∧
    (∃ front back, "7 x".toList = front ++ (['x'] ++ back) ∧ 2 = byteLength front ∧
      3 = byteLength (front ++ ['x'])) ∧
    ∃ p settled, Parser.start.run [⟨.token (.number 1), 0, 1⟩] = .ok p ∧
      Parser.pushOperator 1 .add p.waiting p.forest = .ok settled := by
  have hrefused : ∀ text e, refusal? text = some e → parse text = .error e := by
    intro text e
    exact ((parse_eq_error_iff_refusal text).1 e).2
  obtain ⟨-, hread, -, hreached⟩ := parse_eq_error_iff_refusal "(1)".toList
  obtain ⟨-, -, hspan, -⟩ := parse_eq_error_iff_refusal "7 x".toList
  have hbad : (⟨.bad ['x'], 2, 3⟩ : Lexeme) ∈ Lexeme.scan "7 x".toList := by decide +kernel
  obtain ⟨⟨settled, hsettled⟩, -⟩ :=
    (hreached [⟨.token (.number 1), 0, 1⟩] _ rfl rfl).imp_left fun h => h 1 .add
  refine ⟨hrefused _ _ ?_, hrefused _ _ ?_, hrefused _ _ ?_, hrefused _ _ ?_, hrefused _ _ ?_,
    hrefused _ _ ?_, hread.2 ?_, hspan _ hbad _ rfl, ⟨_, settled, rfl, hsettled⟩⟩ <;>
    decide +kernel

end Reckoner
