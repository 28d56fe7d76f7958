import Reckoner.Grammar
import Reckoner.Proofs.Parser.Reading

/-!
# What is read is what the grammar derives

That every derivation is read goes by induction on the derivation: the tokens of a level,
read on top of operators that bind less tightly, leave one operand more once the operators
of that level have taken theirs.  That nothing else is read goes by induction on the tokens.
`Awaits` keeps, for every operator that waits, a derivation of the operand to its left, so
whatever takes its operands has a derivation again.

The reading is a function of the tokens, so a sequence of tokens derives one expression only.
-/

set_option autoImplicit false

namespace Reckoner

/-- How tightly the operators of a level bind; factors, which have none, bind most tightly. -/
def Level.precedence : Level → Nat
  | expression => 1
  | sum => 2
  | product => 3
  | factor => 4

/-- The latest operator that waits, unless a bracket hides it, binds less tightly than a
precedence. -/
def Looser (precedence : Nat) : List Waiting → Prop
  | .operator held :: _ => held.precedence < precedence
  | _ => True

/-- What binds less tightly than a precedence binds less tightly than every greater one. -/
theorem Looser.mono {least most : Nat} {waiting : List Waiting} (h : Looser least waiting)
    (hle : least ≤ most) : Looser most waiting := by
  match waiting, h with
  | .operator held :: _, h => exact Nat.lt_of_lt_of_le h hle
  | .bracket _ :: _, _ => trivial
  | [], _ => trivial

/-- Every operator binds less tightly than a factor. -/
theorem looser_factor (waiting : List Waiting) : Looser Level.factor.precedence waiting := by
  match waiting with
  | .operator held :: _ =>
    change held.precedence < 4
    cases held <;> decide
  | .bracket _ :: _ => trivial
  | [] => trivial

section

variable {α : Type} {join? : α → Operator → Option α}

/-- Operators that bind less tightly than wanted stay. -/
theorem settle_of_looser {least : Nat} {waiting : List Waiting} (h : Looser least waiting)
    (operands : α) : settle join? least waiting operands = some (waiting, operands) := by
  match waiting, h with
  | .operator held :: _, h => exact if_neg (Nat.not_le.2 h)
  | .bracket _ :: _, _ => rfl
  | [], _ => rfl

/-- What is left when operators have settled binds less tightly than wanted. -/
theorem looser_of_settle {least : Nat} {waiting below : List Waiting} {operands joined : α}
    (h : settle join? least waiting operands = some (below, joined)) : Looser least below := by
  induction waiting generalizing operands with
  | nil =>
    cases h
    trivial
  | cons w rest ih =>
    cases w with
    | bracket opened =>
      cases h
      trivial
    | operator held =>
      rw [settle] at h
      split at h
      · split at h
        · exact ih h
        · cases h
      · next hbinds =>
        cases h
        exact Nat.lt_of_not_le hbinds

/-- Operators may settle in two rounds, those that bind more tightly in the first. -/
theorem settle_settle {least most : Nat} (hle : least ≤ most) {waiting below : List Waiting}
    {operands joined : α} (h : settle join? most waiting operands = some (below, joined)) :
    settle join? least waiting operands = settle join? least below joined := by
  induction waiting generalizing operands with
  | nil => cases h; rfl
  | cons w rest ih =>
    cases w with
    | bracket opened => cases h; rfl
    | operator held =>
      rw [settle] at h
      by_cases hmost : most ≤ held.precedence
      · rw [if_pos hmost] at h
        rw [settle, if_pos (Nat.le_trans hle hmost)]
        cases hjoin : join? operands held with
        | none =>
          rw [hjoin] at h
          cases h
        | some next =>
          rw [hjoin] at h
          exact ih h
      · rw [if_neg hmost] at h
        cases h
        rfl

end

namespace Level

/-- Each level binds tighter than the level before by one. -/
theorem precedence_tighter {level : Level} (h : level ≠ .factor) :
    level.tighter.precedence = level.precedence + 1 := by
  cases level with
  | factor => exact absurd rfl h
  | _ => rfl

/-- The operators of a level are those of one precedence. -/
theorem mem_operators_iff {op : Operator} {level : Level} :
    op ∈ level.operators ↔ op.precedence = level.precedence := by
  cases op <;> cases level <;> decide

/-- No operator is chained at the level of factors. -/
theorem ne_factor_of_mem_operators {op : Operator} {level : Level} (h : op ∈ level.operators) :
    level ≠ .factor := by
  rintro rfl
  cases h

/-- Every operator is chained at some level. -/
theorem exists_mem_operators (op : Operator) : ∃ level : Level, op ∈ level.operators := by
  cases op with
  | xor => exact ⟨.expression, by decide⟩
  | add | sub => exact ⟨.sum, by decide⟩
  | mul | div => exact ⟨.product, by decide⟩

/-- Expressions bind least of all levels. -/
theorem one_le_precedence (level : Level) : 1 ≤ level.precedence := by cases level <;> decide

/-- Factors bind most tightly of all levels. -/
theorem precedence_le (level : Level) : level.precedence ≤ Level.factor.precedence := by
  cases level <;> decide

end Level

/-- What reads at a level reads at every looser one. -/
theorem Derives.of_precedence_le {tight loose : Level} {tokens : List Token} {e : Expr}
    (h : Derives tight tokens e) (hle : loose.precedence ≤ tight.precedence) :
    Derives loose tokens e := by
  obtain ⟨n, hn⟩ := Nat.exists_eq_add_of_le hle
  induction n generalizing loose with
  | zero =>
    have heq : tight = loose := by
      cases tight <;> cases loose <;> first | rfl | cases hn
    exact heq ▸ h
  | succ n ih =>
    have hloose : loose ≠ .factor := by
      rintro rfl
      have := tight.precedence_le
      omega
    have hnext := Level.precedence_tighter hloose
    exact .descend hloose (ih (by omega) (by omega))

/-! ## Every derivation is read -/

namespace Reading

/-- Lexemes behind others are read from where those end. -/
theorem run?_append (s : Reading) (xs ys : List Lexeme) :
    s.run? (xs ++ ys) = (s.run? xs).bind fun next => next.run? ys := by
  induction xs generalizing s with
  | nil => rfl
  | cons x xs ih =>
    rw [List.cons_append, run?, run?]
    cases s.step? x with
    | none => rfl
    | some next => exact ih next

/-- A token of the right kind for its place is accepted or refused by the stacks alone. -/
theorem step?_of_item_eq {s : Reading} {lexeme : Lexeme} {t : Token}
    (hitem : lexeme.item = .token t) (hplace : t.startsOperand = s.expectsOperand) :
    s.step? lexeme = s.accept? t lexeme.start := by
  unfold step?
  rw [hitem]
  exact if_pos hplace

/-- One lexeme is read by one step. -/
theorem run?_singleton (s : Reading) (lexeme : Lexeme) : s.run? [lexeme] = s.step? lexeme := by
  rw [run?]
  cases s.step? lexeme <;> rfl

end Reading

/-- Lexemes are read as the grammar derives them, on top of anything that binds less tightly. -/
theorem Derives.exists_run?_eq_some {level : Level} {tokens : List Token} {e : Expr}
    (h : Derives level tokens e) {s : Reading} {lexemes : List Lexeme}
    (hitems : lexemes.map Lexeme.item = tokens.map Item.token) (hexpects : s.expectsOperand = true)
    (hlooser : Looser level.precedence s.waiting) :
    ∃ last, s.run? lexemes = some last ∧ last.expectsOperand = false ∧
      settle Expr.join? level.precedence last.waiting last.operands =
        some (s.waiting, e :: s.operands) := by
  induction h generalizing s lexemes with
  | number v =>
    obtain ⟨lexeme, rest, rfl, hitem, hrest⟩ := List.map_eq_cons_iff.1 hitems
    rw [List.map_eq_nil_iff.1 hrest, Reading.run?_singleton,
      Reading.step?_of_item_eq hitem hexpects.symm]
    exact ⟨_, rfl, rfl, settle_of_looser hlooser _⟩
  | @bracketed tokens e inner ih =>
    rw [List.cons_append, List.map_cons, List.map_append] at hitems
    obtain ⟨opening, rest, rfl, hopening, hrest⟩ := List.map_eq_cons_iff.1 hitems
    obtain ⟨between, closing, rfl, hbetween, hclosing⟩ := List.map_eq_append_iff.1 hrest
    obtain ⟨closing, rest, rfl, hitem, hnil⟩ := List.map_eq_cons_iff.1 hclosing
    rw [List.map_eq_nil_iff.1 hnil]
    let opened : Reading := { s with waiting := .bracket opening.start :: s.waiting }
    obtain ⟨last, hrun, hlast, hsettle⟩ :=
      ih (s := opened) hbetween hexpects trivial
    -- with everything back to the bracket settled, the bracket can go
    have hbracket : Looser 0 opened.waiting := trivial
    have hclose : settle Expr.join? 0 last.waiting last.operands =
        some (opened.waiting, e :: s.operands) :=
      (settle_settle (Nat.zero_le _) hsettle).trans (settle_of_looser hbracket _)
    have hopen : s.step? opening = some opened :=
      Reading.step?_of_item_eq hopening hexpects.symm
    refine ⟨⟨s.waiting, e :: s.operands, false⟩, ?_, rfl, settle_of_looser hlooser _⟩
    rw [Reading.run?, hopen, Option.bind_some, Reading.run?_append, hrun, Option.bind_some,
      Reading.run?_singleton, Reading.step?_of_item_eq hitem hlast.symm]
    simp only [Reading.accept?, hclose, hlast, opened]
  | @descend level tokens e loose inner ih =>
    have hnext := Level.precedence_tighter loose
    obtain ⟨last, hrun, hlast, hsettle⟩ := ih hitems hexpects (hlooser.mono (by omega))
    refine ⟨last, hrun, hlast, ?_⟩
    rw [settle_settle (by omega) hsettle, settle_of_looser hlooser]
  | @chain level op left right l r chained hl hr ihl ihr =>
    have hprecedence := Level.mem_operators_iff.1 chained
    rw [List.map_append] at hitems
    obtain ⟨before, rest, rfl, hbefore, hrest⟩ := List.map_eq_append_iff.1 hitems
    obtain ⟨sign, after, rfl, hsign, hafter⟩ := List.map_eq_cons_iff.1 hrest
    obtain ⟨mid, hmid, hmidExpects, hmidSettle⟩ := ihl hbefore hexpects hlooser
    -- the operator settles what chains at its level, and waits for its right operand
    let next : Reading := ⟨.operator op :: s.waiting, l :: s.operands, true⟩
    have hnext : mid.step? sign = some next := by
      rw [Reading.step?_of_item_eq hsign hmidExpects.symm]
      simp only [Reading.accept?, hprecedence, hmidSettle]
      rfl
    have htighter := Level.precedence_tighter (Level.ne_factor_of_mem_operators chained)
    have hwaits : Looser level.tighter.precedence next.waiting := by
      change op.precedence < _
      omega
    obtain ⟨last, hrun, hlast, hsettle⟩ := ihr hafter rfl hwaits
    refine ⟨last, ?_, hlast, ?_⟩
    · rw [Reading.run?_append, hmid, Option.bind_some, Reading.run?, hnext, Option.bind_some, hrun]
    · rw [settle_settle (by omega) hsettle]
      change (if level.precedence ≤ op.precedence then _ else _) = _
      rw [if_pos (by omega)]
      exact settle_of_looser hlooser _

/-! ## Nothing else is read -/

/-- The tokens in front of an operand that is still missing, with what waits and the operands so
far.  Each operator that waits has a derivation of its left operand at the level that it
chains, and binds more tightly than what waits below it. -/
inductive Awaits : List Token → List Waiting → List Expr → Prop where
  | nil : Awaits [] [] []
  | bracket {tokens : List Token} {waiting : List Waiting} {operands : List Expr} (position : Nat)
      (h : Awaits tokens waiting operands) :
      Awaits (tokens ++ [.openBracket]) (.bracket position :: waiting) operands
  | operator {tokens left : List Token} {waiting : List Waiting} {operands : List Expr}
      {level : Level} {op : Operator} {l : Expr} (h : Awaits tokens waiting operands)
      (chained : op ∈ level.operators) (hlooser : Looser level.precedence waiting)
      (hl : Derives level left l) :
      Awaits (tokens ++ (left ++ [.operator op])) (.operator op :: waiting) (l :: operands)

/-- The tokens up to an operand that is complete and has a derivation at a level that is tighter
than what waits, and at least as tight as a precedence. -/
inductive Complete (least : Nat) : List Token → List Waiting → List Expr → Prop where
  | intro {before left : List Token} {waiting : List Waiting} {operands : List Expr} {e : Expr}
      {level : Level} (h : Awaits before waiting operands) (he : Derives level left e)
      (hlooser : Looser level.precedence waiting) (hleast : least ≤ level.precedence) :
      Complete least (before ++ left) waiting (e :: operands)

/-- An operand that is complete for a precedence is complete for every lower one. -/
theorem Complete.mono {least most : Nat} {tokens : List Token} {waiting : List Waiting}
    {operands : List Expr} (h : Complete most tokens waiting operands) (hle : least ≤ most) :
    Complete least tokens waiting operands := by
  obtain ⟨hawaits, he, hlooser, hmost⟩ := h
  exact ⟨hawaits, he, hlooser, Nat.le_trans hle hmost⟩

/-- An operator that takes its operands finds two, and leaves an operand that is complete. -/
theorem Complete.join {least : Nat} {tokens : List Token} {waiting : List Waiting}
    {operands : List Expr} {held : Operator}
    (h : Complete least tokens (.operator held :: waiting) operands)
    (hbinds : least ≤ held.precedence) :
    ∃ e below, Expr.join? operands held = some (e :: below) ∧
      Complete least tokens waiting (e :: below) := by
  obtain @⟨before, right, _, _, r, level, hawaits, hr, hheld, -⟩ := h
  obtain _ | _ | @⟨tokens, left, _, below, chain, _, l, hawaits, chained, hlooser, hl⟩ := hawaits
  have htighter := Level.precedence_tighter (Level.ne_factor_of_mem_operators chained)
  have hprecedence := Level.mem_operators_iff.1 chained
  have hbelow : held.precedence < level.precedence := hheld
  have hright : Derives chain.tighter right r := hr.of_precedence_le (by omega)
  refine ⟨.binary held l r, below, rfl, ?_⟩
  rw [List.append_assoc, List.append_assoc]
  exact .intro hawaits (.chain chained hl hright) hlooser (hprecedence ▸ hbinds)

/-- Operators that take their operands leave an operand that is complete. -/
theorem Complete.settle {least : Nat} {tokens : List Token} {waiting below : List Waiting}
    {operands joined : List Expr} (h : Complete least tokens waiting operands)
    (hsettle : settle Expr.join? least waiting operands = some (below, joined)) :
    Complete least tokens below joined ∧ Looser least below := by
  refine ⟨settle_kept (R := Complete least tokens) ?_ hsettle h, looser_of_settle hsettle⟩
  intro held below operands joined hbinds hjoin hcomplete
  obtain ⟨e, under, hsome, hjoined⟩ := hcomplete.join hbinds
  cases hsome.symm.trans hjoin
  exact hjoined

/-- What a reading has read: an operand is missing, or a factor has just been completed. -/
def Reading.Reads (s : Reading) (tokens : List Token) : Prop :=
  if s.expectsOperand then Awaits tokens s.waiting s.operands
  else Complete Level.factor.precedence tokens s.waiting s.operands

namespace Reading

/-- At the start nothing has been read. -/
theorem reads_start : start.Reads [] := .nil

/-- Every lexeme that is taken is a token, and the derivations are kept. -/
theorem Reads.step? {s next : Reading} {tokens : List Token} (h : s.Reads tokens) {lexeme : Lexeme}
    (hstep : s.step? lexeme = some next) :
    ∃ t, lexeme.item = .token t ∧ next.Reads (tokens ++ [t]) := by
  obtain ⟨waiting, operands, expects⟩ := s
  unfold Reading.step? at hstep
  split at hstep
  · cases hstep
  next t ht =>
  refine ⟨t, ht, ?_⟩
  split at hstep
  case isFalse => cases hstep
  next hplace =>
  cases t with
  | number v =>
    cases hplace
    cases hstep
    exact ⟨h, .number v, looser_factor waiting, Nat.le_refl _⟩
  | openBracket =>
    cases hplace
    cases hstep
    exact .bracket _ h
  | operator op =>
    cases hplace
    have hcomplete : Complete Level.factor.precedence tokens waiting operands := h
    simp only [accept?] at hstep
    split at hstep
    case h_2 => cases hstep
    next below joined hsettle =>
    cases hstep
    obtain ⟨level, hmem⟩ := Level.exists_mem_operators op
    have hlevel := Level.mem_operators_iff.1 hmem
    obtain ⟨hleft, hlooser⟩ :=
      (hcomplete.mono (hlevel ▸ level.precedence_le)).settle hsettle
    obtain ⟨hawaits, he, -, hleast⟩ := hleft
    rw [List.append_assoc]
    exact .operator hawaits hmem (hlevel ▸ hlooser) (he.of_precedence_le (hlevel ▸ hleast))
  | closeBracket =>
    cases hplace
    have hcomplete : Complete Level.factor.precedence tokens waiting operands := h
    simp only [accept?] at hstep
    split at hstep
    case h_2 => cases hstep
    next opened below joined hsettle =>
    cases hstep
    obtain ⟨hinner, -⟩ := (hcomplete.mono (Nat.zero_le _)).settle hsettle
    obtain ⟨hawaits, he, -, -⟩ := hinner
    obtain _ | ⟨-, hbelow⟩ := hawaits
    have hexpression : Derives .expression _ _ := he.of_precedence_le (Level.one_le_precedence _)
    have hfactor := Complete.intro hbelow (.bracketed hexpression) (looser_factor below)
      (Nat.le_refl _)
    rw [List.append_assoc, List.append_assoc]
    exact hfactor

/-- All lexemes that are taken are tokens, and the derivations are kept through the whole run. -/
theorem Reads.run? {s last : Reading} {tokens : List Token} (h : s.Reads tokens)
    {lexemes : List Lexeme} (hrun : s.run? lexemes = some last) :
    ∃ more, lexemes.map Lexeme.item = more.map Item.token ∧ last.Reads (tokens ++ more) := by
  induction lexemes generalizing s tokens with
  | nil =>
    cases hrun
    exact ⟨[], rfl, (List.append_nil tokens).symm ▸ h⟩
  | cons lexeme rest ih =>
    rw [Reading.run?] at hrun
    obtain ⟨next, hstep, hrest⟩ := Option.bind_eq_some_iff.1 hrun
    obtain ⟨t, ht, hnext⟩ := h.step? hstep
    obtain ⟨more, hmore, hlast⟩ := ih hnext hrest
    refine ⟨t :: more, ?_, ?_⟩
    · rw [List.map_cons, List.map_cons, ht, hmore]
    · rwa [List.append_assoc] at hlast

/-- What is left when everything has settled is derived from all tokens. -/
theorem Reads.finish? {s : Reading} {tokens : List Token} (h : s.Reads tokens) {e : Expr}
    (hfinish : s.finish? = some e) : Derives .expression tokens e := by
  obtain ⟨waiting, operands, expects⟩ := s
  unfold Reading.finish? at hfinish
  split at hfinish
  · cases hfinish
  next hexpects =>
  cases Bool.eq_false_iff.2 hexpects
  have hcomplete : Complete Level.factor.precedence tokens waiting operands := h
  dsimp only at hfinish
  split at hfinish
  case h_2 => cases hfinish
  next e' hsettle =>
  cases hfinish
  obtain ⟨hall, -⟩ := (hcomplete.mono (Nat.zero_le _)).settle hsettle
  obtain ⟨hawaits, he, -, -⟩ := hall
  cases hawaits
  exact he.of_precedence_le (Level.one_le_precedence _)

end Reading

/-! ## The parser and the grammar -/

/-- Lexemes read as an expression exactly when they are tokens from which it is derived. -/
theorem read?_eq_some_iff (lexemes : List Lexeme) (e : Expr) :
    read? lexemes = some e ↔
      ∃ tokens, lexemes.map Lexeme.item = tokens.map Item.token ∧
        Derives .expression tokens e := by
  unfold read?
  constructor
  · intro h
    obtain ⟨last, hrun, hfinish⟩ := Option.bind_eq_some_iff.1 h
    obtain ⟨tokens, htokens, hlast⟩ := Reading.reads_start.run? hrun
    exact ⟨tokens, htokens, hlast.finish? hfinish⟩
  · rintro ⟨tokens, htokens, he⟩
    obtain ⟨last, hrun, hlast, hsettle⟩ :=
      he.exists_run?_eq_some (s := Reading.start) htokens rfl trivial
    have hfinal : settle Expr.join? 0 last.waiting last.operands = some ([], [e]) :=
      (settle_settle (Nat.zero_le _) hsettle).trans rfl
    rw [hrun, Option.bind_some, Reading.finish?, hlast, if_neg Bool.false_ne_true, hfinal]

/-- The grammar is unambiguous. -/
theorem Derives.unique {tokens : List Token} {x y : Expr} (hx : Derives .expression tokens x)
    (hy : Derives .expression tokens y) : x = y := by
  let lexemes : List Lexeme := tokens.map fun t => ⟨.token t, 0, 0⟩
  have hitems : lexemes.map Lexeme.item = tokens.map Item.token := List.map_map ..
  have hreadx := (read?_eq_some_iff lexemes x).2 ⟨tokens, hitems, hx⟩
  have hready := (read?_eq_some_iff lexemes y).2 ⟨tokens, hitems, hy⟩
  rw [hreadx] at hready
  exact Option.some.inj hready

/-- A text is read exactly when it has no bad lexeme and its tokens derive an expression.  They
derive no other, and it is what the tree denotes while ids are exact. -/
theorem parse_eq_ok_iff_derives (text : List Char) :
    ((∃ t, parse text = .ok t) ↔
      ∃ tokens e, (Lexeme.scan text).map Lexeme.item = tokens.map Item.token ∧
        Derives .expression tokens e) ∧
      ∀ t, parse text = .ok t →
        ∃ tokens e, (Lexeme.scan text).map Lexeme.item = tokens.map Item.token ∧
          (∀ x, Derives .expression tokens x ↔ x = e) ∧
          (t.arena.size ≤ 2 ^ 32 → t.toExpr = e) := by
  have hrel := parse_rel_read? text
  have hread : ∀ t, parse text = .ok t →
      ∃ e, read? (Lexeme.scan text) = some e ∧ (t.arena.size ≤ 2 ^ 32 → t.toExpr = e) := by
    intro t ht
    rw [ht] at hrel
    obtain ⟨hok, -⟩ | ⟨_, e, hok, he, hdenotes⟩ := rel_cases hrel
    · cases hok
    · cases hok
      exact ⟨e, he, hdenotes⟩
  refine ⟨⟨?_, ?_⟩, ?_⟩
  · rintro ⟨t, ht⟩
    obtain ⟨e, he, -⟩ := hread t ht
    obtain ⟨tokens, htokens, hderives⟩ := (read?_eq_some_iff _ e).1 he
    exact ⟨tokens, e, htokens, hderives⟩
  · rintro ⟨tokens, e, htokens, hderives⟩
    have he := (read?_eq_some_iff _ e).2 ⟨tokens, htokens, hderives⟩
    rw [he] at hrel
    cases ht : parse text with
    | ok t => exact ⟨t, rfl⟩
    | error err =>
      rw [ht] at hrel
      cases hrel
  · intro t ht
    obtain ⟨e, he, hdenotes⟩ := hread t ht
    obtain ⟨tokens, htokens, hderives⟩ := (read?_eq_some_iff _ e).1 he
    refine ⟨tokens, e, htokens, fun x => ⟨fun hx => hx.unique hderives, ?_⟩, hdenotes⟩
    rintro rfl
    exact hderives

/-- A chain of differences groups from the left. -/
theorem parse_one_minus_two_minus_three :
    ∃ t, parse ['1', '-', '2', '-', '3'] = .ok t ∧
      t.toExpr = .binary .sub (.binary .sub (.leaf 1) (.leaf 2)) (.leaf 3) := by
  have hnumber : ∀ (v : Int64), Derives .product [.number v] (.leaf v) := by
    intro v
    exact .descend (by decide) (.number v)
  have hleft : Derives .sum ([.number 1] ++ .operator .sub :: [.number 2])
      (.binary .sub (.leaf 1) (.leaf 2)) :=
    .chain (by decide) (.descend (by decide) (hnumber 1)) (hnumber 2)
  have hderives : Derives .expression
      ([.number 1, .operator .sub, .number 2] ++ .operator .sub :: [.number 3])
      (.binary .sub (.binary .sub (.leaf 1) (.leaf 2)) (.leaf 3)) :=
    .descend (by decide) (.chain (by decide) hleft (hnumber 3))
  have hscan : (Lexeme.scan ['1', '-', '2', '-', '3']).map Lexeme.item =
      [Token.number 1, .operator .sub, .number 2, .operator .sub, .number 3].map Item.token := by
    decide +kernel
  obtain ⟨hiff, hall⟩ := parse_eq_ok_iff_derives ['1', '-', '2', '-', '3']
  obtain ⟨t, ht⟩ := hiff.2 ⟨_, _, hscan, hderives⟩
  obtain ⟨tokens, e, htokens, hunique, hdenotes⟩ := hall t ht
  have hsame : tokens = _ :=
    (List.map_inj_right fun _ _ h => Item.token.inj h).1 (htokens.symm.trans hscan)
  have hsize : t.arena.size = 5 := by
    have hnodes : (parse ['1', '-', '2', '-', '3']).toOption.map (fun t => t.arena.size) =
        some 5 := by decide +kernel
    rw [ht] at hnodes
    exact Option.some.inj hnodes
  rw [hsame] at hunique
  exact ⟨t, ht, (hdenotes (by omega)).trans ((hunique _).1 hderives).symm⟩

end Reckoner
