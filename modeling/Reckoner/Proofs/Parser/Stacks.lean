import Reckoner.Proofs.Parser.Faults

/-!
# The two stacks of the parser

Between lexemes the two stacks keep in step.  There is an operand for every operator that waits,
and one more when no operand has to come next; and a bracket waits for every one that has been
opened and not closed.

The operators that wait between two brackets climb: each binds more tightly than the one below it.
A new operator waits only after all that bind at least as tightly have taken their operands, so it
is put on top of a looser one, of a bracket, or of nothing; and a closing bracket removes operators
from the top.  Since there are three precedences, no more than three operators wait at one level of
brackets.
-/

set_option autoImplicit false

namespace Reckoner

/-- Each operator that waits binds more tightly than the one below it, if no bracket is between. -/
inductive Climbs : List Waiting → Prop where
  | nil : Climbs []
  | bracket (position : Nat) {below : List Waiting} (h : Climbs below) :
      Climbs (.bracket position :: below)
  | operator {op : Operator} {below : List Waiting} (h : Climbs below)
      (hlooser : Looser op.precedence below) : Climbs (.operator op :: below)

/-- What waits below the latest entry climbs too. -/
theorem Climbs.tail {w : Waiting} {below : List Waiting} (h : Climbs (w :: below)) :
    Climbs below := by
  cases h with
  | bracket position h => exact h
  | operator h hlooser => exact h

/-- What waits further down climbs too. -/
theorem Climbs.of_append {above below : List Waiting} (h : Climbs (above ++ below)) :
    Climbs below := by
  induction above with
  | nil => exact h
  | cons w above ih => exact ih h.tail

/-- The precedence of the latest operator that waits, unless a bracket hides it. -/
def latestPrecedence : List Waiting → Nat
  | .operator op :: _ => op.precedence
  | _ => 0

/-- The precedence of an operator is positive, so 0 can stand for no operator. -/
theorem Operator.precedence_pos (op : Operator) : 0 < op.precedence := by cases op <;> decide

/-- There are three precedences. -/
theorem Operator.precedence_le (op : Operator) : op.precedence ≤ 3 := by cases op <;> decide

/-- An operator may wait on top of what binds less tightly. -/
theorem latestPrecedence_lt_of_looser {op : Operator} {waiting : List Waiting}
    (h : Looser op.precedence waiting) : latestPrecedence waiting < op.precedence := by
  match waiting, h with
  | .operator _ :: _, h => exact h
  | .bracket _ :: _, _ => exact op.precedence_pos
  | [], _ => exact op.precedence_pos

/-- What waits on top has one of the three precedences, or is no operator. -/
theorem latestPrecedence_le (waiting : List Waiting) : latestPrecedence waiting ≤ 3 := by
  match waiting with
  | .operator op :: _ => exact op.precedence_le
  | .bracket _ :: _ => exact Nat.zero_le 3
  | [] => exact Nat.zero_le 3

/-- Three operators at most wait for every bracket and in front of all, and no more behind the
latest bracket than the latest of them binds tightly. -/
theorem Climbs.operatorsWaiting_le {waiting : List Waiting} (h : Climbs waiting) :
    operatorsWaiting waiting ≤
      3 * (waiting.filterMap Waiting.position?).length + latestPrecedence waiting := by
  induction h with
  | nil => exact Nat.le_refl 0
  | @bracket position below h ih =>
    have hlatest := latestPrecedence_le below
    have hlength : ((Waiting.bracket position :: below).filterMap Waiting.position?).length =
        (below.filterMap Waiting.position?).length + 1 := rfl
    rw [operatorsWaiting, hlength]
    omega
  | @operator op below h hlooser ih =>
    have hlatest := latestPrecedence_lt_of_looser hlooser
    have hlength : (Waiting.operator op :: below).filterMap Waiting.position? =
        below.filterMap Waiting.position? := rfl
    rw [operatorsWaiting, hlength, latestPrecedence]
    omega

/-! ## Operators with no bracket between them -/

section

variable {stretch : List Operator} {below : List Waiting}

/-- There are no more of them than the latest binds tightly. -/
theorem Climbs.length_le (h : Climbs (stretch.map Waiting.operator ++ below)) :
    stretch.length ≤ latestPrecedence (stretch.map Waiting.operator ++ below) := by
  induction stretch with
  | nil => exact Nat.zero_le _
  | cons op stretch ih =>
    obtain - | - | ⟨hbelow, hlooser⟩ := h
    exact Nat.lt_of_le_of_lt (ih hbelow) (latestPrecedence_lt_of_looser hlooser)

/-- From the lowest to the latest they bind more and more tightly. -/
theorem Climbs.pairwise_precedence (h : Climbs (stretch.map Waiting.operator ++ below)) :
    (stretch.reverse.map Operator.precedence).Pairwise (· < ·) := by
  have hchain : (stretch.map Operator.precedence).IsChain (· > ·) := by
    induction stretch with
    | nil => exact .nil
    | cons op stretch ih =>
      obtain - | - | ⟨hbelow, hlooser⟩ := h
      cases stretch with
      | nil => exact .singleton _
      | cons next stretch => exact .cons_cons hlooser (ih hbelow)
  rw [List.map_reverse, List.pairwise_reverse]
  exact List.isChain_iff_pairwise.1 hchain

end

/-! ## What the parser keeps -/

/-- Operators that settle go from the top, and leave a looser one there, a bracket, or nothing. -/
theorem Climbs.settle {α : Type} {join? : α → Operator → Option α} {least : Nat}
    {waiting below : List Waiting} {operands joined : α} (h : Climbs waiting)
    (hsettle : settle join? least waiting operands = some (below, joined)) :
    Climbs below ∧ Looser least below :=
  ⟨settle_kept (R := fun waiting _ => Climbs waiting) (fun _ _ h => h.tail) hsettle h,
    looser_of_settle hsettle⟩

namespace Parser

/-- A token that is taken leaves operators that climb. -/
theorem Takes.climbs {p next : Parser} {t : Token} {position : Nat} (h : p.Takes position t next)
    (hp : Climbs p.waiting) : Climbs next.waiting := by
  cases h with
  | number v => exact hp
  | openBracket => exact .bracket position hp
  | operator hsettle =>
    obtain ⟨hbelow, hlooser⟩ := hp.settle hsettle
    exact .operator hbelow hlooser
  | closeBracket hsettle => exact (hp.settle hsettle).1.tail

/-- Lexemes that are taken in turn leave operators that climb. -/
theorem climbs_of_run {p last : Parser} {lexemes : List Lexeme} (h : p.run lexemes = .ok last)
    (hp : Climbs p.waiting) : Climbs last.waiting := by
  induction lexemes generalizing p with
  | nil =>
    cases h
    exact hp
  | cons lexeme rest ih =>
    obtain ⟨next, hnext, hrest⟩ := exists_step_of_run_cons h
    obtain ⟨t, -, -, htakes⟩ := exists_takes_of_step hnext
    exact ih hrest (htakes.climbs hp)

/-- Where the parser stands between two lexemes, after any number of them have been taken without a
fault: it has an operand for every operator that waits, and one more unless an operand has to come
next; a bracket waits for every one that was opened and not closed; and operators that wait with no
bracket between them bind more and more tightly from the lowest to the latest, so that there are
three of them at most. -/
theorem stacks_in_step (text : List Char) (n : Nat) {p : Parser}
    (h : start.run ((Lexeme.scan text).take n) = .ok p) :
    p.forest.roots.length = operatorsWaiting p.waiting + (if p.expectsOperand then 0 else 1) ∧
      (p.waiting.filterMap Waiting.position?).length +
          occurrences .closeBracket ((Lexeme.scan text).take n) =
        occurrences .openBracket ((Lexeme.scan text).take n) ∧
      (∀ (above : List Waiting) (stretch : List Operator) (below : List Waiting),
        p.waiting = above ++ (stretch.map Waiting.operator ++ below) →
        (stretch.reverse.map Operator.precedence).Pairwise (· < ·) ∧ stretch.length ≤ 3) ∧
      operatorsWaiting p.waiting ≤ 3 * ((p.waiting.filterMap Waiting.position?).length + 1) := by
  have hfollows := follows_of_run_eq_ok h
  have hbalanced := hfollows.balanced
  have hclimbs := climbs_of_run h .nil
  refine ⟨hfollows.operands, ?_, ?_, ?_⟩
  · rw [hfollows.brackets]
    exact hbalanced
  · intro above stretch below hwaiting
    rw [hwaiting] at hclimbs
    have hstretch := hclimbs.of_append
    exact ⟨hstretch.pairwise_precedence, Nat.le_trans hstretch.length_le (latestPrecedence_le _)⟩
  · have hall := hclimbs.operatorsWaiting_le
    have hlatest := latestPrecedence_le p.waiting
    omega

/-- With an operand missing behind the bracket, four operators wait: three of rising precedence in
front of the bracket, and one behind it. -/
theorem stacks_in_step_open_bracket :
    ∃ p, start.run ((Lexeme.scan "1^2+3*(4-".toList).take 9) = .ok p ∧
      p.waiting = [.operator .sub, .bracket 6, .operator .mul, .operator .add, .operator .xor] ∧
      p.forest.roots.length = 4 ∧
      ([.xor, .add, .mul].map Operator.precedence).Pairwise (· < ·) ∧
      occurrences .openBracket ((Lexeme.scan "1^2+3*(4-".toList).take 9) = 1 := by
  have hread : (start.run ((Lexeme.scan "1^2+3*(4-".toList).take 9)).toOption.map
      (fun p => (p.waiting, p.expectsOperand)) = some
        ([.operator .sub, .bracket 6, .operator .mul, .operator .add, .operator .xor], true) := by
    decide +kernel
  obtain ⟨p, hp, hpair⟩ := Option.map_eq_some_iff.1 hread
  obtain ⟨hwaiting, hexpects⟩ := Prod.mk.inj hpair
  have hrun := eq_ok_of_toOption_eq_some hp
  obtain ⟨hoperands, hbrackets, hstretch, -⟩ := stacks_in_step "1^2+3*(4-".toList 9 hrun
  rw [hwaiting, hexpects] at hoperands
  rw [hwaiting] at hbrackets
  obtain ⟨hrising, -⟩ := hstretch [.operator .sub, .bracket 6] [.mul, .add, .xor] [] hwaiting
  have hclosed : occurrences .closeBracket ((Lexeme.scan "1^2+3*(4-".toList).take 9) = 0 := by
    decide +kernel
  rw [hclosed] at hbrackets
  exact ⟨p, hrun, hwaiting, hoperands, hrising, hbrackets.symm⟩

end Parser

end Reckoner
