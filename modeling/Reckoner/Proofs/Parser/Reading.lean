import Mathlib.Data.List.Forall2
import Reckoner.Parser
import Reckoner.Proofs.Arena.Growth

/-!
# Reading with expressions for operands

What the parser does next depends on its stack of operators and on how many operands there
are, never on what the arena holds.  A `Reading` goes the same way with the expressions
themselves for operands.  Both are built on `settle`, which lets waiting operators take their
operands; the parser and the reading differ only in what joining two operands means.  The
operands of a parser denote the expressions of the reading as long as its ids are exact.
-/

set_option autoImplicit false

namespace Reckoner

/-- Lets waiting operators take their operands, latest first, down to an open bracket or to an
operator that binds less tightly than wanted. -/
def settle {α : Type} (join? : α → Operator → Option α) (least : Nat) :
    List Waiting → α → Option (List Waiting × α)
  | .operator held :: below, operands =>
    if least ≤ held.precedence then
      match join? operands held with
      | some joined => settle join? least below joined
      | none => none
    else some (.operator held :: below, operands)
  | waiting, operands => some (waiting, operands)

/-- What is kept by every operator that takes its operands is kept by settling. -/
theorem settle_kept {α : Type} {join? : α → Operator → Option α} {least : Nat}
    {R : List Waiting → α → Prop}
    (hjoin : ∀ {held : Operator} {below : List Waiting} {operands joined : α},
      least ≤ held.precedence → join? operands held = some joined →
        R (.operator held :: below) operands → R below joined)
    {waiting below : List Waiting} {operands joined : α}
    (hsettle : settle join? least waiting operands = some (below, joined))
    (h : R waiting operands) : R below joined := by
  induction waiting generalizing operands with
  | nil =>
    cases hsettle
    exact h
  | cons w rest ih =>
    cases w with
    | bracket opened =>
      cases hsettle
      exact h
    | operator held =>
      rw [settle] at hsettle
      split at hsettle
      · next hbinds =>
        split at hsettle
        · next next hnext => exact ih hsettle (hjoin hbinds hnext h)
        · cases hsettle
      · cases hsettle
        exact h

namespace Parser

/-- A new operator waits on top of those that bind less tightly. -/
theorem pushOperator_eq (position : Nat) (next : Operator) (waiting : List Waiting)
    (forest : Forest) :
    pushOperator position next waiting forest =
      match settle Forest.join? next.precedence waiting forest with
      | some (below, joined) => .ok (.operator next :: below, joined)
      | none => .error (.malformedExpression position) := by
  induction waiting generalizing forest with
  | nil => rfl
  | cons w below ih =>
    cases w with
    | bracket opened => rfl
    | operator held =>
      rw [pushOperator, settle]
      by_cases hbinds : next.precedence ≤ held.precedence
      · rw [if_pos hbinds, if_pos ((Operator.bindsBefore_iff held next).2 hbinds)]
        cases forest.join? held with
        | none => rfl
        | some joined => exact ih joined
      · rw [if_neg hbinds, if_neg (fun h => hbinds ((Operator.bindsBefore_iff held next).1 h))]

/-- Every operator behind the latest open bracket takes its operands. -/
theorem closeBracket_eq (position : Nat) (waiting : List Waiting) (forest : Forest) :
    closeBracket position waiting forest =
      match settle Forest.join? 0 waiting forest with
      | some (.bracket _ :: below, joined) => .ok (below, joined)
      | some _ => .error (.unbalancedBrackets position)
      | none => .error (.malformedExpression position) := by
  induction waiting generalizing forest with
  | nil => rfl
  | cons w below ih =>
    cases w with
    | bracket opened => rfl
    | operator held =>
      rw [closeBracket, settle, if_pos (Nat.zero_le _)]
      cases forest.join? held with
      | none => rfl
      | some joined => exact ih joined

/-- Every operator takes its operands, unless a bracket is open. -/
theorem closeAll_eq (position : Nat) (waiting : List Waiting) (forest : Forest) :
    closeAll position waiting forest =
      match settle Forest.join? 0 waiting forest with
      | some ([], joined) => .ok joined
      | some (.bracket opened :: _, _) => .error (.unbalancedBrackets opened)
      | _ => .error (.malformedExpression position) := by
  induction waiting generalizing forest with
  | nil => rfl
  | cons w below ih =>
    cases w with
    | bracket opened => rfl
    | operator held =>
      rw [closeAll, settle, if_pos (Nat.zero_le _)]
      cases forest.join? held with
      | none => rfl
      | some joined => exact ih joined

/-- What a parser becomes when it takes a token of the right kind for its place. -/
inductive Takes (p : Parser) (position : Nat) : Token → Parser → Prop where
  | number (v : Int64) :
      Takes p position (.number v) { p with forest := p.forest.leaf v, expectsOperand := false }
  | operator {op : Operator} {below : List Waiting} {joined : Forest}
      (settled : settle Forest.join? op.precedence p.waiting p.forest = some (below, joined)) :
      Takes p position (.operator op) ⟨joined, .operator op :: below, true⟩
  | openBracket : Takes p position .openBracket { p with waiting := .bracket position :: p.waiting }
  | closeBracket {opened : Nat} {below : List Waiting} {joined : Forest}
      (settled : settle Forest.join? 0 p.waiting p.forest =
        some (.bracket opened :: below, joined)) :
      Takes p position .closeBracket ⟨joined, below, p.expectsOperand⟩

/-- A token that is accepted makes of the parser what taking it should make of it. -/
theorem takes_of_accept {p next : Parser} {t : Token} {position : Nat}
    (h : p.accept t position = .ok next) : p.Takes position t next := by
  cases t with
  | number v =>
    cases h
    exact .number v
  | openBracket =>
    cases h
    exact .openBracket
  | operator op =>
    simp only [accept, pushOperator_eq] at h
    cases hsettle : settle Forest.join? op.precedence p.waiting p.forest with
    | none =>
      rw [hsettle] at h
      cases h
    | some settled =>
      rw [hsettle] at h
      cases h
      exact .operator hsettle
  | closeBracket =>
    simp only [accept, closeBracket_eq] at h
    cases hsettle : settle Forest.join? 0 p.waiting p.forest with
    | none =>
      rw [hsettle] at h
      cases h
    | some settled =>
      rw [hsettle] at h
      obtain ⟨_ | ⟨_ | opened, below⟩, joined⟩ := settled
      · cases h
      · cases h
      · cases h
        exact .closeBracket hsettle

/-- A lexeme that is taken is a token of the right kind for its place. -/
theorem exists_takes_of_step {p next : Parser} {lexeme : Lexeme} (h : p.step lexeme = .ok next) :
    ∃ t, lexeme.item = .token t ∧ t.startsOperand = p.expectsOperand ∧
      p.Takes lexeme.start t next := by
  unfold step at h
  split at h
  · cases h
  next t ht =>
  split at h
  · next hplace => exact ⟨t, ht, hplace, takes_of_accept h⟩
  · cases h

/-- Lexemes are taken in turn: the first one is, and the rest are from there on. -/
theorem exists_step_of_run_cons {p last : Parser} {lexeme : Lexeme} {rest : List Lexeme}
    (h : p.run (lexeme :: rest) = .ok last) :
    ∃ next, p.step lexeme = .ok next ∧ next.run rest = .ok last := by
  rw [run] at h
  split at h
  · next next hnext => exact ⟨next, hnext, h⟩
  · cases h

/-- A tree comes out at the end when settling leaves nothing to wait and one operand, which is the
root of the tree. -/
theorem exists_settle_of_finish {p : Parser} {stop : Nat} {t : Tree} (h : p.finish stop = .ok t) :
    ∃ owned, settle Forest.join? 0 p.waiting p.forest = some ([], ⟨t.arena, [t.root], owned⟩) := by
  unfold finish at h
  rw [closeAll_eq] at h
  cases hsettle : settle Forest.join? 0 p.waiting p.forest with
  | none =>
    rw [hsettle] at h
    cases h
  | some settled =>
    rw [hsettle] at h
    obtain ⟨below, ⟨arena, roots, owned⟩⟩ := settled
    match below, roots, owned, h with
    | [], [root], owned, h =>
      cases h
      exact ⟨owned, rfl⟩
    | [], [], _, h => cases h
    | [], _ :: _ :: _, _, h => cases h
    | .operator _ :: _, _, _, h => cases h
    | .bracket _ :: _, _, _, h => cases h

end Parser

/-- A text that is read has lexemes that are all taken, an operand behind the last operator, and a
tree at its end. -/
theorem exists_run_of_parse_eq_ok {text : List Char} {t : Tree} (h : parse text = .ok t) :
    ∃ p, Parser.start.run (Lexeme.scan text) = .ok p ∧ p.expectsOperand = false ∧
      p.finish (byteLength text) = .ok t := by
  unfold parse at h
  dsimp only at h
  split at h
  · cases h
  next p hp =>
  split at h
  · cases h
  split at h
  · cases h
  next hexpects => exact ⟨p, hp, Bool.eq_false_iff.2 hexpects, h⟩

/-- Joins the two latest expressions by an operator; there may be fewer than two. -/
def Expr.join? : List Expr → Operator → Option (List Expr)
  | r :: l :: rest, op => some (.binary op l r :: rest)
  | _, _ => none

/-- A reading under way, with the expressions read so far for operands. -/
structure Reading where
  waiting : List Waiting
  /-- Complete operands, latest first. -/
  operands : List Expr
  expectsOperand : Bool

namespace Reading

/-- Before the first lexeme. -/
def start : Reading := ⟨[], [], true⟩

/-- Takes a token of the right kind for its place. -/
def accept? (s : Reading) (t : Token) (position : Nat) : Option Reading :=
  match t with
  | .number v => some { s with operands := .leaf v :: s.operands, expectsOperand := false }
  | .operator op =>
    match settle Expr.join? op.precedence s.waiting s.operands with
    | some (below, joined) => some ⟨.operator op :: below, joined, true⟩
    | none => none
  | .openBracket => some { s with waiting := .bracket position :: s.waiting }
  | .closeBracket =>
    match settle Expr.join? 0 s.waiting s.operands with
    | some (.bracket _ :: below, joined) => some ⟨below, joined, s.expectsOperand⟩
    | _ => none

/-- Takes one lexeme. -/
def step? (s : Reading) (lexeme : Lexeme) : Option Reading :=
  match lexeme.item with
  | .bad _ => none
  | .token t => if t.startsOperand = s.expectsOperand then s.accept? t lexeme.start else none

/-- Takes lexemes in turn. -/
def run? (s : Reading) : List Lexeme → Option Reading
  | [] => some s
  | lexeme :: rest => (s.step? lexeme).bind fun next => next.run? rest

/-- The expression read when the text ends. -/
def finish? (s : Reading) : Option Expr :=
  if s.expectsOperand then none
  else
    match settle Expr.join? 0 s.waiting s.operands with
    | some ([], [e]) => some e
    | _ => none

end Reading

/-- The expression that lexemes read as. -/
def read? (lexemes : List Lexeme) : Option Expr :=
  (Reading.start.run? lexemes).bind Reading.finish?

/-! ## The parser shows the reading -/

/-- There are as many operands as expressions, and they denote them while ids are exact. -/
def Forest.Denotes (f : Forest) (es : List Expr) : Prop :=
  f.roots.length = es.length ∧ (f.arena.size ≤ 2 ^ 32 → List.Forall₂ f.arena.Denotes f.roots es)

namespace Forest

/-- No operands denote no expressions. -/
theorem denotes_empty : empty.Denotes [] := ⟨rfl, fun _ => .nil⟩

/-- A number that is added denotes itself, and the operands before it denote what they did. -/
theorem Denotes.leaf {f : Forest} {es : List Expr} (h : f.Denotes es) (v : Int64) :
    (f.leaf v).Denotes (.leaf v :: es) := by
  refine ⟨congrArg (· + 1) h.1, fun hsize => ?_⟩
  have hroom : f.arena.size < 2 ^ 32 := by
    have hsize : (f.arena.leaf v).size ≤ 2 ^ 32 := hsize
    rwa [Arena.size_leaf] at hsize
  refine .cons (Arena.denotes_leaf hroom v) ?_
  exact (h.2 (Nat.le_of_lt hroom)).imp fun _ _ hid => hid.push (.leaf v) trivial

/-- The parser can join two operands exactly when there are two expressions to join. -/
theorem Denotes.join? {f : Forest} {es : List Expr} (h : f.Denotes es) (op : Operator) :
    Option.Rel Denotes (f.join? op) (Expr.join? es op) := by
  obtain ⟨arena, roots, owned⟩ := f
  obtain ⟨hlength, hdenotes⟩ := h
  match roots, es, owned, hlength, hdenotes with
  | [], [], _, _, _ => exact .none
  | [_], [_], _, _, _ => exact .none
  | right :: left :: rest, r :: l :: es, owned, hlength, hdenotes =>
    refine .some ⟨congrArg (· - 1) hlength, fun hsize => ?_⟩
    have hleft : arena.Owns left := owned left (by simp)
    have hright : arena.Owns right := owned right (by simp)
    have hroom : arena.size < 2 ^ 32 := by
      have hsize : (arena.binary op left right hleft hright).size ≤ 2 ^ 32 := hsize
      rwa [Arena.size_binary] at hsize
    have hall := hdenotes (Nat.le_of_lt hroom)
    obtain ⟨hr, hall⟩ := List.forall₂_cons.1 hall
    obtain ⟨hl, hrest⟩ := List.forall₂_cons.1 hall
    refine .cons (Arena.denotes_binary hroom op hl hr hleft hright) ?_
    exact hrest.imp fun _ _ hid => hid.push (.binary op left right) ⟨hleft, hright⟩

end Forest

/-- Options that correspond are both empty or hold things that correspond. -/
theorem rel_cases {α β : Type} {R : α → β → Prop} {x : Option α} {y : Option β}
    (h : Option.Rel R x y) :
    (x = none ∧ y = none) ∨ ∃ a b, x = some a ∧ y = some b ∧ R a b := by
  cases h with
  | none => exact .inl ⟨rfl, rfl⟩
  | some hab => exact .inr ⟨_, _, rfl, rfl, hab⟩

/-- A result that is there is no failure. -/
theorem eq_ok_of_toOption_eq_some {ε α : Type} {x : Except ε α} {a : α}
    (h : x.toOption = some a) : x = .ok a := by
  cases x with
  | error e => cases h
  | ok b =>
    cases h
    rfl

/-- Settling goes the same way on operands that correspond. -/
theorem settle_rel {α β : Type} {R : α → β → Prop} {joinLeft : α → Operator → Option α}
    {joinRight : β → Operator → Option β}
    (hjoin : ∀ {a : α} {b : β}, R a b → ∀ op, Option.Rel R (joinLeft a op) (joinRight b op))
    (least : Nat) (waiting : List Waiting) {a : α} {b : β} (h : R a b) :
    Option.Rel (fun x y => x.1 = y.1 ∧ R x.2 y.2) (settle joinLeft least waiting a)
      (settle joinRight least waiting b) := by
  induction waiting generalizing a b with
  | nil => exact .some ⟨rfl, h⟩
  | cons w below ih =>
    cases w with
    | bracket opened => exact .some ⟨rfl, h⟩
    | operator held =>
      rw [settle, settle]
      split
      · obtain ⟨hleft, hright⟩ | ⟨_, _, hleft, hright, hjoined⟩ := rel_cases (hjoin h held)
        · rw [hleft, hright]
          exact .none
        · rw [hleft, hright]
          exact ih hjoined
      · exact .some ⟨rfl, h⟩

/-- The parser waits for the same as the reading, and its operands denote the expressions. -/
structure Parser.Shows (p : Parser) (s : Reading) : Prop where
  waiting : p.waiting = s.waiting
  expectsOperand : p.expectsOperand = s.expectsOperand
  forest : p.forest.Denotes s.operands

namespace Parser.Shows

/-- The parser and the reading start with nothing read. -/
theorem start : Parser.start.Shows Reading.start := ⟨rfl, rfl, Forest.denotes_empty⟩

variable {p : Parser} {s : Reading}

/-- Settling goes the same way in the parser and in the reading. -/
theorem settle (h : p.Shows s) (least : Nat) :
    Option.Rel (fun x y => x.1 = y.1 ∧ x.2.Denotes y.2)
      (settle Forest.join? least p.waiting p.forest)
      (settle Expr.join? least s.waiting s.operands) := by
  rw [h.waiting]
  exact settle_rel (fun hdenotes op => hdenotes.join? op) least s.waiting h.forest

/-- The parser and the reading accept the same tokens, and go on showing the same. -/
theorem accept (h : p.Shows s) (t : Token) (position : Nat) :
    Option.Rel Parser.Shows (p.accept t position).toOption (s.accept? t position) := by
  cases t with
  | number v => exact .some ⟨h.waiting, rfl, h.forest.leaf v⟩
  | openBracket => exact .some ⟨congrArg (_ :: ·) h.waiting, h.expectsOperand, h.forest⟩
  | operator op =>
    simp only [Parser.accept, Reading.accept?, pushOperator_eq]
    obtain ⟨hx, hy⟩ | ⟨_, _, hx, hy, hwaiting, hforest⟩ := rel_cases (h.settle op.precedence)
    · rw [hx, hy]
      exact .none
    · rw [hx, hy]
      exact .some ⟨congrArg (_ :: ·) hwaiting, rfl, hforest⟩
  | closeBracket =>
    simp only [Parser.accept, Reading.accept?, closeBracket_eq]
    obtain ⟨hx, hy⟩ | ⟨⟨below, forest⟩, ⟨_, operands⟩, hx, hy, rfl, hforest⟩ :=
      rel_cases (h.settle 0)
    · rw [hx, hy]
      exact .none
    · rw [hx, hy]
      obtain _ | ⟨w, rest⟩ := below
      · exact .none
      · cases w with
        | bracket opened => exact .some ⟨rfl, h.expectsOperand, hforest⟩
        | operator op => exact .none

/-- The parser and the reading take the same lexemes, and go on showing the same. -/
theorem step (h : p.Shows s) (lexeme : Lexeme) :
    Option.Rel Parser.Shows (p.step lexeme).toOption (s.step? lexeme) := by
  unfold Parser.step Reading.step?
  cases lexeme.item with
  | bad snippet => exact .none
  | token t =>
    dsimp only
    rw [h.expectsOperand]
    split
    · exact h.accept t lexeme.start
    · exact .none

/-- The parser and the reading take the same lexemes in turn, and go on showing the same. -/
theorem run (h : p.Shows s) (lexemes : List Lexeme) :
    Option.Rel Parser.Shows (p.run lexemes).toOption (s.run? lexemes) := by
  induction lexemes generalizing p s with
  | nil => exact .some h
  | cons lexeme rest ih =>
    have hstep := h.step lexeme
    rw [Parser.run, Reading.run?]
    cases hp : p.step lexeme with
    | error e =>
      rw [hp] at hstep
      obtain ⟨-, hs⟩ | ⟨_, _, hok, -⟩ := rel_cases hstep
      · rw [hs]
        exact .none
      · cases hok
    | ok next =>
      rw [hp] at hstep
      obtain ⟨hok, -⟩ | ⟨_, t, hok, hs, hnext⟩ := rel_cases hstep
      · cases hok
      · cases hok
        rw [hs]
        exact ih hnext

/-- The parser has a tree at the end exactly when the reading has an expression, and while ids are
exact the tree denotes it. -/
theorem finish (h : p.Shows s) (hexpects : s.expectsOperand = false) (stop : Nat) :
    Option.Rel (fun t e => t.arena.size ≤ 2 ^ 32 → t.toExpr = e) (p.finish stop).toOption
      s.finish? := by
  unfold Parser.finish Reading.finish?
  rw [closeAll_eq, if_neg (by rw [hexpects]; exact Bool.false_ne_true)]
  obtain ⟨hx, hy⟩ | ⟨⟨below, ⟨arena, roots, owned⟩⟩, ⟨_, operands⟩, hx, hy, rfl, hlength, hdenotes⟩ :=
    rel_cases (h.settle 0)
  · rw [hx, hy]
    exact .none
  · rw [hx, hy]
    match below with
    | .bracket opened :: rest => exact .none
    | .operator op :: rest => exact .none
    | [] =>
      match roots, operands, owned, hlength, hdenotes with
      | [], [], _, _, _ => exact .none
      | _ :: _ :: _, _ :: _ :: _, _, _, _ => exact .none
      | [root], [e], owned, _, hdenotes =>
        refine .some fun hsize => ?_
        obtain ⟨hroot, -⟩ := List.forall₂_cons.1 (hdenotes hsize)
        exact Tree.toExpr_eq_of_denotes hroot

end Parser.Shows

/-- A text is read exactly when its lexemes read as an expression, and its tree then denotes
that expression while ids are exact. -/
theorem parse_rel_read? (text : List Char) :
    Option.Rel (fun t e => t.arena.size ≤ 2 ^ 32 → t.toExpr = e) (parse text).toOption
      (read? (Lexeme.scan text)) := by
  unfold parse read?
  dsimp only
  have hrun := Parser.Shows.start.run (Lexeme.scan text)
  cases hp : Parser.start.run (Lexeme.scan text) with
  | error e =>
    rw [hp] at hrun
    obtain ⟨-, hs⟩ | ⟨_, _, hok, -⟩ := rel_cases hrun
    · rw [hs]
      exact .none
    · cases hok
  | ok p =>
    rw [hp] at hrun
    obtain ⟨hok, -⟩ | ⟨_, s, hok, hs, hshows⟩ := rel_cases hrun
    · cases hok
    cases hok
    rw [hs]
    dsimp only [Option.bind_some]
    by_cases hempty : (Lexeme.scan text).isEmpty = true
    · -- nothing has been read, so an operand is still missing
      rw [List.isEmpty_iff.1 hempty] at hs
      cases hs
      rw [if_pos hempty]
      exact .none
    · rw [if_neg hempty, hshows.expectsOperand]
      by_cases hmissing : s.expectsOperand = true
      · rw [if_pos hmissing, Reading.finish?, if_pos hmissing]
        exact .none
      · rw [if_neg hmissing]
        exact hshows.finish (Bool.eq_false_iff.2 hmissing) _

end Reckoner
