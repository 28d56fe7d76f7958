import Reckoner.Proofs.Tree.EvaluationLoop
import Reckoner.Proofs.Tree.Printer

/-!
# The loops over a tree end

The walk, the interpreter and the writer are loops, each with a stack of what is still to be done.
A turn takes the first entry off; a node whose operands come first is put back as several smaller
entries.  So what the stack costs goes down with every turn, and what the loop will have produced in
the end stays the same: the positions, or the text, that the stack stands for, behind those that are
there.

Ids need not be exact for this.  An id never refers to a later position than that of its own node,
so operands lie at earlier positions in every arena, and an expression is denoted whatever its size.
-/

set_option autoImplicit false

namespace Reckoner

/-! ## Turns of a loop -/

/-- A loop comes to its end after so many turns. -/
inductive Halts {σ : Type} (turn : σ → Option σ) : σ → Nat → σ → Prop
  | stop {s : σ} (h : turn s = none) : Halts turn s 0 s
  | turn {s next last : σ} {n : Nat} (h : turn s = some next) (rest : Halts turn next n last) :
      Halts turn s (n + 1) last

namespace Halts

variable {σ : Type} {turn : σ → Option σ} {s last : σ} {n : Nat}

/-- A loop that has ended has no turn left. -/
theorem turn_eq_none (h : Halts turn s n last) : turn last = none := by
  induction h with
  | stop h => exact h
  | turn h rest ih => exact ih

/-- A loop whose turns lower a cost ends within that cost, with what the turns keep. -/
theorem exists_of_cost {α : Type} (cost : σ → Nat) (result : σ → α)
    (h : ∀ s next, turn s = some next → cost next < cost s ∧ result next = result s) (s : σ) :
    ∃ n last, n ≤ cost s ∧ Halts turn s n last ∧ result last = result s := by
  induction hcost : cost s using Nat.strongRecOn generalizing s with
  | ind bound ih =>
    cases hturn : turn s with
    | none => exact ⟨0, s, Nat.zero_le _, .stop hturn, rfl⟩
    | some next =>
      obtain ⟨hless, hsame⟩ := h s next hturn
      obtain ⟨n, last, hn, hrest, hlast⟩ := ih (cost next) (hcost ▸ hless) next rfl
      exact ⟨n + 1, last, by omega, .turn hturn hrest, hlast.trans hsame⟩

end Halts

/-! ## The walk -/

/-- The loop of a walk between two turns. -/
structure Walk (a : Arena) where
  stack : List (Pending a.size)
  /-- The positions handed out so far. -/
  seen : List (Fin a.size)

namespace Walk

variable {a : Arena}

/-- The loop before its first turn. -/
def start (root : Fin a.size) : Walk a := ⟨[⟨root, false⟩], []⟩

/-- Takes the first entry off the stack and hands out its node, or puts it back beneath its
operands. -/
def turn (w : Walk a) : Option (Walk a) :=
  match w.stack with
  | [] => none
  | ⟨i, true⟩ :: rest => some ⟨rest, w.seen ++ [i]⟩
  | ⟨i, false⟩ :: rest =>
    match a.view i with
    | .leaf _ => some ⟨rest, w.seen ++ [i]⟩
    | .binary _ l r _ _ => some ⟨⟨l, false⟩ :: ⟨r, false⟩ :: ⟨i, true⟩ :: rest, w.seen⟩

/-- The positions that the walk will have handed out in the end. -/
def result (w : Walk a) : List (Fin a.size) := w.seen ++ Cursor.positions w.stack

open Cursor in
/-- A turn of the walk lowers what its stack costs, and keeps what it will have handed out. -/
theorem turn_lowers {w next : Walk a} (h : w.turn = some next) :
    remaining a next.stack < remaining a w.stack ∧ next.result = w.result := by
  obtain ⟨stack, seen⟩ := w
  match stack, h with
  | ⟨i, true⟩ :: rest, h =>
    cases h
    exact ⟨remaining_lt_cons _ rest, by simp [result, positions]⟩
  | ⟨i, false⟩ :: rest, h =>
    cases hview : a.view i with
    | leaf v =>
      simp only [turn, hview, Option.some.injEq] at h
      subst h
      refine ⟨remaining_lt_cons _ rest, ?_⟩
      simp [result, positions, Arena.postOrderAt_of_view_leaf hview]
    | binary op l r hl hr =>
      simp only [turn, hview, Option.some.injEq] at h
      subst h
      obtain ⟨hlower, hsame⟩ := opened_lowers hview rest
      exact ⟨hlower, congrArg (seen ++ ·) hsame⟩

/-- The walk ends only when its stack is empty. -/
theorem stack_eq_nil_of_turn_eq_none {w : Walk a} (h : w.turn = none) : w.stack = [] := by
  obtain ⟨stack, seen⟩ := w
  match stack, h with
  | [], _ => rfl
  | ⟨i, true⟩ :: rest, h => cases h
  | ⟨i, false⟩ :: rest, h =>
    cases hview : a.view i with
    | leaf v => simp [turn, hview] at h
    | binary op l r hl hr => simp [turn, hview] at h

end Walk

/-! ## The writer -/

/-- The loop of the writer between two turns. -/
structure Writing (a : Arena) where
  pieces : List (Piece a.size)
  /-- What has been written so far. -/
  text : Array Char

namespace Writing

variable {a : Arena}

/-- The loop before its first turn. -/
def start (root : Fin a.size) : Writing a := ⟨[.node root none], #[]⟩

/-- Takes the first piece and writes it, or puts back the pieces of an operator. -/
def turn (w : Writing a) : Option (Writing a) :=
  match w.pieces with
  | [] => none
  | .char c :: rest => some ⟨rest, w.text.push c⟩
  | .node i context :: rest =>
    match a.view i with
    | .leaf v => some ⟨rest, w.text.appendList (Decimal.ofInt64 v)⟩
    | .binary op l r _ _ =>
      if op.bracketed context then
        some ⟨.node l (some (op, .left)) :: .char op.symbol :: .node r (some (op, .right))
          :: .char ')' :: rest, w.text.push '('⟩
      else
        some ⟨.node l (some (op, .left)) :: .char op.symbol :: .node r (some (op, .right)) :: rest,
          w.text⟩

/-- The text that will have been written in the end. -/
def result (w : Writing a) : List Char := w.text.toList ++ w.pieces.flatMap (Piece.text a)

open Piece in
/-- A turn of the writer lowers what its pieces cost, and keeps the text that it will have
written. -/
theorem turn_lowers {w next : Writing a} (h : w.turn = some next) :
    remaining a next.pieces < remaining a w.pieces ∧ next.result = w.result := by
  obtain ⟨pieces, written⟩ := w
  match pieces, h with
  | .char c :: rest, h =>
    cases h
    constructor
    · simp [remaining, cost]
    · simp [result, Piece.text]
  | .node i context :: rest, h =>
    cases hview : a.view i with
    | leaf v =>
      simp only [turn, hview, Option.some.injEq] at h
      subst h
      have hcost := cost_pos a (.node i context)
      constructor
      · simp only [remaining]
        omega
      · simp [result, Piece.text, Arena.exprAt_of_view_leaf hview, Expr.renderIn]
    | binary op l r hl hr =>
      by_cases hbracketed : op.bracketed context = true
      · simp only [turn, hview, hbracketed, if_true, Option.some.injEq] at h
        subst h
        constructor
        · simp only [remaining, cost, Arena.exprAt_of_view_binary hview, Expr.size]
          omega
        · simp [result, Piece.text, Arena.exprAt_of_view_binary hview, Expr.renderIn, hbracketed]
      · simp only [turn, hview, hbracketed, Bool.false_eq_true, if_false, Option.some.injEq] at h
        subst h
        constructor
        · simp only [remaining, cost, Arena.exprAt_of_view_binary hview, Expr.size]
          omega
        · simp [result, Piece.text, Arena.exprAt_of_view_binary hview, Expr.renderIn, hbracketed]

/-- The writer ends only when no piece is left. -/
theorem pieces_eq_nil_of_turn_eq_none {w : Writing a} (h : w.turn = none) : w.pieces = [] := by
  obtain ⟨pieces, written⟩ := w
  match pieces, h with
  | [], _ => rfl
  | .char c :: rest, h => cases h
  | .node i context :: rest, h =>
    cases hview : a.view i with
    | leaf v => simp [turn, hview] at h
    | binary op l r hl hr =>
      by_cases hbracketed : op.bracketed context = true
      · simp [turn, hview, hbracketed] at h
      · simp [turn, hview, hbracketed] at h

end Writing

/-! ## All three -/

namespace Tree

/-- The loops over a tree end, within a number of turns that its expression bounds, and with the
results of the tree. -/
structure LoopsEnd (t : Tree) : Prop where
  walk : ∃ n last, n ≤ 2 * t.toExpr.size ∧
    Halts Walk.turn (Walk.start t.rootIndex) n last ∧ last.seen = t.postOrder
  interpreter : ∃ n last, n ≤ 2 * t.toExpr.size ∧
    t.Reaches (Vector.replicate t.arena.size 0) n last ∧
    (last.step = .ok none ∧ t.interpret = .ok (last.values.get t.rootIndex) ∨
      ∃ e, last.step = .error e ∧ t.interpret = .error e)
  writer : ∃ n last, n ≤ 4 * t.toExpr.size ∧
    Halts Writing.turn (Writing.start t.rootIndex) n last ∧ last.text.toList = t.render

/-- All three loops over a tree end, with the results that its expression has. -/
theorem loopsEnd (t : Tree) : t.LoopsEnd where
  walk := by
    obtain ⟨n, last, hn, hhalts, hresult⟩ := Halts.exists_of_cost
      (fun w : Walk t.arena => Cursor.remaining t.arena w.stack) Walk.result
      (fun _ _ h => Walk.turn_lowers h) (Walk.start t.rootIndex)
    refine ⟨n, last, hn, hhalts, ?_⟩
    have hlast := Walk.stack_eq_nil_of_turn_eq_none hhalts.turn_eq_none
    simp only [Walk.result, hlast, Walk.start, Cursor.positions, List.append_nil,
      List.nil_append] at hresult
    rw [hresult, t.postOrder_eq]
  interpreter := by
    have hstart : t.Reaches (Vector.replicate t.arena.size 0) 0
        (Evaluation.start t.rootIndex (Vector.replicate t.arena.size 0)) := .start
    obtain ⟨n, last, hlast, hend⟩ := hstart.exists_run
    refine ⟨n, last, Nat.le_trans (Nat.le_add_right _ _) hlast.le_two_mul_size, hlast, ?_⟩
    rw [t.interpret_eq, ← map_get_run_start t (Vector.replicate t.arena.size 0)]
    rcases hend with ⟨hnone, hrun⟩ | ⟨e, herror, hrun⟩
    · rw [hrun]
      exact .inl ⟨hnone, rfl⟩
    · rw [hrun]
      exact .inr ⟨e, herror, rfl⟩
  writer := by
    obtain ⟨n, last, hn, hhalts, hresult⟩ := Halts.exists_of_cost
      (fun w : Writing t.arena => Piece.remaining t.arena w.pieces) Writing.result
      (fun _ _ h => Writing.turn_lowers h) (Writing.start t.rootIndex)
    refine ⟨n, last, hn, hhalts, ?_⟩
    have hlast := Writing.pieces_eq_nil_of_turn_eq_none hhalts.turn_eq_none
    simp only [Writing.result, hlast, Writing.start, List.flatMap_nil, List.append_nil,
      List.flatMap_singleton, List.nil_append] at hresult
    rw [hresult, t.render_eq]
    rfl

end Tree

end Reckoner
