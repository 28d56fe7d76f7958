import Mathlib.Algebra.Order.Ring.Nat
import Reckoner.Arena.Builder
import Reckoner.Proofs.Tree.Interpreter

/-!
# The loop of the interpreter

The interpreter is a loop with a stack of nodes and one value for each position, zero at first.  A
leaf that comes off the stack is evaluated at once.  An operator is put back beneath its operands,
and evaluated from their values when it comes off again.  `Evaluation` is the loop between two
steps; `Tree.interpret` visits the same nodes in the same order, so both come to the same end.

Zero is a value like any other, so nothing in the loop would tell a value that has not been
computed yet.  That none is ever read is an invariant of the stack: when everything above an
opened node has been taken off, its operands have been computed (`Evaluation.Ready`).

What the loop returns is the meaning of the expression in the integers, wrapped to 64 bits at every
operator.
-/

set_option autoImplicit false

namespace Reckoner

/-! ## Integers -/

/-- The integer in the range of 64-bit signed integers that differs by a multiple of `2 ^ 64`. -/
def wrap (n : Int) : Int := n.bmod (2 ^ 64)

/-- The value of an operator on integers.  A quotient is truncated toward zero, a zero divisor gives
no value, and `^` is applied to the bits in two's complement. -/
def Operator.onInt? (op : Operator) (x y : Int) : Option Int :=
  match op with
  | .add => some (x + y)
  | .sub => some (x - y)
  | .mul => some (x * y)
  | .div => if y = 0 then none else some (x.tdiv y)
  | .xor => some (BitVec.ofInt 64 x ^^^ BitVec.ofInt 64 y).toInt

/-- The meaning of an expression, unless it divides by zero. -/
def Expr.meaning? : Expr → Option Int
  | leaf v => some v.toInt
  | binary op l r => do
    let x ← l.meaning?
    let y ← r.meaning?
    (op.onInt? x y).map wrap

/-- An operator on 64-bit signed integers is the operator on integers, wrapped. -/
theorem Operator.map_toInt_apply (op : Operator) (l r : Int64) :
    (op.apply l r).toOption.map Int64.toInt = (op.onInt? l.toInt r.toInt).map wrap := by
  have hzero : r = 0 ↔ r.toInt = 0 := Int64.toInt_inj.symm
  cases op with
  | add => exact congrArg some (Int64.toInt_add l r)
  | sub => exact congrArg some (Int64.toInt_sub l r)
  | mul => exact congrArg some (Int64.toInt_mul l r)
  | div =>
    unfold apply onInt?
    dsimp only
    by_cases h : r = 0
    · rw [if_pos h, if_pos (hzero.1 h)]
      rfl
    · rw [if_neg h, if_neg fun h' => h (hzero.2 h')]
      exact congrArg some (Int64.toInt_div l r)
  | xor =>
    have hl : BitVec.ofInt 64 l.toInt = l.toBitVec := BitVec.ofInt_toInt
    have hr : BitVec.ofInt 64 r.toInt = r.toBitVec := BitVec.ofInt_toInt
    unfold onInt?
    rw [hl, hr]
    exact congrArg some (Int64.toInt_bmod (l ^^^ r)).symm

/-- The value of an expression in 64 bits is its meaning in the integers. -/
theorem Expr.map_toInt_eval (e : Expr) : e.eval.toOption.map Int64.toInt = e.meaning? := by
  induction e with
  | leaf v => rfl
  | binary op l r ihl ihr =>
    rw [eval_binary, meaning?, ← ihl, ← ihr]
    cases l.eval with
    | error e => rfl
    | ok x =>
      cases r.eval with
      | error e => rfl
      | ok y => exact op.map_toInt_apply x y

/-- An expression has a value exactly when this is its meaning. -/
theorem Expr.eval_eq_ok_iff (e : Expr) (v : Int64) :
    e.eval = .ok v ↔ e.meaning? = some v.toInt := by
  rw [← e.map_toInt_eval]
  cases e.eval with
  | error d => exact iff_of_false nofun nofun
  | ok w =>
    refine ⟨fun h => ?_, fun h => ?_⟩
    · cases h
      rfl
    · exact congrArg Except.ok (Int64.toInt_inj.1 (Option.some.inj h))

/-- An expression divides by zero exactly when it has no meaning. -/
theorem Expr.eval_eq_error_iff (e : Expr) :
    e.eval = .error .divisionByZero ↔ e.meaning? = none := by
  rw [← e.map_toInt_eval]
  cases e.eval with
  | error d => exact iff_of_true (by cases d; rfl) rfl
  | ok w => exact iff_of_false nofun nofun

/-- An expression has no value exactly when an operand has none, or it divides by zero. -/
theorem Expr.meaning?_binary_eq_none_iff (op : Operator) (l r : Expr) :
    (binary op l r).meaning? = none ↔
      l.meaning? = none ∨ r.meaning? = none ∨ op = .div ∧ r.meaning? = some 0 := by
  rw [meaning?]
  cases l.meaning? with
  | none => simp
  | some x =>
    cases r.meaning? with
    | none => simp
    | some y => cases op <;> simp [Operator.onInt?]

/-- The least integer divided by `-1` is itself. -/
example : (Operator.div.onInt? (-2 ^ 63) (-1)).map wrap = some (-2 ^ 63) ∧
    (Operator.div.onInt? (-7) 2).map wrap = some (-3) := by decide

/-! ## The loop -/

/-- The loop of the interpreter between two steps. -/
structure Evaluation (a : Arena) where
  /-- The nodes that wait, next one first. -/
  stack : List (Pending a.size)
  /-- One value for each position. -/
  values : Vector Int64 a.size
  /-- The positions whose values have been computed, latest first. -/
  computed : List (Fin a.size)

namespace Evaluation

variable {a : Arena}

/-- The loop before its first step. -/
def start (root : Fin a.size) (initial : Vector Int64 a.size) : Evaluation a :=
  ⟨[⟨root, false⟩], initial, []⟩

/-- Takes the first node off the stack.  There is no next step when the stack is empty. -/
def step (s : Evaluation a) : Except EvaluationError (Option (Evaluation a)) :=
  match s.stack with
  | [] => .ok none
  | ⟨i, opened⟩ :: rest =>
    match a.view i, opened with
    | .binary _ l r _ _, false =>
      .ok (some { s with stack := ⟨l, false⟩ :: ⟨r, false⟩ :: ⟨i, true⟩ :: rest })
    | _, _ =>
      match a.evaluateNode s.values i with
      | .ok values => .ok (some ⟨rest, values, i :: s.computed⟩)
      | .error e => .error e

/-- A node is evaluated when it comes off the stack, if it has been opened or is a leaf. -/
def Due (p : Pending a.size) : Prop := p.opened = true ∨ ∃ v, a.view p.node = .leaf v

/-- A node that is due comes off the stack and is evaluated. -/
theorem step_of_due {s : Evaluation a} {p : Pending a.size} {rest : List (Pending a.size)}
    (hstack : s.stack = p :: rest) (hdue : Due p) :
    s.step = (a.evaluateNode s.values p.node).map
      fun values => some ⟨rest, values, p.node :: s.computed⟩ := by
  obtain ⟨i, opened⟩ := p
  unfold step
  rw [hstack]
  dsimp only
  split
  · next op l r hl hr hview =>
    obtain ⟨v, hv⟩ := hdue.resolve_left Bool.false_ne_true
    rw [hv] at hview
    cases hview
  · cases a.evaluateNode s.values i <;> rfl

/-- A node that is not due is an operator, which is put back beneath its operands. -/
theorem step_of_not_due {s : Evaluation a} {p : Pending a.size} {rest : List (Pending a.size)}
    (hstack : s.stack = p :: rest) (hdue : ¬Due p) :
    ∃ op l r hl hr, a.view p.node = .binary op l r hl hr ∧ p.opened = false ∧
      s.step = .ok (some
        { s with stack := ⟨l, false⟩ :: ⟨r, false⟩ :: ⟨p.node, true⟩ :: rest }) := by
  obtain ⟨i, opened⟩ := p
  cases hview : a.view i with
  | leaf v => exact absurd (.inr ⟨v, hview⟩) hdue
  | binary op l r hl hr =>
    cases opened with
    | true => exact absurd (.inl rfl) hdue
    | false =>
      refine ⟨op, l, r, hl, hr, rfl, rfl, ?_⟩
      unfold step
      rw [hstack]
      dsimp only
      rw [hview]

/-- The loop ends when no node waits. -/
theorem stack_eq_nil_of_step {s : Evaluation a} (h : s.step = .ok none) : s.stack = [] := by
  cases hstack : s.stack with
  | nil => rfl
  | cons p rest =>
    by_cases hdue : Due p
    · rw [step_of_due hstack hdue] at h
      cases hvalues : a.evaluateNode s.values p.node <;> (rw [hvalues] at h; cases h)
    · obtain ⟨op, l, r, hl, hr, -, -, hstep⟩ := step_of_not_due hstack hdue
      rw [hstep] at h
      cases h

/-- The loop goes on by opening an operator, or by evaluating a node. -/
theorem step_eq_some {s next : Evaluation a} (h : s.step = .ok (some next)) :
    (∃ i op l r hl hr rest, s.stack = ⟨i, false⟩ :: rest ∧ a.view i = .binary op l r hl hr ∧
      next = { s with stack := ⟨l, false⟩ :: ⟨r, false⟩ :: ⟨i, true⟩ :: rest }) ∨
    ∃ p rest values, s.stack = p :: rest ∧ Due p ∧ a.evaluateNode s.values p.node = .ok values ∧
      next = ⟨rest, values, p.node :: s.computed⟩ := by
  cases hstack : s.stack with
  | nil =>
    rw [step, hstack] at h
    cases h
  | cons p rest =>
    by_cases hdue : Due p
    · rw [step_of_due hstack hdue] at h
      cases hvalues : a.evaluateNode s.values p.node with
      | error e =>
        rw [hvalues] at h
        cases h
      | ok values =>
        rw [hvalues] at h
        cases h
        exact .inr ⟨p, rest, values, rfl, hdue, hvalues, rfl⟩
    · obtain ⟨op, l, r, hl, hr, hview, hopened, hstep⟩ := step_of_not_due hstack hdue
      rw [hstep] at h
      cases h
      refine .inl ⟨p.node, op, l, r, hl, hr, rest, ?_, hview, rfl⟩
      rw [← hopened]

/-- The loop fails when a node cannot be evaluated. -/
theorem step_eq_error {s : Evaluation a} {e : EvaluationError} (h : s.step = .error e) :
    ∃ p rest, s.stack = p :: rest ∧ Due p ∧ a.evaluateNode s.values p.node = .error e := by
  cases hstack : s.stack with
  | nil =>
    rw [step, hstack] at h
    cases h
  | cons p rest =>
    by_cases hdue : Due p
    · rw [step_of_due hstack hdue] at h
      cases hvalues : a.evaluateNode s.values p.node with
      | ok values =>
        rw [hvalues] at h
        cases h
      | error d =>
        rw [hvalues] at h
        cases h
        exact ⟨p, rest, rfl, hdue, hvalues⟩
    · obtain ⟨op, l, r, hl, hr, -, -, hstep⟩ := step_of_not_due hstack hdue
      rw [hstep] at h
      cases h

/-! ## It evaluates the nodes in post-order -/

open Cursor in
/-- Every step leaves less to do. -/
theorem remaining_lt_of_step {s next : Evaluation a} (h : s.step = .ok (some next)) :
    remaining a next.stack < remaining a s.stack := by
  obtain ⟨i, op, l, r, hl, hr, rest, hstack, hview, rfl⟩ | ⟨p, rest, values, hstack, -, -, rfl⟩ :=
    step_eq_some h
  · rw [hstack]
    exact (opened_lowers hview rest).1
  · rw [hstack]
    exact remaining_lt_cons p rest

/-- Takes steps until none is left. -/
def run (s : Evaluation a) : Except EvaluationError (Evaluation a) :=
  match _hstep : s.step with
  | .ok (some next) => next.run
  | .ok none => .ok s
  | .error e => .error e
termination_by Cursor.remaining a s.stack
decreasing_by exact remaining_lt_of_step _hstep

/-- A node that is due stands for itself alone. -/
theorem positions_of_due {p : Pending a.size} (h : Due p) (rest : List (Pending a.size)) :
    Cursor.positions (p :: rest) = p.node :: Cursor.positions rest := by
  obtain ⟨i, opened⟩ := p
  cases opened with
  | true => rfl
  | false =>
    obtain ⟨v, hv⟩ := h.resolve_left Bool.false_ne_true
    rw [Cursor.positions, Arena.postOrderAt_of_view_leaf hv]
    rfl

/-- The loop evaluates the positions that its stack stands for, in order. -/
theorem map_values_run (s : Evaluation a) :
    s.run.map values = a.evaluateNodes s.values (Cursor.positions s.stack) := by
  fun_induction run s with
  | case1 s next hnext ih =>
    rw [ih]
    obtain ⟨i, op, l, r, hl, hr, rest, hstack, hview, rfl⟩ |
      ⟨p, rest, values, hstack, hdue, hvalues, rfl⟩ := step_eq_some hnext
    · rw [hstack, (Cursor.opened_lowers hview rest).2]
    · rw [hstack, positions_of_due hdue, Arena.evaluateNodes, hvalues]
  | case2 s hnone =>
    rw [stack_eq_nil_of_step hnone]
    rfl
  | case3 s e herror =>
    obtain ⟨p, rest, hstack, hdue, hfailed⟩ := step_eq_error herror
    rw [hstack, positions_of_due hdue, Arena.evaluateNodes, hfailed]
    rfl

/-! ## No value is read too early -/

/-- The positions of the operands of a node. -/
def operandsAt (a : Arena) (i : Fin a.size) : List (Fin a.size) :=
  match a.view i with
  | .leaf _ => []
  | .binary _ l r _ _ => [l, r]

/-- A node whose operands have their values gets its own. -/
theorem evaluateNode_eq {values : Vector Int64 a.size} {i : Fin a.size}
    (h : ∀ j ∈ operandsAt a i, (a.exprAt j).eval = .ok (values.get j)) :
    a.evaluateNode values i =
      (a.exprAt i).eval.map fun v => values.set i.val v (a.val_lt_size i) := by
  unfold operandsAt at h
  unfold Arena.evaluateNode
  cases hview : a.view i with
  | leaf v =>
    rw [Arena.exprAt_of_view_leaf hview]
    rfl
  | binary op l r hl hr =>
    rw [hview] at h
    rw [Arena.exprAt_of_view_binary hview, Expr.eval_binary, h l List.mem_cons_self,
      h r (List.mem_cons_of_mem l List.mem_cons_self)]
    dsimp only
    cases op.apply (values.get l) (values.get r) <;> rfl

/-- The positions whose values the next step reads.  With no node left to visit, it is the value of
the root that is read. -/
def reads (root : Fin a.size) (s : Evaluation a) : List (Fin a.size) :=
  match s.stack with
  | [] => [root]
  | p :: _ => if p.opened then operandsAt a p.node else []

/-- Every opened node of the stack finds its operands among the positions computed before and the
nodes above it, and at the end the root has been computed. -/
def Ready (root : Fin a.size) (computed : List (Fin a.size)) : List (Pending a.size) → Prop
  | [] => root ∈ computed
  | p :: rest =>
    (p.opened = true → ∀ j ∈ operandsAt a p.node, j ∈ computed) ∧
      Ready root (p.node :: computed) rest

/-- What is ready stays ready when more has been computed. -/
theorem Ready.mono {root : Fin a.size} {stack : List (Pending a.size)}
    {computed more : List (Fin a.size)} (h : Ready root computed stack) (hsub : computed ⊆ more) :
    Ready root more stack := by
  induction stack generalizing computed more with
  | nil => exact hsub h
  | cons p rest ih =>
    exact ⟨fun hopened j hj => hsub (h.1 hopened j hj), ih h.2 (List.cons_subset_cons _ hsub)⟩

/-- What holds between any two steps. -/
structure Sound (root : Fin a.size) (s : Evaluation a) : Prop where
  ready : Ready root s.computed s.stack
  correct : ∀ j ∈ s.computed, (a.exprAt j).eval = .ok (s.values.get j)

/-- The loop starts out sound: nothing has been computed, and the root is all that waits. -/
theorem sound_start (root : Fin a.size) (initial : Vector Int64 a.size) :
    Sound root (start root initial) where
  ready := ⟨fun h => absurd h Bool.false_ne_true, List.mem_cons_self⟩
  correct := fun _ hj => absurd hj List.not_mem_nil

/-- What a step is about to read has been computed. -/
theorem Sound.mem_computed {root : Fin a.size} {s : Evaluation a} (h : Sound root s)
    {j : Fin a.size} (hj : j ∈ s.reads root) : j ∈ s.computed := by
  have hready := h.ready
  unfold reads at hj
  cases hstack : s.stack with
  | nil =>
    rw [hstack] at hj hready
    rw [List.mem_singleton.1 hj]
    exact hready
  | cons p rest =>
    rw [hstack] at hj hready
    dsimp only at hj
    split at hj
    · next hopened => exact hready.1 hopened j hj
    · exact absurd hj List.not_mem_nil

/-- A node that is due finds the values of its operands. -/
theorem Sound.evaluateNode_eq {root : Fin a.size} {s : Evaluation a} (h : Sound root s)
    {p : Pending a.size} {rest : List (Pending a.size)} (hstack : s.stack = p :: rest)
    (hdue : Due p) : a.evaluateNode s.values p.node =
      (a.exprAt p.node).eval.map fun v => s.values.set p.node.val v (a.val_lt_size p.node) := by
  refine Evaluation.evaluateNode_eq fun j hj => h.correct j ?_
  have hready := h.ready
  rw [hstack] at hready
  rcases hdue with hopened | ⟨v, hv⟩
  · exact hready.1 hopened j hj
  · rw [operandsAt, hv] at hj
    exact absurd hj List.not_mem_nil

/-- A step keeps the loop sound. -/
theorem Sound.step {root : Fin a.size} {s next : Evaluation a} (h : Sound root s)
    (hstep : s.step = .ok (some next)) : Sound root next := by
  have hready := h.ready
  obtain ⟨i, op, l, r, hl, hr, rest, hstack, hview, rfl⟩ |
    ⟨p, rest, values, hstack, hdue, hvalues, rfl⟩ := step_eq_some hstep
  · rw [hstack] at hready
    have hoperands : operandsAt a i = [l, r] := by rw [operandsAt, hview]
    refine ⟨⟨fun h => absurd h Bool.false_ne_true, fun h => absurd h Bool.false_ne_true, ?_, ?_⟩,
      h.correct⟩
    · -- both operands are above the node that has been opened
      intro _ j hj
      rw [hoperands] at hj
      rcases List.mem_cons.1 hj with rfl | hj
      · exact List.mem_cons_of_mem r List.mem_cons_self
      · rw [List.mem_singleton.1 hj]
        exact List.mem_cons_self
    · refine hready.2.mono (List.cons_subset_cons i ?_)
      exact fun _ hj => List.mem_cons_of_mem r (List.mem_cons_of_mem l hj)
  · rw [hstack] at hready
    rw [h.evaluateNode_eq hstack hdue] at hvalues
    refine ⟨hready.2, fun j hj => ?_⟩
    cases heval : (a.exprAt p.node).eval with
    | error e =>
      rw [heval] at hvalues
      cases hvalues
    | ok v =>
      rw [heval] at hvalues
      cases hvalues
      change _ = Except.ok ((s.values.set p.node.val v p.node.isLt).get j)
      rw [Arena.get_set]
      by_cases hnode : p.node = j
      · rw [if_pos hnode, ← hnode, heval]
      · rw [if_neg hnode]
        exact h.correct j ((List.mem_cons.1 hj).resolve_left (Ne.symm hnode))

end Evaluation

/-! ## From the first step to the last -/

namespace Tree

open Evaluation

/-- The loop has taken `n` steps from the given values. -/
inductive Reaches (t : Tree) (initial : Vector Int64 t.arena.size) :
    Nat → Evaluation t.arena → Prop
  | start : t.Reaches initial 0 (start t.rootIndex initial)
  | step {n : Nat} {s next : Evaluation t.arena} (h : t.Reaches initial n s)
      (hstep : s.step = .ok (some next)) : t.Reaches initial (n + 1) next

variable {t : Tree} {initial : Vector Int64 t.arena.size}

/-- The loop is sound after any number of steps. -/
theorem Reaches.sound {n : Nat} {s : Evaluation t.arena} (h : t.Reaches initial n s) :
    Sound t.rootIndex s := by
  induction h with
  | start => exact sound_start t.rootIndex initial
  | step h hstep ih => exact ih.step hstep

/-- The loop takes at most two steps for each node. -/
theorem Reaches.le_two_mul_size {n : Nat} {s : Evaluation t.arena} (h : t.Reaches initial n s) :
    n + Cursor.remaining t.arena s.stack ≤ 2 * t.toExpr.size := by
  induction h with
  | start => exact Nat.le_of_eq (Nat.zero_add _)
  | step h hstep ih =>
    have hlt := remaining_lt_of_step hstep
    omega

/-- The loop returns the value of the expression, whatever the values it starts from. -/
theorem map_get_run_start (t : Tree) (initial : Vector Int64 t.arena.size) :
    (start t.rootIndex initial).run.map (fun s => s.values.get t.rootIndex) = t.toExpr.eval := by
  have hpositions : Cursor.positions (start t.rootIndex initial).stack =
      t.arena.postOrderAt t.rootIndex := List.append_nil _
  have hvalues := (start t.rootIndex initial).map_values_run
  rw [hpositions] at hvalues
  unfold toExpr
  rw [← t.arena.map_get_evaluateNodes t.rootIndex initial]
  change _ = t.arena.evaluateNodes initial _ at hvalues
  rw [← hvalues]
  cases (start t.rootIndex initial).run <;> rfl

/-- The loop comes to an end: no node is left, or one has failed. -/
theorem Reaches.exists_run {n : Nat} {s : Evaluation t.arena} (h : t.Reaches initial n s) :
    ∃ m last, t.Reaches initial m last ∧
      (last.step = .ok none ∧ s.run = .ok last ∨ ∃ e, last.step = .error e ∧ s.run = .error e) := by
  fun_induction run s generalizing n with
  | case1 s next hnext ih => exact ih (h.step hnext)
  | case2 s hnone => exact ⟨n, s, h, .inl ⟨hnone, rfl⟩⟩
  | case3 s e herror => exact ⟨n, s, h, .inr ⟨e, herror, rfl⟩⟩

/-- The interpreter computes the meaning of the expression that the root denotes.  Its loop ends
within two steps a node, with the value of the root when there is one and with a division by zero
otherwise; and it would do so whatever it found in its slots at first, because the slots that a step
reads have been computed and hold the values of their nodes. -/
theorem interpreter_computes_meaning (t : Tree) :
    (∀ v, t.interpret = .ok v ↔ t.toExpr.meaning? = some v.toInt) ∧
    (t.interpret = .error .divisionByZero ↔ t.toExpr.meaning? = none) ∧
    (∀ op l r, (Expr.binary op l r).meaning? = none ↔
      l.meaning? = none ∨ r.meaning? = none ∨ op = .div ∧ r.meaning? = some 0) ∧
    ∀ initial : Vector Int64 t.arena.size,
      (∃ n s, t.Reaches initial n s ∧
        (s.step = .ok none ∧ t.interpret = .ok (s.values.get t.rootIndex) ∨
          ∃ e, s.step = .error e ∧ t.interpret = .error e)) ∧
      ∀ n s, t.Reaches initial n s →
        n ≤ 2 * t.toExpr.size ∧
        ∀ j ∈ s.reads t.rootIndex,
          j ∈ s.computed ∧ (t.arena.exprAt j).eval = .ok (s.values.get j) := by
  rw [t.interpret_eq]
  refine ⟨t.toExpr.eval_eq_ok_iff, t.toExpr.eval_eq_error_iff, Expr.meaning?_binary_eq_none_iff,
    fun initial => ⟨?_, fun n s hreached => ⟨?_, fun j hj => ?_⟩⟩⟩
  · have hstart : t.Reaches initial 0 (start t.rootIndex initial) := .start
    obtain ⟨n, last, hlast, hend⟩ := hstart.exists_run
    refine ⟨n, last, hlast, ?_⟩
    rw [← map_get_run_start t initial]
    rcases hend with ⟨hnone, hrun⟩ | ⟨e, herror, hrun⟩
    · rw [hrun]
      exact .inl ⟨hnone, rfl⟩
    · rw [hrun]
      exact .inr ⟨e, herror, rfl⟩
  · exact Nat.le_trans (Nat.le_add_right _ _) hreached.le_two_mul_size
  · have hcomputed := hreached.sound.mem_computed hj
    exact ⟨hcomputed, hreached.sound.correct j hcomputed⟩

/-- The least integer is divided by `-1`, in an arena that also holds a node out of the root's
reach.  After three steps the operator is next, and both values that it reads have been
computed. -/
theorem interpreter_computes_least_div_neg_one :
    ∃ t s,
      Tree.build? [.leaf 7, .leaf Int64.minValue, .leaf (-1), .binary .div 1 2] 3 = some t ∧
      t.interpret = .ok Int64.minValue ∧ t.Reaches (Vector.replicate t.arena.size 0) 3 s ∧
      (s.reads t.rootIndex).map Fin.val = [1, 2] ∧ s.computed.map Fin.val = [2, 1] ∧
      ∀ j ∈ s.reads t.rootIndex,
        j ∈ s.computed ∧ (t.arena.exprAt j).eval = .ok (s.values.get j) := by
  obtain ⟨t, s, ht, hexpr, hreached, hreads, hcomputed⟩ : ∃ t s,
      Tree.build? [.leaf 7, .leaf Int64.minValue, .leaf (-1), .binary .div 1 2] 3 = some t ∧
      t.toExpr = .binary .div (.leaf Int64.minValue) (.leaf (-1)) ∧
      t.Reaches (Vector.replicate t.arena.size 0) 3 s ∧
      (s.reads t.rootIndex).map Fin.val = [1, 2] ∧ s.computed.map Fin.val = [2, 1] :=
    ⟨_, _, rfl, by decide +kernel, ((Reaches.start.step rfl).step rfl).step rfl, rfl, rfl⟩
  obtain ⟨hvalue, -, -, hloop⟩ := interpreter_computes_meaning t
  obtain ⟨-, hsteps⟩ := hloop (Vector.replicate t.arena.size 0)
  refine ⟨t, s, ht, (hvalue _).2 ?_, hreached, hreads, hcomputed, (hsteps 3 s hreached).2⟩
  rw [hexpr]
  decide +kernel

end Tree

end Reckoner
