import Mathlib.Data.List.Induction
import Mathlib.Data.List.Nodup
import Reckoner.Proofs.Tree.PostOrder
import Reckoner.Tree.Printer

/-!
# Paths to the nodes of an arena

A path goes down from a node, at each step to the left or to the right operand.  It finds in the
arena what it finds in the expression that the node denotes, and an expression is determined by
what its paths find.  The walk from a node visits the positions that paths lead to.

In an arena where no node is an operand twice, there is only one path from a node to a position:
seen from its end, each step back is the only one there is.  The paths through the left operand and
those through the right one then have no position in common, and the walk visits none twice.
-/

set_option autoImplicit false

namespace Reckoner

namespace Expr

/-- The symbol at the top of an expression. -/
def symbol : Expr → Symbol
  | leaf v => .value v
  | binary op _ _ => .operator op

/-- The operand on a side. -/
def operand? : Expr → Side → Option Expr
  | leaf _, _ => none
  | binary _ l _, .left => some l
  | binary _ _ r, .right => some r

/-- The expression that a path leads to. -/
def along? (e : Expr) : List Side → Option Expr
  | [] => some e
  | side :: path => (e.operand? side).bind fun x => x.along? path

/-- Expressions with the same symbol along every path are the same. -/
theorem eq_of_map_symbol_along? {x y : Expr}
    (h : ∀ path, (x.along? path).map symbol = (y.along? path).map symbol) : x = y := by
  induction x generalizing y with
  | leaf v =>
    cases y with
    | leaf w =>
      cases h []
      rfl
    | binary op l r => cases h []
  | binary op l r ihl ihr =>
    cases y with
    | leaf w => cases h []
    | binary op' l' r' =>
      cases h []
      rw [ihl fun path => h (.left :: path), ihr fun path => h (.right :: path)]

end Expr

namespace Arena

/-- The position of the operand on a side. -/
def operand? (a : Arena) (i : Fin a.size) (side : Side) : Option (Fin a.size) :=
  match a.view i, side with
  | .leaf _, _ => none
  | .binary _ l _ _ _, .left => some l
  | .binary _ _ r _ _, .right => some r

/-- The position that a path leads to. -/
def along? (a : Arena) (i : Fin a.size) : List Side → Option (Fin a.size)
  | [] => some i
  | side :: path => (a.operand? i side).bind fun j => a.along? j path

variable {a : Arena} {i j k : Fin a.size}

/-- A leaf has no operands. -/
theorem operand?_of_view_leaf {v : Int64} (h : a.view i = .leaf v) (side : Side) :
    a.operand? i side = none := by
  unfold operand?
  rw [h]

/-- An operator has the two operands that its position is seen with. -/
theorem operand?_of_view_binary {op : Operator} {l r : Fin a.size} {hl : l.val < i.val}
    {hr : r.val < i.val} (h : a.view i = .binary op l r hl hr) :
    a.operand? i .left = some l ∧ a.operand? i .right = some r := by
  unfold operand?
  rw [h]
  exact ⟨rfl, rfl⟩

/-- The operands of a position denote the operands of its expression. -/
theorem map_exprAt_operand? (a : Arena) (i : Fin a.size) (side : Side) :
    (a.operand? i side).map a.exprAt = (a.exprAt i).operand? side := by
  cases hview : a.view i with
  | leaf v =>
    rw [operand?_of_view_leaf hview, exprAt_of_view_leaf hview]
    rfl
  | binary op l r hl hr =>
    obtain ⟨hleft, hright⟩ := operand?_of_view_binary hview
    rw [exprAt_of_view_binary hview]
    cases side with
    | left => rw [hleft]; rfl
    | right => rw [hright]; rfl

/-- A path finds in the arena what it finds in the expression. -/
theorem map_exprAt_along? (a : Arena) (i : Fin a.size) (path : List Side) :
    (a.along? i path).map a.exprAt = (a.exprAt i).along? path := by
  induction path generalizing i with
  | nil => rfl
  | cons side path ih =>
    rw [along?, Expr.along?, ← map_exprAt_operand?]
    cases a.operand? i side with
    | none => rfl
    | some j => exact ih j

/-- The symbol of a position is the one at the top of its expression. -/
theorem symbol_exprAt (a : Arena) (i : Fin a.size) : (a.exprAt i).symbol = a.symbolAt i := by
  cases hview : a.view i with
  | leaf v =>
    rw [exprAt_of_view_leaf hview, symbolAt_of_view_leaf hview]
    rfl
  | binary op l r hl hr =>
    rw [exprAt_of_view_binary hview, symbolAt_of_view_binary hview]
    rfl

/-! ## Positions below a node -/

/-- Operands stand before the node that uses them. -/
theorem lt_of_operand?_eq_some {side : Side} (h : a.operand? i side = some j) : j.val < i.val := by
  cases hview : a.view i with
  | leaf v =>
    rw [operand?_of_view_leaf hview] at h
    cases h
  | binary op l r hl hr =>
    obtain ⟨hleft, hright⟩ := operand?_of_view_binary hview
    cases side with
    | left =>
      rw [hleft] at h
      exact Option.some.inj h ▸ hl
    | right =>
      rw [hright] at h
      exact Option.some.inj h ▸ hr

/-- The last step of a path starts where the path before it ends. -/
theorem along?_append_singleton (a : Arena) (i : Fin a.size) (path : List Side) (side : Side) :
    a.along? i (path ++ [side]) = (a.along? i path).bind fun j => a.operand? j side := by
  induction path generalizing i with
  | nil => simp [along?]
  | cons other path ih =>
    rw [List.cons_append, along?, along?, Option.bind_assoc]
    exact congrArg _ (funext ih)

/-- A path never leads up. -/
theorem le_of_along?_eq_some {path : List Side} (h : a.along? i path = some j) :
    j.val ≤ i.val := by
  induction path generalizing i with
  | nil =>
    cases h
    exact Nat.le_refl _
  | cons side path ih =>
    obtain ⟨k, hoperand, hpath⟩ := Option.bind_eq_some_iff.1 h
    exact Nat.le_trans (ih hpath) (Nat.le_of_lt (lt_of_operand?_eq_some hoperand))

/-- The walk from a node visits the positions that paths lead to. -/
theorem mem_postOrderAt_iff (a : Arena) (i j : Fin a.size) :
    j ∈ a.postOrderAt i ↔ ∃ path, a.along? i path = some j := by
  fun_induction a.postOrderAt i with
  | case1 i v hview =>
    rw [List.mem_singleton]
    constructor
    · rintro rfl
      exact ⟨[], rfl⟩
    · rintro ⟨path, hpath⟩
      cases path with
      | nil => exact (Option.some.inj hpath).symm
      | cons side path =>
        rw [along?, operand?_of_view_leaf hview] at hpath
        cases hpath
  | case2 i op l r hl hr hview ihl ihr =>
    obtain ⟨hleft, hright⟩ := operand?_of_view_binary hview
    rw [List.mem_append, List.mem_append, List.mem_singleton, ihl, ihr]
    constructor
    · rintro ((⟨path, hpath⟩ | ⟨path, hpath⟩) | rfl)
      · exact ⟨.left :: path, by rw [along?, hleft]; exact hpath⟩
      · exact ⟨.right :: path, by rw [along?, hright]; exact hpath⟩
      · exact ⟨[], rfl⟩
    · rintro ⟨path, hpath⟩
      cases path with
      | nil => exact .inr (Option.some.inj hpath).symm
      | cons side path =>
        cases side with
        | left =>
          rw [along?, hleft] at hpath
          exact .inl (.inl ⟨path, hpath⟩)
        | right =>
          rw [along?, hright] at hpath
          exact .inl (.inr ⟨path, hpath⟩)

/-! ## Arenas where no node is an operand twice -/

/-- A node is an operand of one node at most, and on one side. -/
def OneParent (a : Arena) : Prop :=
  ∀ ⦃i j k : Fin a.size⦄ ⦃side other : Side⦄,
    a.operand? i side = some k → a.operand? j other = some k → i = j ∧ side = other

/-- A path that leads somewhere else than to its start ends with a step to an operand. -/
theorem exists_of_along?_append_singleton {path : List Side} {side : Side}
    (h : a.along? i (path ++ [side]) = some k) :
    ∃ j, a.along? i path = some j ∧ a.operand? j side = some k ∧ k.val < i.val := by
  rw [along?_append_singleton] at h
  obtain ⟨j, hpath, hoperand⟩ := Option.bind_eq_some_iff.1 h
  exact ⟨j, hpath, hoperand,
    Nat.lt_of_lt_of_le (lt_of_operand?_eq_some hoperand) (le_of_along?_eq_some hpath)⟩

/-- There is one path to a position. -/
theorem OneParent.path_unique (h : a.OneParent) {path other : List Side}
    (hpath : a.along? i path = some k) (hother : a.along? i other = some k) : path = other := by
  -- backwards: a position has one parent, and no path leads back to the start
  induction path using List.reverseRecOn generalizing other k with
  | nil =>
    cases hpath
    rcases List.eq_nil_or_concat' other with rfl | ⟨front, side, rfl⟩
    · rfl
    · obtain ⟨_, -, -, hlt⟩ := exists_of_along?_append_singleton hother
      exact absurd hlt (Nat.lt_irrefl _)
  | append_singleton front side ih =>
    obtain ⟨j, hfront, hoperand, hlt⟩ := exists_of_along?_append_singleton hpath
    rcases List.eq_nil_or_concat' other with rfl | ⟨front', side', rfl⟩
    · cases hother
      exact absurd hlt (Nat.lt_irrefl _)
    · obtain ⟨j', hfront', hoperand', -⟩ := exists_of_along?_append_singleton hother
      obtain ⟨rfl, rfl⟩ := h hoperand hoperand'
      rw [ih hfront hfront']

/-- The walk visits no position twice. -/
theorem OneParent.nodup_postOrderAt (h : a.OneParent) (i : Fin a.size) :
    (a.postOrderAt i).Nodup := by
  fun_induction a.postOrderAt i with
  | case1 i v hview => exact List.nodup_singleton i
  | case2 i op l r hl hr hview ihl ihr =>
    obtain ⟨hleft, hright⟩ := operand?_of_view_binary hview
    refine List.nodup_append.2 ⟨List.nodup_append.2 ⟨ihl, ihr, ?_⟩, List.nodup_singleton i, ?_⟩
    · rintro j hjl k hkr rfl
      obtain ⟨p, hp⟩ := (a.mem_postOrderAt_iff l j).1 hjl
      obtain ⟨q, hq⟩ := (a.mem_postOrderAt_iff r j).1 hkr
      have hp' : a.along? i (.left :: p) = some j := by rw [along?, hleft]; exact hp
      have hq' : a.along? i (.right :: q) = some j := by rw [along?, hright]; exact hq
      cases h.path_unique hp' hq'
    · rintro j hj k hk rfl
      rw [List.mem_singleton] at hk
      subst hk
      rcases List.mem_append.1 hj with hj | hj
      · obtain ⟨p, hp⟩ := (a.mem_postOrderAt_iff l j).1 hj
        exact absurd (le_of_along?_eq_some hp) (Nat.not_le_of_lt hl)
      · obtain ⟨p, hp⟩ := (a.mem_postOrderAt_iff r j).1 hj
        exact absurd (le_of_along?_eq_some hp) (Nat.not_le_of_lt hr)

end Arena

/-- A path leads from the root to the position. -/
def Tree.Contains (t : Tree) (i : Fin t.arena.size) : Prop :=
  ∃ path, t.arena.along? t.rootIndex path = some i

/-- The walk of a tree visits the positions that paths from the root lead to, and no others. -/
theorem Tree.mem_postOrder_iff (t : Tree) (i : Fin t.arena.size) :
    i ∈ t.postOrder ↔ t.Contains i := by
  rw [t.postOrder_eq]
  exact t.arena.mem_postOrderAt_iff t.rootIndex i

end Reckoner
