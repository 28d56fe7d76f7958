import Reckoner.Proofs.Arena.Builder
import Reckoner.Proofs.Arena.Paths
import Reckoner.Proofs.Tree.Equality

/-!
# Equal trees have the same structure

Equality of trees compares two flat sequences of symbols.  That it compares structure is said here
without them: from the roots of equal trees every path leads to the same symbol in both, or out of
both.  For trees that are built, the calls that added the roots stand for the same expression; in
which order a builder was called, and what else it was called for, is of no account.
-/

set_option autoImplicit false

namespace Reckoner

/-- The expression that one of several calls stands for. -/
def BuildCall.exprOf? (calls : List BuildCall) (call : Nat) : Option Expr :=
  (exprs? [] calls).bind fun exprs => exprs[call]?

namespace Tree

/-- The symbol that a path leads to from the root. -/
def symbolAlong? (t : Tree) (path : List Side) : Option Symbol :=
  (t.arena.along? t.rootIndex path).map t.arena.symbolAt

/-- A path finds in a tree the symbol that it finds in the expression of the tree. -/
theorem symbolAlong?_eq (t : Tree) (path : List Side) :
    t.symbolAlong? path = (t.toExpr.along? path).map Expr.symbol := by
  rw [symbolAlong?, toExpr, ← Arena.map_exprAt_along?, Option.map_map]
  exact congrArg (Option.map · _) (funext fun i => (t.arena.symbol_exprAt i).symm)

/-- Trees denote one expression exactly when every path finds the same symbol in both, or none in
either. -/
theorem toExpr_eq_iff_symbolAlong? (s t : Tree) :
    s.toExpr = t.toExpr ↔ ∀ path, s.symbolAlong? path = t.symbolAlong? path := by
  constructor
  · intro h path
    rw [s.symbolAlong?_eq, t.symbolAlong?_eq, h]
  · intro h
    refine Expr.eq_of_map_symbol_along? fun path => ?_
    rw [← s.symbolAlong?_eq, ← t.symbolAlong?_eq, h]

/-- A tree that is built, with few enough nodes for exact ids, denotes the expression that the call
of its root stands for. -/
theorem exprOf?_of_build? {calls : List BuildCall} {root : Nat} {t : Tree}
    (h : Tree.build? calls root = some t) (hsize : t.arena.size ≤ 2 ^ 32) :
    BuildCall.exprOf? calls root = some t.toExpr := by
  obtain ⟨exprs, hexprs, hroot, -⟩ := exists_exprs?_of_build? h hsize
  rw [BuildCall.exprOf?, hexprs]
  exact hroot

/-- Trees are equal just when their roots denote one tree: the same symbol stands along every path,
or none in either.  Trees that are built, with few enough nodes for exact ids, are equal just when
the calls of their roots stand for one expression. -/
theorem same_iff_structure (s t : Tree) :
    (s.same t = true ↔ s.toExpr = t.toExpr) ∧
    (s.same t = true ↔ ∀ path, s.symbolAlong? path = t.symbolAlong? path) ∧
    ∀ calls root calls' root', Tree.build? calls root = some s →
      Tree.build? calls' root' = some t → s.arena.size ≤ 2 ^ 32 → t.arena.size ≤ 2 ^ 32 →
      (s.same t = true ↔ BuildCall.exprOf? calls root = BuildCall.exprOf? calls' root') := by
  refine ⟨s.same_iff t, (s.same_iff t).trans (s.toExpr_eq_iff_symbolAlong? t), ?_⟩
  intro calls root calls' root' hs ht hsizeS hsizeT
  rw [exprOf?_of_build? hs hsizeS, exprOf?_of_build? ht hsizeT, s.same_iff t]
  exact Option.some_inj.symm

/-- The sum of one and two, built in two orders, once with a node out of the root's reach; and the
sum of two and one. -/
theorem same_sums_of_one_and_two :
    ∃ s t u, Tree.build? [.leaf 1, .leaf 2, .binary .add 0 1] 2 = some s ∧
      Tree.build? [.leaf 2, .leaf 9, .leaf 1, .binary .add 2 0] 3 = some t ∧
      Tree.build? [.leaf 1, .leaf 2, .binary .add 1 0] 2 = some u ∧
      s.same t = true ∧ s.same u = false := by
  obtain ⟨s, hs, hsizeS⟩ : ∃ s, Tree.build? [.leaf 1, .leaf 2, .binary .add 0 1] 2 = some s ∧
      s.arena.size = 3 := ⟨_, rfl, rfl⟩
  obtain ⟨t, ht, hsizeT⟩ : ∃ t, Tree.build? [.leaf 2, .leaf 9, .leaf 1, .binary .add 2 0] 3 =
      some t ∧ t.arena.size = 4 := ⟨_, rfl, rfl⟩
  obtain ⟨u, hu, hsizeU⟩ : ∃ u, Tree.build? [.leaf 1, .leaf 2, .binary .add 1 0] 2 = some u ∧
      u.arena.size = 3 := ⟨_, rfl, rfl⟩
  obtain ⟨-, -, hst⟩ := same_iff_structure s t
  obtain ⟨-, -, hsu⟩ := same_iff_structure s u
  refine ⟨s, t, u, hs, ht, hu, ?_, Bool.eq_false_iff.2 fun h => ?_⟩
  · exact (hst _ _ _ _ hs ht (by omega) (by omega)).2 (by decide)
  · exact absurd ((hsu _ _ _ _ hs hu (by omega) (by omega)).1 h) (by decide)

end Tree

end Reckoner
