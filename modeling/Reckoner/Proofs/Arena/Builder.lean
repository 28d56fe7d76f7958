import Mathlib.Data.List.Forall2
import Reckoner.Arena.Builder
import Reckoner.Proofs.Arena.Growth
import Reckoner.Proofs.Tree.Shape
import Reckoner.Tree.Interpreter

/-!
# Trees that are built by calls

Calls stand for expressions without any arena: a call that joins two others stands for the
operator on their expressions.  The id that a call hands out denotes the expression it stands
for, as long as ids are exact, and so does the root of a tree that is built.

A builder refuses an id that is spent, so no node is used by two operators.  The measure
of this is a budget: the expressions of the unspent ids together never have more nodes
than the arena.  A call that joins two ids takes their expressions out of the budget and
puts in one node more than it took.  The root of a built tree is unspent, hence its
expression is no larger than the arena, and at most half of its nodes (and one) are
leaves.
-/

set_option autoImplicit false

namespace Reckoner

/-- A tree that calls of one builder have made, with few enough nodes for exact ids. -/
structure Tree.Built (t : Tree) : Prop where
  built : ∃ calls root, Tree.build? calls root = some t
  size_le : t.arena.size ≤ 2 ^ 32

/-! ## What calls stand for -/

namespace BuildCall

/-- The expression that a call stands for, given those of the calls before it. -/
def expr? (earlier : List Expr) : BuildCall → Option Expr
  | leaf v => some (.leaf v)
  | binary op l r => do
    let x ← earlier[l]?
    let y ← earlier[r]?
    return .binary op x y

/-- The expressions that calls stand for, behind those of the calls before them. -/
def exprs? (earlier : List Expr) : List BuildCall → Option (List Expr)
  | [] => some earlier
  | c :: rest => (c.expr? earlier).bind fun e => exprs? (earlier ++ [e]) rest

end BuildCall

/-- What a tree consists of whose building succeeds. -/
theorem Tree.build?_eq_some {calls : List BuildCall} {root : Nat} {t : Tree}
    (h : Tree.build? calls root = some t) :
    ∃ b id, Builder.empty.callAll? calls = some b ∧ b.unspent? root = some id ∧
      t = ⟨b.arena, id.val, id.property⟩ := by
  unfold Tree.build? at h
  split at h
  case h_2 => cases h
  next b hb =>
  unfold Builder.finish? at h
  split at h
  case h_2 => cases h
  next id hid =>
  cases h
  exact ⟨b, id, hb, hid, rfl⟩

namespace Builder

/-- An entry of a list keeps its place when the list grows at its end. -/
private theorem getElem?_append_of_eq_some {α : Type} {xs : List α} {k : Nat} {x : α}
    (h : xs[k]? = some x) (ys : List α) : (xs ++ ys)[k]? = some x := by
  obtain ⟨hk, -⟩ := List.getElem?_eq_some_iff.1 h
  rw [List.getElem?_append_left hk, h]

/-- The nodes of the expressions whose ids are unspent. -/
def unspentSize : List Bool → List Expr → Nat
  | false :: spent, e :: exprs => e.size + unspentSize spent exprs
  | true :: spent, _ :: exprs => unspentSize spent exprs
  | _, _ => 0

/-- A fresh id adds the nodes of its expression to the budget. -/
theorem unspentSize_append (spent : List Bool) (exprs : List Expr) (e : Expr)
    (h : spent.length = exprs.length) :
    unspentSize (spent ++ [false]) (exprs ++ [e]) = unspentSize spent exprs + e.size := by
  induction spent generalizing exprs with
  | nil =>
    rw [List.length_nil] at h
    rw [List.eq_nil_of_length_eq_zero h.symm]
    simp [unspentSize]
  | cons b spent ih =>
    cases exprs with
    | nil => cases h
    | cons x exprs =>
      have hrest := ih exprs (Nat.succ.inj h)
      cases b <;> simp only [List.cons_append, unspentSize, hrest]
      omega

/-- Spending an id takes the nodes of its expression out of the budget. -/
theorem unspentSize_set (spent : List Bool) (exprs : List Expr) (k : Nat) {e : Expr}
    (hspent : spent[k]? = some false) (he : exprs[k]? = some e) :
    unspentSize (spent.set k true) exprs + e.size = unspentSize spent exprs := by
  induction spent generalizing exprs k with
  | nil => cases hspent
  | cons b spent ih =>
    cases exprs with
    | nil => cases he
    | cons x exprs =>
      cases k with
      | zero =>
        cases hspent
        cases he
        simp only [List.set_cons_zero, unspentSize]
        omega
      | succ k =>
        have hrest := ih exprs k hspent he
        cases b <;> (simp only [List.set_cons_succ, unspentSize]; omega)

/-- An unspent expression is within the budget. -/
theorem size_le_unspentSize (spent : List Bool) (exprs : List Expr) (k : Nat) {e : Expr}
    (hspent : spent[k]? = some false) (he : exprs[k]? = some e) :
    e.size ≤ unspentSize spent exprs := by
  have h := unspentSize_set spent exprs k hspent he
  omega

/-- The builder's ids denote the expressions, and the unspent ones are within the budget. -/
structure Accounts (b : Builder) (exprs : List Expr) : Prop where
  length_spent : b.spent.size = exprs.length
  denotes : List.Forall₂ b.arena.Denotes b.ids.toList exprs
  budget : unspentSize b.spent.toList exprs ≤ b.arena.size

/-- A builder that has not been called accounts for no expressions. -/
theorem accounts_empty : Accounts empty [] := ⟨rfl, .nil, Nat.le_refl 0⟩

/-- An unspent id denotes the expression of its call. -/
theorem Accounts.unspent {b : Builder} {exprs : List Expr} (h : b.Accounts exprs) {k : Nat}
    {id : { id : NodeId // b.arena.Owns id }} (hid : b.unspent? k = some id) :
    ∃ e, b.arena.Denotes id.val e ∧ exprs[k]? = some e ∧ b.spent.toList[k]? = some false := by
  unfold unspent? at hid
  split at hid
  · next hk =>
    split at hid
    · next hspent =>
      cases hid
      have hlen : k < exprs.length := by
        rw [← h.denotes.length_eq]
        exact hk
      refine ⟨exprs[k], ?_, List.getElem?_eq_getElem hlen, ?_⟩
      · exact List.Forall₂.get h.denotes hk hlen
      · rw [Array.getElem?_toList]
        exact hspent
    · cases hid
  · cases hid

/-- Adding a node with its expression keeps the accounts, if the budget allows for it. -/
theorem Accounts.push {b : Builder} {exprs : List Expr} (h : b.Accounts exprs) (n : Node)
    (hn : n.Below b.arena.size) {e : Expr} (he : (b.arena.push n hn).Denotes b.arena.nextId e) :
    List.Forall₂ (b.push n hn).arena.Denotes (b.push n hn).ids.toList (exprs ++ [e]) ∧
      (b.push n hn).spent.size = (exprs ++ [e]).length ∧
      unspentSize (b.push n hn).spent.toList (exprs ++ [e]) =
        unspentSize b.spent.toList exprs + e.size := by
  refine ⟨?_, ?_, ?_⟩
  · simp only [Builder.push, Array.toList_push]
    exact List.rel_append (h.denotes.imp fun _ _ hid => hid.push n hn) (.cons he .nil)
  · simp only [Builder.push, Array.size_push, List.length_append, List.length_singleton,
      h.length_spent]
  · simp only [Builder.push, Array.toList_push]
    refine unspentSize_append _ _ _ ?_
    rw [Array.length_toList, h.length_spent]

/-- What a call does that is answered: it adds a leaf, or joins two unspent ids and spends them. -/
theorem call?_eq_some {b next : Builder} {c : BuildCall} (h : b.call? c = some next) :
    (∃ v, c = .leaf v ∧ next = b.push (.leaf v) trivial) ∨
    ∃ op l r left right joined, c = .binary op l r ∧ l ≠ r ∧
      b.unspent? l = some left ∧ b.unspent? r = some right ∧
      joined = b.push (.binary op left.val right.val) ⟨left.property, right.property⟩ ∧
      next =
        { joined with spent := (joined.spent.setIfInBounds l true).setIfInBounds r true } := by
  cases c with
  | leaf v =>
    cases h
    exact .inl ⟨v, rfl, rfl⟩
  | binary op l r =>
    simp only [call?] at h
    split at h
    · cases h
    next hne =>
    split at h
    case h_2 => cases h
    next left right hleft hright =>
    cases h
    exact .inr ⟨op, l, r, left, right, _, rfl, hne, hleft, hright, rfl, rfl⟩

/-- A call adds one node. -/
theorem size_of_call?_eq_some {b next : Builder} {c : BuildCall} (h : b.call? c = some next) :
    next.arena.size = b.arena.size + 1 := by
  obtain ⟨v, -, rfl⟩ | ⟨op, l, r, left, right, _, -, -, -, -, rfl, rfl⟩ := call?_eq_some h
  · exact Arena.size_push _ (.leaf v) trivial
  · exact Arena.size_push _ (.binary op left.val right.val) ⟨left.property, right.property⟩

/-- A call that is answered keeps the accounts, while ids are exact: it adds the expression that
it stands for. -/
theorem Accounts.of_call? {b next : Builder} {exprs : List Expr} (h : b.Accounts exprs)
    {c : BuildCall} (hc : b.call? c = some next) (hroom : b.arena.size < 2 ^ 32) :
    ∃ e, c.expr? exprs = some e ∧ next.Accounts (exprs ++ [e]) := by
  have hsize := size_of_call?_eq_some hc
  have hbudget := h.budget
  obtain ⟨v, rfl, rfl⟩ | ⟨op, l, r, left, right, _, rfl, hne, hleft, hright, rfl, rfl⟩ :=
    call?_eq_some hc
  · obtain ⟨hdenotes, hlength, hunspent⟩ := h.push (.leaf v) trivial (Arena.denotes_leaf hroom v)
    refine ⟨.leaf v, rfl, hlength, hdenotes, ?_⟩
    rw [hunspent, hsize, Expr.size]
    omega
  · obtain ⟨x, hx, hxl, hsl⟩ := h.unspent hleft
    obtain ⟨y, hy, hyr, hsr⟩ := h.unspent hright
    obtain ⟨hdenotes, hlength, hunspent⟩ :=
      h.push (.binary op left.val right.val) ⟨left.property, right.property⟩
        (Arena.denotes_binary hroom op hx hy left.property right.property)
    have hspent : (b.push (.binary op left.val right.val)
        ⟨left.property, right.property⟩).spent.toList = b.spent.toList ++ [false] :=
      Array.toList_push
    -- the two operands leave the budget one after the other
    have hl : (b.spent.toList ++ [false])[l]? = some false :=
      getElem?_append_of_eq_some hsl _
    have hr : ((b.spent.toList ++ [false]).set l true)[r]? = some false := by
      rw [List.getElem?_set_ne hne]
      exact getElem?_append_of_eq_some hsr _
    have htakeLeft := unspentSize_set _ (exprs ++ [.binary op x y]) l hl
      (getElem?_append_of_eq_some hxl _)
    have htakeRight := unspentSize_set _ (exprs ++ [.binary op x y]) r hr
      (getElem?_append_of_eq_some hyr _)
    refine ⟨.binary op x y, ?_, ?_, hdenotes, ?_⟩
    · rw [BuildCall.expr?, hxl, hyr]
      rfl
    · simpa only [Array.size_setIfInBounds] using hlength
    · rw [hspent, Expr.size] at hunspent
      rw [hsize]
      simp only [Array.toList_setIfInBounds, hspent]
      omega

/-- Calls never make the arena smaller. -/
theorem size_le_of_callAll?_eq_some {b last : Builder} {calls : List BuildCall}
    (h : b.callAll? calls = some last) : b.arena.size ≤ last.arena.size := by
  induction calls generalizing b with
  | nil => cases h; exact Nat.le_refl _
  | cons c cs ih =>
    rw [callAll?] at h
    split at h
    · next mid hmid =>
      have hstep := size_of_call?_eq_some hmid
      have hrest := ih h
      omega
    · cases h

/-- Calls that are all answered keep the accounts, while ids are exact. -/
theorem Accounts.of_callAll? {b last : Builder} {exprs : List Expr} (h : b.Accounts exprs)
    {calls : List BuildCall} (hcalls : b.callAll? calls = some last)
    (hroom : last.arena.size ≤ 2 ^ 32) :
    ∃ all, BuildCall.exprs? exprs calls = some all ∧ last.Accounts all := by
  induction calls generalizing b exprs with
  | nil =>
    cases hcalls
    exact ⟨exprs, rfl, h⟩
  | cons c cs ih =>
    rw [Builder.callAll?] at hcalls
    split at hcalls
    · next mid hmid =>
      have hstep := size_of_call?_eq_some hmid
      have hrest := size_le_of_callAll?_eq_some hcalls
      obtain ⟨e, hexpr, he⟩ := h.of_call? hmid (by omega)
      obtain ⟨all, hall, haccounts⟩ := ih he hcalls
      exact ⟨all, by rw [BuildCall.exprs?, hexpr]; exact hall, haccounts⟩
    · cases hcalls

end Builder

/-- A tree denotes the expression that the call of its root stands for, which has no more nodes
than the arena. -/
theorem Tree.exists_exprs?_of_build? {calls : List BuildCall} {root : Nat} {t : Tree}
    (h : Tree.build? calls root = some t) (hsize : t.arena.size ≤ 2 ^ 32) :
    ∃ exprs, BuildCall.exprs? [] calls = some exprs ∧ exprs[root]? = some t.toExpr ∧
      t.toExpr.size ≤ t.arena.size := by
  obtain ⟨b, id, hb, hid, rfl⟩ := Tree.build?_eq_some h
  obtain ⟨exprs, hexprs, haccounts⟩ := Builder.accounts_empty.of_callAll? hb hsize
  obtain ⟨e, hdenotes, he, hspent⟩ := haccounts.unspent hid
  rw [Tree.toExpr_eq_of_denotes hdenotes]
  exact ⟨exprs, hexprs, he,
    Nat.le_trans (Builder.size_le_unspentSize _ _ root hspent he) haccounts.budget⟩

/-- The expression of a tree that was built has no more nodes than its arena. -/
theorem Tree.Built.size_toExpr_le {t : Tree} (h : t.Built) : t.toExpr.size ≤ t.arena.size := by
  obtain ⟨⟨calls, root, hbuild⟩, hsize⟩ := h
  obtain ⟨_, -, -, hle⟩ := Tree.exists_exprs?_of_build? hbuild hsize
  exact hle

/-- Of at most `2 ^ 32` nodes at most `2 ^ 31` are leaves. -/
theorem Tree.leafCount_le_of_size_toExpr_le {t : Tree} (h : t.toExpr.size ≤ 2 ^ 32) :
    t.shape.leafCount ≤ 2 ^ 31 := by
  have hleaves := t.toExpr.length_leaves
  rw [t.toExpr.size_eq] at h
  rw [t.shape_eq]
  change t.toExpr.leaves.length ≤ 2 ^ 31
  omega

/-- At most `2 ^ 31` of the nodes are leaves, since an expression has one leaf more than it has
operators. -/
theorem Tree.Built.leafCount_le {t : Tree} (h : t.Built) : t.shape.leafCount ≤ 2 ^ 31 :=
  leafCount_le_of_size_toExpr_le (Nat.le_trans h.size_toExpr_le h.size_le)

/-- The product of six and seven can be built. -/
theorem Tree.Built.exists_six_times_seven :
    ∃ t, Tree.build? [.leaf 6, .leaf 7, .binary .mul 0 1] 2 = some t ∧ t.Built ∧
      t.shape = ⟨2, 1, 2⟩ ∧ t.interpret = .ok 42 := by
  have hfacts : (Tree.build? [.leaf 6, .leaf 7, .binary .mul 0 1] 2).map
      (fun t => (t.arena.size, t.shape, t.interpret)) = some (3, ⟨2, 1, 2⟩, .ok 42) := by
    decide +kernel
  obtain ⟨t, ht, hfacts⟩ := Option.map_eq_some_iff.1 hfacts
  simp only [Prod.mk.injEq] at hfacts
  obtain ⟨hsize, hshape, hvalue⟩ := hfacts
  exact ⟨t, ht, ⟨⟨_, _, ht⟩, by omega⟩, hshape, hvalue⟩

end Reckoner
