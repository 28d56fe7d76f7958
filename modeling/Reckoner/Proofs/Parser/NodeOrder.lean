import Mathlib.Data.Fin.Basic
import Mathlib.Data.List.Chain
import Mathlib.Data.List.Range
import Reckoner.Proofs.Arena.Paths
import Reckoner.Proofs.Parser.ForestInduction
import Reckoner.Proofs.Parser.NodeCount
import Reckoner.Proofs.Tree.Shape

/-!
# A parser adds nodes in post-order

When a number is read its node becomes the last one, and when two operands are joined the node of
the operator does.  The nodes under the operands of a forest, in post-order and one operand after
the other, are therefore at all times the positions of the arena from the first to the last.  That
the operator joins the two latest operands is what the proof rests on: their nodes are the last
ones, so the new node comes right behind them.

In the tree that is left at the end the walk from the root visits the positions in increasing order.
Then the root is the last node, the walk misses none, and the right operand of an operator, which
the walk visits just before the operator, lies just before it.
-/

set_option autoImplicit false

namespace Reckoner

namespace Arena

/-- The positions of the nodes under an id, in post-order. -/
def positionsUnder (a : Arena) (id : NodeId) : List Nat :=
  if h : a.Owns id then (a.postOrderAt ⟨id.index, h⟩).map Fin.val else []

/-- Under an id of the arena lies the walk from its position. -/
theorem positionsUnder_of_owns {a : Arena} {id : NodeId} (h : a.Owns id) :
    a.positionsUnder id = (a.postOrderAt ⟨id.index, h⟩).map Fin.val :=
  dif_pos h

/-- Adding a node leaves the walk from an earlier position as it is. -/
theorem map_val_postOrderAt_push (a : Arena) (n : Node) (h : n.Below a.size) (i : Nat)
    (hi : i < a.size) :
    ((a.push n h).postOrderAt ⟨i, a.lt_size_push n h hi⟩).map Fin.val =
      (a.postOrderAt ⟨i, hi⟩).map Fin.val := by
  induction i using Nat.strongRecOn with
  | ind i ih =>
    have hnode := a.node_push_of_lt n h hi
    have hbelow := a.node_below ⟨i, hi⟩
    cases hi' : a.node ⟨i, hi⟩ with
    | leaf v =>
      rw [postOrderAt_of_view_leaf (view_of_node_leaf hi'),
        postOrderAt_of_view_leaf (view_of_node_leaf (hnode.trans hi'))]
      rfl
    | binary op l r =>
      rw [hi'] at hbelow
      have hl : l.index < a.size := Nat.lt_trans hbelow.1 hi
      have hr : r.index < a.size := Nat.lt_trans hbelow.2 hi
      obtain ⟨_, _, hview⟩ := view_of_node_binary hi' hl hr
      obtain ⟨_, _, hpushed⟩ := view_of_node_binary (hnode.trans hi') (a.lt_size_push n h hl)
        (a.lt_size_push n h hr)
      simp only [postOrderAt_of_view_binary hview, postOrderAt_of_view_binary hpushed,
        List.map_append, ih l.index hbelow.1 hl, ih r.index hbelow.2 hr, List.map_cons,
        List.map_nil]

/-- A node that is added leaves the walk under an earlier id as it is. -/
theorem positionsUnder_push {a : Arena} {id : NodeId} (hid : a.Owns id) (n : Node)
    (h : n.Below a.size) : (a.push n h).positionsUnder id = a.positionsUnder id := by
  rw [positionsUnder_of_owns (hid.push n h), positionsUnder_of_owns hid]
  exact a.map_val_postOrderAt_push n h id.index hid

/-- Under the node of a number there is only this node. -/
theorem positionsUnder_leaf {a : Arena} (hroom : a.size < 2 ^ 32) (v : Int64) :
    (a.leaf v).positionsUnder a.nextId = [a.size] := by
  have howns : (a.leaf v).Owns a.nextId := a.owns_nextId (.leaf v) trivial
  have hnode : (a.leaf v).node ⟨a.nextId.index, howns⟩ = .leaf v := by
    simp only [index_nextId hroom]
    exact a.node_push_size (.leaf v) trivial _
  rw [positionsUnder_of_owns howns, postOrderAt_of_view_leaf (view_of_node_leaf hnode)]
  simp [index_nextId hroom]

/-- Under the node of an operator there are those of its operands, and this node. -/
theorem positionsUnder_binary {a : Arena} (hroom : a.size < 2 ^ 32) (op : Operator)
    {l r : NodeId} (hl : a.Owns l) (hr : a.Owns r) :
    (a.binary op l r hl hr).positionsUnder a.nextId =
      a.positionsUnder l ++ a.positionsUnder r ++ [a.size] := by
  have howns : (a.binary op l r hl hr).Owns a.nextId :=
    a.owns_nextId (.binary op l r) ⟨hl, hr⟩
  have hnode : (a.binary op l r hl hr).node ⟨a.nextId.index, howns⟩ = .binary op l r := by
    simp only [index_nextId hroom]
    exact a.node_push_size (.binary op l r) ⟨hl, hr⟩ _
  have hl' : (a.binary op l r hl hr).Owns l := hl.push (.binary op l r) ⟨hl, hr⟩
  have hr' : (a.binary op l r hl hr).Owns r := hr.push (.binary op l r) ⟨hl, hr⟩
  have hleft : (a.binary op l r hl hr).positionsUnder l = a.positionsUnder l :=
    positionsUnder_push hl (.binary op l r) ⟨hl, hr⟩
  have hright : (a.binary op l r hl hr).positionsUnder r = a.positionsUnder r :=
    positionsUnder_push hr (.binary op l r) ⟨hl, hr⟩
  obtain ⟨_, _, hview⟩ := view_of_node_binary hnode hl' hr'
  rw [← hleft, ← hright, positionsUnder_of_owns howns, positionsUnder_of_owns hl',
    positionsUnder_of_owns hr', postOrderAt_of_view_binary hview]
  simp [index_nextId hroom]

/-- The walk from a node passes through the walk from each node that it visits. -/
theorem postOrderAt_infix {a : Arena} {i j : Fin a.size} (h : j ∈ a.postOrderAt i) :
    a.postOrderAt j <:+: a.postOrderAt i := by
  fun_induction a.postOrderAt i with
  | case1 i v hview =>
    obtain rfl := List.mem_singleton.1 h
    simp [postOrderAt_of_view_leaf hview]
  | case2 i op l r hl hr hview ihl ihr =>
    rw [List.mem_append, List.mem_append] at h
    rcases h with (h | h) | h
    · have hprefix : a.postOrderAt l <+: a.postOrderAt l ++ a.postOrderAt r ++ [i] := by
        rw [List.append_assoc]
        exact List.prefix_append _ _
      exact (ihl h).trans hprefix.isInfix
    · exact (ihr h).trans ⟨a.postOrderAt l, [i], rfl⟩
    · obtain rfl := List.mem_singleton.1 h
      simp [postOrderAt_of_view_binary hview]

/-- The walk from a node ends with the node. -/
theorem exists_postOrderAt_eq_append (a : Arena) (i : Fin a.size) :
    ∃ front, a.postOrderAt i = front ++ [i] := by
  cases hview : a.view i with
  | leaf v => exact ⟨[], postOrderAt_of_view_leaf hview⟩
  | binary op l r hl hr => exact ⟨_, postOrderAt_of_view_binary hview⟩

/-- The walk visits the right operand of an operator just before the operator. -/
theorem infix_postOrderAt_of_view_binary {a : Arena} {i : Fin a.size} {op : Operator}
    {l r : Fin a.size} {hl : l.val < i.val} {hr : r.val < i.val}
    (h : a.view i = .binary op l r hl hr) : [r, i] <:+: a.postOrderAt i := by
  obtain ⟨front, hfront⟩ := a.exists_postOrderAt_eq_append r
  refine ⟨a.postOrderAt l ++ front, [], ?_⟩
  rw [postOrderAt_of_view_binary h, hfront]
  simp

/-- The nodes of an arena, in the order of their positions, are all its nodes. -/
theorem map_node_finRange (a : Arena) : (List.finRange a.size).map a.node = a.nodes.toList :=
  List.map_getElem_finRange a.nodes.toList

end Arena

/-- The nodes under the operands, from the earliest to the latest, fill the arena in order. -/
def Forest.InOrder (f : Forest) : Prop :=
  f.arena.size ≤ 2 ^ 32 →
    f.roots.reverse.flatMap f.arena.positionsUnder = List.range f.arena.size

/-- The parser adds every node behind those of its operands, so that the nodes stay in order. -/
theorem Forest.kept_inOrder : Kept InOrder where
  empty := fun _ => rfl
  leaf := by
    intro f v hf hsize
    have hroom : f.arena.size < 2 ^ 32 := by
      have hsize : (f.arena.leaf v).size ≤ 2 ^ 32 := hsize
      rwa [Arena.size_leaf] at hsize
    have hearlier : f.roots.reverse.flatMap (f.arena.leaf v).positionsUnder =
        f.roots.reverse.flatMap f.arena.positionsUnder := by
      apply List.flatMap_congr
      intro id hid
      exact Arena.positionsUnder_push (f.owned id (List.mem_reverse.1 hid)) (.leaf v) trivial
    change (f.arena.nextId :: f.roots).reverse.flatMap (f.arena.leaf v).positionsUnder =
      List.range (f.arena.leaf v).size
    rw [List.reverse_cons, List.flatMap_append, hearlier, hf (Nat.le_of_lt hroom),
      List.flatMap_singleton, Arena.positionsUnder_leaf hroom, Arena.size_leaf, List.range_succ]
  join := by
    intro f op joined hjoin hf hsize
    obtain ⟨arena, roots, owned⟩ := f
    match roots, owned, hjoin, hf with
    | right :: left :: rest, owned, hjoin, hf =>
      cases hjoin
      have hl : arena.Owns left := owned left (by simp)
      have hr : arena.Owns right := owned right (by simp)
      change (arena.binary op left right hl hr).size ≤ 2 ^ 32 at hsize
      change (arena.nextId :: rest).reverse.flatMap
        (arena.binary op left right hl hr).positionsUnder =
          List.range (arena.binary op left right hl hr).size
      rw [Arena.size_binary] at hsize ⊢
      have hall := hf (Nat.le_of_lt hsize)
      have hearlier : rest.reverse.flatMap (arena.binary op left right hl hr).positionsUnder =
          rest.reverse.flatMap arena.positionsUnder := by
        apply List.flatMap_congr
        intro id hid
        have hrest : id ∈ rest := List.mem_reverse.1 hid
        exact Arena.positionsUnder_push (owned id (by simp [hrest])) (.binary op left right)
          ⟨hl, hr⟩
      simp only [List.reverse_cons, List.flatMap_append, List.flatMap_singleton] at hall ⊢
      rw [hearlier, Arena.positionsUnder_binary hsize, List.range_succ, ← hall]
      simp only [List.append_assoc]

/-- The walk of a tree that has been read visits the positions in increasing order. -/
theorem postOrder_eq_finRange_of_parse_eq_ok {text : List Char} {t : Tree}
    (h : parse text = .ok t) (hsize : t.arena.size ≤ 2 ^ 32) :
    t.postOrder = List.finRange t.arena.size := by
  obtain ⟨f, hf, harena, hroots⟩ := Forest.kept_inOrder.exists_of_parse_eq_ok h
  have hpositions : t.arena.positionsUnder t.root = List.range t.arena.size := by
    have horder := hf (harena ▸ hsize)
    rw [hroots, harena] at horder
    simpa using horder
  rw [Arena.positionsUnder_of_owns t.owns_root, ← List.map_coe_finRange_eq_range] at hpositions
  rw [t.postOrder_eq]
  exact List.map_injective_iff.2 Fin.val_injective hpositions

/-- The arena of a tree that has been read holds the nodes in post-order.  So the root is the last
one, every node belongs to the tree, there are as many as leaves and operators, and the right
operand of an operator lies just before it. -/
theorem nodes_in_postOrder_of_parse_eq_ok {text : List Char} {t : Tree} (h : parse text = .ok t)
    (hsize : t.arena.size ≤ 2 ^ 32) :
    t.postOrder = List.finRange t.arena.size ∧
    t.postOrder.map t.arena.node = t.arena.nodes.toList ∧
    t.toExpr.postOrder = t.arena.nodes.toList.map Node.symbol ∧
    t.root.index + 1 = t.arena.size ∧
    (∀ i, t.Contains i) ∧
    t.arena.size = t.shape.leafCount + t.shape.operatorCount ∧
    ∀ i op l r, t.arena.node i = .binary op l r → r.index + 1 = i.val := by
  have horder := postOrder_eq_finRange_of_parse_eq_ok h hsize
  have hnodes : t.postOrder.map t.arena.node = t.arena.nodes.toList := by
    rw [horder, Arena.map_node_finRange]
  have hsymbols : t.toExpr.postOrder = t.arena.nodes.toList.map Node.symbol := by
    rw [← t.symbols_eq, ← hnodes, List.map_map]
    rfl
  refine ⟨horder, hnodes, hsymbols, ?_, ?_, ?_, ?_⟩
  · obtain ⟨front, hfront⟩ := t.arena.exists_postOrderAt_eq_append t.rootIndex
    rw [← t.postOrder_eq, horder] at hfront
    obtain ⟨earlier, hearlier⟩ : ∃ earlier, List.range t.arena.size = earlier ++ [t.root.index] :=
      ⟨front.map Fin.val, by rw [← List.map_coe_finRange_eq_range, hfront, List.map_append]; rfl⟩
    obtain ⟨m, hm⟩ := Nat.exists_eq_add_of_lt t.owns_root
    rw [hm, List.range_succ] at hearlier
    have hlast : t.root.index + m = t.root.index :=
      List.singleton_inj.1 (List.append_inj' hearlier rfl).2
    omega
  · intro i
    rw [← t.mem_postOrder_iff, horder]
    exact List.mem_finRange i
  · have hlength := congrArg List.length hsymbols
    rw [Expr.length_postOrder, List.length_map, Array.length_toList, Expr.size_eq] at hlength
    rw [t.shape_eq]
    exact hlength.symm
  · intro i op l r hnode
    have hbelow := t.arena.node_below i
    rw [hnode] at hbelow
    have hl : l.index < t.arena.size := Nat.lt_trans hbelow.1 i.isLt
    have hr : r.index < t.arena.size := Nat.lt_trans hbelow.2 i.isLt
    obtain ⟨_, _, hview⟩ := Arena.view_of_node_binary hnode hl hr
    have hvisited : i ∈ t.arena.postOrderAt t.rootIndex := by
      rw [← t.postOrder_eq, horder]
      exact List.mem_finRange i
    have hneighbours := (Arena.infix_postOrderAt_of_view_binary hview).trans
      (Arena.postOrderAt_infix hvisited)
    rw [← t.postOrder_eq, horder] at hneighbours
    have hinfix := hneighbours.map Fin.val
    rw [List.map_coe_finRange_eq_range] at hinfix
    have hchain : (List.range t.arena.size).IsChain fun x y => x + 1 = y := by
      rw [List.isChain_range]
      intro m _
      rfl
    have hpair := hchain.infix hinfix
    simpa using hpair

/-- In a difference whose second operand is a product with a bracketed sum, the sum is joined at the
closing bracket, and the product and the difference at the end of the text. -/
theorem nodes_in_postOrder_eight_minus_product :
    ∃ t, parse "8-(1+2)*3".toList = .ok t ∧ t.arena.size ≤ 2 ^ 32 ∧
      t.arena.nodes.toList =
        [.leaf 8, .leaf 1, .leaf 2, .binary .add ⟨1⟩ ⟨2⟩, .leaf 3, .binary .mul ⟨3⟩ ⟨4⟩,
          .binary .sub ⟨0⟩ ⟨5⟩] ∧
      t.toExpr.postOrder =
        [.value 8, .value 1, .value 2, .operator .add, .value 3, .operator .mul, .operator .sub] ∧
      t.root.index = 6 := by
  have hnodes : (parse "8-(1+2)*3".toList).toOption.map (fun t => t.arena.nodes.toList) =
      some [.leaf 8, .leaf 1, .leaf 2, .binary .add ⟨1⟩ ⟨2⟩, .leaf 3, .binary .mul ⟨3⟩ ⟨4⟩,
        .binary .sub ⟨0⟩ ⟨5⟩] := by decide +kernel
  obtain ⟨t, hparse, hnodes⟩ := Option.map_eq_some_iff.1 hnodes
  have hsize : t.arena.size = 7 := congrArg List.length hnodes
  have ht := eq_ok_of_toOption_eq_some hparse
  obtain ⟨-, -, hsymbols, hroot, -⟩ := nodes_in_postOrder_of_parse_eq_ok ht (by omega)
  rw [hnodes] at hsymbols
  exact ⟨t, ht, by omega, hnodes, hsymbols, by omega⟩

end Reckoner
