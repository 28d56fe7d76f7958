import Reckoner.Proofs.Parser.Derivation

/-!
# How many nodes a parser adds

A number adds a node at once.  An operator waits first and adds its node when it takes its
operands, so the nodes in the arena and the operators that wait are together as many as the
numbers and operators read so far.  At the end nothing waits: the arena of a tree that has been
read holds one node for each number and each operator of the text, and since the expression of
the tree has as many, no node lies there unused.
-/

set_option autoImplicit false

namespace Reckoner

/-- A number or an operator, for which a node is added. -/
def Token.addsNode : Token → Bool
  | number _ | operator _ => true
  | openBracket | closeBracket => false

/-- A token for which a node is added. -/
def Item.addsNode : Item → Bool
  | token t => t.addsNode
  | bad _ => false

/-- The number of operators that wait. -/
def operatorsWaiting : List Waiting → Nat
  | [] => 0
  | .operator _ :: below => operatorsWaiting below + 1
  | .bracket _ :: below => operatorsWaiting below

/-- Joining two operands adds one node. -/
theorem Forest.size_join? {f joined : Forest} {op : Operator} (h : f.join? op = some joined) :
    joined.arena.size = f.arena.size + 1 := by
  obtain ⟨arena, roots, owned⟩ := f
  match roots, owned, h with
  | right :: left :: _, owned, h =>
    cases h
    exact Arena.size_binary arena op left right (owned left (by simp)) (owned right (by simp))

/-- An operator that takes its operands leaves the stack and adds its node. -/
theorem size_settle {least : Nat} {waiting below : List Waiting} {f joined : Forest}
    (h : settle Forest.join? least waiting f = some (below, joined)) :
    joined.arena.size + operatorsWaiting below = f.arena.size + operatorsWaiting waiting := by
  refine settle_kept (R := fun w g => g.arena.size + operatorsWaiting w =
    f.arena.size + operatorsWaiting waiting) ?_ h rfl
  intro held below g next _ hjoin hsum
  have hsize := Forest.size_join? hjoin
  rw [operatorsWaiting] at hsum
  omega

namespace Parser

/-- The nodes in the arena and those still to be added for the operators that wait. -/
def nodeCount (p : Parser) : Nat := p.forest.arena.size + operatorsWaiting p.waiting

/-- A token that is taken adds its node at once if it is a number, and is to add it later if it is
an operator. -/
theorem Takes.nodeCount_eq {p next : Parser} {t : Token} {position : Nat}
    (h : p.Takes position t next) :
    next.nodeCount = p.nodeCount + if t.addsNode then 1 else 0 := by
  cases h with
  | number v =>
    change (p.forest.arena.leaf v).size + operatorsWaiting p.waiting = _
    rw [Arena.size_leaf]
    exact Nat.add_right_comm _ _ _
  | openBracket => rfl
  | operator hsettle => exact congrArg (· + 1) (size_settle hsettle)
  | closeBracket hsettle =>
    have hsize := size_settle hsettle
    exact hsize

/-- A lexeme that is taken counts one node, unless it is a bracket. -/
theorem nodeCount_step {p next : Parser} {lexeme : Lexeme} (h : p.step lexeme = .ok next) :
    next.nodeCount = p.nodeCount + if lexeme.item.addsNode then 1 else 0 := by
  obtain ⟨t, ht, -, htakes⟩ := exists_takes_of_step h
  rw [ht]
  exact htakes.nodeCount_eq

/-- Lexemes that are taken count one node each, brackets apart. -/
theorem nodeCount_run {p last : Parser} {lexemes : List Lexeme} (h : p.run lexemes = .ok last) :
    last.nodeCount = p.nodeCount + lexemes.countP fun x => x.item.addsNode := by
  induction lexemes generalizing p with
  | nil => cases h; rfl
  | cons lexeme rest ih =>
    obtain ⟨next, hnext, hrest⟩ := exists_step_of_run_cons h
    rw [ih hrest, nodeCount_step hnext, List.countP_cons]
    omega

/-- At the end of a text every operator that waits has added its node. -/
theorem size_finish {p : Parser} {stop : Nat} {t : Tree} (h : p.finish stop = .ok t) :
    t.arena.size = p.nodeCount := by
  obtain ⟨owned, hsettle⟩ := exists_settle_of_finish h
  exact size_settle hsettle

end Parser

/-- The arena of a tree that has been read holds a node for each number and operator. -/
theorem size_of_parse_eq_ok {text : List Char} {t : Tree} (h : parse text = .ok t) :
    t.arena.size = (Lexeme.scan text).countP fun x => x.item.addsNode := by
  obtain ⟨p, hrun, -, hfinish⟩ := exists_run_of_parse_eq_ok h
  rw [Parser.size_finish hfinish, Parser.nodeCount_run hrun]
  exact Nat.zero_add _

/-- An expression has a node for each number and operator from which it is derived. -/
theorem Derives.size_eq {level : Level} {tokens : List Token} {e : Expr}
    (h : Derives level tokens e) : e.size = tokens.countP Token.addsNode := by
  induction h with
  | number v => rfl
  | bracketed inner ih => simp [ih, Token.addsNode]
  | descend loose inner ih => exact ih
  | chain chained hl hr ihl ihr =>
    simp only [Expr.size, ihl, ihr, List.countP_append, List.countP_cons, Token.addsNode, if_true]
    omega

/-- The leaves of an expression are the numbers from which it is derived. -/
theorem Derives.leaf_mem {level : Level} {tokens : List Token} {e : Expr}
    (h : Derives level tokens e) : ∀ v ∈ e.leaves, Token.number v ∈ tokens := by
  induction h with
  | number v => simp [Expr.leaves]
  | bracketed inner ih =>
    intro v hv
    simp [ih v hv]
  | descend loose inner ih => exact ih
  | chain chained hl hr ihl ihr =>
    intro v hv
    rcases List.mem_append.1 hv with hv | hv
    · exact List.mem_append_left _ (ihl v hv)
    · exact List.mem_append_right _ (List.mem_cons_of_mem _ (ihr v hv))

/-- Lexemes count as many nodes as the tokens that they are. -/
theorem countP_addsNode {lexemes : List Lexeme} {tokens : List Token}
    (h : lexemes.map Lexeme.item = tokens.map Item.token) :
    (lexemes.countP fun x => x.item.addsNode) = tokens.countP Token.addsNode := by
  have hleft : (lexemes.map Lexeme.item).countP Item.addsNode =
      lexemes.countP (Item.addsNode ∘ Lexeme.item) := List.countP_map
  rw [h, List.countP_map] at hleft
  exact hleft.symm

/-- A text whose tokens derive an expression is read in an arena of the expression's size, and as
this expression if ids are exact. -/
theorem exists_parse_eq_ok_of_derives {text : List Char} {tokens : List Token} {e : Expr}
    (htokens : (Lexeme.scan text).map Lexeme.item = tokens.map Item.token)
    (he : Derives .expression tokens e) :
    ∃ t, parse text = .ok t ∧ t.arena.size = e.size ∧ (e.size ≤ 2 ^ 32 → t.toExpr = e) := by
  have hrel := parse_rel_read? text
  rw [(read?_eq_some_iff _ e).2 ⟨tokens, htokens, he⟩] at hrel
  obtain ⟨-, hnone⟩ | ⟨t, x, ht, hx, hdenotes⟩ := rel_cases hrel
  · cases hnone
  cases hx
  have hparse : parse text = .ok t := eq_ok_of_toOption_eq_some ht
  have harena : t.arena.size = e.size := by
    rw [size_of_parse_eq_ok hparse, countP_addsNode htokens, ← he.size_eq]
  exact ⟨t, hparse, harena, fun hsize => hdenotes (harena ▸ hsize)⟩

/-- A text whose tokens derive an expression that is not too large is read as this expression,
in an arena that holds nothing else. -/
theorem exists_parse_eq_ok {text : List Char} {tokens : List Token} {e : Expr}
    (htokens : (Lexeme.scan text).map Lexeme.item = tokens.map Item.token)
    (he : Derives .expression tokens e) (hsize : e.size ≤ 2 ^ 32) :
    ∃ t, parse text = .ok t ∧ t.toExpr = e ∧ t.arena.size = e.size := by
  obtain ⟨t, hparse, harena, hdenotes⟩ := exists_parse_eq_ok_of_derives htokens he
  exact ⟨t, hparse, hdenotes hsize, harena⟩

/-- A tree that has been read, and is not too large, denotes the expression that the tokens of
the text derive, and every node of its arena belongs to the expression. -/
theorem derives_of_parse_eq_ok {text : List Char} {t : Tree} (h : parse text = .ok t)
    (hsize : t.arena.size ≤ 2 ^ 32) :
    ∃ tokens, (Lexeme.scan text).map Lexeme.item = tokens.map Item.token ∧
      Derives .expression tokens t.toExpr ∧ t.toExpr.size = t.arena.size := by
  have hrel := parse_rel_read? text
  rw [h] at hrel
  obtain ⟨hnone, -⟩ | ⟨u, e, hu, he, hdenotes⟩ := rel_cases hrel
  · cases hnone
  cases hu
  obtain ⟨tokens, htokens, hderives⟩ := (read?_eq_some_iff _ e).1 he
  rw [hdenotes hsize]
  refine ⟨tokens, htokens, hderives, ?_⟩
  rw [size_of_parse_eq_ok h, countP_addsNode htokens, ← hderives.size_eq]

end Reckoner
