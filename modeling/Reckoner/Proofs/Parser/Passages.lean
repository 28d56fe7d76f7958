import Reckoner.Proofs.Parser.Derivation

/-!
# Every node is a passage of the text

Ids are exact only as long as an arena holds at most `2 ^ 32` nodes, and a text may well have
more.  Its root then names some earlier node.  That node was added while ids were still exact, so
it denotes what some passage of the text derives.  Hence the tree that is read from a text, of
whatever length, denotes an expression that the grammar derives from consecutive tokens of the
text.

The invariant speaks of all positions that an id can name, and not of the operands alone: an
operand whose id has wrapped around is no more than one of these positions.
-/

set_option autoImplicit false

namespace Reckoner

/-- Some consecutive ones of the tokens derive the expression. -/
def PassageOf (tokens : List Token) (e : Expr) : Prop :=
  ∃ passage, passage <:+: tokens ∧ Derives .expression passage e

/-- A passage of some tokens is one of any tokens that begin with them. -/
theorem PassageOf.append {tokens : List Token} {e : Expr} (h : PassageOf tokens e)
    (more : List Token) : PassageOf (tokens ++ more) e := by
  obtain ⟨passage, hpassage, hderives⟩ := h
  exact ⟨passage, hpassage.trans (List.prefix_append tokens more).isInfix, hderives⟩

/-- The latest operand is a passage of the tokens read so far. -/
theorem Complete.passageOf {least : Nat} {tokens : List Token} {waiting : List Waiting} {e : Expr}
    {operands : List Expr} (h : Complete least tokens waiting (e :: operands)) :
    PassageOf tokens e := by
  obtain @⟨before, left, waiting, operands, e, level, -, he, -, -⟩ := h
  exact ⟨left, (List.suffix_append before left).isInfix,
    he.of_precedence_le level.one_le_precedence⟩

namespace Arena

/-- Every position that an id can name denotes a passage of the tokens. -/
def Quotes (a : Arena) (tokens : List Token) : Prop :=
  ∀ i : Fin a.size, i.val < 2 ^ 32 → PassageOf tokens (a.exprAt i)

/-- An empty arena has no position that could denote something else. -/
theorem quotes_empty (tokens : List Token) : empty.Quotes tokens := fun i => i.elim0

/-- Passages of the tokens so far are passages of those to come. -/
theorem Quotes.append {a : Arena} {tokens : List Token} (h : a.Quotes tokens)
    (more : List Token) : a.Quotes (tokens ++ more) :=
  fun i hi => (h i hi).append more

/-- Adding a node that denotes a passage, while ids are exact, keeps this; so does adding any node
when they are not. -/
theorem Quotes.push {a : Arena} {tokens : List Token} (h : a.Quotes tokens) (n : Node)
    (hn : n.Below a.size)
    (hnew : a.size < 2 ^ 32 → ∃ e, (a.push n hn).Denotes a.nextId e ∧ PassageOf tokens e) :
    (a.push n hn).Quotes tokens := by
  rintro ⟨i, hi⟩ hid
  rw [size_push] at hi
  rcases Nat.lt_or_eq_of_le (Nat.le_of_lt_succ hi) with hlt | rfl
  · rw [a.exprAt_push n hn i hlt]
    exact h ⟨i, hlt⟩ hid
  · obtain ⟨e, ⟨hnext, he⟩, hpassage⟩ := hnew hid
    have hindex : a.nextId.index = a.size := index_nextId hid
    simp only [hindex] at he
    rw [he]
    exact hpassage

end Arena

namespace Forest

variable {f next : Forest} {tokens : List Token}

/-- A number that is added denotes the last of the tokens, or stands where no id can name it. -/
theorem quotes_leaf (h : f.arena.Quotes tokens) (v : Int64) :
    (f.leaf v).arena.Quotes (tokens ++ [.number v]) := by
  apply (h.append [.number v]).push
  intro hroom
  have hnumber : Derives .expression [.number v] (.leaf v) :=
    (Derives.number v).of_precedence_le (Level.one_le_precedence _)
  exact ⟨.leaf v, Arena.denotes_leaf hroom v, [.number v],
    (List.suffix_append tokens [.number v]).isInfix, hnumber⟩

/-- Joining two operands adds a node that denotes a passage, or stands where no id can name it. -/
theorem quotes_join? {op : Operator} {e : Expr} {below : List Expr}
    (h : f.arena.Quotes tokens) (hjoin : f.join? op = some next)
    (hdenotes : next.Denotes (e :: below)) (he : PassageOf tokens e) :
    next.arena.Quotes tokens := by
  obtain ⟨arena, roots, owned⟩ := f
  match roots, owned, hjoin with
  | right :: left :: _, owned, hjoin =>
    cases hjoin
    have hleft : arena.Owns left := owned left (by simp)
    have hright : arena.Owns right := owned right (by simp)
    apply Arena.Quotes.push h (.binary op left right) ⟨hleft, hright⟩
    intro hroom
    have hsize : (arena.binary op left right hleft hright).size ≤ 2 ^ 32 := by
      rw [Arena.size_binary]
      exact hroom
    obtain ⟨hroot, -⟩ := List.forall₂_cons.1 (hdenotes.2 hsize)
    exact ⟨e, hroot, he⟩

/-- Operators that take their operands add passages only. -/
theorem quotes_settle {least : Nat} {waiting below : List Waiting} {operands : List Expr}
    (h : f.arena.Quotes tokens) (hdenotes : f.Denotes operands)
    (hcomplete : Complete least tokens waiting operands)
    (hsettle : settle Forest.join? least waiting f = some (below, next)) :
    next.arena.Quotes tokens := by
  induction waiting generalizing f operands with
  | nil =>
    cases hsettle
    exact h
  | cons w rest ih =>
    cases w with
    | bracket opened =>
      cases hsettle
      exact h
    | operator held =>
      rw [settle] at hsettle
      split at hsettle
      case isFalse =>
        cases hsettle
        exact h
      next hbinds =>
      obtain ⟨e, under, hexprs, hjoined⟩ := hcomplete.join hbinds
      obtain ⟨-, hnone⟩ | ⟨mid, _, hmid, hsome, hmidDenotes⟩ := rel_cases (hdenotes.join? held)
      · rw [hexprs] at hnone
        cases hnone
      · rw [hexprs] at hsome
        cases hsome
        rw [hmid] at hsettle
        exact ih (quotes_join? h hmid hmidDenotes hjoined.passageOf) hmidDenotes hjoined hsettle

end Forest

namespace Parser

/-- A parser that shows a reading of the tokens, with passages of them in its arena. -/
structure Quotes (p : Parser) (tokens : List Token) : Prop where
  shows : ∃ s, p.Shows s ∧ s.Reads tokens
  arena : p.forest.arena.Quotes tokens

/-- The invariant holds before the first token. -/
theorem quotes_start : start.Quotes [] :=
  ⟨⟨Reading.start, Shows.start, Reading.reads_start⟩, Arena.quotes_empty []⟩

/-- Behind an operand, operators that take their operands add passages only. -/
theorem Quotes.settle {p : Parser} {tokens : List Token} (h : p.Quotes tokens)
    (hexpects : p.expectsOperand = false) {least : Nat} (hleast : least ≤ Level.factor.precedence)
    {below : List Waiting} {joined : Forest}
    (hsettle : Reckoner.settle Forest.join? least p.waiting p.forest = some (below, joined)) :
    joined.arena.Quotes tokens := by
  obtain ⟨s, hshows, hreads⟩ := h.shows
  have hcomplete : Complete Level.factor.precedence tokens s.waiting s.operands := by
    unfold Reading.Reads at hreads
    rwa [← hshows.expectsOperand, hexpects, if_neg Bool.false_ne_true] at hreads
  rw [hshows.waiting] at hsettle
  exact Forest.quotes_settle h.arena hshows.forest (hcomplete.mono hleast) hsettle

/-- A token that is taken adds passages only. -/
theorem Quotes.takes {p next : Parser} {tokens : List Token} (h : p.Quotes tokens) {t : Token}
    (hplace : t.startsOperand = p.expectsOperand) {position : Nat}
    (htakes : p.Takes position t next) : next.forest.arena.Quotes (tokens ++ [t]) := by
  cases htakes with
  | number v => exact Forest.quotes_leaf h.arena v
  | openBracket => exact h.arena.append _
  | @operator op _ _ hsettle =>
    have hbinds : op.precedence ≤ Level.factor.precedence := by cases op <;> decide
    exact (h.settle hplace.symm hbinds hsettle).append _
  | closeBracket hsettle => exact (h.settle hplace.symm (Nat.zero_le _) hsettle).append _

/-- A lexeme that is taken is a token, and keeps the invariant. -/
theorem Quotes.step {p next : Parser} {tokens : List Token} (h : p.Quotes tokens)
    {lexeme : Lexeme} (hstep : p.step lexeme = .ok next) :
    ∃ t, lexeme.item = .token t ∧ next.Quotes (tokens ++ [t]) := by
  obtain ⟨s, hshows, hreads⟩ := h.shows
  have hrel := hshows.step lexeme
  rw [hstep] at hrel
  obtain ⟨hnone, -⟩ | ⟨_, after, hnext, hafter, hnextShows⟩ := rel_cases hrel
  · cases hnone
  cases hnext
  obtain ⟨t, ht, hnextReads⟩ := hreads.step? hafter
  obtain ⟨t', ht', hplace, htakes⟩ := exists_takes_of_step hstep
  cases ht.symm.trans ht'
  exact ⟨t, ht, ⟨after, hnextShows, hnextReads⟩, h.takes hplace htakes⟩

/-- Lexemes that are taken in turn are tokens, and keep the invariant. -/
theorem Quotes.run {p last : Parser} {tokens : List Token} (h : p.Quotes tokens)
    {lexemes : List Lexeme} (hrun : p.run lexemes = .ok last) :
    ∃ more, lexemes.map Lexeme.item = more.map Item.token ∧ last.Quotes (tokens ++ more) := by
  induction lexemes generalizing p tokens with
  | nil =>
    cases hrun
    exact ⟨[], rfl, (List.append_nil tokens).symm ▸ h⟩
  | cons lexeme rest ih =>
    obtain ⟨next, hstep, hrest⟩ := exists_step_of_run_cons hrun
    obtain ⟨t, ht, hnext⟩ := h.step hstep
    obtain ⟨more, hmore, hlast⟩ := ih hnext hrest
    refine ⟨t :: more, ?_, ?_⟩
    · rw [List.map_cons, List.map_cons, ht, hmore]
    · rwa [List.append_assoc] at hlast

/-- The tree at the end of a text denotes a passage of its tokens. -/
theorem Quotes.finish {p : Parser} {tokens : List Token} (h : p.Quotes tokens)
    (hexpects : p.expectsOperand = false) {stop : Nat} {t : Tree}
    (hfinish : p.finish stop = .ok t) : PassageOf tokens t.toExpr := by
  obtain ⟨owned, hsettle⟩ := exists_settle_of_finish hfinish
  have hquotes := h.settle hexpects (Nat.zero_le _) hsettle
  exact hquotes t.rootIndex t.root.number.toNat_lt

end Parser

/-- A text that is read consists of tokens, and some consecutive ones of them derive the expression
that its tree denotes, however many there are. -/
theorem passageOf_of_parse_eq_ok {text : List Char} {t : Tree} (h : parse text = .ok t) :
    ∃ tokens, (Lexeme.scan text).map Lexeme.item = tokens.map Item.token ∧
      PassageOf tokens t.toExpr := by
  obtain ⟨p, hrun, hexpects, hfinish⟩ := exists_run_of_parse_eq_ok h
  obtain ⟨tokens, htokens, hquotes⟩ := Parser.quotes_start.run hrun
  exact ⟨tokens, htokens, hquotes.finish hexpects hfinish⟩

end Reckoner
