import Reckoner.Proofs.Parser.Reading

/-!
# Induction over the forests of a parser

A parser changes its forest in two ways only: a number adds an operand, and an operator that has
waited joins the two latest ones.  Whatever these two keep holds of the forest that is left at the
end of a text, and this forest is the tree that has been read.
-/

set_option autoImplicit false

namespace Reckoner

/-- A property of forests that adding a number and joining two operands keep. -/
structure Forest.Kept (P : Forest → Prop) : Prop where
  empty : P .empty
  leaf : ∀ f v, P f → P (f.leaf v)
  join : ∀ f op joined, f.join? op = some joined → P f → P joined

namespace Forest.Kept

variable {P : Forest → Prop}

/-- Operators that take their operands keep the property. -/
theorem settle (h : Kept P) {least : Nat} {waiting below : List Waiting} {f joined : Forest}
    (hsettle : settle Forest.join? least waiting f = some (below, joined)) (hf : P f) :
    P joined :=
  settle_kept (R := fun _ f => P f) (fun _ hnext hf => h.join _ _ _ hnext hf) hsettle hf

/-- A token that is taken keeps the property. -/
theorem takes (h : Kept P) {p next : Parser} {t : Token} {position : Nat}
    (htakes : p.Takes position t next) (hp : P p.forest) : P next.forest := by
  cases htakes with
  | number v => exact h.leaf p.forest v hp
  | openBracket => exact hp
  | operator hsettle => exact h.settle hsettle hp
  | closeBracket hsettle => exact h.settle hsettle hp

/-- A lexeme that is taken keeps the property. -/
theorem step (h : Kept P) {p next : Parser} {lexeme : Lexeme} (hstep : p.step lexeme = .ok next)
    (hp : P p.forest) : P next.forest := by
  obtain ⟨t, -, -, htakes⟩ := Parser.exists_takes_of_step hstep
  exact h.takes htakes hp

/-- Lexemes that are taken in turn keep the property. -/
theorem run (h : Kept P) {p last : Parser} {lexemes : List Lexeme} (hrun : p.run lexemes = .ok last)
    (hp : P p.forest) : P last.forest := by
  induction lexemes generalizing p with
  | nil =>
    cases hrun
    exact hp
  | cons lexeme rest ih =>
    obtain ⟨next, hnext, hrest⟩ := Parser.exists_step_of_run_cons hrun
    exact ih hrest (h.step hnext hp)

/-- At the end one operand is left, the root of the tree. -/
theorem finish (h : Kept P) {p : Parser} {stop : Nat} {t : Tree} (hfinish : p.finish stop = .ok t)
    (hp : P p.forest) : ∃ f, P f ∧ f.arena = t.arena ∧ f.roots = [t.root] := by
  obtain ⟨owned, hsettle⟩ := Parser.exists_settle_of_finish hfinish
  exact ⟨⟨t.arena, [t.root], owned⟩, h.settle hsettle hp, rfl, rfl⟩

/-- A tree that has been read is a forest of one operand, and has what all forests keep. -/
theorem exists_of_parse_eq_ok (h : Kept P) {text : List Char} {t : Tree}
    (ht : parse text = .ok t) : ∃ f, P f ∧ f.arena = t.arena ∧ f.roots = [t.root] := by
  obtain ⟨p, hrun, -, hfinish⟩ := exists_run_of_parse_eq_ok ht
  exact h.finish hfinish (h.run hrun h.empty)

end Forest.Kept

end Reckoner
