import Reckoner.Proofs.Target.Processor

/-!
# A compiled tree as instructions

The code of a tree is the instructions of its emission records, one record after the other, and
then those that end a program.  What the records do to the stack mirrors what their symbols do to
the pending operands, so the stack depth of the tree bounds the cells; and the branches of a
record stay within it.  Where in this list an instruction stands tells the record it belongs to.
-/

set_option autoImplicit false

namespace Reckoner

/-- The instructions of an emission record. -/
def Emission.instructions (target : Target) : Emission → List target.Instruction
  | .fetch slot elided => (target.fetchPieces slot !elided).flatten
  | .operator op _ => (target.operatorPieces op).flatten

/-- The instructions of emission records. -/
def Emission.allInstructions (target : Target) (records : List Emission) :
    List target.Instruction := records.flatMap (instructions target)

/-- The instructions of a tree, with those that end a program. -/
def Tree.instructions (target : Target) (t : Tree) : List target.Instruction :=
  Emission.allInstructions target (Knowledge.start.emissions t.symbols) ++
    target.epilogueInstructions

namespace Emission

variable {target : Target}

/-- The code of a record is the bytes of its instructions. -/
theorem bytes_instructions (r : Emission) :
    target.bytes (r.instructions target) = r.code target := by
  cases r with
  | fetch slot elided =>
    rw [instructions, target.bytes_flatten, ← target.fetch_eq]
    rfl
  | operator op indexAfter =>
    rw [instructions, target.bytes_flatten, ← target.operator_eq]
    rfl

/-- The code of records is the bytes of their instructions. -/
theorem bytes_allInstructions (records : List Emission) :
    target.bytes (allInstructions target records) = records.flatMap (code target) := by
  induction records with
  | nil => rfl
  | cons r records ih =>
    rw [allInstructions, List.flatMap_cons, target.bytes_append, r.bytes_instructions,
      List.flatMap_cons]
    exact congrArg _ ih

/-- The instructions of two runs of records follow one another. -/
theorem allInstructions_append (xs ys : List Emission) :
    allInstructions target (xs ++ ys) = allInstructions target xs ++ allInstructions target ys :=
  List.flatMap_append

/-- The instructions of the first record come first. -/
theorem allInstructions_cons (r : Emission) (rest : List Emission) :
    allInstructions target (r :: rest) = r.instructions target ++ allInstructions target rest :=
  List.flatMap_cons

/-- Every instruction belongs to a record. -/
theorem exists_of_getElem?_allInstructions {records : List Emission} {j : Nat}
    {i : target.Instruction} (h : (allInstructions target records)[j]? = some i) :
    ∃ front r rest k, records = front ++ r :: rest ∧
      j = (allInstructions target front).length + k ∧ (r.instructions target)[k]? = some i := by
  induction records generalizing j with
  | nil => cases h
  | cons r records ih =>
    rw [allInstructions_cons] at h
    rcases Nat.lt_or_ge j (r.instructions target).length with hj | hj
    · rw [List.getElem?_append_left hj] at h
      exact ⟨[], r, records, j, rfl, (Nat.zero_add j).symm, h⟩
    · rw [List.getElem?_append_right hj] at h
      obtain ⟨front, r', rest, k, rfl, hk, hi⟩ := ih h
      refine ⟨r :: front, r', rest, k, rfl, ?_, hi⟩
      rw [allInstructions_cons, List.length_append]
      omega

/-- The branches of a record stay within it. -/
theorem closed_instructions (r : Emission) : target.processor.Closed (r.instructions target) := by
  cases r with
  | fetch slot elided =>
    exact target.processor.closed_of_skip?_eq_none (target.skip?_of_mem_fetch slot !elided)
  | operator op indexAfter => exact target.closed_operator op

/-- No branch leaves the instructions of some records, as none leaves its own record. -/
theorem closed_allInstructions (records : List Emission) :
    target.processor.Closed (allInstructions target records) := by
  induction records with
  | nil => exact target.processor.closed_of_skip?_eq_none fun i hi => by cases hi
  | cons r records ih =>
    rw [allInstructions_cons]
    exact r.closed_instructions.append target.processor ih

end Emission

namespace Knowledge

variable {target : Target} {bound : Nat}

/-- What a symbol does to the pending operands, its code does to the cells. -/
theorem cellsAfterAll?_emission (target : Target) (k : Knowledge) {n after : Nat} (hn : n ≤ bound)
    {s : Symbol} (h : s.pendingAfter? bound n = some after) :
    target.processor.cellsAfterAll? bound n ((k.emission s).instructions target) = some after ∧
      after ≤ bound := by
  rw [target.processor.cellsAfterAll?_eq]
  cases s with
  | value v =>
    obtain ⟨hlt, rfl⟩ := Symbol.lt_of_pendingAfter?_value_eq_some h
    rw [emission, Emission.instructions, target.stackMoves_fetch]
    refine ⟨?_, hlt⟩
    simp [StackUse.cellsAfter?, hlt]
  | operator op =>
    obtain ⟨n, rfl, rfl⟩ := Symbol.exists_of_pendingAfter?_operator_eq_some h
    rw [emission, Emission.instructions, target.stackMoves_operator]
    have hlt : n < bound := by omega
    refine ⟨?_, hlt⟩
    simp [StackUse.cellsAfter?, hlt]

/-- What symbols do to the pending operands, their code does to the cells. -/
theorem cellsAfterAll?_emissions (k : Knowledge) {n after : Nat} (hn : n ≤ bound)
    {symbols : List Symbol} (h : Symbol.pendingAfterAll? bound n symbols = some after) :
    target.processor.cellsAfterAll? bound n
      (Emission.allInstructions target (k.emissions symbols)) = some after := by
  induction symbols generalizing k n with
  | nil => exact h
  | cons s rest ih =>
    rw [Symbol.pendingAfterAll?_cons] at h
    obtain ⟨mid, hmid, hrest⟩ := Option.bind_eq_some_iff.1 h
    obtain ⟨hcells, hle⟩ := k.cellsAfterAll?_emission target hn hmid
    rw [emissions, Emission.allInstructions_cons, Processor.cellsAfterAll?_append, hcells,
      Option.bind_some]
    exact ih _ hle hrest

/-- A record among those of symbols is that of one of them. -/
theorem exists_of_emissions_eq_append {k : Knowledge} {symbols : List Symbol}
    {front rest : List Emission} {r : Emission} (h : k.emissions symbols = front ++ r :: rest) :
    ∃ xs s ys, symbols = xs ++ s :: ys ∧ k.emissions xs = front ∧
      (k.afterAll xs).emission s = r := by
  induction front generalizing k symbols with
  | nil =>
    cases symbols with
    | nil => cases h
    | cons s ys =>
      cases h
      exact ⟨[], s, ys, rfl, rfl, rfl⟩
  | cons f front ih =>
    cases symbols with
    | nil => cases h
    | cons x symbols =>
      obtain ⟨rfl, hrest⟩ := List.cons.inj h
      obtain ⟨xs, s, ys, rfl, rfl, hr⟩ := ih hrest
      exact ⟨x :: xs, s, ys, rfl, rfl, hr⟩

end Knowledge

namespace Tree

variable {target : Target}

/-- The code of a tree is the bytes of its instructions. -/
theorem bytes_instructions (t : Tree) : target.bytes (t.instructions target) = t.code target := by
  rw [instructions, target.bytes_append, Emission.bytes_allInstructions, ← target.epilogue_eq]
  rfl

/-- The instructions of a tree are linear code, within the stack depth of the tree. -/
theorem linear_instructions (t : Tree) :
    target.processor.Linear (t.instructions target) t.shape.stackDepth where
  closed :=
    (Emission.closed_allInstructions _).append target.processor
      (target.processor.closed_of_skip?_eq_none target.skip?_of_mem_epilogue)
  cells := by
    refine ⟨0, ?_⟩
    rw [instructions, Processor.cellsAfterAll?_append,
      Knowledge.start.cellsAfterAll?_emissions (Nat.zero_le _) t.pendingAfterAll?_symbols,
      Option.bind_some, Processor.cellsAfterAll?_eq, target.stackMoves_epilogue]
    rfl
  last := by
    have hlast : ∃ front, target.epilogueInstructions = front ++ [target.processor.ret] := by
      cases target with
      | x64 => exact ⟨[.pop .rax], rfl⟩
      | a64 => exact ⟨[.popResult], rfl⟩
    obtain ⟨front, hfront⟩ := hlast
    exact ⟨_, by rw [instructions, hfront, ← List.append_assoc]⟩

end Tree

end Reckoner
