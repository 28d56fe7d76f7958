import Reckoner.Proofs.Emitter.IndexTrust
import Reckoner.Proofs.Program.Trace
import Reckoner.Proofs.Tree.Equality

/-!
# Reading a tree back from its code

Code is read from its first instruction to its last.  An instruction that pushes a constant takes
it from the slot that was last loaded into the index register, however long ago; in an operator
one instruction tells which operator it is.  All others say nothing of the tree, so it does not
matter where the code of one symbol ends and that of the next begins.

An elided fetch has no load of its own.  The emitter elides a load only when it knows the slot,
and what it knows was loaded by the last instruction that wrote the register, so the reader finds
the same slot there.  The constants in the slots are then those of the trace, and the symbols
rebuild the tree.
-/

set_option autoImplicit false

namespace Reckoner

/-- The operator that an instruction applies, if it does. -/
def X64.Instruction.operator? : Instruction → Option Operator
  | add _ _ => some .add
  | sub _ _ => some .sub
  | xor _ _ => some .xor
  | imul _ => some .mul
  | idiv _ => some .div
  | _ => none

/-- The operator that an instruction applies, if it does. -/
def A64.Instruction.operator? : Instruction → Option Operator
  | arithmetic .add _ _ _ => some .add
  | arithmetic .sub _ _ _ => some .sub
  | arithmetic .eor _ _ _ => some .xor
  | arithmetic .mul _ _ _ => some .mul
  | arithmetic .sdiv _ _ _ => some .div
  | _ => none

/-- The constant that the index register selects. -/
def IndexWrite.constant? (values : Array Int64) : IndexWrite → Option Int64
  | .load slot => values[slot.toNat]?
  | .product => none

namespace Target

/-- The operator that an instruction of a target applies, if it does. -/
def operator? : (target : Target) → target.Instruction → Option Operator
  | x64 => X64.Instruction.operator?
  | a64 => A64.Instruction.operator?

/-- What an instruction says of the tree, given the constants and the last write of the index
register.  A constant that is not there is none. -/
def symbolsOf (target : Target) (values : Array Int64) (last : Option IndexWrite)
    (i : target.Instruction) : List (Option Symbol) :=
  if target.loadsConstant i then [(last.bind (IndexWrite.constant? values)).map .value]
  else (target.operator? i).toList.map fun op => some (.operator op)

/-- What instructions say of the tree. -/
def symbolsOfAll (target : Target) (values : Array Int64) (last : Option IndexWrite) :
    List target.Instruction → List (Option Symbol)
  | [] => []
  | i :: rest =>
    target.symbolsOf values last i ++ target.symbolsOfAll values (target.indexAfter last i) rest

/-- The symbols that code stands for, if it takes no constant that is not there. -/
def symbols? (target : Target) (code : List UInt8) (values : Array Int64) : Option (List Symbol) :=
  (target.symbolsOfAll values none (target.disassemble code)).mapM id

/-- The expression whose code and constants these are. -/
def decodeExpr? (target : Target) (code : List UInt8) (values : Array Int64) : Option Expr :=
  (target.symbols? code values).bind Expr.ofPostOrder?

/-- A tree whose code and constants these are. -/
def decodeTree? (target : Target) (code : List UInt8) (values : Array Int64) : Option Tree :=
  (target.symbols? code values).bind Tree.ofPostOrder?

variable {target : Target} {values : Array Int64}

/-- Code is read from its front, and the index register goes over from the first part to the
second. -/
theorem symbolsOfAll_append (last : Option IndexWrite) (is js : List target.Instruction) :
    target.symbolsOfAll values last (is ++ js) =
      target.symbolsOfAll values last is ++
        target.symbolsOfAll values (target.indexAfterAll last is) js := by
  induction is generalizing last with
  | nil => rfl
  | cons i is ih =>
    rw [List.cons_append, symbolsOfAll, symbolsOfAll, ih, List.append_assoc]
    rfl

/-- A fetch takes the constant that the index register selects after it. -/
theorem symbolsOfAll_fetch (last : Option IndexWrite) (slot : UInt32) (reload : Bool) :
    target.symbolsOfAll values last (target.fetchPieces slot reload).flatten =
      [((target.indexAfterAll last (target.fetchPieces slot reload).flatten).bind
        (IndexWrite.constant? values)).map .value] := by
  cases target <;> cases reload <;> rfl

/-- Instructions that load no constant say the operators they apply, whatever the index register
selects. -/
theorem symbolsOfAll_eq_of_loadsConstant_eq_false (last : Option IndexWrite)
    {is : List target.Instruction} (h : ∀ i ∈ is, target.loadsConstant i = false) :
    target.symbolsOfAll values last is =
      (is.filterMap target.operator?).map fun op => some (.operator op) := by
  induction is generalizing last with
  | nil => rfl
  | cons i is ih =>
    have hfirst : target.symbolsOf values last i =
        (target.operator? i).toList.map fun op => some (.operator op) := by
      rw [symbolsOf, h i List.mem_cons_self, if_neg Bool.false_ne_true]
    have hrest := ih (target.indexAfter last i) fun j hj => h j (List.mem_cons_of_mem i hj)
    rw [symbolsOfAll, hfirst, hrest]
    cases hop : target.operator? i with
    | none => rw [List.filterMap_cons_none hop, Option.toList_none, List.map_nil, List.nil_append]
    | some op => rw [List.filterMap_cons_some hop]; rfl

/-- The code of an operator says that operator, by the one instruction that applies it. -/
theorem symbolsOfAll_operator (last : Option IndexWrite) (op : Operator) :
    target.symbolsOfAll values last (target.operatorPieces op).flatten = [some (.operator op)] := by
  rw [symbolsOfAll_eq_of_loadsConstant_eq_false last (target.loadsConstant_of_mem_operator op)]
  cases target <;> cases op <;> rfl

/-- The epilogue says nothing of the tree. -/
theorem symbolsOfAll_epilogue (last : Option IndexWrite) :
    target.symbolsOfAll values last target.epilogueInstructions = [] := by
  rw [symbolsOfAll_eq_of_loadsConstant_eq_false last target.loadsConstant_of_mem_epilogue]
  cases target <;> rfl

end Target

namespace Knowledge

variable {target : Target} {k : Knowledge} {last : Option IndexWrite}

/-- What is known of the index register is what was last written there. -/
def Backed (k : Knowledge) (last : Option IndexWrite) : Prop :=
  ∀ slot, k.index = .known slot → last = some (.load slot)

/-- Nothing is known at the start, so nothing has to be backed. -/
theorem backed_start : start.Backed none := by
  intro slot h
  cases h

/-- What is known after a symbol is backed by the code of the symbol: a load that is not elided, or
the one before it. -/
theorem Backed.after (h : k.Backed last) (s : Symbol) :
    (k.after s).Backed (target.indexAfterAll last ((k.emission s).instructions target)) := by
  intro slot hslot
  cases s with
  | value v =>
    cases hslot
    by_cases helided : k.index = .known (k.pool.intern v).1
    · rw [emission, Emission.instructions, decide_eq_true helided, h _ helided]
      exact target.indexAfterAll_elided _ _
    · rw [emission, Emission.instructions, decide_eq_false helided]
      exact target.indexAfterAll_fetch last _
  | operator op =>
    unfold Knowledge.after at hslot
    cases hop : op.clobbersIndex with
    | true =>
      simp only [hop, if_true, reduceCtorEq] at hslot
    | false =>
      simp only [hop, Bool.false_eq_true, if_false] at hslot
      rw [emission, Emission.instructions, target.indexAfterAll_operator last hop]
      exact h slot hslot

/-- The instructions of a symbol say what its record does. -/
theorem Backed.symbolsOfAll_emission (h : k.Backed last) (values : Array Int64) (s : Symbol) :
    target.symbolsOfAll values last ((k.emission s).instructions target) =
      [(k.emission s).symbol? values] := by
  cases s with
  | operator op => exact Target.symbolsOfAll_operator last op
  | value v =>
    have hloaded : target.indexAfterAll last ((k.emission (.value v)).instructions target) =
        some (.load (k.pool.intern v).1) := h.after (.value v) _ rfl
    rw [emission, Emission.instructions] at hloaded ⊢
    rw [Target.symbolsOfAll_fetch, hloaded]
    rfl

/-- The instructions of symbols say what their records do, elided loads or not. -/
theorem Backed.symbolsOfAll_emissions (h : k.Backed last) (values : Array Int64)
    (symbols : List Symbol) :
    target.symbolsOfAll values last (Emission.allInstructions target (k.emissions symbols)) =
      (k.emissions symbols).map (Emission.symbol? values) := by
  induction symbols generalizing k last with
  | nil => rfl
  | cons s rest ih =>
    rw [emissions, Emission.allInstructions_cons, Target.symbolsOfAll_append,
      h.symbolsOfAll_emission, ih (h.after s), List.map_cons]
    rfl

end Knowledge

namespace Program

variable {target : Target} {t : Tree} {p : Program}

/-- The code of a program is that of its tree. -/
theorem code_eq (hcompile : compile target t = .ok p) : p.code = t.code target := by
  obtain ⟨hp, hfits⟩ := eq_ofTree_of_compile_eq_ok hcompile
  rw [hp]
  exact code_ofTree hfits

/-- Code and constants of a compiled tree give its symbols. -/
theorem symbols?_code (hcompile : compile target t = .ok p) :
    target.symbols? p.code p.pool.values = some t.toExpr.postOrder := by
  have htrace := map_symbol?_trace hcompile
  rw [trace_eq hcompile] at htrace
  have hread : target.symbolsOfAll p.pool.values none (t.instructions target) =
      t.toExpr.postOrder.map some := by
    rw [Tree.instructions, Target.symbolsOfAll_append, Target.symbolsOfAll_epilogue,
      Knowledge.backed_start.symbolsOfAll_emissions, List.append_nil, htrace]
  rw [Target.symbols?, code_eq hcompile, ← t.bytes_instructions, target.disassemble_bytes, hread,
    List.mapM_map]
  exact List.mapM_pure.trans (congrArg some (List.map_id _))

/-- Trees that are equal have the same code and the same constants. -/
theorem code_pool_eq_of_same {a b : Tree} {p q : Program} (ha : compile target a = .ok p)
    (hb : compile target b = .ok q) (hsame : a.same b = true) :
    p.code = q.code ∧ p.pool.values = q.pool.values := by
  have hsymbols : a.symbols = b.symbols := beq_iff_eq.1 hsame
  rw [code_eq ha, code_eq hb, pool_eq ha, pool_eq hb]
  unfold Tree.code Tree.finalKnowledge
  rw [hsymbols]
  exact ⟨rfl, rfl⟩

/-- The code of a compiled tree and its constants are read back as the expression of the tree,
and as a tree equal to it if the expression has no more nodes than ids can tell apart.  So two
trees that are compiled for one target have the same code and constants just when they are
equal. -/
theorem decode_code_pool (target : Target) :
    (∀ t p, compile target t = .ok p →
      (∀ u : Tree, target.decodeExpr? p.code p.pool.values = some u.toExpr ↔ u.same t = true) ∧
      target.decodeExpr? p.code p.pool.values = some t.toExpr ∧
      (t.toExpr.size ≤ 2 ^ 32 →
        ∃ u, target.decodeTree? p.code p.pool.values = some u ∧ u.same t = true)) ∧
    ∀ a b p q, compile target a = .ok p → compile target b = .ok q →
      ((p.code = q.code ∧ p.pool.values = q.pool.values) ↔ a.same b = true) := by
  have hexpr : ∀ t p, compile target t = .ok p →
      target.decodeExpr? p.code p.pool.values = some t.toExpr := by
    intro t p hcompile
    rw [Target.decodeExpr?, symbols?_code hcompile, Option.bind_some,
      Expr.ofPostOrder?_postOrder]
  refine ⟨?_, ?_⟩
  · intro t p hcompile
    refine ⟨?_, hexpr t p hcompile, ?_⟩
    · intro u
      rw [hexpr t p hcompile, u.same_iff, Option.some.injEq]
      exact eq_comm
    · intro hsize
      obtain ⟨u, hu, hdenotes⟩ := Tree.exists_ofPostOrder?_postOrder hsize
      refine ⟨u, ?_, (u.same_iff t).2 hdenotes⟩
      rw [Target.decodeTree?, symbols?_code hcompile, Option.bind_some, hu]
  · intro a b p q ha hb
    constructor
    · rintro ⟨hcode, hvalues⟩
      apply (a.same_iff b).2
      apply Option.some.inj
      rw [← hexpr a p ha, ← hexpr b q hb, hcode, hvalues]
    · exact code_pool_eq_of_same ha hb

/-- In `5 + 5` the second constant has no load of its own.  A node that is not part of the tree
changes nothing. -/
theorem decode_code_pool_five_plus_five :
    ∃ a b p q, Tree.build? [.leaf 5, .leaf 5, .binary .add 0 1] 2 = some a ∧
      Tree.build? [.leaf 9, .leaf 5, .leaf 5, .binary .add 1 2] 3 = some b ∧
      compile .x64 a = .ok p ∧ compile .x64 b = .ok q ∧
      Target.decodeExpr? .x64 p.code p.pool.values = some (.binary .add (.leaf 5) (.leaf 5)) ∧
      (∃ u, Target.decodeTree? .x64 p.code p.pool.values = some u ∧ u.same a = true) ∧
      p.code = q.code ∧ p.pool.values = q.pool.values := by
  have hleft : (Tree.build? [.leaf 5, .leaf 5, .binary .add 0 1] 2).map
      (fun t => (t.arena.size, t.shape, t.toExpr)) =
      some (3, ⟨2, 1, 2⟩, .binary .add (.leaf 5) (.leaf 5)) := by
    decide +kernel
  have hright : (Tree.build? [.leaf 9, .leaf 5, .leaf 5, .binary .add 1 2] 3).map
      (fun t => (t.arena.size, t.shape, t.toExpr)) =
      some (4, ⟨2, 1, 2⟩, .binary .add (.leaf 5) (.leaf 5)) := by
    decide +kernel
  obtain ⟨a, ha, hleft⟩ := Option.map_eq_some_iff.1 hleft
  obtain ⟨b, hb, hright⟩ := Option.map_eq_some_iff.1 hright
  simp only [Prod.mk.injEq] at hleft hright
  obtain ⟨hsizeA, hshapeA, hexprA⟩ := hleft
  obtain ⟨hsizeB, hshapeB, hexprB⟩ := hright
  have hbuiltA : a.Built := ⟨⟨_, _, ha⟩, by omega⟩
  have hbuiltB : b.Built := ⟨⟨_, _, hb⟩, by omega⟩
  obtain ⟨p, hp⟩ := hbuiltA.exists_compile_eq_ok .x64 (by rw [hshapeA]; decide)
  obtain ⟨q, hq⟩ := hbuiltB.exists_compile_eq_ok .x64 (by rw [hshapeB]; decide)
  obtain ⟨hdecode, hagree⟩ := decode_code_pool .x64
  obtain ⟨-, hexpr, htree⟩ := hdecode a p hp
  rw [hexprA] at hexpr
  refine ⟨a, b, p, q, ha, hb, hp, hq, hexpr, ?_, ?_⟩
  · apply htree
    rw [hexprA]
    decide
  · apply (hagree a b p q hp hq).2
    rw [a.same_iff, hexprA, hexprB]

end Program

end Reckoner
