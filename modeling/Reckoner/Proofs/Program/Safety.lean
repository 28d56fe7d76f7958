import Reckoner.Proofs.Program.Instructions

/-!
# Compiled code stays within its bounds

Along every run of a compiled tree the cells on the stack are at most as many as the stack depth
of the tree, no cell of the caller is touched, every branch stays within its operator, and every
read of the pool has the slot of a constant in the index register.  Nothing is assumed of the
status word, so this also holds after a division by zero.

Where a run can be, and with how many cells, follows from its code being linear.  What the index
register holds does not: that goes by the symbols.  Up to any symbol the code can be run as a
whole, which leaves the register as the emitter knows it; from there a fetch comes to its load with
its slot in the register.  Since a run is at a position only once, this is what the register holds
whenever the load is carried out.
-/

set_option autoImplicit false

namespace Reckoner

/-! ## From the start to any symbol -/

/-- The code of a symbol leads behind it, with as many cells more as there are operands, and the
emitter's knowledge is true there. -/
theorem View.Realizes.exists_leads_symbol {σ : Type} {view : View σ} {target : Target}
    (hview : view.Realizes target) {m : SealedRegions} {bound n after : Nat} (x : Symbol)
    {k : Knowledge} (hconsistent : k.pool.Consistent) (hroom : (k.after x).pool.size ≤ 2 ^ 32)
    (hpool : (k.after x).pool.values.toList <+: m.pool.toList)
    (hpending : x.pendingAfter? bound n = some after) {s : σ} {base pushed : List Int64}
    (husable : view.usable s) (hcode : CodeAt m (view.pc s) ((k.emission x).code target))
    (hknows : view.Knows k.index s) (hstack : view.stack s = pushed ++ base)
    (hlength : pushed.length = n) :
    ∃ t sp pushed', view.Leads m s ((k.emission x).code target).length sp (pushed' ++ base) t ∧
      pushed'.length = after ∧ view.Knows (k.after x).index t := by
  rw [Knowledge.length_code_emission]
  cases x with
  | value v =>
    obtain ⟨t, hleads, hknowst, -⟩ :=
      hview.exists_leads_leaf hconsistent hroom hpool husable hcode hknows
    rw [hstack] at hleads
    obtain ⟨-, rfl⟩ := Symbol.lt_of_pendingAfter?_value_eq_some hpending
    exact ⟨t, _, v :: pushed, hleads, congrArg (· + 1) hlength, hknowst⟩
  | operator op =>
    obtain ⟨n, rfl, rfl⟩ := Symbol.exists_of_pendingAfter?_operator_eq_some hpending
    obtain ⟨y, below, rfl⟩ := List.exists_cons_of_length_eq_add_one hlength
    obtain ⟨x, below, rfl⟩ := List.exists_cons_of_length_eq_add_one (Nat.succ.inj hlength)
    obtain ⟨t, z, hleads, hindex, -⟩ := hview.operator husable hcode hstack
    refine ⟨t, _, z :: below, hleads, ?_, hknows.after_operator hindex⟩
    exact Nat.succ.inj hlength

/-- The code of symbols that never take too many operands leads behind it, with as many cells more
as there are operands, and the emitter's knowledge is true there. -/
theorem View.Realizes.exists_leads_symbols {σ : Type} {view : View σ} {target : Target}
    (hview : view.Realizes target) {m : SealedRegions} {bound n after : Nat}
    (symbols : List Symbol) (k : Knowledge) (hconsistent : k.pool.Consistent)
    (hroom : (k.afterAll symbols).pool.size ≤ 2 ^ 32)
    (hpool : (k.afterAll symbols).pool.values.toList <+: m.pool.toList)
    (hpending : Symbol.pendingAfterAll? bound n symbols = some after) {s : σ}
    {base pushed : List Int64} (husable : view.usable s)
    (hcode : CodeAt m (view.pc s) (k.code target symbols)) (hknows : view.Knows k.index s)
    (hstack : view.stack s = pushed ++ base) (hlength : pushed.length = n) :
    ∃ t sp pushed', view.Leads m s (k.code target symbols).length sp (pushed' ++ base) t ∧
      pushed'.length = after ∧ view.Knows (k.afterAll symbols).index t := by
  induction symbols generalizing k n s pushed with
  | nil =>
    cases hpending
    exact ⟨s, _, pushed, ⟨.refl s, husable, rfl, rfl, hstack⟩, hlength, hknows⟩
  | cons x rest ih =>
    have hsplit : k.code target (x :: rest) =
        (k.emission x).code target ++ (k.after x).code target rest := by
      rw [← List.singleton_append, Knowledge.code_append, Knowledge.code_singleton]
      rfl
    rw [hsplit] at hcode ⊢
    rw [Symbol.pendingAfterAll?_cons] at hpending
    obtain ⟨mid, hmid, hrest⟩ := Option.bind_eq_some_iff.1 hpending
    have hroomx : (k.after x).pool.size ≤ 2 ^ 32 :=
      Nat.le_trans ((k.after x).size_pool_le_afterAll rest) hroom
    have hpoolx : (k.after x).pool.values.toList <+: m.pool.toList :=
      ((k.after x).values_prefix_afterAll rest).trans hpool
    have hconsistentx : (k.after x).pool.Consistent :=
      Knowledge.consistent_afterAll hconsistent [x] hroomx
    obtain ⟨u, sp, between, hfirst, hbetween, hknowsu⟩ :=
      hview.exists_leads_symbol x hconsistent hroomx hpoolx hmid husable hcode.left hknows hstack
        hlength
    obtain ⟨t, sp', pushed', hlast, hlength', hknowst⟩ :=
      ih (k.after x) hconsistentx hroom hpool hrest hfirst.usable (hfirst.rest hcode) hknowsu
        hfirst.stack hbetween
    rw [List.length_append]
    exact ⟨t, sp', pushed', hfirst.trans hlast, hlength', hknowst⟩

namespace Program

variable {target : Target} {t : Tree} {p : Program} {m : SealedRegions} {s u : target.State}

/-- A run of a compiled tree comes to every symbol: with as many cells as operands are pending
there, and with the emitter's knowledge true. -/
theorem exists_reaches_symbol (hcompile : compile target t = .ok p) (hloaded : p.LoadedIn m)
    (husable : target.view.usable s) (hpc : target.view.pc s = 0) {xs ys : List Symbol}
    (hsplit : t.symbols = xs ++ ys) {n : Nat}
    (hpending : Symbol.pendingAfterAll? t.shape.stackDepth 0 xs = some n) :
    ∃ u pushed, Outcome.Reaches (target.view.step m) s u ∧
      target.view.pc u = (Knowledge.start.code target xs).length ∧
      target.view.stack u = pushed ++ target.view.stack s ∧ pushed.length = n ∧
      target.view.Knows (Knowledge.start.afterAll xs).index u := by
  have hcode := hloaded.codeAt hcompile
  have hpool := hloaded.values_prefix hcompile
  have hroom := size_pool_le hcompile
  rw [Tree.finalKnowledge, hsplit, Knowledge.afterAll_append] at hpool hroom
  rw [Tree.code, hsplit, Knowledge.code_append, List.append_assoc, ← hpc] at hcode
  obtain ⟨u, sp, pushed, hleads, hlength, hknows⟩ :=
    target.view_realizes.exists_leads_symbols xs Knowledge.start ConstantPool.consistent_empty
      (Nat.le_trans (Knowledge.size_pool_le_afterAll _ ys) hroom)
      ((Knowledge.values_prefix_afterAll _ ys).trans hpool) hpending husable hcode.left
      (fun _ hknown => by cases hknown) (List.nil_append _).symm rfl
  refine ⟨u, pushed, hleads.reaches, ?_, hleads.stack, hlength, hknows⟩
  rw [hleads.pc, hpc, Nat.zero_add]

/-! ## Every state of a run -/

/-- The code of a compiled tree stands where the run of it starts. -/
theorem codeAt_instructions (hcompile : compile target t = .ok p) (hloaded : p.LoadedIn m)
    (hpc : target.view.pc s = 0) :
    CodeAt m (target.processor.pc s) (target.processor.bytes (t.instructions target)) := by
  rw [target.bytes_processor, t.bytes_instructions, ← target.view_pc, hpc]
  exact hloaded.codeAt hcompile

/-- The state after some steps stands at least as many instructions from the start. -/
theorem exists_located (hcompile : compile target t = .ok p) (hloaded : p.LoadedIn m)
    (hpc : target.view.pc s = 0) {n : Nat}
    (hrun : Outcome.run (target.view.step m) n s = .running u) :
    ∃ j, n ≤ j ∧
      target.processor.Located (t.instructions target) t.shape.stackDepth s u j := by
  rw [target.view_step] at hrun
  obtain ⟨j, hj, hlocated⟩ := (t.linear_instructions.located_start s).run t.linear_instructions
    (codeAt_instructions hcompile hloaded hpc) hrun
  rw [Nat.zero_add] at hj
  exact ⟨j, hj, hlocated⟩

/-- The trace of a compiled tree consists of the records of its symbols. -/
theorem trace_eq (hcompile : compile target t = .ok p) :
    p.trace.toList = Knowledge.start.emissions t.symbols := by
  rw [(eq_ofTree_of_compile_eq_ok hcompile).1]
  rfl

end Program

/-- Every instruction of a tree belongs to a record or to the end of the program. -/
theorem Tree.exists_record {target : Target} {t : Tree} {j : Nat} {i : target.Instruction}
    (h : (t.instructions target)[j]? = some i) :
    (∃ front r rest k, Knowledge.start.emissions t.symbols = front ++ r :: rest ∧
      (r.instructions target)[k]? = some i ∧
      j = (Emission.allInstructions target front).length + k) ∨
    i ∈ target.epilogueInstructions := by
  unfold instructions at h
  rcases Nat.lt_or_ge j (Emission.allInstructions target
    (Knowledge.start.emissions t.symbols)).length with hj | hj
  · rw [List.getElem?_append_left hj] at h
    obtain ⟨front, r, rest, k, hsplit, hk, hi⟩ := Emission.exists_of_getElem?_allInstructions h
    exact .inl ⟨front, r, rest, k, hsplit, hi, hk⟩
  · rw [List.getElem?_append_right hj] at h
    exact .inr (List.mem_of_getElem? h)

/-- Where an instruction of a record lies. -/
theorem Tree.offset_record {target : Target} {t : Tree} {front rest : List Emission} {r : Emission}
    (h : Knowledge.start.emissions t.symbols = front ++ r :: rest) {k : Nat}
    (hk : k ≤ (r.instructions target).length) :
    target.processor.offset (t.instructions target)
        ((Emission.allInstructions target front).length + k) =
      (front.flatMap (Emission.code target)).length +
        target.processor.offset (r.instructions target) k := by
  rw [instructions, h, Emission.allInstructions_append, Emission.allInstructions_cons,
    List.append_assoc, List.append_assoc, Processor.offset_append_right,
    Processor.offset_append_left _ _ _ hk, target.bytes_processor, Emission.bytes_allInstructions]

namespace Program

variable {target : Target} {t : Tree} {p : Program} {m : SealedRegions} {s u : target.State}

/-- The slot that a constant gets while a tree is compiled is one of the pool. -/
theorem slot_lt_size_pool (hcompile : compile target t = .ok p) {xs ys : List Symbol} {v : Int64}
    (hsymbols : t.symbols = xs ++ .value v :: ys) :
    ((Knowledge.start.afterAll xs).pool.intern v).1.toNat < p.pool.size := by
  let known := Knowledge.start.afterAll xs
  have hroom := size_pool_le hcompile
  have hpool : p.pool.size = t.finalKnowledge.pool.size := by
    rw [(eq_ofTree_of_compile_eq_ok hcompile).1]
    rfl
  rw [hpool]
  rw [Tree.finalKnowledge, hsymbols, Knowledge.afterAll_append] at hroom ⊢
  have hgrow := (known.after (.value v)).size_pool_le_afterAll ys
  have hconsistent : known.pool.Consistent :=
    Knowledge.consistent_afterAll ConstantPool.consistent_empty xs
      (Nat.le_trans (known.size_pool_le_afterAll (.value v :: ys)) hroom)
  have hslot := Knowledge.getElem?_slot hconsistent (Nat.le_trans hgrow hroom)
  obtain ⟨hlt, -⟩ := Array.getElem?_eq_some_iff.1 hslot
  exact Nat.lt_of_lt_of_le hlt hgrow

/-- A run of a compiled tree comes to the code of every symbol, and what the emitter knows there is
true. -/
theorem exists_reaches_code (hcompile : compile target t = .ok p) (hloaded : p.LoadedIn m)
    (husable : target.view.usable s) (hpc : target.view.pc s = 0) {xs ys : List Symbol} {x : Symbol}
    (hsymbols : t.symbols = xs ++ x :: ys) :
    ∃ u, Outcome.Reaches (target.view.step m) s u ∧
      target.view.pc u = (Knowledge.start.code target xs).length ∧
      CodeAt m (target.view.pc u) (((Knowledge.start.afterAll xs).emission x).code target) ∧
      target.view.Knows (Knowledge.start.afterAll xs).index u := by
  have htotal := t.pendingAfterAll?_symbols
  rw [hsymbols, Symbol.pendingAfterAll?_append] at htotal
  obtain ⟨n, hn, -⟩ := Option.bind_eq_some_iff.1 htotal
  obtain ⟨u, pushed, hreaches, hu, -, -, hknows⟩ :=
    exists_reaches_symbol hcompile hloaded husable hpc hsymbols hn
  have hcode := hloaded.codeAt hcompile
  rw [Tree.code, hsymbols, Knowledge.code_append, List.append_assoc] at hcode
  have hbehind := hcode.right
  rw [Nat.zero_add, ← hu, ← List.singleton_append, Knowledge.code_append, List.append_assoc,
    Knowledge.code_singleton] at hbehind
  exact ⟨u, hreaches, hu, hbehind.left, hknows⟩

/-- Whenever a run comes to a load of a constant, the load reads a slot of the pool. -/
theorem slot_lt_of_constantSlot?_eq_some (hcompile : compile target t = .ok p)
    (hloaded : p.LoadedIn m) (husable : target.view.usable s) (hpc : target.view.pc s = 0)
    (hreaches : Outcome.Reaches (target.view.step m) s u) {j : Nat} {i : target.Instruction}
    (hi : (t.instructions target)[j]? = some i)
    (hj : target.view.pc u = target.processor.offset (t.instructions target) j) {slot : Nat}
    (hslot : target.constantSlot? i u = some slot) : slot < p.pool.size := by
  have hload := Target.loadsConstant_of_constantSlot?_eq_some hslot
  obtain ⟨front, r, rest, k, hsplit, hk, rfl⟩ | hepilogue := Tree.exists_record hi
  case inr =>
    rw [target.loadsConstant_of_mem_epilogue i hepilogue] at hload
    cases hload
  obtain ⟨xs, x, ys, hsymbols, rfl, rfl⟩ := Knowledge.exists_of_emissions_eq_append hsplit
  cases x with
  | operator op =>
    have hmem : i ∈ (target.operatorPieces op).flatten := List.mem_of_getElem? hk
    rw [target.loadsConstant_of_mem_operator op i hmem] at hload
    cases hload
  | value v =>
    obtain ⟨start, hstart, hstartPc, hcode, hknows⟩ :=
      exists_reaches_code hcompile hloaded husable hpc hsymbols
    -- from there the fetch comes to the load, and a run is there in one state only
    obtain ⟨load, hreachesLoad, hloadPc, hread⟩ := target.exists_reaches_load hcode
      (fun helided => hknows _ (of_decide_eq_true helided)) hk hload
    have hsame : u = load := by
      have hlater := hstart.trans hreachesLoad
      rw [target.view_step] at hreaches hlater
      refine t.linear_instructions.eq_of_pc_eq (codeAt_instructions hcompile hloaded hpc) hreaches
        hlater ?_
      obtain ⟨hlt, -⟩ := List.getElem?_eq_some_iff.1 hk
      rw [← target.view_pc, hj, hloadPc, hstartPc, Tree.offset_record hsplit (Nat.le_of_lt hlt)]
      rfl
    rw [hsame, hread] at hslot
    cases hslot
    exact slot_lt_size_pool hcompile hsymbols

/-- The position of an instruction of the operator that comes behind some records. -/
def position (target : Target) (front : List Emission) (op : Operator) (j : Nat) : Nat :=
  (front.flatMap (Emission.code target)).length +
    (target.bytes ((target.operatorPieces op).flatten.take j)).length

/-- An instruction of an operator lies behind the records before it and the instructions before
it. -/
theorem position_eq (target : Target) (front : List Emission) (op : Operator) (j : Nat) :
    position target front op j =
      (front.flatMap (Emission.code target)).length +
        target.processor.offset (target.operatorPieces op).flatten j := by
  rw [position, Processor.offset, target.bytes_processor]

/-- Two positions are those of instructions of one operator of the program, the second of them
further on. -/
def SameOperator (target : Target) (p : Program) (x y : Nat) : Prop :=
  ∃ front op indexAfter rest a b, p.trace.toList = front ++ .operator op indexAfter :: rest ∧
    a < b ∧ b < (target.operatorPieces op).flatten.length ∧
    x = position target front op a ∧ y = position target front op b

/-- A branch that is carried out, whether or not it is taken, leads to an instruction of the same
operator. -/
theorem sameOperator_of_step (hcompile : compile target t = .ok p) (hloaded : p.LoadedIn m)
    (hpc : target.view.pc s = 0) {j : Nat} {i : target.Instruction} {d : Int} {v : target.State}
    (hi : (t.instructions target)[j]? = some i) (hskip : target.processor.skip? i = some d)
    (hj : target.view.pc u = target.processor.offset (t.instructions target) j)
    (hstep : target.view.step m u = .running v) :
    p.SameOperator target (target.view.pc u) (target.view.pc v) := by
  obtain ⟨front, r, rest, k, hsplit, hk, rfl⟩ | hepilogue := Tree.exists_record hi
  case inr =>
    rw [target.skip?_of_mem_epilogue i hepilogue] at hskip
    cases hskip
  cases r with
  | fetch slot elided =>
    rw [target.skip?_of_mem_fetch slot (!elided) i (List.mem_of_getElem? hk)] at hskip
    cases hskip
  | operator op indexAfter =>
    change (target.operatorPieces op).flatten[k]? = some i at hk
    have hperform : target.processor.perform m.pool i u = .running v := by
      rw [← hstep, target.view_step]
      refine (target.processor.step_at (codeAt_instructions hcompile hloaded hpc) hi ?_).symm
      rw [← target.view_pc, hpc, hj, Nat.zero_add]
      rfl
    obtain ⟨target', hlands⟩ := target.closed_operator op k i d hk hskip
    have hlt := hlands.lt
    have hlength := hlands.lt_length
    have hoffset := hlands.offset_eq
    rw [Tree.offset_record hsplit (Nat.le_of_lt (Nat.lt_trans hlt hlength))] at hj
    change target.view.pc u = _ + target.processor.offset (target.operatorPieces op).flatten k
      at hj
    have hgoes := target.processor.goes hperform
    rw [← target.view_pc] at hgoes
    rcases hgoes with hnext | ⟨d', hd', htaken⟩
    · refine ⟨front, op, indexAfter, rest, k, k + 1, (trace_eq hcompile).trans hsplit,
        Nat.lt_succ_self k, by omega, ?_, ?_⟩
      · rw [position_eq, hj]
      · rw [position_eq, target.processor.offset_succ hk, hnext, hj, Nat.add_assoc]
    · cases hskip.symm.trans hd'
      refine ⟨front, op, indexAfter, rest, k, target', (trace_eq hcompile).trans hsplit, hlt,
        hlength, ?_, ?_⟩
      · rw [position_eq, hj]
      · rw [position_eq]
        omega

/-- What is safe about a state of a run that started from `s`. -/
structure SafeState (target : Target) (p : Program) (depth : Nat) (m : SealedRegions)
    (s u : target.State) (i : target.Instruction) (pushed : List Int64) : Prop where
  /-- The machine is about to carry out an instruction. -/
  decoded : target.decode? (m.code.toList.drop (target.view.pc u)) = some i
  /-- Cells of its own lie on top of those of the caller. -/
  stack : target.view.stack u = pushed ++ target.view.stack s
  sp : target.view.sp u =
    target.view.sp s - UInt64.ofNat pushed.length * UInt64.ofNat target.stackCell
  length_le : pushed.length ≤ depth
  load : ∀ slot, target.constantSlot? i u = some slot → slot < p.pool.size
  pop : target.processor.stackUse i = .pop → pushed ≠ []
  branch : ∀ d v, target.processor.skip? i = some d → target.view.step m u = .running v →
    p.SameOperator target (target.view.pc u) (target.view.pc v)

/-- Every state of a run of a compiled tree is safe. -/
theorem exists_safeState (hcompile : compile target t = .ok p) (hloaded : p.LoadedIn m)
    (husable : target.view.usable s) (hpc : target.view.pc s = 0)
    (hreaches : Outcome.Reaches (target.view.step m) s u) :
    ∃ i pushed, p.SafeState target t.shape.stackDepth m s u i pushed := by
  obtain ⟨n, hrun⟩ := id hreaches
  obtain ⟨j, -, hlt, hj, pushed, hstack, hcells, hsp⟩ := exists_located hcompile hloaded hpc hrun
  have hi : (t.instructions target)[j]? = some (t.instructions target)[j] :=
    List.getElem?_eq_getElem hlt
  have hcode :=
    target.processor.codeAt_instruction (codeAt_instructions hcompile hloaded hpc) hi
  change CodeAt m (_ + target.processor.offset (t.instructions target) j) _ at hcode
  rw [← hj, ← target.view_pc, target.encode_processor] at hcode
  rw [← target.view_pc, hpc, Nat.zero_add] at hj
  rw [← target.view_stack] at hstack
  rw [← target.view_sp, target.cell_processor] at hsp
  obtain ⟨after, hafter, -⟩ := t.linear_instructions.exists_cellsAfter? hi hcells
  refine ⟨(t.instructions target)[j], pushed, ?_, hstack, hsp, ?_, ?_, ?_, ?_⟩
  · obtain ⟨rest, hrest⟩ := hcode
    rw [← hrest, List.append_assoc]
    exact target.decode?_encode_append _ _
  · exact target.processor.le_of_cellsAfterAll?_eq_some (Nat.zero_le _) hcells
  · intro slot hslot
    exact slot_lt_of_constantSlot?_eq_some hcompile hloaded husable hpc hreaches hi hj hslot
  · rintro huse rfl
    rw [huse] at hafter
    cases hafter
  · intro d v hskip hstep
    exact sameOperator_of_step hcompile hloaded hpc hi hskip hj hstep

/-- Somewhere along a run of a compiled tree the cells on top of those of the caller are as many as
the tree is deep. -/
theorem exists_length_eq_stackDepth (hcompile : compile target t = .ok p) (hloaded : p.LoadedIn m)
    (husable : target.view.usable s) (hpc : target.view.pc s = 0) :
    ∃ u pushed, Outcome.Reaches (target.view.step m) s u ∧
      target.view.stack u = pushed ++ target.view.stack s ∧
      pushed.length = t.shape.stackDepth := by
  have hdepth : t.shape.stackDepth = t.toExpr.stackDepth := by rw [t.shape_eq]
  have hbound : 0 + t.toExpr.stackDepth ≤ t.shape.stackDepth := by rw [hdepth, Nat.zero_add]
  obtain ⟨xs, ys, hsplit, hpending⟩ := t.toExpr.exists_pendingAfterAll?_eq_stackDepth hbound
  rw [Nat.zero_add, ← hdepth] at hpending
  obtain ⟨u, pushed, hreaches, -, hstack, hlength, -⟩ :=
    exists_reaches_symbol hcompile hloaded husable hpc (t.symbols_eq.trans hsplit) hpending
  exact ⟨u, pushed, hreaches, hstack, hlength⟩

/-- A compiled tree, run from the start of its code with any registers, any status and any stack,
only comes through safe states, has at some point as many cells of its own as the tree is deep, and
returns with the stack and the stack pointer it was entered with. -/
theorem bounded_and_balanced (hcompile : compile target t = .ok p) (hloaded : p.LoadedIn m)
    (husable : target.view.usable s) (hpc : target.view.pc s = 0) :
    (∀ u, Outcome.Reaches (target.view.step m) s u →
      ∃ i pushed, p.SafeState target t.shape.stackDepth m s u i pushed) ∧
    (∃ u pushed, Outcome.Reaches (target.view.step m) s u ∧
      target.view.stack u = pushed ++ target.view.stack s ∧
      pushed.length = t.shape.stackDepth) ∧
    ∃ n last, Outcome.run (target.view.step m) n s = .returned last ∧
      target.view.pc last = p.size.codeLength ∧ target.view.sp last = target.view.sp s ∧
      target.view.stack last = target.view.stack s := by
  refine ⟨?_, exists_length_eq_stackDepth hcompile hloaded husable hpc, ?_⟩
  · intro u hreaches
    exact exists_safeState hcompile hloaded husable hpc hreaches
  · obtain ⟨n, last, -, hrun, hlast, hsp, hstack, -⟩ :=
      target.view_realizes.exists_reports hcompile hloaded husable hpc
    exact ⟨n, last, hrun, hlast, hsp, hstack⟩

/-- The compiled product of six and seven has two cells on the stack at some point, and none when it
returns. -/
theorem bounded_and_balanced_six_times_seven :
    ∃ t p u n last, Tree.build? [.leaf 6, .leaf 7, .binary .mul 0 1] 2 = some t ∧
      compile .a64 t = .ok p ∧ Outcome.Reaches (A64.step p.regions) A64.entry u ∧
      u.stack.length = 2 ∧ Outcome.run (A64.step p.regions) n A64.entry = .returned last ∧
      last.sp = A64.entry.sp ∧ last.stack = [] := by
  obtain ⟨t, ht, hbuilt, hshape, -⟩ := Tree.Built.exists_six_times_seven
  obtain ⟨p, hp⟩ := hbuilt.exists_compile_eq_ok .a64 (by rw [hshape]; decide)
  obtain ⟨-, ⟨u, pushed, hreaches, hstack, hlength⟩, n, last, hrun, -, hsp, hbelow⟩ :=
    bounded_and_balanced hp (loadedIn_regions hp) (s := A64.entry) ⟨rfl, by decide⟩ rfl
  refine ⟨t, p, u, n, last, ht, hp, hreaches, ?_, hrun, hsp, hbelow⟩
  rw [hshape] at hlength
  exact (congrArg List.length (hstack.trans (List.append_nil pushed))).trans hlength

end Program

end Reckoner
