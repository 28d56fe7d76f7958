import Reckoner.Proofs.Machine.InstructionSet
import Reckoner.Proofs.Machine.Simulation

/-!
# Compiled code on the AArch64 machine

Every instruction is a word of four bytes, and every sequence but one goes straight through
its instructions.  A division branches over the two instructions that report a zero divisor
and then divides in any case.  The stack pointer moves by whole cells, so it stays aligned.
-/

set_option autoImplicit false

namespace Reckoner.A64

/-- What an instruction does to a state whose program counter points at it. -/
def perform (pool : Array Int64) (i : Instruction) (s : State) : Outcome State :=
  i.execute pool { s with pc := s.pc + 4 }

/-- Where the code of an instruction stands, a step performs that instruction. -/
theorem step_eq_perform {m : SealedRegions} {s : State} {i : Instruction} {rest : List UInt8}
    (hcode : CodeAt m s.pc (i.encode ++ rest)) : step m s = perform m.pool i s := by
  obtain ⟨behind, hbehind⟩ := hcode
  have hwindow : (m.code.extract s.pc (s.pc + 4)).toList = wordBytes i.word ++ [] := by
    rw [Array.toList_extract, List.extract_eq_take_drop, Nat.add_sub_cancel_left, ← hbehind,
      List.append_assoc, List.append_nil, ← i.length_encode]
    exact List.take_left
  unfold step
  rw [hwindow, leadingWord?_wordBytes_append, Option.bind_some, decode?_word]
  rfl

/-- The instructions of the machine. -/
def instructions : InstructionSet State Instruction where
  step := step
  pc := State.pc
  encode := Instruction.encode
  perform := perform
  step_eq := step_eq_perform

/-- The parts of the state that compiled code depends on. -/
def view : View State where
  step := step
  pc := State.pc
  index := fun s => s.x9.toUInt64.toNat
  sp := State.sp
  stack := State.stack
  status := State.status
  usable := fun s => s.result = none ∧ s.aligned = true
  result := State.result

/-- Setting a register does not move the program counter. -/
@[simp] theorem State.pc_set (s : State) (r : Register) (v : Int64) : (s.set r v).pc = s.pc := by
  cases r <;> rfl

/-! ## The stack -/

/-- A push keeps the stack pointer aligned, since a cell is sixteen bytes. -/
theorem aligned_push {s t : State} (h : s.aligned = true)
    (hsp : t.sp = s.sp - UInt64.ofNat stackCell) : t.aligned = true := by
  have hlt := s.sp.toNat_lt
  simp only [State.aligned, decide_eq_true_eq, hsp, ← UInt64.toNat_inj, UInt64.toNat_mod,
    UInt64.toNat_sub, UInt64.reduceToNat, stackCell, UInt64.reduceOfNat] at h ⊢
  omega

/-- A pop keeps the stack pointer aligned, since a cell is sixteen bytes. -/
theorem aligned_pop {s t : State} (h : s.aligned = true)
    (hsp : t.sp = s.sp + UInt64.ofNat stackCell) : t.aligned = true := by
  have hlt := s.sp.toNat_lt
  simp only [State.aligned, decide_eq_true_eq, hsp, ← UInt64.toNat_inj, UInt64.toNat_mod,
    UInt64.toNat_add, UInt64.reduceToNat, stackCell, UInt64.reduceOfNat] at h ⊢
  omega

/-- With an aligned stack a push puts the register on top and goes on to the next instruction. -/
theorem perform_push {s : State} (h : s.aligned = true) (pool : Array Int64) (rt : Register) :
    perform pool (.push rt) s =
      .running
        { s with
          sp := s.sp - UInt64.ofNat stackCell
          stack := s.get rt :: s.stack
          pc := s.pc + 4 } := by
  cases rt <;> exact if_pos h

/-- With an aligned stack that holds a cell, a pop moves that cell to the register and goes on to
the next instruction. -/
theorem perform_pop {s : State} (h : s.aligned = true) (pool : Array Int64) (rt : Register)
    {v : Int64} {rest : List Int64} (hstack : s.stack = v :: rest) :
    perform pool (.pop rt) s =
      .running
        (State.set
          { s with sp := s.sp + UInt64.ofNat stackCell, stack := rest, pc := s.pc + 4 } rt v) := by
  simp only [perform, Instruction.execute, State.pop, hstack]
  exact if_pos h

/-- The last pop of a program leaves its cell as the result. -/
theorem perform_popResult {s : State} (h : s.aligned = true) (pool : Array Int64) {v : Int64}
    {rest : List Int64} (hstack : s.stack = v :: rest) :
    perform pool .popResult s =
      .running
        { s with
          result := some v
          sp := s.sp + UInt64.ofNat stackCell
          stack := rest
          pc := s.pc + 4 } := by
  simp only [perform, Instruction.execute, State.pop, hstack]
  exact if_pos h

namespace Instruction

/-- The instruction may lead elsewhere than to the next one. -/
def isBranch : Instruction → Bool
  | branchNonzero _ _ => true
  | _ => false

/-- An instruction that is not a branch goes straight on to the next one. -/
theorem straight_of_isBranch_eq_false {i : Instruction} (h : i.isBranch = false) :
    instructions.Straight i := by
  intro pool s t ht
  change perform pool i s = .running t at ht
  change t.pc = s.pc + 4
  unfold perform at ht
  cases i with
  | branchNonzero rt offset => cases h
  | ret => cases ht
  | loadConstant rt rm =>
    simp only [execute] at ht
    split at ht
    · cases ht
    · split at ht
      · cases ht; exact State.pc_set _ rt _
      · cases ht
  | push rt =>
    simp only [execute, State.push] at ht
    split at ht
    · cases ht; rfl
    · cases ht
  | pop rt =>
    simp only [execute, State.pop] at ht
    split at ht
    · split at ht
      · cases ht; exact State.pc_set _ rt _
      · cases ht
    · cases ht
  | popResult =>
    simp only [execute, State.pop] at ht
    split at ht
    · split at ht
      · cases ht; rfl
      · cases ht
    · cases ht
  | movz rd imm => cases ht; exact State.pc_set _ rd _
  | movk rd imm => cases ht; exact State.pc_set _ rd _
  | arithmetic f rd rn rm => cases ht; exact State.pc_set _ rd _
  | _ => cases ht; rfl

end Instruction

/-- Instructions without branches lead from front to back. -/
theorem leads_of_performAll {m : SealedRegions} {is : Piece} {s t : State}
    (hcode : CodeAt m s.pc (pieceBytes is)) (hstraight : ∀ i ∈ is, i.isBranch = false)
    (ht : instructions.performAll m.pool is s = .running t) (husable : view.usable t) :
    view.Leads m s (pieceBytes is).length t.sp t.stack t := by
  obtain ⟨hreaches, hpc⟩ := instructions.reaches_of_performAll hcode
    (fun i hi => Instruction.straight_of_isBranch_eq_false (hstraight i hi)) ht
  exact ⟨hreaches, husable, hpc, rfl, rfl⟩

/-! ## Fetching -/

/-- The two halves of a slot number make the slot number, however large it is. -/
theorem toNat_insertUpper (slot : UInt32) :
    (insertUpper (.ofBitVec ((slot.toBitVec.extractLsb' 0 16).setWidth 64))
      (slot.toBitVec.extractLsb' 16 16)).toUInt64.toNat = slot.toNat := by
  have hbits : (insertUpper (.ofBitVec ((slot.toBitVec.extractLsb' 0 16).setWidth 64))
      (slot.toBitVec.extractLsb' 16 16)).toBitVec = slot.toBitVec.setWidth 64 := by
    refine BitVec.eq_of_getLsbD_eq fun i hi => ?_
    simp only [insertUpper, Int64.toBitVec_ofBitVec, BitVec.getLsbD_append,
      BitVec.getLsbD_extractLsb', BitVec.getLsbD_setWidth]
    by_cases hlow : i < 16
    · simp [hlow, hi]
    by_cases hmiddle : i < 32
    · simp [hlow, hi, show i - 16 < 16 by omega, show 16 + (i - 16) = i by omega]
    · have hzero : slot.toBitVec.getLsbD i = false := BitVec.getLsbD_of_ge _ _ (by omega)
      simp [hlow, hi, hzero, show ¬i - 16 < 16 by omega, show ¬32 + (i - 16 - 16) < 16 by omega]
  change (insertUpper _ _).toBitVec.toNat = slot.toBitVec.toNat
  rw [hbits, BitVec.toNat_setWidth, Nat.mod_eq_of_lt (by have := slot.toBitVec.isLt; omega)]

/-- A load whose slot is in the pool moves the constant there to its register. -/
theorem perform_loadConstant {pool : Array Int64} {s : State} (h : s.result = none)
    (rt rm : Register) {v : Int64} (hcell : pool[(s.get rm).toUInt64.toNat]? = some v) :
    perform pool (.loadConstant rt rm) s =
      .running (State.set { s with pc := s.pc + 4 } rt v) := by
  have hget : State.get { s with pc := s.pc + 4 } rm = s.get rm := by cases rm <;> rfl
  simp only [perform, Instruction.execute, hget]
  split
  · next hlost =>
    rw [h] at hlost
    cases hlost
  · rw [hcell]

/-- A fetch starts with two instructions after which the index register holds the slot number:
either they load it, or they are no-ops and it is there already. -/
theorem exists_code_fetch {s : State} {slot : UInt32} {elided : Bool}
    (helided : elided = true → s.x9.toUInt64.toNat = slot.toNat) :
    ∃ (is : Piece) (x : Int64),
      (Emission.fetch slot elided).code .a64 =
        pieceBytes (is ++ [.loadConstant .x10 .x9, .push .x10]) ∧
      (∀ i ∈ is, i.isBranch = false) ∧
      (∀ pool rest, instructions.performAll pool (is ++ rest) s =
        instructions.performAll pool rest { s with x9 := x, pc := s.pc + 8 }) ∧
      x.toUInt64.toNat = slot.toNat := by
  cases elided with
  | false =>
    refine ⟨loadIndex slot, _, rfl, ?_, fun _ _ => rfl, toNat_insertUpper slot⟩
    simp [loadIndex, Instruction.isBranch]
  | true => exact ⟨[.nop, .nop], s.x9, rfl, by decide, fun _ _ => rfl, helided rfl⟩

/-- A fetch pushes the constant in its slot. -/
theorem exists_leads_fetch {m : SealedRegions} {s : State} {slot : UInt32} {elided : Bool}
    {v : Int64} (husable : view.usable s)
    (hcode : CodeAt m s.pc ((Emission.fetch slot elided).code .a64))
    (hcell : m.pool[slot.toNat]? = some v)
    (helided : elided = true → s.x9.toUInt64.toNat = slot.toNat) :
    ∃ t, view.Leads m s (Target.fetchSize .a64) (s.sp - UInt64.ofNat stackCell) (v :: s.stack) t ∧
      t.x9.toUInt64.toNat = slot.toNat ∧ t.status = s.status := by
  obtain ⟨hresult, haligned⟩ := husable
  obtain ⟨is, x, hbytes, hbranch, hrun, hx⟩ := exists_code_fetch helided
  let indexed : State := { s with x9 := x, pc := s.pc + 8 }
  let loaded : State := { indexed with x10 := v, pc := s.pc + 12 }
  let last : State :=
    { loaded with
      sp := s.sp - UInt64.ofNat stackCell
      stack := v :: s.stack
      pc := s.pc + 16 }
  have hlast : instructions.performAll m.pool (is ++ [.loadConstant .x10 .x9, .push .x10]) s =
      .running last := by
    have hload : perform m.pool (.loadConstant .x10 .x9) indexed = .running loaded :=
      perform_loadConstant (s := indexed) hresult .x10 .x9 (hx ▸ hcell)
    have hpush : perform m.pool (.push .x10) loaded = .running last :=
      perform_push (s := loaded) haligned m.pool .x10
    rw [hrun]
    simp only [InstructionSet.performAll, instructions]
    rw [hload]
    dsimp only
    rw [hpush]
  rw [hbytes] at hcode
  have hstraight : ∀ i ∈ is ++ [.loadConstant .x10 .x9, .push .x10], i.isBranch = false := by
    intro i hi
    rcases List.mem_append.1 hi with hi | hi
    · exact hbranch i hi
    · have hpush : ∀ i ∈ [Instruction.loadConstant .x10 .x9, .push .x10], i.isBranch = false := by
        decide
      exact hpush i hi
  have hleads := leads_of_performAll hcode hstraight hlast ⟨hresult, aligned_push haligned rfl⟩
  have hlength : (pieceBytes (is ++ [.loadConstant .x10 .x9, .push .x10])).length =
      Target.fetchSize .a64 := by
    rw [← hbytes]
    exact Target.length_fetch .a64 slot !elided
  rw [hlength] at hleads
  exact ⟨last, hleads, hx, rfl⟩

/-! ## Operators -/

/-- A branch on a register that is not zero skips as many words as its offset says. -/
theorem perform_branchNonzero {offset : BitVec 19} {n : Nat} (hoffset : 4 * offset.toInt - 4 = n)
    (pool : Array Int64) {s : State} {rt : Register} (h : s.get rt ≠ 0) :
    perform pool (.branchNonzero rt offset) s = .running { s with pc := s.pc + 4 + n } := by
  have hget : State.get { s with pc := s.pc + 4 } rt = s.get rt := by cases rt <;> rfl
  simp only [perform, Instruction.execute, hget, if_neg h, hoffset, branchTarget?_natCast]

/-- The machine carries out the instruction of the division at which its program counter points. -/
theorem step_divide {m : SealedRegions} {s : State}
    (hcode : CodeAt m s.pc (pieceBytes (compute .div))) (j : Nat) {i : Instruction} (u : State)
    (hi : (compute .div)[j]? = some i)
    (hpc : u.pc = s.pc + (pieceBytes ((compute .div).take j)).length) :
    step m u = perform m.pool i u :=
  instructions.step_at hcode hi hpc

/-- A zero divisor falls through the branch: the status is stored, and the processor divides. -/
theorem reaches_divide_zero {m : SealedRegions} {s : State}
    (hcode : CodeAt m s.pc (pieceBytes (compute .div))) (hzero : s.x11 = 0) :
    Outcome.Reaches (step m) s
      { s with x10 := s.x10 / s.x11, x12 := 1, status := 1, pc := s.pc + 16 } := by
  let fallen : State := { s with pc := s.pc + 4 }
  let loaded : State := { fallen with x12 := 1, pc := s.pc + 8 }
  let stored : State := { loaded with status := 1, pc := s.pc + 12 }
  have hfallen : step m s = .running fallen := (step_divide hcode 0 s rfl rfl).trans (if_pos hzero)
  have hloaded : step m fallen = .running loaded := step_divide hcode 1 fallen rfl rfl
  have hstored : step m loaded = .running stored := step_divide hcode 2 loaded rfl rfl
  exact .head hfallen (.head hloaded (.head hstored (.single (step_divide hcode 3 stored rfl rfl))))

/-- Any other divisor takes the branch, and the processor divides at once. -/
theorem reaches_divide_quotient {m : SealedRegions} {s : State}
    (hcode : CodeAt m s.pc (pieceBytes (compute .div))) (hzero : s.x11 ≠ 0) :
    Outcome.Reaches (step m) s { s with x10 := s.x10 / s.x11, pc := s.pc + 16 } := by
  let taken : State := { s with pc := s.pc + 12 }
  have htaken : step m s = .running taken :=
    (step_divide hcode 0 s rfl rfl).trans (perform_branchNonzero (n := 8) rfl _ hzero)
  exact .head htaken (.single (step_divide hcode 3 taken rfl rfl))

/-- Whatever the divisor, the sequence ends behind its last instruction with the index register
as it was.  A zero divisor is reported; any other leaves the quotient in `x10`. -/
theorem exists_leads_divide {m : SealedRegions} {s : State} (husable : view.usable s)
    (hcode : CodeAt m s.pc (pieceBytes (compute .div))) :
    ∃ t, view.Leads m s (pieceBytes (compute .div)).length s.sp s.stack t ∧ t.x9 = s.x9 ∧
      Reports (Operator.div.apply s.x10 s.x11) s.status t.x10 t.status := by
  by_cases hzero : s.x11 = 0
  · refine ⟨_, ⟨reaches_divide_zero hcode hzero, husable, rfl, rfl, rfl⟩, rfl, ?_⟩
    rw [Operator.apply, if_pos hzero]
    rfl
  · refine ⟨_, ⟨reaches_divide_quotient hcode hzero, husable, rfl, rfl, rfl⟩, rfl, ?_⟩
    rw [Operator.apply, if_neg hzero]
    exact ⟨rfl, rfl⟩

/-- An operator takes its operands from `x10` and `x11` and leaves its value in `x10`. -/
theorem exists_leads_compute {m : SealedRegions} {s : State} {op : Operator}
    (husable : view.usable s) (hcode : CodeAt m s.pc (pieceBytes (compute op))) :
    ∃ t, view.Leads m s (pieceBytes (compute op)).length s.sp s.stack t ∧
      t.x9 = op.indexAfter s.x10 s.x11 s.x9 ∧
      Reports (op.apply s.x10 s.x11) s.status t.x10 t.status := by
  cases op with
  | add =>
    have hleads := leads_of_performAll hcode (by decide) rfl husable
    exact ⟨_, hleads, rfl, rfl, rfl⟩
  | sub =>
    have hleads := leads_of_performAll hcode (by decide) rfl husable
    exact ⟨_, hleads, rfl, rfl, rfl⟩
  | mul =>
    have hleads := leads_of_performAll hcode (by decide) rfl husable
    exact ⟨_, hleads, rfl, rfl, rfl⟩
  | xor =>
    have hleads := leads_of_performAll hcode (by decide) rfl husable
    exact ⟨_, hleads, rfl, rfl, rfl⟩
  | div =>
    obtain ⟨t, hleads, hindex, hreport⟩ := exists_leads_divide husable hcode
    exact ⟨t, hleads, hindex, hreport⟩

/-- No-ops change nothing but the program counter. -/
theorem exists_leads_nops {m : SealedRegions} {n : Nat} {s : State} (husable : view.usable s)
    (hcode : CodeAt m s.pc (pieceBytes (List.replicate n .nop))) :
    ∃ pc, view.Leads m s (pieceBytes (List.replicate n .nop)).length s.sp s.stack
      { s with pc := pc } := by
  have hrun : ∃ pc, instructions.performAll m.pool (List.replicate n .nop) s =
      .running { s with pc := pc } := by
    clear hcode husable
    induction n generalizing s with
    | zero => exact ⟨s.pc, rfl⟩
    | succ n ih => exact ih (s := { s with pc := _ })
  obtain ⟨pc, hrun⟩ := hrun
  have hbranch : ∀ i ∈ List.replicate n Instruction.nop, i.isBranch = false := by
    intro i hi
    rw [List.eq_of_mem_replicate hi]
    rfl
  exact ⟨pc, leads_of_performAll hcode hbranch hrun husable⟩

/-- Appending instructions one at a time gives the bytes of the whole list. -/
theorem flatten_singletons (is : List Instruction) :
    ((is.map fun i => [i]).map pieceBytes).flatten = pieceBytes is := by
  induction is with
  | nil => rfl
  | cons i is ih =>
    rw [List.map_cons, List.map_cons, List.flatten_cons, ih]
    have hcons : pieceBytes ([i] ++ is) = pieceBytes [i] ++ pieceBytes is := List.flatMap_append
    exact hcons.symm

/-- An operator is applied between taking the operands and pushing the result; no-ops fill the
rest. -/
theorem exists_flatten_operator (op : Operator) :
    ∃ n, (Target.a64.operator op).flatten =
      pieceBytes [.pop .x11, .pop .x10] ++
        (pieceBytes (compute op) ++ (pieceBytes [.push .x10] ++
          pieceBytes (List.replicate n .nop))) := by
  let body : List Instruction := [.pop .x11, .pop .x10] ++ compute op ++ [.push .x10]
  refine ⟨operatorWords - body.length, ?_⟩
  change (((body ++ List.replicate (operatorWords - body.length) Instruction.nop).map
    fun i => [i]).map pieceBytes).flatten = _
  rw [flatten_singletons]
  simp only [pieceBytes, body, List.flatMap_append, List.append_assoc]

/-- An operator replaces the two top cells. -/
theorem exists_leads_operator {m : SealedRegions} {s : State} {op : Operator} {x y : Int64}
    {below : List Int64} (husable : view.usable s)
    (hcode : CodeAt m s.pc (Target.a64.operator op).flatten) (hstack : s.stack = y :: x :: below) :
    ∃ t z, view.Leads m s (Target.operatorSize .a64) (s.sp + UInt64.ofNat stackCell)
        (z :: below) t ∧
      t.x9 = op.indexAfter x y s.x9 ∧
      Reports (op.apply x y) s.status z t.status := by
  obtain ⟨hresult, haligned⟩ := husable
  have hlength := Target.length_operator .a64 op
  obtain ⟨n, hsplit⟩ := exists_flatten_operator op
  rw [hsplit] at hcode hlength
  let right : State :=
    { s with x11 := y, sp := s.sp + UInt64.ofNat stackCell, stack := x :: below, pc := s.pc + 4 }
  let popped : State :=
    { right with
      x10 := x
      sp := s.sp + UInt64.ofNat stackCell + UInt64.ofNat stackCell
      stack := below
      pc := s.pc + 8 }
  have hright : right.aligned = true := aligned_pop haligned rfl
  have hleft : popped.aligned = true := aligned_pop hright rfl
  have hpops : instructions.performAll m.pool [.pop .x11, .pop .x10] s = .running popped := by
    have hfirst : perform m.pool (.pop .x11) s = .running right :=
      perform_pop haligned m.pool .x11 hstack
    have hsecond : perform m.pool (.pop .x10) right = .running popped :=
      perform_pop hright m.pool .x10 rfl
    simp only [InstructionSet.performAll, instructions]
    rw [hfirst]
    dsimp only
    rw [hsecond]
  have hpopped := leads_of_performAll hcode.left (by decide) hpops ⟨hresult, hleft⟩
  have hcode := hpopped.rest hcode
  obtain ⟨t, ht, hindex, hreport⟩ := exists_leads_compute hpopped.usable hcode.left
  have hcode := ht.rest hcode
  let pushed : State :=
    { t with sp := t.sp - UInt64.ofNat stackCell, stack := t.x10 :: t.stack, pc := t.pc + 4 }
  have hpush : instructions.performAll m.pool [.push .x10] t = .running pushed := by
    simp only [InstructionSet.performAll, instructions]
    rw [perform_push ht.usable.2]
    rfl
  have husable : view.usable pushed := ⟨ht.usable.1, aligned_push ht.usable.2 rfl⟩
  have hpushed := leads_of_performAll hcode.left (by decide) hpush husable
  obtain ⟨pc, hlast⟩ := exists_leads_nops husable (hpushed.rest hcode)
  have hleads := hpopped.trans (ht.trans (hpushed.trans hlast))
  have hsp : pushed.sp = s.sp + UInt64.ofNat stackCell := by
    change t.sp - _ = _
    rw [show t.sp = popped.sp from ht.sp, UInt64.add_sub_cancel]
  have hbelow : pushed.stack = t.x10 :: below := congrArg (t.x10 :: ·) ht.stack
  simp only [List.length_append] at hlength
  rw [hlength, hsp, hbelow] at hleads
  exact ⟨_, t.x10, hleads, hindex, hreport⟩

/-! ## Programs -/

/-- The code that ends a program returns the top cell in `x0`. -/
theorem exists_returned_epilogue {m : SealedRegions} {s : State} {z : Int64} {below : List Int64}
    (husable : view.usable s) (hcode : CodeAt m s.pc (Target.epilogue .a64))
    (hstack : s.stack = z :: below) :
    ∃ t last, Outcome.Reaches (step m) s t ∧ step m t = .returned last ∧
      last.pc = s.pc + Target.epilogueSize .a64 ∧
      last.sp = s.sp + UInt64.ofNat stackCell ∧ last.stack = below ∧ last.result = some z ∧
      last.status = s.status := by
  have hpop := perform_popResult husable.2 m.pool hstack
  have hsplit : Target.epilogue .a64 =
      Instruction.popResult.encode ++ (Instruction.ret.encode ++ []) := rfl
  rw [hsplit] at hcode
  let popped : State :=
    { s with
      result := some z
      sp := s.sp + UInt64.ofNat stackCell
      stack := below
      pc := s.pc + 4 }
  have hpopped : step m s = .running popped := (step_eq_perform hcode).trans hpop
  have hret : CodeAt m popped.pc (Instruction.ret.encode ++ []) := hcode.right
  exact ⟨popped, { popped with pc := s.pc + 8 }, .single hpopped, step_eq_perform hret,
    rfl, rfl, rfl, rfl, rfl⟩

/-- The code for this target does on this machine what it is there for. -/
theorem view_realizes : view.Realizes .a64 where
  fetch := by
    intro m s slot elided v husable hcode hcell helided
    exact exists_leads_fetch husable hcode hcell helided
  operator := by
    intro m s op x y below husable hcode hstack
    obtain ⟨t, z, hleads, hindex, hreport⟩ := exists_leads_operator husable hcode hstack
    refine ⟨t, z, hleads, fun hkeeps => ?_, hreport⟩
    rw [Operator.indexAfter_of_clobbersIndex_eq_false hkeeps] at hindex
    exact congrArg (fun v => v.toUInt64.toNat) hindex
  epilogue := by
    intro m s z below husable hcode hstack
    exact exists_returned_epilogue husable hcode hstack

/-- A compiled tree, entered with a clear status, an aligned stack and the address of the pool in
`x0`, and with anything in the other registers and on the stack, reaches the end of its code
without a fault and returns there with the stack it was entered with.  The value of the tree
is then in `x0`, and the status is clear; or the tree has none, and the status is not. -/
theorem returns_value_in_x0 {t : Tree} {p : Program}
    (hcompile : Program.compile .a64 t = .ok p) {m : SealedRegions} (hloaded : p.LoadedIn m)
    {s : State} (hpc : s.pc = 0) (hstatus : s.status = 0) (hpool : s.result = none)
    (haligned : s.aligned = true) :
    ∃ n last, Outcome.run (step m) n s = .returned last ∧ last.pc = p.size.codeLength ∧
      last.sp = s.sp ∧ last.stack = s.stack ∧
      match t.interpret with
      | .ok v => last.result = some v ∧ last.status = 0
      | .error .divisionByZero => last.status ≠ 0 := by
  obtain ⟨n, last, hrun, hlast, hsp, hstack, hresult⟩ :=
    view_realizes.exists_returned hcompile hloaded (s := s) ⟨hpool, haligned⟩ hpc hstatus
  refine ⟨n, last, hrun, hlast, hsp, hstack, ?_⟩
  cases hvalue : t.interpret with
  | ok v =>
    rw [hvalue] at hresult
    exact hresult
  | error e =>
    rw [hvalue] at hresult
    exact ne_of_eq_of_ne hresult Int64.zero_ne_one.symm

/-- The compiled product of six and seven, run in the memory it was given, leaves 42 in `x0`. -/
theorem returns_product_in_x0 :
    ∃ t p n last, Tree.build? [.leaf 6, .leaf 7, .binary .mul 0 1] 2 = some t ∧
      Program.compile .a64 t = .ok p ∧ Outcome.run (step p.regions) n entry = .returned last ∧
      last.result = some 42 ∧ last.status = 0 := by
  obtain ⟨t, ht, hbuilt, hshape, hvalue⟩ := Tree.Built.exists_six_times_seven
  obtain ⟨p, hp⟩ := hbuilt.exists_compile_eq_ok .a64 (by rw [hshape]; decide)
  obtain ⟨n, last, hrun, -, -, -, hresult⟩ :=
    returns_value_in_x0 hp (Program.loadedIn_regions hp) (s := entry) rfl rfl rfl (by decide)
  rw [hvalue] at hresult
  exact ⟨t, p, n, last, ht, hp, hrun, hresult.1, hresult.2⟩

end Reckoner.A64
