import Reckoner.Proofs.Machine.InstructionSet
import Reckoner.Proofs.Machine.Simulation

/-!
# Compiled code on the x86-64 machine

Every sequence but one goes straight through its instructions.  A division branches on its
divisor: zero is reported and leaves the dividend for a quotient, minus one negates, and any
other divisor is handed to the processor, which then has a quotient that fits.  All three
ways end behind the sequence.
-/

set_option autoImplicit false

namespace Reckoner.X64

/-- No instruction is longer than the machine reads at a time. -/
theorem Instruction.length_le (i : Instruction) : i.length ≤ maxLength := by
  cases i with
  | push r => cases r <;> decide
  | pop r => cases r <;> decide
  | nop extra =>
    unfold length maxLength
    rw [encode, length_nopBytes]
    omega
  | _ => exact Nat.le_of_ble_eq_true rfl

/-- What an instruction does to a state whose program counter points at it. -/
def perform (pool : Array Int64) (i : Instruction) (s : State) : Outcome State :=
  i.execute pool { s with pc := s.pc + i.length }

/-- Where the code of an instruction stands, a step performs that instruction. -/
theorem step_eq_perform {m : SealedRegions} {s : State} {i : Instruction} {rest : List UInt8}
    (hcode : CodeAt m s.pc (i.encode ++ rest)) : step m s = perform m.pool i s := by
  obtain ⟨behind, hbehind⟩ := hcode
  have hwindow : (m.code.extract s.pc (s.pc + maxLength)).toList =
      i.encode ++ (rest ++ behind).take (maxLength - i.length) := by
    rw [Array.toList_extract, List.extract_eq_take_drop, Nat.add_sub_cancel_left, ← hbehind,
      List.append_assoc, List.take_append, List.take_of_length_le i.length_le]
    rfl
  unfold step
  rw [hwindow, decode?_encode_append]
  rfl

/-- The instructions of the machine. -/
def instructions : InstructionSet State Instruction where
  step := step
  pc := State.pc
  encode := Instruction.encode
  perform := perform
  step_eq := step_eq_perform

/-- The parts of the state that compiled code depends on. -/
def view : View State where
  step := step
  pc := State.pc
  index := fun s => s.rdx.toUInt64.toNat
  sp := State.sp
  stack := State.stack
  status := State.status
  usable := fun _ => True
  result := fun s => some s.rax

/-- Setting a register does not move the program counter. -/
@[simp] theorem State.pc_set (s : State) (r : Register) (v : Int64) : (s.set r v).pc = s.pc := by
  cases r <;> rfl

namespace Instruction

/-- The instruction may lead elsewhere than to the next one. -/
def isBranch : Instruction → Bool
  | jumpNotEqual _ | jump _ => true
  | _ => false

/-- An instruction that is not a branch goes straight on to the next one. -/
theorem straight_of_isBranch_eq_false {i : Instruction} (h : i.isBranch = false) :
    instructions.Straight i := by
  intro pool s t ht
  change perform pool i s = .running t at ht
  change t.pc = s.pc + i.length
  unfold perform at ht
  cases i with
  | jumpNotEqual distance => cases h
  | jump distance => cases h
  | ret => cases ht
  | pushConstant =>
    simp only [execute] at ht
    split at ht
    · cases ht; rfl
    · cases ht
  | pop r =>
    simp only [execute] at ht
    split at ht
    · cases ht; exact State.pc_set _ r _
    · cases ht
  | idiv r =>
    simp only [execute, State.divide] at ht
    split at ht
    · cases ht
    · cases ht; rfl
  | add dst src => cases ht; exact State.pc_set _ dst _
  | sub dst src => cases ht; exact State.pc_set _ dst _
  | xor dst src => cases ht; exact State.pc_set _ dst _
  | mov dst src => cases ht; exact State.pc_set _ dst _
  | neg r => cases ht; exact State.pc_set _ r _
  | _ => cases ht; rfl

end Instruction

/-- Instructions without branches lead from front to back. -/
theorem leads_of_performAll {m : SealedRegions} {is : Piece} {s t : State}
    (hcode : CodeAt m s.pc (pieceBytes is)) (hstraight : ∀ i ∈ is, i.isBranch = false)
    (ht : instructions.performAll m.pool is s = .running t) :
    view.Leads m s (pieceBytes is).length t.sp t.stack t := by
  obtain ⟨hreaches, hpc⟩ := instructions.reaches_of_performAll hcode
    (fun i hi => Instruction.straight_of_isBranch_eq_false (hstraight i hi)) ht
  exact ⟨hreaches, trivial, hpc, rfl, rfl⟩

/-! ## Fetching -/

/-- A fetch pushes the constant in its slot. -/
theorem exists_leads_fetch {m : SealedRegions} {s : State} {slot : UInt32} {elided : Bool}
    {v : Int64} (hcode : CodeAt m s.pc ((Emission.fetch slot elided).code .x64))
    (hcell : m.pool[slot.toNat]? = some v)
    (helided : elided = true → s.rdx.toUInt64.toNat = slot.toNat) :
    ∃ t, view.Leads m s (Target.fetchSize .x64) (s.sp - UInt64.ofNat stackCell) (v :: s.stack) t ∧
      t.rdx.toUInt64.toNat = slot.toNat ∧ t.status = s.status := by
  cases elided with
  | false =>
    have hload : (slot.toUInt64.toInt64).toUInt64.toNat = slot.toNat := by simp
    have hrun : instructions.performAll m.pool [.loadIndex slot, .pushConstant] s =
        .running ({ s with rdx := slot.toUInt64.toInt64, pc := s.pc + 8 }.push v) := by
      simp only [InstructionSet.performAll, instructions, perform, Instruction.execute, hload,
        hcell]
      rfl
    exact ⟨_, leads_of_performAll hcode (by simp [Instruction.isBranch]) hrun, hload, rfl⟩
  | true =>
    have hknown := helided rfl
    have hrun : instructions.performAll m.pool [.nop 4, .pushConstant] s =
        .running ({ s with pc := s.pc + 8 }.push v) := by
      simp only [InstructionSet.performAll, instructions, perform, Instruction.execute, hknown,
        hcell]
      rfl
    exact ⟨_, leads_of_performAll hcode (by decide) hrun, hknown, rfl⟩

/-! ## Dividing -/

/-- Dividing by `-1` negates, also where the quotient does not fit: the least integer stays
itself. -/
theorem div_neg_one (x : Int64) : x / -1 = -x := by
  have hdivisor : (-1 : Int64).toInt = -1 := rfl
  rw [← Int64.toInt_inj, Int64.toInt_div, hdivisor, Int.tdiv_neg, Int.tdiv_one, Int64.toInt_neg]

/-- With the sign of `rax` in `rdx`, the two together are the dividend. -/
theorem dividend_signExtended (x : Int64) :
    (if x < 0 then (-1 : Int64) else 0).toInt * 0x1_0000_0000_0000_0000 + x.toUInt64.toNat =
      x.toInt := by
  have hcases := BitVec.toInt_eq_toNat_cond x.toBitVec
  have hbound := x.toBitVec.isLt
  change x.toInt = _ at hcases
  change _ * 0x1_0000_0000_0000_0000 + (x.toBitVec.toNat : Int) = _
  by_cases hneg : x < 0
  · have hlt : x.toInt < 0 := Int64.lt_iff_toInt_lt.1 hneg
    have hsign : (-1 : Int64).toInt = -1 := rfl
    rw [if_pos hneg, hsign]
    omega
  · have hle : ¬x.toInt < 0 := fun h => hneg (Int64.lt_iff_toInt_lt.2 h)
    rw [if_neg hneg, Int64.toInt_zero]
    omega

/-- A divisor other than zero and minus one has a quotient that fits. -/
theorem divide_signExtended {s : State} {y : Int64} (hsign : s.rdx = if s.rax < 0 then -1 else 0)
    (hzero : y ≠ 0) (hminus : y ≠ -1) :
    ∃ remainder, s.divide y.toInt =
      .running { s with rax := s.rax / y, rdx := remainder, zero := none } := by
  have hdividend := dividend_signExtended s.rax
  have hquotient := Int64.toInt_div_of_ne_right s.rax y hminus
  have hlow := (s.rax / y).le_toInt
  have hhigh := (s.rax / y).toInt_lt
  have hdivisor : y.toInt ≠ 0 := fun h => hzero (Int64.toInt_inj.1 h)
  refine ⟨Int64.ofInt (s.rax.toInt.tmod y.toInt), ?_⟩
  unfold State.divide
  dsimp only
  rw [hsign, hdividend, ← hquotient, Int64.ofInt_toInt, if_neg]
  rintro (h | h | h)
  · exact hdivisor h
  · omega
  · omega

/-- A jump forward skips as many bytes as its distance says. -/
theorem perform_jump {distance : UInt8} {n : Nat} (h : distance.toInt8.toInt = n)
    (pool : Array Int64) (s : State) :
    perform pool (.jump distance) s = .running { s with pc := s.pc + 2 + n } := by
  change State.branch { s with pc := s.pc + 2 } distance = _
  unfold State.branch
  rw [h, branchTarget?_natCast]

/-- A jump on a difference is taken when the zero flag is clear. -/
theorem perform_jumpNotEqual_of_false {distance : UInt8} {n : Nat}
    (h : distance.toInt8.toInt = n) (pool : Array Int64) {s : State} (hzero : s.zero = some false) :
    perform pool (.jumpNotEqual distance) s = .running { s with pc := s.pc + 2 + n } := by
  rw [← perform_jump h pool]
  simp only [perform, Instruction.execute, hzero]
  rfl

/-- A jump on a difference is not taken when the zero flag is set. -/
theorem perform_jumpNotEqual_of_true (distance : UInt8) (pool : Array Int64) {s : State}
    (hzero : s.zero = some true) :
    perform pool (.jumpNotEqual distance) s = .running { s with pc := s.pc + 2 } := by
  simp only [perform, Instruction.execute, hzero]
  rfl

/-- The machine carries out the instruction of the division at which its program counter points. -/
theorem step_divide {m : SealedRegions} {s : State} (hcode : CodeAt m s.pc (pieceBytes divide))
    (j : Nat) {i : Instruction} (u : State) (hi : divide[j]? = some i)
    (hpc : u.pc = s.pc + (pieceBytes (divide.take j)).length) :
    step m u = perform m.pool i u :=
  instructions.step_at hcode hi hpc

/-- The divisor is compared with zero. -/
theorem step_divide_tested {m : SealedRegions} {s : State}
    (hcode : CodeAt m s.pc (pieceBytes divide)) :
    step m s = .running { s with zero := some (s.rcx = 0), pc := s.pc + 3 } := by
  rw [step_divide hcode 0 s rfl rfl]
  simp only [perform, Instruction.execute, State.get, Int64.and_self]
  rfl

/-- A zero divisor falls through the first branch: the status is stored, and a jump leads to the
end of the sequence. -/
theorem reaches_divide_zero {m : SealedRegions} {s : State}
    (hcode : CodeAt m s.pc (pieceBytes divide)) (hzero : s.rcx = 0) :
    Outcome.Reaches (step m) s { s with zero := some true, status := 1, pc := s.pc + 36 } := by
  let tested : State := { s with zero := some true, pc := s.pc + 3 }
  let fallen : State := { tested with pc := s.pc + 5 }
  let stored : State := { fallen with status := 1, pc := s.pc + 12 }
  have htested : step m s = .running tested := by
    rw [step_divide_tested hcode, decide_eq_true hzero]
  have hfallen : step m tested = .running fallen :=
    (step_divide hcode 1 tested rfl rfl).trans (perform_jumpNotEqual_of_true _ _ rfl)
  have hstored : step m fallen = .running stored :=
    step_divide hcode 2 fallen rfl rfl
  have hlast : step m stored = .running { stored with pc := s.pc + 36 } :=
    (step_divide hcode 3 stored rfl rfl).trans (perform_jump (n := 22) rfl _ _)
  exact .head htested (.head hfallen (.head hstored (.single hlast)))

/-- Any other divisor takes the first branch, and is compared with minus one. -/
theorem reaches_divide_compared {m : SealedRegions} {s : State}
    (hcode : CodeAt m s.pc (pieceBytes divide)) (hzero : s.rcx ≠ 0) :
    Outcome.Reaches (step m) s { s with zero := some (s.rcx = -1), pc := s.pc + 18 } := by
  let tested : State := { s with zero := some false, pc := s.pc + 3 }
  let chosen : State := { tested with pc := s.pc + 14 }
  have htested : step m s = .running tested := by
    rw [step_divide_tested hcode, decide_eq_false hzero]
  have hchosen : step m tested = .running chosen :=
    (step_divide hcode 1 tested rfl rfl).trans
      (perform_jumpNotEqual_of_false (n := 9) rfl _ rfl)
  exact .head htested (.head hchosen (.single (step_divide hcode 4 chosen rfl rfl)))

/-- Minus one falls through the second branch: the dividend is negated, and a jump leads to the
end of the sequence. -/
theorem reaches_divide_neg_one {m : SealedRegions} {s : State}
    (hcode : CodeAt m s.pc (pieceBytes divide)) (hminus : s.rcx = -1) :
    Outcome.Reaches (step m) s
      { s with rax := -s.rax, zero := some (-s.rax = 0), pc := s.pc + 36 } := by
  let compared : State := { s with zero := some true, pc := s.pc + 18 }
  let fallen : State := { compared with pc := s.pc + 20 }
  let negated : State := { fallen with rax := -s.rax, zero := some (-s.rax = 0), pc := s.pc + 23 }
  have hcompared : Outcome.Reaches (step m) s compared := by
    have h := reaches_divide_compared hcode (by rw [hminus]; decide)
    rwa [decide_eq_true hminus] at h
  have hfallen : step m compared = .running fallen :=
    (step_divide hcode 5 compared rfl rfl).trans (perform_jumpNotEqual_of_true _ _ rfl)
  have hnegated : step m fallen = .running negated := step_divide hcode 6 fallen rfl rfl
  have hlast : step m negated = .running { negated with pc := s.pc + 36 } :=
    (step_divide hcode 7 negated rfl rfl).trans (perform_jump (n := 11) rfl _ _)
  exact hcompared.trans (.head hfallen (.head hnegated (.single hlast)))

/-- Every other divisor takes the second branch too, and is handed to the processor, while the
index register is kept in `r8`. -/
theorem reaches_divide_quotient {m : SealedRegions} {s : State}
    (hcode : CodeAt m s.pc (pieceBytes divide)) (hzero : s.rcx ≠ 0) (hminus : s.rcx ≠ -1) :
    Outcome.Reaches (step m) s
      { s with rax := s.rax / s.rcx, r8 := s.rdx, zero := none, pc := s.pc + 36 } := by
  let compared : State := { s with zero := some false, pc := s.pc + 18 }
  let taken : State := { compared with pc := s.pc + 25 }
  let saved : State := { taken with r8 := s.rdx, pc := s.pc + 28 }
  let widened : State := { saved with rdx := if s.rax < 0 then -1 else 0, pc := s.pc + 30 }
  have hcompared : Outcome.Reaches (step m) s compared := by
    have h := reaches_divide_compared hcode hzero
    rwa [decide_eq_false hminus] at h
  have htaken : step m compared = .running taken :=
    (step_divide hcode 5 compared rfl rfl).trans
      (perform_jumpNotEqual_of_false (n := 5) rfl _ rfl)
  have hsaved : step m taken = .running saved := step_divide hcode 8 taken rfl rfl
  have hwidened : step m saved = .running widened := step_divide hcode 9 saved rfl rfl
  obtain ⟨remainder, hdivide⟩ := divide_signExtended
    (s := { widened with pc := s.pc + 33 }) rfl hzero hminus
  let divided : State :=
    { widened with rax := s.rax / s.rcx, rdx := remainder, zero := none, pc := s.pc + 33 }
  have hdivided : step m widened = .running divided :=
    (step_divide hcode 10 widened rfl rfl).trans hdivide
  have hlast : step m divided = .running { divided with rdx := s.rdx, pc := s.pc + 36 } :=
    step_divide hcode 11 divided rfl rfl
  exact hcompared.trans
    (.head htaken (.head hsaved (.head hwidened (.head hdivided (.single hlast)))))

/-- Whatever the divisor, the sequence ends behind its last instruction with the index register
as it was.  A zero divisor is reported; any other leaves the quotient in `rax`. -/
theorem exists_leads_divide {m : SealedRegions} {s : State}
    (hcode : CodeAt m s.pc (pieceBytes divide)) :
    ∃ t, view.Leads m s (pieceBytes divide).length s.sp s.stack t ∧ t.rdx = s.rdx ∧
      Reports (Operator.div.apply s.rax s.rcx) s.status t.rax t.status := by
  by_cases hzero : s.rcx = 0
  · refine ⟨_, ⟨reaches_divide_zero hcode hzero, trivial, rfl, rfl, rfl⟩, rfl, ?_⟩
    rw [Operator.apply, if_pos hzero]
    rfl
  by_cases hminus : s.rcx = -1
  · refine ⟨_, ⟨reaches_divide_neg_one hcode hminus, trivial, rfl, rfl, rfl⟩, rfl, ?_⟩
    rw [Operator.apply, if_neg hzero, hminus]
    exact ⟨(div_neg_one s.rax).symm, rfl⟩
  · refine ⟨_, ⟨reaches_divide_quotient hcode hzero hminus, trivial, rfl, rfl, rfl⟩, rfl, ?_⟩
    rw [Operator.apply, if_neg hzero]
    exact ⟨rfl, rfl⟩

/-! ## Operators -/

/-- An operator takes its operands from `rax` and `rcx` and leaves its value in `rax`. -/
theorem exists_leads_compute {m : SealedRegions} {s : State} {op : Operator}
    (hcode : CodeAt m s.pc (pieceBytes (compute op))) :
    ∃ t, view.Leads m s (pieceBytes (compute op)).length s.sp s.stack t ∧
      t.rdx = op.indexAfter s.rax s.rcx s.rdx ∧
      Reports (op.apply s.rax s.rcx) s.status t.rax t.status := by
  cases op with
  | add =>
    have hleads := leads_of_performAll hcode (by decide) rfl
    exact ⟨_, hleads, rfl, rfl, rfl⟩
  | sub =>
    have hleads := leads_of_performAll hcode (by decide) rfl
    exact ⟨_, hleads, rfl, rfl, rfl⟩
  | mul =>
    have hleads := leads_of_performAll hcode (by decide) rfl
    exact ⟨_, hleads, rfl, rfl, rfl⟩
  | xor =>
    have hleads := leads_of_performAll hcode (by decide) rfl
    exact ⟨_, hleads, rfl, rfl, rfl⟩
  | div =>
    obtain ⟨t, hleads, hindex, hreport⟩ := exists_leads_divide hcode
    exact ⟨t, hleads, hindex, hreport⟩

/-- Padding consists of no-ops. -/
theorem mem_padding {length : Nat} {i : Instruction} (h : i ∈ (padding length).flatten) :
    ∃ extra, i = .nop extra := by
  obtain ⟨piece, hpiece, hi⟩ := List.mem_flatten.1 h
  simp only [padding, List.mem_append, List.mem_replicate] at hpiece
  rcases hpiece with ⟨-, rfl⟩ | hlast
  · exact ⟨8, List.mem_singleton.1 hi⟩
  · split at hlast
    · cases hlast
    · rw [List.mem_singleton.1 hlast] at hi
      exact ⟨_, List.mem_singleton.1 hi⟩

/-- No-ops change nothing but the program counter. -/
theorem exists_leads_nops {m : SealedRegions} {is : Piece} {s : State}
    (hnop : ∀ i ∈ is, ∃ extra, i = .nop extra) (hcode : CodeAt m s.pc (pieceBytes is)) :
    ∃ pc, view.Leads m s (pieceBytes is).length s.sp s.stack { s with pc := pc } := by
  have hrun : ∃ pc, instructions.performAll m.pool is s = .running { s with pc := pc } := by
    clear hcode
    induction is generalizing s with
    | nil => exact ⟨s.pc, rfl⟩
    | cons i is ih =>
      obtain ⟨extra, rfl⟩ := hnop i List.mem_cons_self
      exact ih (s := { s with pc := _ }) fun j hj => hnop j (List.mem_cons_of_mem _ hj)
  obtain ⟨pc, hrun⟩ := hrun
  have hbranch : ∀ i ∈ is, i.isBranch = false := by
    intro i hi
    obtain ⟨extra, rfl⟩ := hnop i hi
    rfl
  exact ⟨pc, leads_of_performAll hcode hbranch hrun⟩

/-- Code that is appended in pieces is the bytes of all their instructions. -/
theorem pieceBytes_flatten (pieces : List Piece) :
    pieceBytes pieces.flatten = (pieces.map pieceBytes).flatten := by
  induction pieces with
  | nil => rfl
  | cons piece pieces ih =>
    rw [List.map_cons, List.flatten_cons, List.flatten_cons, ← ih]
    exact List.flatMap_append

/-- An operator is applied between taking the operands and pushing the result; no-ops fill the
rest. -/
theorem exists_flatten_operator (op : Operator) :
    ∃ pads : Piece, (∀ i ∈ pads, ∃ extra, i = .nop extra) ∧
      (Target.x64.operator op).flatten =
        pieceBytes [.pop .rcx, .pop .rax] ++
          (pieceBytes (compute op) ++ (pieceBytes [.push .rax] ++ pieceBytes pads)) := by
  let body : List Piece := [[.pop .rcx, .pop .rax], compute op, [.push .rax]]
  refine ⟨(padding (operatorLength - pieceLength body.flatten)).flatten,
    fun i hi => mem_padding hi, ?_⟩
  rw [pieceBytes_flatten]
  simp only [Target.operator, operator, List.map_append, List.flatten_append, List.map_cons,
    List.map_nil, List.flatten_cons, List.flatten_nil, List.append_nil, List.append_assoc, body]

/-- An operator replaces the two top cells. -/
theorem exists_leads_operator {m : SealedRegions} {s : State} {op : Operator} {x y : Int64}
    {below : List Int64} (hcode : CodeAt m s.pc (Target.x64.operator op).flatten)
    (hstack : s.stack = y :: x :: below) :
    ∃ t z, view.Leads m s (Target.operatorSize .x64) (s.sp + UInt64.ofNat stackCell)
        (z :: below) t ∧
      t.rdx = op.indexAfter x y s.rdx ∧
      Reports (op.apply x y) s.status z t.status := by
  have hlength := Target.length_operator .x64 op
  obtain ⟨pads, hpads, hsplit⟩ := exists_flatten_operator op
  rw [hsplit] at hcode hlength
  let popped : State :=
    { s with
      rax := x
      rcx := y
      sp := s.sp + UInt64.ofNat stackCell + UInt64.ofNat stackCell
      stack := below
      pc := s.pc + 2 }
  have hpops : instructions.performAll m.pool [.pop .rcx, .pop .rax] s = .running popped := by
    simp only [InstructionSet.performAll, instructions, perform, Instruction.execute, hstack]
    rfl
  have hpopped := leads_of_performAll hcode.left (by decide) hpops
  have hcode := hpopped.rest hcode
  obtain ⟨t, ht, hindex, hreport⟩ := exists_leads_compute (s := popped) hcode.left
  have hcode := ht.rest hcode
  let pushed : State := { t with pc := t.pc + 1 }.push t.rax
  have hpushed := leads_of_performAll (t := pushed) hcode.left (by decide) rfl
  obtain ⟨pc, hlast⟩ := exists_leads_nops hpads (hpushed.rest hcode)
  have hleads := hpopped.trans (ht.trans (hpushed.trans hlast))
  have hsp : pushed.sp = s.sp + UInt64.ofNat stackCell := by
    change t.sp - _ = _
    rw [show t.sp = popped.sp from ht.sp, UInt64.add_sub_cancel]
  have hbelow : pushed.stack = t.rax :: below := congrArg (t.rax :: ·) ht.stack
  simp only [List.length_append] at hlength
  rw [hlength, hsp, hbelow] at hleads
  exact ⟨_, t.rax, hleads, hindex, hreport⟩

/-! ## Programs -/

/-- The code that ends a program returns the top cell in `rax`. -/
theorem exists_returned_epilogue {m : SealedRegions} {s : State} {z : Int64} {below : List Int64}
    (hcode : CodeAt m s.pc (Target.epilogue .x64)) (hstack : s.stack = z :: below) :
    ∃ t last, Outcome.Reaches (step m) s t ∧ step m t = .returned last ∧
      last.pc = s.pc + Target.epilogueSize .x64 ∧
      last.sp = s.sp + UInt64.ofNat stackCell ∧ last.stack = below ∧ last.rax = z ∧
      last.status = s.status := by
  let popped : State :=
    { s with
      rax := z
      sp := s.sp + UInt64.ofNat stackCell
      stack := below
      pc := s.pc + 1 }
  have hpop : instructions.performAll m.pool [.pop .rax] s = .running popped := by
    simp only [InstructionSet.performAll, instructions, perform, Instruction.execute, hstack]
    rfl
  have hsplit : Target.epilogue .x64 = pieceBytes [.pop .rax] ++ (Instruction.ret.encode ++ []) :=
    rfl
  rw [hsplit] at hcode
  have hpopped := leads_of_performAll hcode.left (by decide) hpop
  have hret : CodeAt m popped.pc (Instruction.ret.encode ++ []) := hpopped.rest hcode
  exact ⟨popped, _, hpopped.reaches, step_eq_perform hret, rfl, rfl, rfl, rfl, rfl⟩

/-- The code for this target does on this machine what it is there for. -/
theorem view_realizes : view.Realizes .x64 where
  fetch := by
    intro m s slot elided v _ hcode hcell helided
    exact exists_leads_fetch hcode hcell helided
  operator := by
    intro m s op x y below _ hcode hstack
    obtain ⟨t, z, hleads, hindex, hreport⟩ := exists_leads_operator hcode hstack
    refine ⟨t, z, hleads, fun hkeeps => ?_, hreport⟩
    rw [Operator.indexAfter_of_clobbersIndex_eq_false hkeeps] at hindex
    exact congrArg (fun v => v.toUInt64.toNat) hindex
  epilogue := by
    intro m s z below _ hcode hstack
    obtain ⟨t, last, hreaches, hreturned, hpc, hsp, hbelow, hrax, hstatus⟩ :=
      exists_returned_epilogue hcode hstack
    exact ⟨t, last, hreaches, hreturned, hpc, hsp, hbelow, congrArg some hrax, hstatus⟩

/-- A compiled tree, entered with a clear status and with anything in the registers, the flags and
the stack, reaches the end of its code without a fault and returns there with the stack it was
entered with.  The value of the tree is then in `rax`, and the status is clear; or the tree has
none, and the status is not. -/
theorem returns_value_in_rax {t : Tree} {p : Program}
    (hcompile : Program.compile .x64 t = .ok p) {m : SealedRegions} (hloaded : p.LoadedIn m)
    {s : State} (hpc : s.pc = 0) (hstatus : s.status = 0) :
    ∃ n last, Outcome.run (step m) n s = .returned last ∧ last.pc = p.size.codeLength ∧
      last.sp = s.sp ∧ last.stack = s.stack ∧
      match t.interpret with
      | .ok v => last.rax = v ∧ last.status = 0
      | .error .divisionByZero => last.status ≠ 0 := by
  obtain ⟨n, last, hrun, hlast, hsp, hstack, hresult⟩ :=
    view_realizes.exists_returned hcompile hloaded (s := s) trivial hpc hstatus
  refine ⟨n, last, hrun, hlast, hsp, hstack, ?_⟩
  cases hvalue : t.interpret with
  | ok v =>
    rw [hvalue] at hresult
    exact ⟨Option.some.inj hresult.1, hresult.2⟩
  | error e =>
    rw [hvalue] at hresult
    exact ne_of_eq_of_ne hresult Int64.zero_ne_one.symm

/-- The compiled product of six and seven, run in the memory it was given, leaves 42 in `rax`. -/
theorem returns_product_in_rax :
    ∃ t p n last, Tree.build? [.leaf 6, .leaf 7, .binary .mul 0 1] 2 = some t ∧
      Program.compile .x64 t = .ok p ∧ Outcome.run (step p.regions) n entry = .returned last ∧
      last.rax = 42 ∧ last.status = 0 := by
  obtain ⟨t, ht, hbuilt, hshape, hvalue⟩ := Tree.Built.exists_six_times_seven
  obtain ⟨p, hp⟩ := hbuilt.exists_compile_eq_ok .x64 (by rw [hshape]; decide)
  obtain ⟨n, last, hrun, -, -, -, hresult⟩ :=
    returns_value_in_rax hp (Program.loadedIn_regions hp) (s := entry) rfl rfl
  rw [hvalue] at hresult
  exact ⟨t, p, n, last, ht, hp, hrun, hresult.1, hresult.2⟩

end Reckoner.X64
