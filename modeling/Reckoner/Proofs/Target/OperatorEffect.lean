import Reckoner.Proofs.Target.Processor

/-!
# What an operator does to the machine

The code of an operator takes the two top cells, leaves their value in one, and ends at its own
last byte.  What an operator says about the index register is all that happens to it: one that
does not clobber it leaves it as it was, and one that does puts the high half of the product there.

The value is read off the paths of the code, on which the branches of a division part and meet.
That a run does not leave the code in between is shown by cutting the memory off behind it.  The
run must be possible there too, where nothing but the code can be carried out; and within the code
the whole memory leads from state to state as the cut one does.
-/

set_option autoImplicit false

namespace Reckoner

/-- Memory without the code from a position on. -/
def SealedRegions.cutAt (m : SealedRegions) (position : Nat) : SealedRegions :=
  { m with code := m.code.extract 0 position }

/-- Memory that is cut off behind some code still holds that code. -/
theorem CodeAt.cutAt {m : SealedRegions} {position : Nat} {code : List UInt8}
    (h : CodeAt m position code) : CodeAt (m.cutAt (position + code.length)) position code := by
  have hlist : (m.cutAt (position + code.length)).code.toList =
      m.code.toList.take (position + code.length) := by
    rw [SealedRegions.cutAt, Array.toList_extract, List.extract_eq_take_drop, List.drop_zero,
      Nat.sub_zero]
  rw [CodeAt, hlist, List.drop_take, Nat.add_sub_cancel_left]
  exact List.prefix_take_iff.2 ⟨h, Nat.le_refl _⟩

namespace Processor

variable {σ ι : Type} {processor : Processor σ ι} {is : List ι} {m : SealedRegions} {s u v : σ}
  {j : Nat}

/-- From an instruction of code whose skips land within it, a step leads to another instruction of
the code, or behind the last. -/
theorem Closed.pc_of_step (hclosed : processor.Closed is)
    (hcode : CodeAt m (processor.pc s) (processor.bytes is)) (hj : j < is.length)
    (hpc : processor.pc u = processor.pc s + processor.offset is j)
    (hstep : processor.step m u = .running v) :
    ∃ i ≤ is.length, processor.pc v = processor.pc s + processor.offset is i := by
  have hget : is[j]? = some is[j] := List.getElem?_eq_getElem hj
  rw [processor.step_at hcode hget hpc] at hstep
  rcases processor.goes hstep with hgoes | ⟨d, hd, hgoes⟩
  · refine ⟨j + 1, hj, ?_⟩
    rw [hgoes, hpc, processor.offset_succ hget, Nat.add_assoc]
  · obtain ⟨i, hlands⟩ := hclosed j _ d hget hd
    have hoffset := hlands.offset_eq
    exact ⟨i, Nat.le_of_lt hlands.lt_length, by omega⟩

/-- A run that cannot go on behind the code is a run in any other memory that holds the code, and
up to its last state it is at instructions of the code. -/
theorem Closed.run_within (hclosed : processor.Closed is) {m' : SealedRegions}
    (hpool : m'.pool = m.pool) (hcode : CodeAt m (processor.pc s) (processor.bytes is))
    (hcode' : CodeAt m' (processor.pc s) (processor.bytes is))
    (hend : ∀ {x y : σ}, processor.pc x = processor.pc s + processor.offset is is.length →
      processor.step m' x ≠ .running y)
    {n : Nat} (hj : j ≤ is.length)
    (hpc : processor.pc u = processor.pc s + processor.offset is j)
    (hrun : Outcome.run (processor.step m') n u = .running v) :
    Outcome.run (processor.step m) n u = .running v ∧
      ∀ k < n, ∃ x i, Outcome.run (processor.step m) k u = .running x ∧ i < is.length ∧
        processor.pc x = processor.pc s + processor.offset is i := by
  induction n generalizing u j with
  | zero => exact ⟨hrun, fun k hk => absurd hk (Nat.not_lt_zero k)⟩
  | succ n ih =>
    obtain ⟨next, hnext, hrest⟩ := Outcome.exists_step_of_run_succ hrun
    have hlt : j < is.length := by
      refine Nat.lt_of_le_of_ne hj ?_
      rintro rfl
      exact hend hpc hnext
    obtain ⟨i, hi, hpcnext⟩ := hclosed.pc_of_step hcode' hlt hpc hnext
    obtain ⟨hrest, hwithin⟩ := ih hi hpcnext hrest
    have hget : is[j]? = some is[j] := List.getElem?_eq_getElem hlt
    have hstep : processor.step m u = .running next := by
      rw [processor.step_at hcode hget hpc, ← hpool, ← processor.step_at hcode' hget hpc, hnext]
    refine ⟨by rw [Outcome.run, hstep]; exact hrest, fun k hk => ?_⟩
    cases k with
    | zero => exact ⟨u, j, rfl, hlt, hpc⟩
    | succ k =>
      rw [Outcome.run, hstep]
      exact hwithin k (Nat.lt_of_succ_lt_succ hk)

end Processor

namespace Target

/-- The content of the index register. -/
def indexRegister : (target : Target) → target.State → Int64
  | x64 => X64.State.rdx
  | a64 => A64.State.x9

/-- Behind the end of the code there is nothing to carry out. -/
theorem step_ne_running_of_size_le (target : Target) {m : SealedRegions} {u v : target.State}
    (h : m.code.size ≤ target.processor.pc u) : target.processor.step m u ≠ .running v := by
  have hnone : ∀ length, (m.code.extract (target.processor.pc u) length).toList = [] := by
    intro length
    rw [Array.extract_empty_of_size_le_start h]
  cases target with
  | x64 =>
    change X64.step m u ≠ .running v
    unfold X64.step
    rw [show (m.code.extract u.pc (u.pc + X64.maxLength)).toList = [] from hnone _]
    nofun
  | a64 =>
    change A64.step m u ≠ .running v
    unfold A64.step
    rw [show (m.code.extract u.pc (u.pc + 4)).toList = [] from hnone _]
    nofun

section

variable (target : Target) {op : Operator} {m : SealedRegions} {s : target.State} {l r : Int64}
  {below : List Int64}

/-- An operator replaces the two top cells, and leaves in the index register what it says. -/
theorem exists_leads_operator (husable : target.view.usable s)
    (hcode : CodeAt m (target.view.pc s) (target.operator op).flatten)
    (hstack : target.view.stack s = r :: l :: below) :
    ∃ t z, target.view.Leads m s target.operatorSize
        (target.view.sp s + UInt64.ofNat target.stackCell) (z :: below) t ∧
      target.indexRegister t = op.indexAfter l r (target.indexRegister s) ∧
      Reports (op.apply l r) (target.view.status s) z (target.view.status t) := by
  cases target with
  | x64 => exact X64.exists_leads_operator hcode hstack
  | a64 => exact A64.exists_leads_operator husable hcode hstack

/-- The code of an operator is the bytes of its instructions. -/
theorem flatten_operator (op : Operator) :
    (target.operator op).flatten = target.processor.bytes (target.operatorPieces op).flatten := by
  rw [bytes_processor, bytes_flatten, operator_eq]

/-- What the code of an operator does where nothing lies behind it, it does wherever it lies, and
does not leave the code before its end. -/
theorem run_within_operator {n : Nat} {t : target.State}
    (hcode : CodeAt m (target.view.pc s) (target.operator op).flatten)
    (hrun : Outcome.run (target.view.step (m.cutAt (target.view.pc s + target.operatorSize))) n s =
      .running t) :
    Outcome.run (target.view.step m) n s = .running t ∧
      ∀ k < n, ∃ u, Outcome.run (target.view.step m) k s = .running u ∧
        target.view.pc s ≤ target.view.pc u ∧
        target.view.pc u < target.view.pc s + target.operatorSize := by
  have hlength := target.length_operator op
  have hcut := hcode.cutAt
  rw [flatten_operator] at hcode hlength hcut
  rw [hlength] at hcut
  rw [view_pc] at hcode hcut hrun ⊢
  rw [view_step] at hrun ⊢
  have hend : target.processor.offset (target.operatorPieces op).flatten
      (target.operatorPieces op).flatten.length = target.operatorSize := by
    rw [Processor.offset, List.take_length, hlength]
  have hsize : (m.cutAt (target.processor.pc s + target.operatorSize)).code.size ≤
      target.processor.pc s + target.operatorSize := by
    rw [SealedRegions.cutAt, Array.size_extract]
    omega
  have hpool : (m.cutAt (target.processor.pc s + target.operatorSize)).pool = m.pool := rfl
  obtain ⟨hwhole, hwithin⟩ := (target.closed_operator op).run_within (u := s) hpool hcode hcut
    (fun hx => target.step_ne_running_of_size_le (by rw [hx, hend]; exact hsize))
    (Nat.zero_le _) rfl hrun
  refine ⟨hwhole, fun k hk => ?_⟩
  obtain ⟨u, i, hu, hi, hpc⟩ := hwithin k hk
  have hlt := target.processor.offset_lt_offset hi (Nat.le_refl _)
  exact ⟨u, hu, by omega, by omega⟩

/-- The code of an operator, wherever it lies and whatever lies around it, runs to its end without a
fault and without leaving it before.  Whatever was in the registers, the two top cells are then one,
and the cells below are as they were.  If the operator has a value, it is in that cell and the
status is what it was; otherwise the status is one.  In the index register is the high half of the
product, if the operator clobbers it, and otherwise what was there.

The state is one in which compiled code may run: on AArch64 the stack pointer is aligned and `x0`
holds the address of the pool.  Both are so again at the end. -/
theorem operator_refines_apply (husable : target.view.usable s)
    (hcode : CodeAt m (target.view.pc s) (target.operator op).flatten)
    (hstack : target.view.stack s = r :: l :: below) :
    (target.operator op).flatten.length = target.operatorSize ∧
    ∃ n t z, Outcome.run (target.view.step m) n s = .running t ∧
      (∀ k < n, ∃ u, Outcome.run (target.view.step m) k s = .running u ∧
        target.view.pc s ≤ target.view.pc u ∧
        target.view.pc u < target.view.pc s + target.operatorSize) ∧
      target.view.pc t = target.view.pc s + target.operatorSize ∧ target.view.usable t ∧
      target.view.sp t = target.view.sp s + UInt64.ofNat target.stackCell ∧
      target.view.stack t = z :: below ∧
      (match op.apply l r with
        | .ok v => z = v ∧ target.view.status t = target.view.status s
        | .error .divisionByZero => target.view.status t = 1) ∧
      target.indexRegister t = op.indexAfter l r (target.indexRegister s) ∧
      (op.clobbersIndex = false → target.indexRegister t = target.indexRegister s) := by
  have hlength := target.length_operator op
  obtain ⟨t, z, ⟨⟨n, hn⟩, husablet, hpc, hsp, hbelow⟩, hindex, hreport⟩ :=
    target.exists_leads_operator husable hcode.cutAt hstack
  rw [hlength] at hn
  obtain ⟨hrun, hwithin⟩ := target.run_within_operator hcode hn
  refine ⟨hlength, n, t, z, hrun, hwithin, hpc, husablet, hsp, hbelow, ?_, hindex, ?_⟩
  · cases hvalue : op.apply l r with
    | ok v =>
      rw [hvalue] at hreport
      exact hreport
    | error e =>
      rw [hvalue] at hreport
      exact hreport
  · intro hkeeps
    rw [hindex, Operator.indexAfter_of_clobbersIndex_eq_false hkeeps]

/-- The least integer divided by minus one, with seven in the index register, code and a cell below:
the processor would trap on it, but the code does not. -/
theorem operator_refines_apply_least_div_neg_one :
    ∃ (m : SealedRegions) (s : Target.State .x64) (n : Nat) (t : Target.State .x64),
      (Target.view .x64).usable s ∧
      CodeAt m ((Target.view .x64).pc s) (Target.operator .x64 .div).flatten ∧
      s.stack = [-1, Int64.minValue, 3] ∧ s.rdx = 7 ∧
      Outcome.run (X64.step m) n s = .running t ∧ t.pc = 39 ∧
      t.stack = [Int64.minValue, 3] ∧ t.status = 0 ∧ t.rdx = 7 := by
  let m : SealedRegions := ⟨(Target.operator .x64 .div).flatten.toArray, #[]⟩
  let s : Target.State .x64 := { X64.entry with rdx := 7, stack := [-1, Int64.minValue, 3] }
  have hcode : CodeAt m 0 (Target.operator .x64 .div).flatten := List.prefix_refl _
  obtain ⟨-, n, t, z, hrun, -, hpc, -, -, hstack, hreport, -, hindex⟩ :=
    operator_refines_apply .x64 (s := s) trivial hcode rfl
  have hvalue : Operator.div.apply Int64.minValue (-1) = .ok Int64.minValue := by decide
  rw [hvalue] at hreport
  obtain ⟨rfl, hstatus⟩ := hreport
  exact ⟨m, s, n, t, trivial, hcode, rfl, rfl, hrun, hpc, hstack, hstatus, hindex rfl⟩

end

end Target

end Reckoner
