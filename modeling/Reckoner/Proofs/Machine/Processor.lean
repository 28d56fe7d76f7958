import Reckoner.Proofs.Machine.InstructionSet

/-!
# Where a run of linear code can be

Code without loops is a list of instructions that a machine goes through from front to back, now
and then skipping some.  Three things about the instructions settle where a run can be, and with
how many cells on the stack: an instruction that runs on leads behind itself or as far forward as
it skips, it moves at most one cell, and a skip lands on an instruction that is reached with as
many cells.  Then every state of a run stands in front of an instruction, the cells on top of those
of the caller are as many as the instructions before it have left there, and the position grows
with every step.  So no instruction is carried out twice.
-/

set_option autoImplicit false

namespace Reckoner

/-- What an instruction does to the stack. -/
inductive StackUse where
  | none
  | push
  | pop
  deriving DecidableEq

namespace StackUse

/-- The number of cells after an instruction, if there are cells to take and room for new ones. -/
def cellsAfter? (bound n : Nat) : StackUse → Option Nat
  | none => some n
  | push => if n < bound then some (n + 1) else Option.none
  | pop => if 0 < n then some (n - 1) else Option.none

/-- The stack pointer and the cells before and after an instruction. -/
def Moves (cell sp sp' : UInt64) (stack stack' : List Int64) : StackUse → Prop
  | none => sp' = sp ∧ stack' = stack
  | push => sp' = sp - cell ∧ ∃ v, stack' = v :: stack
  | pop => sp' = sp + cell ∧ ∃ v, stack = v :: stack'

/-- Cells that are pushed on those of a caller move with their number. -/
theorem Moves.exists_pushed {use : StackUse} {cell sp sp' : UInt64}
    {base stack' pushed : List Int64}
    (h : use.Moves cell (sp - UInt64.ofNat pushed.length * cell) sp' (pushed ++ base) stack')
    {bound n : Nat} (hn : use.cellsAfter? bound pushed.length = some n) :
    ∃ pushed' : List Int64, stack' = pushed' ++ base ∧ pushed'.length = n ∧
      sp' = sp - UInt64.ofNat n * cell := by
  cases use with
  | none =>
    cases hn
    exact ⟨pushed, h.2, rfl, h.1⟩
  | push =>
    obtain ⟨rfl, v, rfl⟩ := h
    rw [cellsAfter?] at hn
    split at hn
    · cases hn
      refine ⟨v :: pushed, rfl, rfl, ?_⟩
      rw [UInt64.ofNat_add]
      grind
    · cases hn
  | pop =>
    obtain ⟨rfl, v, hv⟩ := h
    cases pushed with
    | nil => cases hn
    | cons w pushed =>
      cases hn
      cases hv
      refine ⟨pushed, rfl, rfl, ?_⟩
      rw [List.length_cons, UInt64.ofNat_add]
      grind

end StackUse

/-- A machine whose instructions say how they use the stack and how far they skip. -/
structure Processor (σ ι : Type) extends InstructionSet σ ι where
  sp : σ → UInt64
  stack : σ → List Int64
  /-- The size of a cell. -/
  cell : UInt64
  stackUse : ι → StackUse
  /-- The distance that an instruction may skip behind itself. -/
  skip? : ι → Option Int
  /-- The return to the caller. -/
  ret : ι
  length_encode_pos : ∀ i, 0 < (encode i).length
  moves : ∀ {pool : Array Int64} {i : ι} {s t : σ}, perform pool i s = .running t →
    (stackUse i).Moves cell (sp s) (sp t) (stack s) (stack t)
  goes : ∀ {pool : Array Int64} {i : ι} {s t : σ}, perform pool i s = .running t →
    pc t = pc s + (encode i).length ∨
      ∃ d, skip? i = some d ∧ (pc t : Int) = pc s + (encode i).length + d
  ret_stops : ∀ {pool : Array Int64} {s t : σ}, perform pool ret s ≠ .running t

namespace Processor

variable {σ ι : Type} (processor : Processor σ ι)

/-- The position of an instruction behind the start of the code. -/
def offset (is : List ι) (j : Nat) : Nat := (processor.bytes (is.take j)).length

/-- The number of cells after instructions. -/
def cellsAfterAll? (bound n : Nat) (is : List ι) : Option Nat :=
  is.foldlM (fun k i => (processor.stackUse i).cellsAfter? bound k) n

/-- A skip from one instruction to another over instructions that leave the stack alone. -/
structure Lands (is : List ι) (j : Nat) (i : ι) (d : Int) (target : Nat) : Prop where
  lt : j < target
  lt_length : target < is.length
  offset_eq : (processor.offset is target : Int) =
    processor.offset is j + (processor.encode i).length + d
  stackUse_eq : ∀ x ∈ (is.drop j).take (target - j), processor.stackUse x = .none

/-- Every skip lands within the instructions. -/
def Closed (is : List ι) : Prop :=
  ∀ (j : Nat) (i : ι) (d : Int), is[j]? = some i → processor.skip? i = some d →
    ∃ target, processor.Lands is j i d target

instance (is : List ι) (j : Nat) (i : ι) (d : Int) (target : Nat) :
    Decidable (processor.Lands is j i d target) :=
  decidable_of_iff
    (j < target ∧ target < is.length ∧
      (processor.offset is target : Int) =
        processor.offset is j + (processor.encode i).length + d ∧
      ∀ x ∈ (is.drop j).take (target - j), processor.stackUse x = .none)
    ⟨fun ⟨hlt, hlength, hoffset, huse⟩ => ⟨hlt, hlength, hoffset, huse⟩,
      fun ⟨hlt, hlength, hoffset, huse⟩ => ⟨hlt, hlength, hoffset, huse⟩⟩

/-- That every skip lands within the instructions is a finite check, with one case for each
instruction. -/
theorem closed_iff (is : List ι) :
    processor.Closed is ↔ ∀ j : Fin is.length, ∀ d ∈ processor.skip? is[j],
      ∃ target : Fin is.length, processor.Lands is j is[j] d target := by
  constructor
  · intro h j d hd
    obtain ⟨target, hlands⟩ := h j is[j] d (List.getElem?_eq_getElem j.isLt) hd
    exact ⟨⟨target, hlands.lt_length⟩, hlands⟩
  · intro h j i d hi hd
    obtain ⟨hj, rfl⟩ := List.getElem?_eq_some_iff.1 hi
    obtain ⟨target, hlands⟩ := h ⟨j, hj⟩ d hd
    exact ⟨target, hlands⟩

instance (is : List ι) : Decidable (processor.Closed is) :=
  decidable_of_iff _ (processor.closed_iff is).symm

/-- Instructions behind others start from the cells that those leave. -/
theorem cellsAfterAll?_append (bound n : Nat) (is js : List ι) :
    processor.cellsAfterAll? bound n (is ++ js) =
      (processor.cellsAfterAll? bound n is).bind fun k => processor.cellsAfterAll? bound k js :=
  List.foldlM_append

/-- The pushes and pops among instructions. -/
def stackMoves (is : List ι) : List StackUse :=
  (is.map processor.stackUse).filter fun use => use ≠ .none

/-- An instruction that leaves the stack alone adds no push and no pop. -/
theorem stackMoves_cons (i : ι) (is : List ι) :
    processor.stackMoves (i :: is) =
      match processor.stackUse i with
      | .none => processor.stackMoves is
      | use => use :: processor.stackMoves is := by
  rw [stackMoves, List.map_cons, List.filter_cons]
  cases processor.stackUse i <;> rfl

/-- Only pushes and pops count. -/
theorem cellsAfterAll?_eq (bound n : Nat) (is : List ι) :
    processor.cellsAfterAll? bound n is =
      (processor.stackMoves is).foldlM (fun k use => use.cellsAfter? bound k) n := by
  induction is generalizing n with
  | nil => rfl
  | cons i is ih =>
    have hrest : (fun k => processor.cellsAfterAll? bound k is) = _ := funext ih
    rw [cellsAfterAll?, List.foldlM_cons]
    change ((processor.stackUse i).cellsAfter? bound n).bind
      (fun k => processor.cellsAfterAll? bound k is) = _
    rw [hrest, stackMoves_cons]
    cases processor.stackUse i with
    | none => rfl
    | push => rw [List.foldlM_cons]; rfl
    | pop => rw [List.foldlM_cons]; rfl

/-- There are never more cells than the bound. -/
theorem le_of_cellsAfterAll?_eq_some {bound n k : Nat} (hn : n ≤ bound) {is : List ι}
    (h : processor.cellsAfterAll? bound n is = some k) : k ≤ bound := by
  induction is generalizing n with
  | nil =>
    cases h
    exact hn
  | cons i is ih =>
    rw [cellsAfterAll?, List.foldlM_cons] at h
    obtain ⟨mid, hmid, hrest⟩ := Option.bind_eq_some_iff.1 h
    refine ih ?_ hrest
    cases huse : processor.stackUse i with
    | none =>
      rw [huse] at hmid
      cases hmid
      exact hn
    | push =>
      rw [huse, StackUse.cellsAfter?] at hmid
      split at hmid
      · next hlt =>
        cases hmid
        exact hlt
      · cases hmid
    | pop =>
      rw [huse, StackUse.cellsAfter?] at hmid
      split at hmid
      · cases hmid
        exact Nat.le_trans (Nat.sub_le n 1) hn
      · cases hmid

/-- Instructions that leave the stack alone do not change the number of cells. -/
theorem cellsAfterAll?_of_stackUse_eq_none {is : List ι}
    (h : ∀ x ∈ is, processor.stackUse x = .none) (bound n : Nat) :
    processor.cellsAfterAll? bound n is = some n := by
  induction is with
  | nil => rfl
  | cons i is ih =>
    rw [cellsAfterAll?, List.foldlM_cons, h i List.mem_cons_self]
    exact ih fun x hx => h x (List.mem_cons_of_mem i hx)

/-- Code that is appended does not move the instructions before it. -/
theorem offset_append_left (is js : List ι) {j : Nat} (h : j ≤ is.length) :
    processor.offset (is ++ js) j = processor.offset is j := by
  rw [offset, List.take_append_of_le_length h]
  rfl

/-- Code that is put in front moves every instruction by its length. -/
theorem offset_append_right (is js : List ι) (j : Nat) :
    processor.offset (is ++ js) (is.length + j) =
      (processor.bytes is).length + processor.offset js j := by
  rw [offset, List.take_length_add_append, processor.bytes_append, List.length_append]
  rfl

/-- The next instruction lies behind the bytes of the one before. -/
theorem offset_succ {is : List ι} {j : Nat} {i : ι} (h : is[j]? = some i) :
    processor.offset is (j + 1) = processor.offset is j + (processor.encode i).length := by
  rw [offset, List.take_add_one, h, processor.bytes_append, List.length_append]
  simp [offset, InstructionSet.bytes]

/-- Instructions further on lie at greater positions. -/
theorem offset_lt_offset {is : List ι} {j k : Nat} (hlt : j < k) (hk : k ≤ is.length) :
    processor.offset is j < processor.offset is k := by
  induction k with
  | zero => exact absurd hlt (Nat.not_lt_zero j)
  | succ k ih =>
    have hget : is[k]? = some is[k] := List.getElem?_eq_getElem hk
    have hpos := processor.length_encode_pos is[k]
    rw [processor.offset_succ hget]
    rcases Nat.lt_or_eq_of_le (Nat.le_of_lt_succ hlt) with h | rfl
    · have hrest := ih h (Nat.le_of_succ_le hk)
      omega
    · omega

/-- There are no more instructions than bytes. -/
theorem length_le_length_bytes (is : List ι) : is.length ≤ (processor.bytes is).length := by
  induction is with
  | nil => exact Nat.zero_le 0
  | cons i is ih =>
    have hpos := processor.length_encode_pos i
    have hsplit : (processor.bytes (i :: is)).length =
        (processor.encode i).length + (processor.bytes is).length := by
      simp [InstructionSet.bytes]
    rw [hsplit, List.length_cons]
    omega

/-- A skip in the left part of some code. -/
theorem Lands.append_left {is : List ι} {j target : Nat} {i : ι} {d : Int}
    (h : processor.Lands is j i d target) (js : List ι) :
    processor.Lands (is ++ js) j i d target := by
  have hlt := h.lt
  have hlength := h.lt_length
  refine ⟨hlt, ?_, ?_, ?_⟩
  · rw [List.length_append]
    omega
  · rw [processor.offset_append_left is js (by omega),
      processor.offset_append_left is js (by omega)]
    exact h.offset_eq
  · rw [List.drop_append_of_le_length (by omega),
      List.take_append_of_le_length (by rw [List.length_drop]; omega)]
    exact h.stackUse_eq

/-- A skip in the right part of some code. -/
theorem Lands.append_right {js : List ι} {j target : Nat} {i : ι} {d : Int}
    (h : processor.Lands js j i d target) (is : List ι) :
    processor.Lands (is ++ js) (is.length + j) i d (is.length + target) := by
  refine ⟨Nat.add_lt_add_left h.lt _, ?_, ?_, ?_⟩
  · rw [List.length_append]
    exact Nat.add_lt_add_left h.lt_length _
  · rw [processor.offset_append_right, processor.offset_append_right]
    have hoffset := h.offset_eq
    omega
  · rw [List.drop_length_add_append, Nat.add_sub_add_left]
    exact h.stackUse_eq

/-- Skips that land within two pieces of code land within both together. -/
theorem Closed.append {is js : List ι} (his : processor.Closed is) (hjs : processor.Closed js) :
    processor.Closed (is ++ js) := by
  intro j i d hi hd
  rcases Nat.lt_or_ge j is.length with hj | hj
  · rw [List.getElem?_append_left hj] at hi
    obtain ⟨target, hlands⟩ := his j i d hi hd
    exact ⟨target, hlands.append_left processor js⟩
  · rw [List.getElem?_append_right hj] at hi
    obtain ⟨target, hlands⟩ := hjs (j - is.length) i d hi hd
    have hlands := hlands.append_right processor is
    rw [Nat.add_sub_cancel' hj] at hlands
    exact ⟨_, hlands⟩

/-- Code without branches is closed. -/
theorem closed_of_skip?_eq_none {is : List ι} (h : ∀ i ∈ is, processor.skip? i = none) :
    processor.Closed is := by
  intro j i d hi hd
  rw [h i (List.mem_of_getElem? hi)] at hd
  cases hd

/-! ## States of a run -/

/-- A state of a run from `s` in front of an instruction, with the cells that the instructions
before it have left on top of those of the caller. -/
structure Located (is : List ι) (bound : Nat) (s u : σ) (j : Nat) : Prop where
  lt_length : j < is.length
  pc : processor.pc u = processor.pc s + processor.offset is j
  cells : ∃ pushed, processor.stack u = pushed ++ processor.stack s ∧
    processor.cellsAfterAll? bound 0 (is.take j) = some pushed.length ∧
    processor.sp u = processor.sp s - UInt64.ofNat pushed.length * processor.cell

/-- Code whose skips land within it, that never takes a cell too many nor exceeds a bound, and that
ends with the return. -/
structure Linear (is : List ι) (bound : Nat) : Prop where
  closed : processor.Closed is
  cells : ∃ n, processor.cellsAfterAll? bound 0 is = some n
  last : ∃ body, is = body ++ [processor.ret]

section

variable {processor} {is : List ι} {bound : Nat} {m : SealedRegions} {s u v : σ} {j : Nat}

/-- A run starts in front of the first instruction, with no cell of its own on the stack. -/
theorem Linear.located_start (h : processor.Linear is bound) (s : σ) :
    processor.Located is bound s s 0 := by
  obtain ⟨body, rfl⟩ := h.last
  refine ⟨by simp, rfl, [], rfl, rfl, ?_⟩
  simp

/-- At every instruction there are cells to take and there is room for new ones. -/
theorem Linear.exists_cellsAfter? (h : processor.Linear is bound) {i : ι} (hi : is[j]? = some i)
    {n : Nat} (hn : processor.cellsAfterAll? bound 0 (is.take j) = some n) :
    ∃ k, (processor.stackUse i).cellsAfter? bound n = some k ∧
      processor.cellsAfterAll? bound 0 (is.take (j + 1)) = some k := by
  obtain ⟨total, htotal⟩ := h.cells
  have hnext : is.take (j + 1) = is.take j ++ [i] := by rw [List.take_add_one, hi]; rfl
  have hone : processor.cellsAfterAll? bound 0 (is.take (j + 1)) =
      (processor.stackUse i).cellsAfter? bound n := by
    rw [hnext, cellsAfterAll?_append, hn, Option.bind_some]
    simp [cellsAfterAll?]
  rw [← List.take_append_drop (j + 1) is, cellsAfterAll?_append, hone] at htotal
  obtain ⟨k, hk, -⟩ := Option.bind_eq_some_iff.1 htotal
  exact ⟨k, hk, hone.trans hk⟩

/-- A step leads from one instruction to another one further on. -/
theorem Located.step (h : processor.Linear is bound)
    (hcode : CodeAt m (processor.pc s) (processor.bytes is))
    (hu : processor.Located is bound s u j) (hstep : processor.step m u = .running v) :
    ∃ target, j < target ∧ processor.Located is bound s v target := by
  obtain ⟨hj, hpc, pushed, hstack, hcells, hsp⟩ := hu
  have hi : is[j]? = some is[j] := List.getElem?_eq_getElem hj
  rw [processor.step_at hcode hi hpc] at hstep
  obtain ⟨n, hn, hnext⟩ := h.exists_cellsAfter? hi hcells
  have hmoves := processor.moves hstep
  rw [hstack, hsp] at hmoves
  obtain ⟨pushed', hstack', rfl, hsp'⟩ := hmoves.exists_pushed hn
  rcases processor.goes hstep with hgoes | ⟨d, hd, hgoes⟩
  · -- the last instruction is the return, which does not go on
    have hlast : j + 1 < is.length := by
      obtain ⟨body, rfl⟩ := h.last
      rw [List.length_append, List.length_singleton] at hj ⊢
      refine Nat.succ_lt_succ (Nat.lt_of_le_of_ne (Nat.le_of_lt_succ hj) ?_)
      rintro rfl
      rw [List.getElem_append_right (Nat.le_refl _)] at hstep
      exact processor.ret_stops (by simpa using hstep)
    refine ⟨j + 1, Nat.lt_succ_self j, hlast, ?_, pushed', hstack', hnext, hsp'⟩
    rw [hgoes, hpc, processor.offset_succ hi, Nat.add_assoc]
  · obtain ⟨target, hlands⟩ := h.closed j _ d hi hd
    have hlt := hlands.lt
    have hoffset := hlands.offset_eq
    have hsame : processor.cellsAfterAll? bound 0 (is.take target) = some pushed.length := by
      rw [← Nat.add_sub_cancel' (Nat.le_of_lt hlt), List.take_add, cellsAfterAll?_append, hcells,
        Option.bind_some]
      exact processor.cellsAfterAll?_of_stackUse_eq_none hlands.stackUse_eq bound _
    have huse : processor.stackUse is[j] = .none := by
      refine hlands.stackUse_eq _ ?_
      rw [List.drop_eq_getElem_cons hj, show target - j = target - j - 1 + 1 by omega]
      exact List.mem_cons_self
    rw [huse] at hn
    rw [Option.some.inj hn] at hsame
    refine ⟨target, hlt, hlands.lt_length, ?_, pushed', hstack', hsame, hsp'⟩
    omega

/-- Every step of a run leads at least one instruction further. -/
theorem Located.run (h : processor.Linear is bound)
    (hcode : CodeAt m (processor.pc s) (processor.bytes is))
    (hu : processor.Located is bound s u j) {n : Nat}
    (hrun : Outcome.run (processor.step m) n u = .running v) :
    ∃ target, j + n ≤ target ∧ processor.Located is bound s v target := by
  induction n generalizing u j with
  | zero =>
    cases hrun
    exact ⟨j, Nat.le_refl j, hu⟩
  | succ n ih =>
    obtain ⟨next, hnext, hrest⟩ := Outcome.exists_step_of_run_succ hrun
    obtain ⟨k, hk, hnextLocated⟩ := hu.step h hcode hnext
    obtain ⟨target, htarget, hv⟩ := ih hnextLocated hrest
    exact ⟨target, by omega, hv⟩

/-- No instruction is carried out twice: a run is at a position in one state only. -/
theorem Linear.eq_of_pc_eq (h : processor.Linear is bound)
    (hcode : CodeAt m (processor.pc s) (processor.bytes is))
    (hu : Outcome.Reaches (processor.step m) s u) (hv : Outcome.Reaches (processor.step m) s v)
    (hpc : processor.pc u = processor.pc v) : u = v := by
  -- of two states at one position, the later one would be further on
  have hlater : ∀ {x y : σ} {a b : Nat}, Outcome.run (processor.step m) a s = .running x →
      Outcome.run (processor.step m) (a + b) s = .running y → processor.pc x = processor.pc y →
      x = y := by
    intro x y a b hx hy hxy
    rw [Outcome.run_add, hx] at hy
    obtain ⟨jx, -, hlocated⟩ := (h.located_start s).run h hcode hx
    obtain ⟨jy, hle, hlast⟩ := hlocated.run h hcode hy
    have hoffset : processor.offset is jx = processor.offset is jy := by
      have hx := hlocated.pc
      have hy := hlast.pc
      omega
    rcases Nat.eq_zero_or_pos b with rfl | hpos
    · cases hy
      rfl
    · have hlt : processor.offset is jx < processor.offset is jy :=
        processor.offset_lt_offset (by omega) (Nat.le_of_lt hlast.lt_length)
      omega
  obtain ⟨a, ha⟩ := hu
  obtain ⟨b, hb⟩ := hv
  rcases Nat.le_total a b with hle | hle
  · rw [← Nat.add_sub_cancel' hle] at hb
    exact hlater ha hb hpc
  · rw [← Nat.add_sub_cancel' hle] at ha
    exact (hlater hb ha hpc.symm).symm

end

end Processor

end Reckoner
