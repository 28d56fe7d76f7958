import Reckoner.Proofs.Machine.Reachability

/-!
# Instructions in memory

A machine reads the instruction at its program counter from bytes.  Where the bytes of a
list of instructions lie in memory, the machine carries out the instruction at which its
program counter points.  Most instructions just go on to the next one, so a list of them is
carried out from front to back.
-/

set_option autoImplicit false

namespace Reckoner

/-- A machine with states `σ` that carries out instructions `ι`. -/
structure InstructionSet (σ ι : Type) where
  step : SealedRegions → σ → Outcome σ
  pc : σ → Nat
  encode : ι → List UInt8
  /-- What an instruction does, given the pool. -/
  perform : Array Int64 → ι → σ → Outcome σ
  /-- The instruction whose bytes lie at the program counter is the one carried out. -/
  step_eq : ∀ {m : SealedRegions} {s : σ} {i : ι} {rest : List UInt8},
    CodeAt m (pc s) (encode i ++ rest) → step m s = perform m.pool i s

namespace InstructionSet

variable {σ ι : Type} (isa : InstructionSet σ ι)

/-- The bytes of a list of instructions. -/
def bytes (is : List ι) : List UInt8 := is.flatMap isa.encode

/-- The bytes of two runs of instructions follow one another. -/
theorem bytes_append (is js : List ι) : isa.bytes (is ++ js) = isa.bytes is ++ isa.bytes js :=
  List.flatMap_append

/-- An instruction leads to the one behind it, or nowhere. -/
def Straight (i : ι) : Prop :=
  ∀ {pool : Array Int64} {s t : σ},
    isa.perform pool i s = .running t → isa.pc t = isa.pc s + (isa.encode i).length

/-- Carries out instructions from front to back. -/
def performAll (pool : Array Int64) : List ι → σ → Outcome σ
  | [], s => .running s
  | i :: is, s =>
    match isa.perform pool i s with
    | .running next => performAll pool is next
    | .returned last => .returned last
    | .faulted f => .faulted f

/-- Where a list of instructions lies, each of them does. -/
theorem codeAt_instruction {m : SealedRegions} {position : Nat} {is : List ι}
    (hcode : CodeAt m position (isa.bytes is)) {j : Nat} {i : ι} (hi : is[j]? = some i) :
    CodeAt m (position + (isa.bytes (is.take j)).length)
      (isa.encode i ++ isa.bytes (is.drop (j + 1))) := by
  obtain ⟨hj, hget⟩ := List.getElem?_eq_some_iff.1 hi
  have hsplit : is = is.take j ++ i :: is.drop (j + 1) := by
    rw [← hget, List.getElem_cons_drop, List.take_append_drop]
  rw [hsplit, bytes_append] at hcode
  exact hcode.right

/-- The machine carries out the instruction in a list at which its program counter points. -/
theorem step_at {m : SealedRegions} {position : Nat} {is : List ι}
    (hcode : CodeAt m position (isa.bytes is)) {j : Nat} {i : ι} (hi : is[j]? = some i) {s : σ}
    (hpc : isa.pc s = position + (isa.bytes (is.take j)).length) :
    isa.step m s = isa.perform m.pool i s := by
  have hinstruction := isa.codeAt_instruction hcode hi
  rw [← hpc] at hinstruction
  exact isa.step_eq hinstruction

/-- Instructions that each lead to the next are carried out where they lie. -/
theorem reaches_of_performAll {m : SealedRegions} {is : List ι} {s t : σ}
    (hcode : CodeAt m (isa.pc s) (isa.bytes is)) (hstraight : ∀ i ∈ is, isa.Straight i)
    (ht : isa.performAll m.pool is s = .running t) :
    Outcome.Reaches (isa.step m) s t ∧ isa.pc t = isa.pc s + (isa.bytes is).length := by
  induction is generalizing s with
  | nil =>
    cases ht
    exact ⟨.refl _, rfl⟩
  | cons i is ih =>
    have hsplit : isa.bytes (i :: is) = isa.encode i ++ isa.bytes is := List.flatMap_cons
    rw [hsplit] at hcode
    have hstep := isa.step_eq hcode
    rw [performAll] at ht
    split at ht
    · next next hnext =>
      have hpc := hstraight i List.mem_cons_self hnext
      have hrest := hcode.right
      rw [← hpc] at hrest
      obtain ⟨hreaches, hlast⟩ := ih hrest (fun j hj => hstraight j (List.mem_cons_of_mem i hj)) ht
      refine ⟨.head (hstep.trans hnext) hreaches, ?_⟩
      rw [hlast, hpc, hsplit, List.length_append, Nat.add_assoc]
    · cases ht
    · cases ht

end InstructionSet

end Reckoner
