import Reckoner.Code.Regions
import Reckoner.Machine

/-!
# Runs of a machine and code in memory

A machine reaches a state when some number of its steps lead there; what it does from
there on it does from where it started.  `CodeAt` says that given bytes lie in memory from
a position on; bytes in two parts lie one part after the other.
-/

set_option autoImplicit false

namespace Reckoner

namespace Outcome

variable {σ : Type} {step : σ → Outcome σ}

/-- Some number of steps leads from one state to the other. -/
def Reaches (step : σ → Outcome σ) (s t : σ) : Prop := ∃ n, run step n s = .running t

/-- A machine reaches the state it is in. -/
theorem Reaches.refl (s : σ) : Reaches step s s := ⟨0, rfl⟩

/-- A machine that still runs after a further step has taken one that went well, and runs on. -/
theorem exists_step_of_run_succ {s t : σ} {n : Nat} (h : run step (n + 1) s = .running t) :
    ∃ next, step s = .running next ∧ run step n next = .running t := by
  rw [run] at h
  split at h
  · next next hnext => exact ⟨next, hnext, h⟩
  · cases h
  · cases h

/-- What is reached from a state that is reached is reached. -/
theorem Reaches.trans {s t u : σ} (hst : Reaches step s t) (htu : Reaches step t u) :
    Reaches step s u := by
  obtain ⟨m, hm⟩ := hst
  obtain ⟨n, hn⟩ := htu
  refine ⟨m + n, ?_⟩
  rw [run_add, hm]
  exact hn

/-- A machine reaches the state that one step leads to. -/
theorem Reaches.single {s t : σ} (h : step s = .running t) : Reaches step s t := by
  refine ⟨1, ?_⟩
  rw [run, h]
  rfl

/-- A step in front of a run. -/
theorem Reaches.head {s t u : σ} (h : step s = .running t) (htu : Reaches step t u) :
    Reaches step s u := (Reaches.single h).trans htu

/-- A machine that reaches a state from which it returns does return. -/
theorem Reaches.exists_returned {s t u : σ} (hst : Reaches step s t) (h : step t = .returned u) :
    ∃ n, run step n s = .returned u := by
  obtain ⟨m, hm⟩ := hst
  refine ⟨m + 1, ?_⟩
  rw [run_add, hm]
  change run step 1 t = .returned u
  rw [run, h]

/-- A machine that returns at some time has returned whenever it is not running. -/
theorem run_eq_returned {s last : σ} {n k : Nat} (h : run step n s = .returned last)
    (hstops : ∀ u, run step k s ≠ .running u) : run step k s = .returned last := by
  rcases Nat.le_total n k with hle | hle
  · rw [← Nat.add_sub_cancel' hle, run_add, h]
    rfl
  · rw [← Nat.add_sub_cancel' hle, run_add] at h
    cases hk : run step k s with
    | running u => exact absurd hk (hstops u)
    | returned u =>
      rw [hk] at h
      exact h
    | faulted f =>
      rw [hk] at h
      cases h

end Outcome

/-- A branch forward always leads somewhere. -/
theorem branchTarget?_natCast (pc n : Nat) : branchTarget? pc (n : Int) = some (pc + n) := by
  unfold branchTarget?
  rw [if_neg (by omega)]
  exact congrArg some (by omega)

/-- The bytes lie in the code region from the position on. -/
def CodeAt (m : SealedRegions) (position : Nat) (code : List UInt8) : Prop :=
  code <+: m.code.toList.drop position

/-- Where code stands, its first part stands. -/
theorem CodeAt.left {m : SealedRegions} {position : Nat} {xs ys : List UInt8}
    (h : CodeAt m position (xs ++ ys)) : CodeAt m position xs :=
  (List.prefix_append xs ys).trans h

/-- Where code stands, its second part stands behind the first. -/
theorem CodeAt.right {m : SealedRegions} {position : Nat} {xs ys : List UInt8}
    (h : CodeAt m position (xs ++ ys)) : CodeAt m (position + xs.length) ys := by
  obtain ⟨rest, hrest⟩ := h
  refine ⟨rest, ?_⟩
  rw [← List.drop_drop, ← hrest, List.append_assoc, List.drop_left]

end Reckoner
