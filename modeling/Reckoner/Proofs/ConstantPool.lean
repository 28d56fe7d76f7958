import Mathlib.Algebra.Order.Ring.Nat
import Reckoner.ConstantPool

/-!
# The slots of the constant pool

The hash map and the table of a pool say the same: a value is mapped to a slot exactly
when the slot holds the value.  Interning keeps this as long as slot numbers fit 32 bits,
and only ever adds to the end of the table, so a slot that has been handed out goes on
holding its value while the pool grows.
-/

set_option autoImplicit false

namespace Reckoner

namespace ConstantPool

/-- The map and the table agree. -/
def Consistent (p : ConstantPool) : Prop :=
  ∀ (v : Int64) (slot : UInt32), p.slots[v]? = some slot ↔ p.values[slot.toNat]? = some v

/-- In a fresh pool map and table agree. -/
theorem consistent_empty : empty.Consistent := by
  intro v slot
  simp [empty]

/-- Interning adds to the end of the table. -/
theorem values_prefix_intern (p : ConstantPool) (v : Int64) :
    p.values.toList <+: (p.intern v).2.values.toList := by
  unfold intern
  dsimp only
  split
  · exact List.prefix_refl _
  · rw [Array.toList_push]
    exact List.prefix_append _ _

/-- A slot that holds a value holds it in every longer table. -/
theorem getElem?_of_values_prefix {values more : Array Int64} (h : values.toList <+: more.toList)
    {i : Nat} {v : Int64} (hget : values[i]? = some v) : more[i]? = some v := by
  rw [← Array.getElem?_toList] at hget ⊢
  obtain ⟨hlt, hi⟩ := List.getElem?_eq_some_iff.1 hget
  exact (List.prefix_iff_getElem?.1 h _ hlt).trans (congrArg some hi)

/-- Interning adds at most one value. -/
theorem size_intern_le (p : ConstantPool) (v : Int64) : (p.intern v).2.size ≤ p.size + 1 := by
  unfold intern size
  dsimp only
  split
  · exact Nat.le_succ _
  · exact Nat.le_of_eq (Array.size_push v)

/-- The slot that is handed out holds the value, and the map and the table go on agreeing. -/
theorem Consistent.intern {p : ConstantPool} (h : p.Consistent) {v : Int64}
    (hroom : (p.intern v).2.size ≤ 2 ^ 32) :
    (p.intern v).2.Consistent ∧ (p.intern v).2.values[(p.intern v).1.toNat]? = some v := by
  unfold ConstantPool.intern at hroom ⊢
  dsimp only at hroom ⊢
  split at hroom
  · next slot hslots => exact ⟨h, (h v slot).1 hslots⟩
  · next hslots =>
    unfold size at hroom
    rw [Array.size_push] at hroom
    have hslot : (UInt32.ofNat p.values.size).toNat = p.values.size :=
      UInt32.toNat_ofNat_of_lt' hroom
    refine ⟨?_, by rw [hslot, Array.getElem?_push_size]⟩
    intro w slot
    dsimp only
    rw [Std.HashMap.getElem?_insert, Array.getElem?_push]
    by_cases hwv : v = w
    · -- the new value has the new slot and, being new, no other
      subst hwv
      simp only [beq_self_eq_true, if_true, Option.some.injEq]
      constructor
      · intro hs
        rw [← hs, hslot, if_pos rfl]
      · intro hs
        split at hs
        · next heq => rw [← heq, UInt32.ofNat_toNat]
        · rw [← h v slot, hslots] at hs
          cases hs
    · simp only [beq_iff_eq, hwv, if_false]
      rw [h w slot]
      split
      · next heq =>
        rw [heq, Array.getElem?_size]
        simp [hwv]
      · rfl

/-- A value has the slot that was handed out for it. -/
theorem getElem?_slots_intern (p : ConstantPool) (v : Int64) :
    (p.intern v).2.slots[v]? = some (p.intern v).1 := by
  unfold intern
  dsimp only
  split
  · next slot hslot => exact hslot
  · exact Std.HashMap.getElem?_insert_self

/-- A value that has a slot gets it again. -/
theorem intern_of_slots {p : ConstantPool} {v : Int64} {slot : UInt32}
    (h : p.slots[v]? = some slot) : p.intern v = (slot, p) := by
  obtain ⟨values, slots⟩ := p
  unfold intern
  dsimp only
  rw [h]

/-- The map has a slot for the values of the table, and no others. -/
def Indexed (p : ConstantPool) : Prop :=
  ∀ v : Int64, (∃ slot, p.slots[v]? = some slot) ↔ v ∈ p.values

/-- In a fresh pool every value of the table is in the map. -/
theorem indexed_empty : empty.Indexed := by
  intro v
  simp [empty]

/-- Interning keeps this even when slot numbers repeat. -/
theorem Indexed.intern {p : ConstantPool} (h : p.Indexed) (v : Int64) : (p.intern v).2.Indexed := by
  unfold ConstantPool.intern
  dsimp only
  split
  · exact h
  · intro w
    dsimp only
    rw [Std.HashMap.getElem?_insert, Array.mem_push]
    by_cases hwv : v = w
    · simp [hwv]
    · simp only [beq_iff_eq, hwv, Ne.symm hwv, if_false, or_false]
      exact h w

/-- The table lists the distinct values so far, each where it came first, and goes on doing so. -/
theorem Indexed.toList_intern {p : ConstantPool} (h : p.Indexed) {seen : List Int64}
    (hseen : p.values.toList = seen.eraseDups) (v : Int64) :
    (p.intern v).2.values.toList = (seen ++ [v]).eraseDups := by
  have hmem : v ∈ p.values ↔ v ∈ seen := by
    rw [← Array.mem_toList_iff, hseen, List.mem_eraseDups]
  have hexists := h v
  rw [List.eraseDups_append, ← hseen]
  unfold ConstantPool.intern
  dsimp only
  split
  · next slot hslot =>
    have hv : v ∈ seen := hmem.1 (hexists.1 ⟨slot, hslot⟩)
    simp [List.removeAll, hv]
  · next hslot =>
    have hv : v ∉ seen := by
      intro hv
      obtain ⟨slot, hsome⟩ := hexists.2 (hmem.2 hv)
      rw [hslot] at hsome
      cases hsome
    simp [List.removeAll, hv, List.eraseDups_cons]

end ConstantPool

end Reckoner
