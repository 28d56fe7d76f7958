import Mathlib.Data.List.Induction
import Mathlib.Data.List.Nodup
import Reckoner.Proofs.ConstantPool

/-!
# A slot is the position of its value

The table of a pool lists the distinct values that have been interned, each where it came first.
Since no value stands there twice, a value has one position, and the hash map, which agrees with
the table, finds it.  Later values are added behind the earlier ones, so positions do not move: a
value gets the same slot whenever it is interned, and the sealed pool holds it there.
-/

set_option autoImplicit false

namespace Reckoner

section Distinct

variable {α : Type} [BEq α] [LawfulBEq α]

/-- More values do not move the distinct ones that are there. -/
theorem eraseDups_prefix_append (xs ys : List α) : xs.eraseDups <+: (xs ++ ys).eraseDups := by
  rw [List.eraseDups_append]
  exact List.prefix_append _ _

/-- A list without its repetitions has no repetitions. -/
theorem nodup_eraseDups (xs : List α) : xs.eraseDups.Nodup := by
  induction xs using List.reverseRecOn with
  | nil => simp
  | append_singleton xs x ih =>
    rw [List.eraseDups_append]
    by_cases hx : x ∈ xs
    · simpa [List.removeAll, hx] using ih
    · have hlast : ∀ y ∈ xs, y ≠ x := by
        rintro y hy rfl
        exact hx hy
      simpa [List.removeAll, hx, List.eraseDups_cons, List.nodup_append] using ⟨ih, hlast⟩

/-- In a list without duplicates the position of a value is where the value stands. -/
theorem idxOf?_eq_some_of_nodup {xs : List α} (h : xs.Nodup) {x : α} {i : Nat}
    (hi : xs[i]? = some x) : xs.idxOf? x = some i := by
  obtain ⟨hlt, rfl⟩ := List.getElem?_eq_some_iff.1 hi
  refine List.idxOf?_eq_some_iff.2 ⟨hlt, rfl, ?_⟩
  intro j hj heq
  exact Nat.ne_of_lt hj (h.getElem_inj_iff.1 heq)

omit [LawfulBEq α] in
/-- The position of a value stays when the list gets longer. -/
theorem idxOf?_mono {xs ys : List α} (h : xs <+: ys) {x : α} {i : Nat}
    (hi : xs.idxOf? x = some i) : ys.idxOf? x = some i := by
  obtain ⟨zs, rfl⟩ := h
  rw [List.idxOf?, List.findIdx?_append]
  rw [List.idxOf?] at hi
  rw [hi]
  rfl

end Distinct

namespace ConstantPool

/-- A pool that was fresh before the values were interned in turn. -/
structure Interned (seen : List Int64) (p : ConstantPool) : Prop where
  consistent : p.Consistent
  indexed : p.Indexed
  toList_eq : p.values.toList = seen.eraseDups

/-- A fresh pool is the pool before any value. -/
theorem interned_empty : empty.Interned [] := ⟨consistent_empty, indexed_empty, rfl⟩

namespace Interned

variable {seen : List Int64} {p : ConstantPool}

/-- One more call keeps the description, and its slot holds its value, as long as slots fit 32
bits. -/
theorem intern (h : p.Interned seen) {v : Int64} (hroom : (seen ++ [v]).eraseDups.length ≤ 2 ^ 32) :
    (p.intern v).2.Interned (seen ++ [v]) ∧
      (p.intern v).2.values[(p.intern v).1.toNat]? = some v := by
  have hvalues := h.indexed.toList_intern h.toList_eq v
  rw [← hvalues, Array.length_toList] at hroom
  obtain ⟨hconsistent, hslot⟩ := h.consistent.intern hroom
  exact ⟨⟨hconsistent, h.indexed.intern v, hvalues⟩, hslot⟩

/-- The table holds no value twice. -/
theorem nodup (h : p.Interned seen) : p.values.toList.Nodup := by
  rw [h.toList_eq]
  exact nodup_eraseDups seen

/-- The map sends the values of the table to their positions, and nothing else. -/
theorem slots_eq (h : p.Interned seen) (v : Int64) :
    p.slots[v]?.map UInt32.toNat = seen.eraseDups.idxOf? v := by
  rw [← h.toList_eq]
  cases hslot : p.slots[v]? with
  | none =>
    have hnone : v ∉ p.values.toList := by
      intro hv
      obtain ⟨slot, hsome⟩ := (h.indexed v).2 (Array.mem_toList_iff.1 hv)
      rw [hslot] at hsome
      cases hsome
    exact (List.idxOf?_eq_none_iff.2 hnone).symm
  | some slot =>
    have hget := (h.consistent v slot).1 hslot
    rw [← Array.getElem?_toList] at hget
    exact (idxOf?_eq_some_of_nodup h.nodup hget).symm

/-- A call returns the position of its value. -/
theorem idxOf?_eq (h : p.Interned seen) {v : Int64}
    (hroom : (seen ++ [v]).eraseDups.length ≤ 2 ^ 32) :
    (seen ++ [v]).eraseDups.idxOf? v = some (p.intern v).1.toNat := by
  rw [← (h.intern hroom).1.slots_eq, getElem?_slots_intern]
  rfl

/-- A value that was seen before changes nothing. -/
theorem intern_eq_self (h : p.Interned seen) {v : Int64} (hv : v ∈ seen) : (p.intern v).2 = p := by
  have hmem : v ∈ p.values := by
    rw [← Array.mem_toList_iff, h.toList_eq]
    exact List.mem_eraseDups.2 hv
  obtain ⟨slot, hslot⟩ := (h.indexed v).2 hmem
  rw [intern_of_slots hslot]

/-- Calls in turn keep the description, as long as slots fit 32 bits. -/
theorem internAll (h : p.Interned seen) {vs : List Int64}
    (hroom : (seen ++ vs).eraseDups.length ≤ 2 ^ 32) :
    (p.internAll vs).2.Interned (seen ++ vs) := by
  induction vs generalizing p seen with
  | nil =>
    rw [List.append_nil]
    exact h
  | cons v rest ih =>
    rw [← List.singleton_append, ← List.append_assoc] at hroom ⊢
    have hfirst := (eraseDups_prefix_append (seen ++ [v]) rest).length_le.trans hroom
    exact ih (h.intern hfirst).1 hroom

end Interned

/-- Values in two runs are interned one run after the other. -/
theorem internAll_append (p : ConstantPool) (xs ys : List Int64) :
    p.internAll (xs ++ ys) =
      ((p.internAll xs).1 ++ ((p.internAll xs).2.internAll ys).1,
        ((p.internAll xs).2.internAll ys).2) := by
  induction xs generalizing p with
  | nil => rfl
  | cons x xs ih => simp [internAll, ih]

/-- Each call returns one slot. -/
theorem length_internAll (p : ConstantPool) (vs : List Int64) :
    (p.internAll vs).1.length = vs.length := by
  induction vs generalizing p with
  | nil => rfl
  | cons v rest ih => simp [internAll, ih]

/-- No call moves or removes a value of the table. -/
theorem values_prefix_internAll (p : ConstantPool) (vs : List Int64) :
    p.values.toList <+: (p.internAll vs).2.values.toList := by
  induction vs generalizing p with
  | nil => exact List.prefix_refl _
  | cons v rest ih => exact (p.values_prefix_intern v).trans (ih _)

/-- In the end every slot that was returned holds its value. -/
theorem map_values_internAll {seen vs : List Int64} {p : ConstantPool} (h : p.Interned seen)
    (hroom : (seen ++ vs).eraseDups.length ≤ 2 ^ 32) {last : Array Int64}
    (hlast : (p.internAll vs).2.values.toList <+: last.toList) :
    ((p.internAll vs).1.map fun slot => last[slot.toNat]?) = vs.map some := by
  induction vs generalizing p seen with
  | nil => rfl
  | cons v rest ih =>
    rw [← List.singleton_append, ← List.append_assoc] at hroom
    have hfirst := (eraseDups_prefix_append (seen ++ [v]) rest).length_le.trans hroom
    obtain ⟨hnext, hslot⟩ := h.intern hfirst
    have hmore := ((p.intern v).2.values_prefix_internAll rest).trans hlast
    rw [ConstantPool.internAll, List.map_cons, List.map_cons, ih hnext hroom hlast,
      getElem?_of_values_prefix hmore hslot]

/-- Values interned into a fresh pool.  After each call the table lists the distinct values so far,
each where it came first; the map sends these to their positions, and nothing else; the call has
returned the position of its value, which a later call for the value returns again; and a value
that was known has changed nothing.  Sealed, the table is the list of all distinct values, and
every slot that was returned holds its value. -/
theorem internAll_stable (vs : List Int64) (hroom : vs.eraseDups.length ≤ 2 ^ 32) :
    (∀ before v after, vs = before ++ v :: after →
      ∃ p slot next, (empty.internAll before).2 = p ∧ p.intern v = (slot, next) ∧
        (empty.internAll (before ++ [v])).2 = next ∧
        (empty.internAll vs).1[before.length]? = some slot ∧
        next.values.toList = (before ++ [v]).eraseDups ∧ next.values.toList.Nodup ∧
        (∀ w, next.slots[w]?.map UInt32.toNat = next.values.toList.idxOf? w) ∧
        next.values.toList.idxOf? v = some slot.toNat ∧
        (v ∈ before → next = p) ∧
        ∀ between rest, after = between ++ v :: rest →
          ((empty.internAll (before ++ v :: between)).2.intern v).1 = slot) ∧
    (empty.internAll vs).2.sealed.values.toList = vs.eraseDups ∧
    ((empty.internAll vs).1.map fun slot => (empty.internAll vs).2.sealed.values[slot.toNat]?) =
      vs.map some := by
  have hinterned : ∀ front rest, vs = front ++ rest →
      (empty.internAll front).2.Interned front ∧ front.eraseDups.length ≤ 2 ^ 32 := by
    rintro front rest rfl
    have hfront := (eraseDups_prefix_append front rest).length_le.trans hroom
    exact ⟨interned_empty.internAll hfront, hfront⟩
  have hall := (hinterned vs [] (List.append_nil vs).symm).1
  refine ⟨?_, hall.toList_eq, map_values_internAll interned_empty hroom (List.prefix_refl _)⟩
  rintro before v after rfl
  obtain ⟨hbefore, -⟩ := hinterned before (v :: after) rfl
  obtain ⟨hnext, hfits⟩ := hinterned (before ++ [v]) after (by simp)
  have hlast : (empty.internAll (before ++ [v])).2 = ((empty.internAll before).2.intern v).2 := by
    rw [internAll_append]
    rfl
  have hposition := hbefore.idxOf?_eq hfits
  rw [hlast] at hnext
  refine ⟨_, ((empty.internAll before).2.intern v).1, ((empty.internAll before).2.intern v).2, rfl,
    rfl, hlast, ?_, hnext.toList_eq, hnext.nodup, ?_, ?_, hbefore.intern_eq_self, ?_⟩
  · rw [internAll_append, internAll, List.getElem?_append_right (length_internAll _ _).le,
      length_internAll, Nat.sub_self]
    rfl
  · intro w
    rw [hnext.slots_eq, hnext.toList_eq]
  · rw [hnext.toList_eq]
    exact hposition
  · rintro between rest rfl
    obtain ⟨hagain, -⟩ := hinterned (before ++ v :: between) (v :: rest) (by simp)
    obtain ⟨-, hfits⟩ := hinterned (before ++ v :: between ++ [v]) rest (by simp)
    have hlater := hagain.idxOf?_eq hfits
    have hprefix : (before ++ [v]).eraseDups <+: (before ++ v :: between ++ [v]).eraseDups := by
      rw [show before ++ v :: between ++ [v] = before ++ [v] ++ (between ++ [v]) by simp]
      exact eraseDups_prefix_append _ _
    rw [idxOf?_mono hprefix hposition] at hlater
    exact (UInt32.toNat_inj.1 (Option.some.inj hlater)).symm

/-- Five, six and five again have two slots, and both fives the first one. -/
theorem internAll_stable_five_six_five :
    ([5, 6, 5] : List Int64).eraseDups.length ≤ 2 ^ 32 ∧
    (∃ slot next, empty.intern 5 = (slot, next) ∧
      next.values.toList.idxOf? 5 = some slot.toNat ∧
      ((empty.internAll [5, 6]).2.intern 5).1 = slot) ∧
    (∃ p slot, (empty.internAll [5, 6]).2 = p ∧ p.intern 5 = (slot, p)) ∧
    (empty.internAll [5, 6, 5]).2.sealed.values.toList = [5, 6] ∧
    ((empty.internAll [5, 6, 5]).1.map fun slot =>
      (empty.internAll [5, 6, 5]).2.sealed.values[slot.toNat]?) = [some 5, some 6, some 5] := by
  have hroom : ([5, 6, 5] : List Int64).eraseDups.length ≤ 2 ^ 32 := by decide
  obtain ⟨hcalls, hsealed, hslots⟩ := internAll_stable [5, 6, 5] hroom
  obtain ⟨_, slot, next, rfl, hfirst, -, -, -, -, -, hposition, -, hlater⟩ :=
    hcalls [] 5 [6, 5] rfl
  obtain ⟨p, again, _, hp, hthird, -, -, -, -, -, -, hknown, -⟩ := hcalls [5, 6] 5 [] rfl
  obtain rfl := hknown (by decide)
  exact ⟨hroom, ⟨slot, next, hfirst, hposition, hlater [6] [] rfl⟩, ⟨_, again, hp, hthird⟩,
    hsealed, hslots⟩

end ConstantPool

end Reckoner
