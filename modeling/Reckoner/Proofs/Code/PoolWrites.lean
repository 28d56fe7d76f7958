import Mathlib.Data.List.Induction
import Reckoner.Proofs.Code.Buffer
import Reckoner.Proofs.Code.Regions
import Reckoner.Target

/-!
# The last write to a cell stays

Constants are always written from the start of the pool, so a shorter write leaves the cells behind
it as they are.  What a cell holds after any number of writes is what the last one that fitted and
reached it has put there; writes that came later and were shorter, or did not fit, have passed it
by.  The sizes of the two regions need not be multiples of anything: a constant is refused when its
last byte would lie behind the pool, so every write that is accepted fits into the whole cells.
-/

set_option autoImplicit false

namespace Reckoner

namespace Regions

/-- Writes in turn, and goes on after a write that is refused. -/
def writeAll (r : Regions) (writes : List (Array Int64)) : Regions :=
  writes.foldl (fun r values => (r.writePool values).1) r

/-- What the last of some writes that fits and reaches a cell puts there. -/
def lastWritten? (poolSize i : Nat) (writes : List (Array Int64)) : Option Int64 :=
  writes.reverse.findSome? fun values =>
    if cellSize * values.size ≤ poolSize then values[i]? else none

/-- The last write decides a cell if it fits and reaches it; otherwise the writes before it do. -/
theorem lastWritten?_append_singleton (poolSize i : Nat) (writes : List (Array Int64))
    (values : Array Int64) :
    lastWritten? poolSize i (writes ++ [values]) =
      (if cellSize * values.size ≤ poolSize then values[i]? else none).or
        (lastWritten? poolSize i writes) := by
  unfold lastWritten?
  rw [List.reverse_append, List.reverse_singleton, List.singleton_append, List.findSome?_cons]
  cases (if cellSize * values.size ≤ poolSize then values[i]? else none) <;> rfl

/-- The pool consists of the whole cells of its size. -/
def Sized (r : Regions) : Prop := r.pool.size = r.poolSize / cellSize

/-- A write is refused when its constants are longer than the region; otherwise they go to the
front. -/
theorem writePool_eq (r : Regions) (values : Array Int64) :
    r.writePool values =
      if r.poolSize < cellSize * values.size then (r, some ⟨cellSize * values.size, r.poolSize⟩)
      else ({ r with pool := overwriteCells r.pool 0 values.toList }, none) := rfl

/-- Overwriting cells leaves their number as it is. -/
theorem size_overwriteCells (cells : Array Int64) (position : Nat) (values : List Int64) :
    (overwriteCells cells position values).size = cells.size := by
  induction values generalizing cells position with
  | nil => rfl
  | cons v rest ih => rw [overwriteCells, ih, Array.size_setIfInBounds]

/-- Constants at the front of a region hide the cells there, and no others. -/
theorem getElem?_overwriteCells_zero (cells : Array Int64) (values : Array Int64)
    (h : values.size ≤ cells.size) (i : Nat) :
    (overwriteCells cells 0 values.toList)[i]? = values[i]?.or cells[i]? := by
  have hlist := toList_overwriteCells cells 0 values.toList (by simpa using h)
  rw [List.take_zero, List.nil_append, Nat.zero_add, Array.length_toList] at hlist
  rw [← Array.getElem?_toList, hlist]
  rcases Nat.lt_or_ge i values.size with hi | hi
  · rw [List.getElem?_append_left (by simpa using hi), Array.getElem?_toList,
      Array.getElem?_eq_getElem hi]
    rfl
  · rw [List.getElem?_append_right (by simpa using hi), List.getElem?_drop, Array.length_toList,
      Nat.add_sub_cancel' hi, Array.getElem?_toList, Array.getElem?_eq_none hi]
    rfl

/-! ## One write -/

/-- A write keeps the pool at the whole cells of its size. -/
theorem Sized.writePool {r : Regions} (h : r.Sized) (values : Array Int64) :
    (r.writePool values).1.Sized := by
  rw [writePool_eq]
  split
  · exact h
  · exact (size_overwriteCells _ _ _).trans h

/-- A write does not change the size of the region. -/
theorem poolSize_writePool (r : Regions) (values : Array Int64) :
    (r.writePool values).1.poolSize = r.poolSize := by
  rw [writePool_eq]
  split <;> rfl

/-- A write to the pool does not touch the code. -/
theorem code_writePool (r : Regions) (values : Array Int64) :
    (r.writePool values).1.code = r.code := by
  rw [writePool_eq]
  split <;> rfl

/-- A write that fits puts its constants into the first cells, and one that does not changes
none. -/
theorem Sized.getElem?_writePool {r : Regions} (h : r.Sized) (values : Array Int64) (i : Nat) :
    (r.writePool values).1.pool[i]? =
      (if cellSize * values.size ≤ r.poolSize then values[i]? else none).or r.pool[i]? := by
  rw [writePool_eq]
  split
  · next hlong =>
    rw [if_neg (Nat.not_le.2 hlong)]
    rfl
  · next hfits =>
    have hfits := Nat.le_of_not_lt hfits
    have hcells : values.size ≤ r.pool.size := by
      rw [h, Nat.le_div_iff_mul_le (by decide), Nat.mul_comm]
      exact hfits
    rw [if_pos hfits]
    exact getElem?_overwriteCells_zero r.pool values hcells i

/-! ## All writes -/

section

variable (r : Regions) (writes : List (Array Int64))

/-- Writing one more time is the last write after all others. -/
theorem writeAll_append_singleton (values : Array Int64) :
    r.writeAll (writes ++ [values]) = ((r.writeAll writes).writePool values).1 :=
  List.foldl_append

/-- Writes do not change the size of the region. -/
theorem poolSize_writeAll : (r.writeAll writes).poolSize = r.poolSize := by
  induction writes using List.reverseRecOn with
  | nil => rfl
  | append_singleton writes values ih => rw [writeAll_append_singleton, poolSize_writePool, ih]

/-- Writes to the pool do not touch the code. -/
theorem code_writeAll : (r.writeAll writes).code = r.code := by
  induction writes using List.reverseRecOn with
  | nil => rfl
  | append_singleton writes values ih => rw [writeAll_append_singleton, code_writePool, ih]

end

/-- Writes keep the pool at the whole cells of its size. -/
theorem Sized.writeAll {r : Regions} (h : r.Sized) (writes : List (Array Int64)) :
    (r.writeAll writes).Sized := by
  induction writes using List.reverseRecOn with
  | nil => exact h
  | append_singleton writes values ih =>
    rw [writeAll_append_singleton]
    exact ih.writePool values

/-- A cell holds what was last written to it, or what it held before. -/
theorem Sized.getElem?_writeAll {r : Regions} (h : r.Sized) (writes : List (Array Int64))
    (i : Nat) :
    (r.writeAll writes).pool[i]? = (lastWritten? r.poolSize i writes).or r.pool[i]? := by
  induction writes using List.reverseRecOn with
  | nil => rfl
  | append_singleton writes values ih =>
    rw [writeAll_append_singleton, (h.writeAll writes).getElem?_writePool, poolSize_writeAll, ih,
      lastWritten?_append_singleton, Option.or_assoc]

/-- Two regions of any positive sizes are granted.  The code region consists of whole no-ops and,
where none fits any more, zeros, and no write to the pool changes that.  After any writes a further
one is refused exactly when its constants need more bytes than the pool has, and then changes
nothing; and every whole cell holds the element of the last accepted write that was long enough to
reach it, or zero.  Sealed regions hold the same. -/
theorem holds_last_writes (target : Target) {codeSize poolSize : Nat} (hcode : 0 < codeSize)
    (hpool : 0 < poolSize) :
    ∃ r, allocate target.filler codeSize poolSize = .ok r ∧
      r.code.toList =
        (List.replicate (codeSize / target.filler.length) target.filler).flatten ++
          List.replicate (codeSize % target.filler.length) 0 ∧
      ∀ writes : List (Array Int64), ∃ last, r.writeAll writes = last ∧
        (∀ values, (last.writePool values).2 =
          if poolSize < 8 * values.size then some ⟨8 * values.size, poolSize⟩ else none) ∧
        (∀ values, (last.writePool values).2 ≠ none → (last.writePool values).1 = last) ∧
        last.code = r.code ∧
        (∀ i, 8 * (i + 1) ≤ poolSize →
          last.pool[i]? = some ((lastWritten? poolSize i writes).getD 0)) ∧
        last.sealed.code = last.code ∧ last.sealed.pool = last.pool := by
  refine ⟨⟨fill target.filler codeSize, Array.replicate (poolSize / cellSize) 0, poolSize⟩,
    if_neg (by omega), toList_fill codeSize, fun writes => ⟨_, rfl, ?_, ?_, ?_, ?_, rfl, rfl⟩⟩
  · intro values
    rw [writePool_eq, poolSize_writeAll, apply_ite Prod.snd]
    rfl
  · intro values
    rw [writePool_eq]
    split
    · exact fun _ => rfl
    · exact fun h => absurd rfl h
  · exact code_writeAll _ writes
  · intro i hi
    have hsized : Sized ⟨fill target.filler codeSize, Array.replicate (poolSize / cellSize) 0,
      poolSize⟩ := Array.size_replicate
    have hcell : i < poolSize / cellSize := by
      rw [Nat.lt_div_iff_mul_lt (by decide)]
      unfold cellSize
      omega
    rw [hsized.getElem?_writeAll, Array.getElem?_replicate, if_pos hcell]
    cases lastWritten? poolSize i writes <;> rfl

/-- Three cells and seven bytes: four constants are refused, before and after three have been
written, and the single one that follows leaves two of the three. -/
theorem holds_last_writes_three_cells :
    ∃ (r last : Regions), 0 < 10 ∧ 0 < 31 ∧ allocate (Target.filler .a64) 10 31 = .ok r ∧
      r.writeAll [#[5, 6, 7, 8], #[1, 2, 3], #[9, 8, 7, 6], #[-1]] = last ∧
      last.code.toList = [0x1F, 0x20, 0x03, 0xD5, 0x1F, 0x20, 0x03, 0xD5, 0, 0] ∧
      (last.writePool #[9, 8, 7, 6]).2 = some ⟨32, 31⟩ ∧
      last.sealed.pool[0]? = some (-1 : Int64) ∧ last.sealed.pool[1]? = some 2 ∧
      last.sealed.pool[2]? = some 3 := by
  have hcode : 0 < 10 := by decide
  have hpool : 0 < 31 := by decide
  obtain ⟨r, hr, hfill, hall⟩ := holds_last_writes .a64 hcode hpool
  obtain ⟨last, hlast, hrefused, -, hsame, hcells, -, hsealed⟩ :=
    hall [#[5, 6, 7, 8], #[1, 2, 3], #[9, 8, 7, 6], #[-1]]
  refine ⟨r, last, hcode, hpool, hr, hlast, ?_, hrefused #[9, 8, 7, 6], ?_, ?_, ?_⟩
  · rw [hsame, hfill]
    decide
  · rw [hsealed]
    exact hcells 0 (by decide)
  · rw [hsealed]
    exact hcells 1 (by decide)
  · rw [hsealed]
    exact hcells 2 (by decide)

end Regions

end Reckoner
