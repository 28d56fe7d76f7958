import Mathlib.Data.List.OfFn
import Reckoner.Code.Regions

/-!
# What a fresh code region holds

A code region is filled with whole no-ops from its start, and what is too short for another one
with zeros.  Behind code that takes up whole no-ops a region of whole no-ops goes on with whole
no-ops, and holds nothing else.
-/

set_option autoImplicit false

namespace Reckoner

namespace Regions

/-- A region consists of as many no-ops as fit whole, and zeros. -/
theorem toList_fill {filler : List UInt8} (size : Nat) :
    (fill filler size).toList =
      (List.replicate (size / filler.length) filler).flatten ++
        List.replicate (size % filler.length) 0 := by
  have hsize : size = size / filler.length * filler.length + size % filler.length :=
    (Nat.div_add_mod' size filler.length).symm
  unfold fill
  rw [Array.toList_ofFn, List.ofFn_congr hsize, List.ofFn_add, List.ofFn_mul]
  simp only [List.size_toArray]
  congr 1
  · -- one no-op after the other, byte by byte
    rw [← List.ofFn_const]
    refine congrArg _ (congrArg _ (funext fun i => ?_))
    apply List.ext_getElem
    · simp
    · intro j hj hj'
      have hwhole : i.val * filler.length + j < size / filler.length * filler.length := by
        have hnext := Nat.mul_le_mul_right filler.length i.isLt
        rw [Nat.succ_mul] at hnext
        omega
      simp [hwhole, Nat.mod_eq_of_lt hj', hj']
  · rw [← List.ofFn_const]
    refine congrArg _ (funext fun i => ?_)
    simp

/-- Behind whole no-ops a region of whole no-ops goes on with no-ops. -/
theorem drop_toList_fill {filler : List UInt8} (hfiller : 0 < filler.length) (front behind : Nat) :
    (fill filler ((front + behind) * filler.length)).toList.drop (front * filler.length) =
      (List.replicate behind filler).flatten := by
  have hfront : (List.replicate front filler).flatten.length = front * filler.length := by simp
  rw [toList_fill, Nat.mul_div_cancel _ hfiller, Nat.mul_mod_left, List.replicate_zero,
    List.append_nil, ← List.replicate_append_replicate, List.flatten_append, ← hfront,
    List.drop_left]

end Regions

end Reckoner
