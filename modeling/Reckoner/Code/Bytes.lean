/-!
# Words in little-endian order

A 32-bit word is laid out as four bytes, the lowest eight bits first.
-/

set_option autoImplicit false

namespace Reckoner

/-- The bytes of a word. -/
def wordBytes (w : BitVec 32) : List UInt8 :=
  [⟨w.extractLsb' 0 8⟩, ⟨w.extractLsb' 8 8⟩, ⟨w.extractLsb' 16 8⟩, ⟨w.extractLsb' 24 8⟩]

/-- The word that four bytes at the front of a list make. -/
def leadingWord? : List UInt8 → Option (BitVec 32)
  | a :: b :: c :: d :: _ => some (d.toBitVec ++ c.toBitVec ++ b.toBitVec ++ a.toBitVec)
  | _ => none

/-- A word is read back from its bytes, whatever follows them. -/
theorem leadingWord?_wordBytes_append (w : BitVec 32) (rest : List UInt8) :
    leadingWord? (wordBytes w ++ rest) = some w := by
  refine congrArg some (BitVec.eq_of_getLsbD_eq fun i hi => ?_)
  simp only [BitVec.getLsbD_append, BitVec.getLsbD_extractLsb']
  split
  · simp_all
  split
  · simp only [show i - 8 < 8 by omega, decide_true, Bool.true_and]
    congr 1
    omega
  split
  · simp only [show i - 8 - 8 < 8 by omega, decide_true, Bool.true_and]
    congr 1
    omega
  · simp only [show i - 8 - 8 - 8 < 8 by omega, decide_true, Bool.true_and]
    congr 1
    omega

end Reckoner
