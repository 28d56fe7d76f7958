/-!
# Decimal numerals

A number is written in decimal with no leading zero, a negative one after a minus
sign; it is read from a run of ASCII digits, leading zeros included, as long as it
fits a 64-bit signed integer.
-/

set_option autoImplicit false

namespace Reckoner.Decimal

/-- The decimal text of a 64-bit signed integer. -/
def ofInt64 (v : Int64) : List Char :=
  if v.toInt < 0 then '-' :: Nat.toDigits 10 v.toInt.natAbs else Nat.toDigits 10 v.toInt.natAbs

/-- The greatest number that a literal can denote. -/
def maxLiteral : Nat := 0x7FFF_FFFF_FFFF_FFFF

/-- The value of a run of digits, if it fits a 64-bit signed integer. -/
def toInt64? (digits : List Char) : Option Int64 :=
  let n := Nat.ofDigitChars 10 digits 0
  if n ≤ maxLiteral then some (Int64.ofNat n) else none

/-- Every number has at least one character. -/
theorem ofInt64_ne_nil (v : Int64) : ofInt64 v ≠ [] := by
  unfold ofInt64
  split
  · exact List.cons_ne_nil _ _
  · exact Nat.toDigits_ne_nil

/-- A value that is not negative is read back from its text. -/
theorem toInt64?_ofInt64 (v : Int64) (h : 0 ≤ v.toInt) : toInt64? (ofInt64 v) = some v := by
  have hv : v.toInt < 2 ^ 63 := v.toInt_lt
  have hn : ¬ v.toInt < 0 := by omega
  simp only [toInt64?, ofInt64, hn, if_false, Nat.ofDigitChars_ten_toDigits, maxLiteral]
  rw [if_pos (by omega)]
  congr 1
  apply Int64.toInt.inj
  rw [Int64.toInt_ofNat_of_lt (by omega)]
  omega

end Reckoner.Decimal
