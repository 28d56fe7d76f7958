import Mathlib.Data.Nat.Bitwise
import Mathlib.Order.Bounds.Basic
import Reckoner.Proofs.Code.Size

/-!
# Sizes as machine words

On the machine a size is a 64-bit word.  Products and sums are checked, one product is bounded by
the greatest word instead, and a size is rounded to whole pages by masking its low bits.
`Word.Gives` says of a computation on words that it is exact: it gives the integer, or nothing when
the integer is no word.  Steps that never get smaller compose, since a last number that is a word
makes words of all before it.
-/

set_option autoImplicit false

namespace Reckoner

/-! ## Checked arithmetic -/

namespace Word

/-- The sum of two words, if it is one. -/
def checkedAdd? (x y : UInt64) : Option UInt64 :=
  if x.toNat + y.toNat < sizeBound then some (x + y) else none

/-- The product of two words, if it is one. -/
def checkedMul? (x y : UInt64) : Option UInt64 :=
  if x.toNat * y.toNat < sizeBound then some (x * y) else none

/-- The product of two words, or the greatest word. -/
def saturatingMul (x y : UInt64) : UInt64 :=
  if x.toNat * y.toNat < sizeBound then x * y else .ofNat (sizeBound - 1)

/-- The least whole number of pages, at least one, that holds `n` bytes.  The size of a page is a
power of two. -/
def alignToPage? (page n : UInt64) : Option UInt64 :=
  (checkedAdd? (max n 1) (page - 1)).map fun top => top &&& ~~~(page - 1)

/-- A computation on words gives this number, or nothing when it is not a word. -/
def Gives (x : Option UInt64) (n : Nat) : Prop := x.map UInt64.toNat = checkedSize n

/-- A checked sum is the exact one, or nothing. -/
theorem gives_checkedAdd? (x y : UInt64) : Gives (checkedAdd? x y) (x.toNat + y.toNat) := by
  unfold Gives checkedAdd? checkedSize
  split
  · next h => exact congrArg some ((UInt64.toNat_add x y).trans (Nat.mod_eq_of_lt h))
  · rfl

/-- A checked product is the exact one, or nothing. -/
theorem gives_checkedMul? (x y : UInt64) : Gives (checkedMul? x y) (x.toNat * y.toNat) := by
  unfold Gives checkedMul? checkedSize
  split
  · next h => exact congrArg some ((UInt64.toNat_mul x y).trans (Nat.mod_eq_of_lt h))
  · rfl

/-- A product that is no word becomes the greatest word. -/
theorem toNat_saturatingMul (x y : UInt64) :
    (saturatingMul x y).toNat = min (x.toNat * y.toNat) (sizeBound - 1) := by
  unfold saturatingMul
  split
  · next h =>
    have hproduct : (x * y).toNat = x.toNat * y.toNat :=
      (UInt64.toNat_mul x y).trans (Nat.mod_eq_of_lt h)
    omega
  · next h =>
    have hgreatest : (UInt64.ofNat (sizeBound - 1)).toNat = sizeBound - 1 := rfl
    omega

variable {x : Option UInt64} {n : Nat}

/-- Numbers that do not get smaller on the way are words all the way if the last one is. -/
theorem Gives.bind {f : UInt64 → Option UInt64} {m : Nat} (hx : Gives x n) (hle : n ≤ m)
    (hf : ∀ w, w.toNat = n → Gives (f w) m) : Gives (x.bind f) m := by
  cases x with
  | none =>
    have hn : ¬n < sizeBound := fun hlt => by
      rw [Gives, checkedSize_of_lt hlt] at hx
      cases hx
    rw [Gives, checkedSize, if_neg fun hlt => hn (Nat.lt_of_le_of_lt hle hlt)]
    rfl
  | some w => exact hf w (checkedSize_eq_some_iff.1 hx.symm).2

/-- A computation whose number is a word gives that word. -/
theorem Gives.exists_of_lt (hx : Gives x n) (h : n < sizeBound) :
    ∃ w, x = some w ∧ w.toNat = n := by
  rw [Gives, checkedSize_of_lt h] at hx
  exact Option.map_eq_some_iff.1 hx

/-- A computation whose number is not a word gives nothing. -/
theorem Gives.eq_none_of_le (hx : Gives x n) (h : sizeBound ≤ n) : x = none := by
  rw [Gives, checkedSize, if_neg (Nat.not_lt_of_le h)] at hx
  exact Option.map_eq_none_iff.1 hx

end Word

/-! ## Whole pages -/

/-- The least whole number of pages, at least one, that holds `n` bytes. -/
def wholePages (page n : Nat) : Nat := (max n 1 + (page - 1)) / page * page

/-- The whole pages are the least positive multiple of a page that holds the bytes. -/
theorem isLeast_wholePages {page : Nat} (hpage : 0 < page) (n : Nat) :
    IsLeast {m | page ∣ m ∧ 0 < m ∧ n ≤ m} (wholePages page n) := by
  have hround := Nat.div_add_mod (max n 1 + (page - 1)) page
  have hrest := Nat.mod_lt (max n 1 + (page - 1)) hpage
  rw [Nat.mul_comm] at hround
  refine ⟨⟨Nat.dvd_mul_left _ _, ?_, ?_⟩, ?_⟩
  · unfold wholePages
    omega
  · unfold wholePages
    omega
  · rintro m ⟨⟨count, rfl⟩, hpos, hn⟩
    have hmax : max n 1 ≤ page * count := Nat.max_le.2 ⟨hn, hpos⟩
    -- the sum is below one page more
    have hcount : (max n 1 + (page - 1)) / page ≤ count := by
      refine Nat.le_of_lt_succ ((Nat.div_lt_iff_lt_mul hpage).2 ?_)
      rw [Nat.succ_mul, Nat.mul_comm count]
      omega
    rw [wholePages, Nat.mul_comm page]
    exact Nat.mul_le_mul_right page hcount

/-- With bytes to hold, the whole pages are the least multiple of a page that holds them. -/
theorem isLeast_wholePages_of_pos {page n : Nat} (hpage : 0 < page) (hn : 0 < n) :
    IsLeast {m | page ∣ m ∧ n ≤ m} (wholePages page n) := by
  obtain ⟨⟨hdvd, -, hle⟩, hleast⟩ := isLeast_wholePages hpage n
  exact ⟨⟨hdvd, hle⟩, fun m hm => hleast ⟨hm.1, Nat.lt_of_lt_of_le hn hm.2, hm.2⟩⟩

/-- Rounding gives the whole pages when a page more is still below the bound. -/
theorem roundToPages?_of_lt {n : Nat} (h : max n 1 + (pageSize - 1) < sizeBound) :
    roundToPages? n = some (wholePages pageSize n) := by
  rw [roundToPages?, checkedSize_of_lt h]
  rfl

/-- Rounding gives nothing when a page more is not below the bound. -/
theorem roundToPages?_of_le {n : Nat} (h : sizeBound ≤ max n 1 + (pageSize - 1)) :
    roundToPages? n = none := by
  rw [roundToPages?, checkedSize, if_neg (Nat.not_lt_of_le h)]
  rfl

namespace Word

variable {page : UInt64} {k : Nat}

/-- A page less one is a row of ones, the mask of the low bits. -/
theorem toNat_pred (hpage : page.toNat = 2 ^ k) : (page - 1).toNat = 2 ^ k - 1 := by
  have hle : 1 ≤ page := UInt64.le_iff_toNat_le.2 (hpage ▸ Nat.one_le_two_pow)
  rw [UInt64.toNat_sub_of_le _ _ hle, hpage]
  rfl

/-- The greatest power of two among words is half of their number. -/
theorem le_of_toNat_eq_two_pow (hpage : page.toNat = 2 ^ k) : page.toNat ≤ 2 ^ 63 := by
  have hk : k < 64 := (Nat.pow_lt_pow_iff_right (by decide)).1 (hpage ▸ page.toNat_lt)
  rw [hpage]
  exact Nat.pow_le_pow_right (by decide) (Nat.le_of_lt_succ hk)

/-- Masking the low bits rounds down to a multiple. -/
theorem and_mask {n : Nat} (hn : n < 2 ^ 64) (hk : 2 ^ k - 1 < 2 ^ 64) :
    n &&& (2 ^ 64 - (2 ^ k - 1 + 1)) = n / 2 ^ k * 2 ^ k := by
  apply Nat.eq_of_testBit_eq
  intro i
  rw [Nat.testBit_and, Nat.testBit_two_pow_sub_succ hk, Nat.testBit_two_pow_sub_one,
    Nat.testBit_mul_two_pow, Nat.testBit_div_two_pow]
  by_cases hki : k ≤ i
  · rw [Nat.sub_add_cancel hki]
    by_cases hi : i < 64
    · simp [hki, hi]
    · -- the number has no bit so high
      have hpow : 2 ^ 64 ≤ 2 ^ i := Nat.pow_le_pow_right (by decide) (Nat.le_of_not_lt hi)
      simp [Nat.testBit_lt_two_pow (Nat.lt_of_lt_of_le hn hpow)]
  · simp [hki, Nat.lt_of_not_le hki]

/-- Masking the low bits rounds a word down to whole pages. -/
theorem toNat_and_not_pred (hpage : page.toNat = 2 ^ k) (top : UInt64) :
    (top &&& ~~~(page - 1)).toNat = top.toNat / 2 ^ k * 2 ^ k := by
  have hlt : 2 ^ k - 1 < 2 ^ 64 := hpage ▸ Nat.lt_of_le_of_lt (Nat.sub_le _ 1) page.toNat_lt
  have hmask : (~~~(page - 1)).toNat = 2 ^ 64 - (2 ^ k - 1 + 1) := by
    rw [UInt64.toNat_not, toNat_pred hpage, Nat.add_comm _ 1, ← Nat.sub_sub]
    rfl
  rw [UInt64.toNat_and, hmask, and_mask top.toNat_lt hlt]

/-- The sum that is masked is the exact one, or nothing. -/
theorem gives_rounding (hpage : page.toNat = 2 ^ k) (n : UInt64) :
    Gives (checkedAdd? (max n 1) (page - 1)) (max n.toNat 1 + (page.toNat - 1)) := by
  have hmax : (max n 1).toNat = max n.toNat 1 := by
    rw [UInt64.toNat_max]
    rfl
  have hsum := gives_checkedAdd? (max n 1) (page - 1)
  rwa [hmax, toNat_pred hpage, ← hpage] at hsum

/-- Rounding a word by a mask gives the whole pages when a page more is still a word. -/
theorem alignToPage?_of_lt (hpage : page.toNat = 2 ^ k) {n : UInt64}
    (h : max n.toNat 1 + (page.toNat - 1) < sizeBound) :
    ∃ w, alignToPage? page n = some w ∧ w.toNat = wholePages page.toNat n.toNat := by
  obtain ⟨top, htop, hsum⟩ := (gives_rounding hpage n).exists_of_lt h
  refine ⟨top &&& ~~~(page - 1), by rw [alignToPage?, htop]; rfl, ?_⟩
  rw [toNat_and_not_pred hpage, hsum, wholePages, hpage]

/-- Rounding a word gives nothing when a page more is not a word. -/
theorem alignToPage?_of_le (hpage : page.toNat = 2 ^ k) {n : UInt64}
    (h : sizeBound ≤ max n.toNat 1 + (page.toNat - 1)) : alignToPage? page n = none := by
  rw [alignToPage?, (gives_rounding hpage n).eq_none_of_le h]
  rfl

end Word

end Reckoner
