import Reckoner.Proofs.Code.Words

/-!
# Sizes predicted in machine words

`CodeSize.onWords` predicts sizes with the words of the machine.  `CodeSize.exactSizes` has the same
outcome in integers, with one condition for each refusal, so no word has wrapped on the way.

The condition for too much code is about the length and the rounding together.  Rounding adds a page
less one before it masks, and near the greatest word this fails although the length itself fits.
-/

set_option autoImplicit false

namespace Reckoner

/-- A shape in words. -/
structure WordShape where
  leafCount : UInt64
  operatorCount : UInt64
  stackDepth : UInt64

/-- The shape that the words express. -/
def WordShape.toShape (s : WordShape) : Shape :=
  ⟨s.leafCount.toNat, s.operatorCount.toNat, s.stackDepth.toNat⟩

namespace CodeSize

open Word

/-- The length of the code of a shape, if it is a word. -/
def lengthOnWords? (target : Target) (s : WordShape) : Option UInt64 := do
  let fetches ← checkedMul? s.leafCount (.ofNat target.fetchSize)
  let operators ← checkedMul? s.operatorCount (.ofNat target.operatorSize)
  let body ← checkedAdd? fetches operators
  checkedAdd? body (.ofNat target.epilogueSize)

/-- The value of a word, or its refusal. -/
def wordOrRefuse (size : Option UInt64) (fault : AllocationFault) : Except CompileError UInt64 :=
  match size with
  | some w => .ok w
  | none => .error (overflow fault)

/-- The sizes of a program for a tree of a shape, predicted in words for pages of a size. -/
def onWords (page : UInt64) (target : Target) (s : WordShape) : Except CompileError CodeSize :=
  if .ofNat maxLeaves < s.leafCount then .error (overflow .poolOverflow)
  else if .ofNat maxOperandDepth < s.stackDepth then
    let stackSize := saturatingMul s.stackDepth (.ofNat target.stackCell)
    .error (.allocationFailed stackSize.toNat (.tooDeep s.stackDepth.toNat))
  else do
    let codeLength ← wordOrRefuse (lengthOnWords? target s) .codeOverflow
    let poolLength ← wordOrRefuse (checkedMul? s.leafCount (.ofNat cellSize)) .poolOverflow
    let codeRegion ← wordOrRefuse (alignToPage? page codeLength) .codeOverflow
    let poolRegion ← wordOrRefuse (alignToPage? page poolLength) .poolOverflow
    return ⟨codeLength.toNat, codeRegion.toNat, poolRegion.toNat⟩

/-- The sizes of a program in integers, with one condition for each refusal. -/
def exactSizes (page : Nat) (target : Target) (shape : Shape) : Except CompileError CodeSize :=
  let length := exactLength target shape
  if maxLeaves < shape.leafCount then .error (overflow .poolOverflow)
  else if maxOperandDepth < shape.stackDepth then
    let stackSize := min (shape.stackDepth * target.stackCell) (sizeBound - 1)
    .error (.allocationFailed stackSize (.tooDeep shape.stackDepth))
  else if sizeBound ≤ length + (page - 1) then .error (overflow .codeOverflow)
  else .ok ⟨length, wholePages page length, wholePages page (shape.leafCount * cellSize)⟩

/-- No code is empty, since it ends with the epilogue. -/
theorem exactLength_pos (target : Target) (shape : Shape) : 0 < exactLength target shape := by
  have hepilogue : 0 < target.epilogueSize := by cases target <;> decide
  exact Nat.add_pos_right _ hepilogue

/-- The length of code on words is the exact one, or nothing when that is not a word. -/
theorem gives_lengthOnWords? (target : Target) (s : WordShape) :
    Gives (lengthOnWords? target s) (exactLength target s.toShape) := by
  have hfetch : (UInt64.ofNat target.fetchSize).toNat = target.fetchSize := by cases target <;> rfl
  have hoperator : (UInt64.ofNat target.operatorSize).toNat = target.operatorSize := by
    cases target <;> rfl
  have hepilogue : (UInt64.ofNat target.epilogueSize).toNat = target.epilogueSize := by
    cases target <;> rfl
  have hfetches := gives_checkedMul? s.leafCount (.ofNat target.fetchSize)
  have hoperators := gives_checkedMul? s.operatorCount (.ofNat target.operatorSize)
  rw [hfetch] at hfetches
  rw [hoperator] at hoperators
  unfold exactLength
  refine hfetches.bind (Nat.le_trans (Nat.le_add_right _ _) (Nat.le_add_right _ _)) ?_
  rintro fetches hfetches
  refine hoperators.bind (Nat.le_trans (Nat.le_add_left _ _) (Nat.le_add_right _ _)) ?_
  rintro operators hoperators
  refine (gives_checkedAdd? fetches operators).bind ?_ ?_
  · rw [hfetches, hoperators]
    exact Nat.le_add_right _ _
  · rintro body hbody
    have hsum := gives_checkedAdd? body (.ofNat target.epilogueSize)
    rwa [hbody, hfetches, hoperators, hepilogue] at hsum

/-- A length that is not below the bound is not found. -/
theorem codeLength?_of_le {target : Target} {shape : Shape}
    (h : sizeBound ≤ exactLength target shape) : codeLength? target shape = none := by
  refine Option.eq_none_iff_forall_ne_some.2 fun n hn => ?_
  have hlast := hn
  simp only [codeLength?, Option.bind_eq_bind, Option.bind_eq_some_iff] at hlast
  obtain ⟨_, _, _, _, _, _, hlast⟩ := hlast
  obtain ⟨hlt, rfl⟩ := checkedSize_eq_some_iff.1 hlast
  rw [codeLength?_eq_some hn] at hlt
  exact Nat.not_lt_of_le h hlt

/-- Predictions have the outcome of integers. -/
theorem ofShape_eq_exactSizes (target : Target) (shape : Shape) :
    ofShape target shape = exactSizes pageSize target shape := by
  have hpos := exactLength_pos target shape
  unfold ofShape exactSizes
  dsimp only
  split
  · rfl
  next hleaves =>
  split
  · rfl
  have hpool : max (shape.leafCount * cellSize) 1 + (pageSize - 1) < sizeBound := by
    unfold maxLeaves at hleaves
    unfold cellSize pageSize sizeBound
    omega
  -- few enough leaves for slots have room, so the code alone can still be too long
  rw [checkedSize_of_lt (by omega : shape.leafCount * cellSize < sizeBound)]
  split
  · next hfull =>
    by_cases hlength : exactLength target shape < sizeBound
    · have hround := roundToPages?_of_le (n := exactLength target shape) (by omega)
      simp only [codeLength?_of_lt hlength, orRefuse, bind, Except.bind, hround]
    · rw [codeLength?_of_le (Nat.le_of_not_lt hlength)]
      rfl
  · next hfits =>
    have hround := roundToPages?_of_lt (n := exactLength target shape) (by omega)
    simp only [codeLength?_of_lt (by omega : exactLength target shape < sizeBound), orRefuse, bind,
      Except.bind, hround, roundToPages?_of_lt hpool]
    rfl

/-- Predictions in words are the ones in integers: no word wraps. -/
theorem onWords_eq_exactSizes {page : UInt64} {k : Nat} (hpage : page.toNat = 2 ^ k)
    (target : Target) (s : WordShape) :
    onWords page target s = exactSizes page.toNat target s.toShape := by
  have hpos := exactLength_pos target s.toShape
  have hcell : (UInt64.ofNat target.stackCell).toNat = target.stackCell := by cases target <;> rfl
  have hlengthGives := gives_lengthOnWords? target s
  have hpoolGives : Gives (checkedMul? s.leafCount (.ofNat cellSize))
      (s.toShape.leafCount * cellSize) := gives_checkedMul? s.leafCount (.ofNat cellSize)
  have hleavesIff : .ofNat maxLeaves < s.leafCount ↔ maxLeaves < s.toShape.leafCount :=
    UInt64.lt_iff_toNat_lt
  have hdepthIff : .ofNat maxOperandDepth < s.stackDepth ↔ maxOperandDepth < s.toShape.stackDepth :=
    UInt64.lt_iff_toNat_lt
  unfold onWords exactSizes
  simp only [hleavesIff, hdepthIff]
  split
  · rfl
  next hleaves =>
  split
  · rw [toNat_saturatingMul, hcell]
    rfl
  -- a page may be half of all words, and the constants still fit next to it
  have hpageLe := le_of_toNat_eq_two_pow hpage
  have hpoolSmall : s.toShape.leafCount * cellSize < 2 ^ 36 := by
    unfold maxLeaves at hleaves
    unfold cellSize
    omega
  have hbound : sizeBound = 2 ^ 64 := rfl
  obtain ⟨pool, hpool, hpoolNat⟩ := hpoolGives.exists_of_lt (by omega)
  obtain ⟨poolRegion, hpoolRegion, hpoolRegionNat⟩ :=
    alignToPage?_of_lt hpage (n := pool) (by omega)
  split
  · next hfull =>
    by_cases hfits : exactLength target s.toShape < sizeBound
    · obtain ⟨length, hlength, hlengthNat⟩ := hlengthGives.exists_of_lt hfits
      have hcodeRegion := alignToPage?_of_le hpage (n := length) (by omega)
      simp only [hlength, hpool, hcodeRegion, wordOrRefuse, bind, Except.bind]
    · rw [hlengthGives.eq_none_of_le (Nat.le_of_not_lt hfits)]
      rfl
  · next hfits =>
    obtain ⟨length, hlength, hlengthNat⟩ := hlengthGives.exists_of_lt (by omega)
    obtain ⟨codeRegion, hcodeRegion, hcodeRegionNat⟩ :=
      alignToPage?_of_lt hpage (n := length) (by omega)
    simp only [hlength, hpool, hcodeRegion, hpoolRegion, wordOrRefuse, bind, Except.bind, pure,
      Except.pure, hlengthNat, hcodeRegionNat, hpoolRegionNat, hpoolNat]

end CodeSize

/-! ## What is refused -/

namespace AllocationFault

/-- The text for too deep a tree names its depth and the greatest that is allowed. -/
theorem message_tooDeep (d : Nat) :
    (tooDeep d).message = "operand stack depth " ++ d.repr ++ " exceeds 16384" := by
  have hend : " exceeds " ++ maxOperandDepth.repr = " exceeds 16384" := by decide
  rw [← hend, ← String.append_assoc]
  rfl

/-- No other text begins as that of a depth does. -/
theorem exists_eq_tooDeep {x : AllocationFault} {d : Nat} (h : x.message = (tooDeep d).message) :
    ∃ d', x = tooDeep d' := by
  have hfirst : "operand stack depth ".toList.head? = some 'o' := by decide
  have hhead := congrArg (·.toList.head?) h
  simp only [message_tooDeep, String.append_assoc, String.toList_append, List.head?_append, hfirst,
    Option.some_or] at hhead
  cases x with
  | tooDeep d' => exact ⟨d', rfl⟩
  | codeOverflow => exact absurd hhead (by decide)
  | poolOverflow => exact absurd hhead (by decide)
  | emptyRegion => exact absurd hhead (by decide)

/-- Faults are told apart by their texts. -/
theorem message_inj {x y : AllocationFault} (h : x.message = y.message) : x = y := by
  cases y with
  | tooDeep d =>
    obtain ⟨d', rfl⟩ := exists_eq_tooDeep h
    rw [message_tooDeep, message_tooDeep] at h
    have hrepr : d'.repr = d.repr := (String.append_right_inj _).1 ((String.append_left_inj _).1 h)
    have hvalue := congrArg (fun text => Nat.ofDigitChars 10 text.toList 0) hrepr
    simp only [Nat.toList_repr, Nat.ofDigitChars_ten_toDigits] at hvalue
    rw [hvalue]
  | _ =>
    cases x with
    | tooDeep d =>
      obtain ⟨_, hd⟩ := exists_eq_tooDeep h.symm
      cases hd
    | _ => first | rfl | exact absurd h (by decide)

end AllocationFault

namespace CodeSize

/-- An outcome is a refusal of a number of bytes, with a text as its reason. -/
def Refused (outcome : Except CompileError CodeSize) (bytes : Nat) (reason : String) : Prop :=
  ∃ fault, outcome = .error (.allocationFailed bytes fault) ∧ fault.message = reason

/-- A refusal with a text is the error with the fault that has this text, since texts tell faults
apart. -/
theorem refused_iff {outcome : Except CompileError CodeSize} {bytes : Nat} {reason : String}
    (fault : AllocationFault) (hreason : fault.message = reason) :
    Refused outcome bytes reason ↔ outcome = .error (.allocationFailed bytes fault) := by
  constructor
  · rintro ⟨other, houtcome, hother⟩
    rwa [AllocationFault.message_inj (hother.trans hreason.symm)] at houtcome
  · intro h
    exact ⟨fault, h, hreason⟩

/-- What the outcome of a prediction has to be, for pages of a size.  A shape with too many leaves
for slots is refused, then one that is too deep, then one whose code is too long for a word when it
is rounded to pages.  Every other shape gets the exact length of its code, and the least whole pages
for its code and for its constants. -/
structure Exact (page : Nat) (target : Target) (shape : Shape)
    (outcome : Except CompileError CodeSize) : Prop where
  refused_leaves : Refused outcome (2 ^ 64 - 1) "constant pool size overflows" ↔
    2 ^ 32 - 1 < shape.leafCount
  refused_depth : Refused outcome (min (shape.stackDepth * target.stackCell) (2 ^ 64 - 1))
      ("operand stack depth " ++ shape.stackDepth.repr ++ " exceeds 16384") ↔
    shape.leafCount ≤ 2 ^ 32 - 1 ∧ 16384 < shape.stackDepth
  refused_code : Refused outcome (2 ^ 64 - 1) "code size overflows" ↔
    shape.leafCount ≤ 2 ^ 32 - 1 ∧ shape.stackDepth ≤ 16384 ∧
      2 ^ 64 ≤ exactLength target shape + (page - 1)
  sizes : (∃ size, outcome = .ok size ∧ size.codeLength = exactLength target shape ∧
      IsLeast {n | page ∣ n ∧ size.codeLength ≤ n} size.codeRegion ∧
      IsLeast {n | page ∣ n ∧ 0 < n ∧ 8 * shape.leafCount ≤ n} size.poolRegion) ↔
    shape.leafCount ≤ 2 ^ 32 - 1 ∧ shape.stackDepth ≤ 16384 ∧
      exactLength target shape + (page - 1) < 2 ^ 64

/-- In integers, each outcome has its own condition. -/
theorem exactSizes_eq_iff (page : Nat) (target : Target) (shape : Shape) :
    (exactSizes page target shape = .error (overflow .poolOverflow) ↔
      maxLeaves < shape.leafCount) ∧
    (exactSizes page target shape = .error (.allocationFailed
        (min (shape.stackDepth * target.stackCell) (sizeBound - 1)) (.tooDeep shape.stackDepth)) ↔
      shape.leafCount ≤ maxLeaves ∧ maxOperandDepth < shape.stackDepth) ∧
    (exactSizes page target shape = .error (overflow .codeOverflow) ↔
      shape.leafCount ≤ maxLeaves ∧ shape.stackDepth ≤ maxOperandDepth ∧
        sizeBound ≤ exactLength target shape + (page - 1)) ∧
    ∀ size, exactSizes page target shape = .ok size ↔
      (shape.leafCount ≤ maxLeaves ∧ shape.stackDepth ≤ maxOperandDepth ∧
        exactLength target shape + (page - 1) < sizeBound) ∧
      ⟨exactLength target shape, wholePages page (exactLength target shape),
        wholePages page (shape.leafCount * cellSize)⟩ = size := by
  unfold exactSizes overflow
  dsimp only
  split
  · next hleaves => simp [hleaves, Nat.not_le_of_lt hleaves]
  next hleaves =>
  split
  · next hdepth => simp [hleaves, Nat.le_of_not_lt hleaves, hdepth, Nat.not_le_of_lt hdepth]
  next hdepth =>
  split
  · next hfull =>
    simp [hleaves, Nat.le_of_not_lt hleaves, hdepth, Nat.le_of_not_lt hdepth, hfull,
      Nat.not_lt_of_le hfull]
  · next hfits =>
    simp [hleaves, Nat.le_of_not_lt hleaves, hdepth, Nat.le_of_not_lt hdepth, hfits,
      Nat.lt_of_not_le hfits]

/-- The sizes in integers are what the outcome of a prediction has to be. -/
theorem exact_exactSizes {page : Nat} (hpage : 0 < page) (target : Target) (shape : Shape) :
    Exact page target shape (exactSizes page target shape) := by
  obtain ⟨hpool, hdeep, hcode, hok⟩ := exactSizes_eq_iff page target shape
  refine ⟨(refused_iff .poolOverflow rfl).trans hpool,
    (refused_iff _ (AllocationFault.message_tooDeep _)).trans hdeep,
    (refused_iff .codeOverflow rfl).trans hcode, ⟨?_, fun hfits => ?_⟩⟩
  · rintro ⟨size, hsize, -⟩
    exact ((hok size).1 hsize).1
  · refine ⟨_, (hok _).2 ⟨hfits, rfl⟩, rfl, ?_, ?_⟩
    · exact isLeast_wholePages_of_pos hpage (exactLength_pos target shape)
    · rw [Nat.mul_comm 8]
      exact isLeast_wholePages hpage (shape.leafCount * 8)

/-- Predictions are exact for every shape.  Made in words they are the same, so no word wraps; and
they are exact in words for pages of any power of two. -/
theorem ofShape_exact (target : Target) :
    (∀ shape, Exact pageSize target shape (ofShape target shape)) ∧
    (∀ s : WordShape, onWords (.ofNat pageSize) target s = ofShape target s.toShape) ∧
    ∀ page : UInt64, (∃ k, page.toNat = 2 ^ k) →
      ∀ s : WordShape, Exact page.toNat target s.toShape (onWords page target s) := by
  refine ⟨fun shape => ?_, fun s => ?_, ?_⟩
  · rw [ofShape_eq_exactSizes]
    exact exact_exactSizes (by decide) target shape
  · rw [onWords_eq_exactSizes (k := 12) rfl, ofShape_eq_exactSizes]
    rfl
  · rintro page ⟨k, hpage⟩ s
    rw [onWords_eq_exactSizes hpage]
    exact exact_exactSizes (hpage ▸ Nat.two_pow_pos k) target s.toShape

/-- Code that fits a word by six bytes still cannot be rounded to pages, of 4096 bytes or of
65536; with pages of a byte there is nothing to round. -/
theorem ofShape_exact_edge_of_words :
    exactLength .x64 ⟨1, 472993437787424400, 1⟩ = 2 ^ 64 - 6 ∧
    Refused (ofShape .x64 ⟨1, 472993437787424400, 1⟩) (2 ^ 64 - 1) "code size overflows" ∧
    Refused (onWords 65536 .x64 ⟨1, 472993437787424400, 1⟩) (2 ^ 64 - 1) "code size overflows" ∧
    ∃ size, onWords 1 .x64 ⟨1, 472993437787424400, 1⟩ = .ok size ∧
      size.codeLength = 2 ^ 64 - 6 := by
  obtain ⟨hshape, -, hwords⟩ := ofShape_exact .x64
  refine ⟨by decide, (hshape _).refused_code.2 (by decide),
    (hwords 65536 ⟨16, rfl⟩ _).refused_code.2 (by decide), ?_⟩
  obtain ⟨size, hsize, hlength, -, -⟩ :=
    (hwords 1 ⟨0, rfl⟩ ⟨1, 472993437787424400, 1⟩).sizes.2 (by decide)
  exact ⟨size, hsize, hlength⟩

end CodeSize

end Reckoner
