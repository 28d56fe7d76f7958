import Reckoner.Proofs.Code.Buffer

/-!
# A buffer is a log of the code it accepts

A buffer may be asked for ordinary and for final code in any order, and again after a call that
failed.  A call that fails changes nothing, so a run of calls does what its successful calls do,
and these append: the buffer after the run is the buffer before it, extended by the code that was
accepted.  Everything else is read off that one equation.  The bytes below the length are the
accepted code, those from the length on are as they were given, and since ordinary code never ends
behind the reserve, only final code can stand there.
-/

set_option autoImplicit false

namespace Reckoner

/-- What a buffer can be asked for. -/
inductive BufferCall where
  | emit (code : List UInt8)
  | emitFinal (code : List UInt8)

namespace BufferCall

/-- The code that a call asks to append. -/
def code : BufferCall → List UInt8
  | emit code => code
  | emitFinal code => code

/-- Where the code of a call has to end at the latest. -/
def limit (capacity reserve : Nat) : BufferCall → Nat
  | emit _ => capacity - reserve
  | emitFinal _ => capacity

/-- No call may write beyond the capacity. -/
theorem limit_le (capacity reserve : Nat) (c : BufferCall) : c.limit capacity reserve ≤ capacity := by
  cases c with
  | emit code => exact Nat.sub_le _ _
  | emitFinal code => exact Nat.le_refl _

end BufferCall

namespace CodeBuffer

/-- Answers a call. -/
def call (b : CodeBuffer) : BufferCall → CodeBuffer × Option SizeMismatch
  | .emit code => b.emit code
  | .emitFinal code => b.emitFinal code

/-- Answers calls in turn, and goes on after those that fail. -/
def callAll (b : CodeBuffer) (calls : List BufferCall) : CodeBuffer :=
  calls.foldl (fun b c => (b.call c).1) b

/-- The code of the calls that succeed, in order. -/
def accepted (b : CodeBuffer) : List BufferCall → List (List UInt8)
  | [] => []
  | c :: rest =>
    match b.call c with
    | (next, none) => c.code :: next.accepted rest
    | (next, some _) => next.accepted rest

/-- A call is accepted when its code ends within its limit; otherwise the buffer stays as it is, and
the error says where the code would end and where it may. -/
theorem call_eq (b : CodeBuffer) (c : BufferCall) :
    b.call c =
      if b.length + c.code.length ≤ c.limit b.capacity b.reserve then (b.extend c.code, none)
      else (b, some ⟨b.length + c.code.length, c.limit b.capacity b.reserve⟩) := by
  cases c with
  | emit code => exact b.append_eq _ code
  | emitFinal code => exact b.append_eq _ code

/-- A call fails just when its code ends behind its limit. -/
theorem call_ne_none_iff (b : CodeBuffer) (c : BufferCall) :
    (b.call c).2 ≠ none ↔ c.limit b.capacity b.reserve < b.length + c.code.length := by
  rw [call_eq]
  split
  · next hfits => exact iff_of_false (fun h => h rfl) (Nat.not_lt.2 hfits)
  · next hlong => exact iff_of_true (Option.some_ne_none _) (Nat.lt_of_not_le hlong)

/-- A call that fails changes nothing. -/
theorem call_fst_of_ne_none {b : CodeBuffer} {c : BufferCall} (h : (b.call c).2 ≠ none) :
    (b.call c).1 = b := by
  rw [call_ne_none_iff] at h
  rw [call_eq, if_neg (Nat.not_le.2 h)]

/-- Ordinary code does not reach the reserve. -/
theorem getElem?_emit_of_le (b : CodeBuffer) (code : List UInt8) {i : Nat}
    (hi : b.capacity - b.reserve ≤ i) : (b.emit code).1.bytes[i]? = b.bytes[i]? := by
  change (b.call (.emit code)).1.bytes[i]? = _
  rw [call_eq]
  split
  · next hfits =>
    apply getElem?_overwrite_outside
    exact .inr (Nat.le_trans hfits hi)
  · rfl

/-- After a run of calls the buffer has been extended by the code that was accepted. -/
theorem callAll_eq (b : CodeBuffer) (calls : List BufferCall) :
    b.callAll calls = b.extend (b.accepted calls).flatten := by
  induction calls generalizing b with
  | nil => exact b.extend_nil.symm
  | cons c rest ih =>
    have hrest := ih (b.call c).1
    rw [call_eq] at hrest
    rw [callAll, List.foldl_cons, accepted, call_eq]
    split at hrest
    · next hfits =>
      rw [if_pos hfits, List.flatten_cons, ← extend_append]
      exact hrest
    · next hlong =>
      rw [if_neg hlong]
      exact hrest

/-- No call takes the length past the capacity. -/
theorem length_callAll_le {b : CodeBuffer} (h : b.length ≤ b.capacity) (calls : List BufferCall) :
    (b.callAll calls).length ≤ b.capacity := by
  induction calls generalizing b with
  | nil => exact h
  | cons c rest ih =>
    rw [callAll, List.foldl_cons, call_eq]
    split
    · next hfits =>
      apply ih
      rw [length_extend]
      exact Nat.le_trans hfits (c.limit_le _ _)
    · exact ih h

/-- After any calls a buffer holds the code that it accepted, and behind it the bytes as they were
given.  The next call fails exactly when its code would end behind its limit, and then changes
nothing; ordinary code never changes a byte of the reserve. -/
theorem holds_accepted {bytes : Array UInt8} {capacity reserve : Nat} {buffer : CodeBuffer}
    (hcreate : create bytes capacity reserve = .ok buffer) (calls : List BufferCall) :
    (reserve ≤ capacity ∧ capacity ≤ bytes.size) ∧
    ∃ b, buffer.callAll calls = b ∧
      b.length ≤ capacity ∧
      b.length = (buffer.accepted calls).flatten.length ∧
      b.bytes.toList = (buffer.accepted calls).flatten ++ bytes.toList.drop b.length ∧
      (∀ c, (b.call c).2 ≠ none ↔ c.limit capacity reserve < b.length + c.code.length) ∧
      (∀ c, (b.call c).2 ≠ none → (b.call c).1 = b) ∧
      ∀ code i, capacity - reserve ≤ i → (b.emit code).1.bytes[i]? = b.bytes[i]? := by
  obtain ⟨hreserve, hsize, rfl⟩ := eq_of_create_eq_ok hcreate
  refine ⟨⟨hreserve, hsize⟩, _, callAll_eq _ calls, ?_⟩
  have hlength := length_callAll_le (b := ⟨bytes, 0, capacity, reserve⟩) (Nat.zero_le _) calls
  rw [callAll_eq, length_extend, Nat.zero_add] at hlength
  refine ⟨?_, ?_, ?_, ?_, ?_, ?_⟩
  · rw [length_extend, Nat.zero_add]
    exact hlength
  · rw [length_extend, Nat.zero_add]
  · rw [length_extend, Nat.zero_add]
    exact toList_overwrite_zero bytes _ (Nat.le_trans hlength hsize)
  · intro c
    exact call_ne_none_iff _ c
  · intro c
    exact call_fst_of_ne_none
  · intro code i hi
    exact getElem?_emit_of_le _ code hi

/-- Six bytes do not fit behind three in front of the reserve, but as final code they do; after that
ordinary code fails even when it is empty. -/
theorem holds_accepted_three_and_six :
    ∃ buffer b, create (Array.replicate 12 0xCC) 10 2 = .ok buffer ∧
      buffer.callAll [.emit [1, 2, 3], .emit [4, 5, 6, 7, 8, 9], .emitFinal [4, 5, 6, 7, 8, 9]] = b ∧
      b.bytes.toList = [1, 2, 3, 4, 5, 6, 7, 8, 9, 0xCC, 0xCC, 0xCC] ∧
      (b.emit []).2 ≠ none ∧ (b.emit []).1 = b ∧ (b.emitFinal [7]).2 = none ∧
      8 ≤ 11 ∧ (b.emit [7]).1.bytes[11]? = b.bytes[11]? := by
  obtain ⟨-, b, hb, -, hlength, hbytes, hfails, hsame, hreserve⟩ :=
    holds_accepted (show create (Array.replicate 12 0xCC) 10 2 = .ok _ from rfl)
      [.emit [1, 2, 3], .emit [4, 5, 6, 7, 8, 9], .emitFinal [4, 5, 6, 7, 8, 9]]
  have hnine : b.length = 9 := hlength
  have hempty : (b.emit []).2 ≠ none := by
    apply (hfails (.emit [])).2
    rw [hnine]
    decide
  have hfinal : ¬(b.emitFinal [7]).2 ≠ none := by
    intro hfinal
    have hlong := (hfails (.emitFinal [7])).1 hfinal
    rw [hnine] at hlong
    exact absurd hlong (by decide)
  refine ⟨_, b, rfl, hb, ?_, hempty, hsame (.emit []) hempty, Decidable.not_not.1 hfinal, by decide,
    hreserve [7] 11 (by decide)⟩
  rw [hbytes, hnine]
  rfl

end CodeBuffer

end Reckoner
