import Reckoner.Proofs.Code.Buffer
import Reckoner.Proofs.Target.Instructions

/-!
# What an elided load trusts

An emitter may be called again after a call for which the buffer had no room, and then its code
goes on behind the pieces that did fit.  What it knows of the index register has to be read
against those bytes: the last instruction in them that wrote the register should have loaded the
slot that the emitter knows.

There is one exception.  A multiplication whose no-ops do not fit has already appended the
multiply, but its call ends before the emitter forgets the slot.  Between the multiply and the
end of the buffer there is then room for eight bytes at most, which on x86-64 is one fetch.  Such a
fetch is elided although the register holds the high half of the product, and it is the last to
fit.  On AArch64 every piece is a single instruction, so a call that fails leaves no room for
anything.
-/

set_option autoImplicit false

namespace Reckoner

/-- What the index register was last written with. -/
inductive IndexWrite where
  | load (slot : UInt32)
  /-- The high half of a product. -/
  | product
  deriving DecidableEq

/-- The last write of the index register, given the one before an instruction. -/
def X64.Instruction.indexAfter (last : Option IndexWrite) : Instruction → Option IndexWrite
  | loadIndex slot => some (.load slot)
  | imul _ => some .product
  | _ => last

/-- The last write of the index register, given the one before an instruction.  A slot is loaded
in two halves. -/
def A64.Instruction.indexAfter (last : Option IndexWrite) : Instruction → Option IndexWrite
  | movz .x9 imm => some (.load ⟨imm.setWidth 32⟩)
  | movk .x9 imm =>
    match last with
    | some (.load slot) => some (.load ⟨imm ++ slot.toBitVec.extractLsb' 0 16⟩)
    | other => other
  | arithmetic .smulh .x9 _ _ => some .product
  | _ => last

namespace Target

/-- The last write of the index register, given the one before an instruction. -/
def indexAfter : (target : Target) → Option IndexWrite → target.Instruction → Option IndexWrite
  | x64 => X64.Instruction.indexAfter
  | a64 => A64.Instruction.indexAfter

/-- The last write of the index register after instructions. -/
def indexAfterAll (target : Target) (last : Option IndexWrite) (is : List target.Instruction) :
    Option IndexWrite := is.foldl target.indexAfter last

/-- The last write of the index register in code. -/
def lastIndexWrite (target : Target) (code : List UInt8) : Option IndexWrite :=
  target.indexAfterAll none (target.disassemble code)

/-- The last write in code that goes on is found from the last write before. -/
theorem lastIndexWrite_append (target : Target) (is js : List target.Instruction) :
    target.lastIndexWrite (target.bytes is ++ target.bytes js) =
      target.indexAfterAll (target.lastIndexWrite (target.bytes is)) js := by
  unfold lastIndexWrite indexAfterAll
  rw [← bytes_append, disassemble_bytes, disassemble_bytes, List.foldl_append]

end Target

/-! ## What the pieces write -/

/-- The two halves of a slot number make the slot number. -/
theorem A64.append_halves (slot : UInt32) :
    slot.toBitVec.extractLsb' 16 16 ++
      ((slot.toBitVec.extractLsb' 0 16).setWidth 32).extractLsb' 0 16 = slot.toBitVec := by
  refine BitVec.eq_of_getLsbD_eq fun i hi => ?_
  simp only [BitVec.getLsbD_append, BitVec.getLsbD_extractLsb', BitVec.getLsbD_setWidth]
  by_cases hlow : i < 16
  · simp [hlow, hi]
  · simp [hlow, show i - 16 < 16 by omega, show 16 + (i - 16) = i by omega]

/-- A fetch that is not elided loads its slot. -/
theorem Target.indexAfterAll_fetch (target : Target) (last : Option IndexWrite) (slot : UInt32) :
    target.indexAfterAll last (target.fetchPieces slot true).flatten = some (.load slot) := by
  cases target with
  | x64 => rfl
  | a64 => exact congrArg (fun w => some (IndexWrite.load ⟨w⟩)) (A64.append_halves slot)

/-- An elided fetch leaves the index register alone. -/
theorem Target.indexAfterAll_elided (target : Target) (last : Option IndexWrite) (slot : UInt32) :
    target.indexAfterAll last (target.fetchPieces slot false).flatten = last := by
  cases target <;> rfl

/-- Every operator but the multiplication leaves the index register alone. -/
theorem Target.indexAfterAll_operator (target : Target) (last : Option IndexWrite) {op : Operator}
    (h : op.clobbersIndex = false) :
    target.indexAfterAll last (target.operatorPieces op).flatten = last := by
  cases op with
  | mul => cases h
  | _ => cases target <;> rfl

/-- The last of the writes in instructions, or else the one before them. -/
theorem X64.foldl_indexAfter (last : Option IndexWrite) (is : List Instruction) :
    is.foldl Instruction.indexAfter last = (is.foldl Instruction.indexAfter none).or last := by
  induction is generalizing last with
  | nil => rfl
  | cons i is ih =>
    have hfirst : i.indexAfter last = (i.indexAfter none).or last := by cases i <;> rfl
    rw [List.foldl_cons, List.foldl_cons, ih, ih (i.indexAfter none), hfirst, Option.or_assoc]

/-- In front of a piece that is longer than a fetch nothing has been written; or the product has
been, and the piece is one byte longer. -/
theorem X64.indexAfter_front (op : Operator) (j : Fin (operator op).length) :
    pieceLength ((operator op).get j) ≤ Target.fetchSize .x64 ∨
      ((operator op).take j).flatten.foldl Instruction.indexAfter none = none ∨
      (((operator op).take j).flatten.foldl Instruction.indexAfter none = some .product ∧
        pieceLength ((operator op).get j) ≤ Target.fetchSize .x64 + 1) := by
  revert j
  cases op <;> decide

/-- Where an operator may be cut off: the piece that does not fit is no longer than a fetch, or the
index register has not been written, or it holds the product and the piece is a byte longer. -/
theorem Target.indexAfterAll_front (target : Target) {op : Operator}
    {front rest : List (List target.Instruction)} {piece : List target.Instruction}
    (h : target.operatorPieces op = front ++ piece :: rest) (last : Option IndexWrite) :
    (target.bytes piece).length ≤ target.fetchSize ∨
      target.indexAfterAll last front.flatten = last ∨
      (target = .x64 ∧ target.indexAfterAll last front.flatten = some .product ∧
        (target.bytes piece).length ≤ target.fetchSize + 1) := by
  cases target with
  | a64 =>
    have hword : ∀ op : Operator, ∀ piece ∈ A64.operator op,
        (A64.pieceBytes piece).length ≤ 16 := by
      intro op
      cases op <;> decide
    refine .inl (hword op piece ?_)
    change piece ∈ Target.operatorPieces .a64 op
    rw [h]
    exact List.mem_append_right _ List.mem_cons_self
  | x64 =>
    have hsplit : X64.operator op = front ++ piece :: rest := h
    have hj : front.length < (X64.operator op).length := by
      rw [hsplit, List.length_append, List.length_cons]
      omega
    have hcases := X64.indexAfter_front op ⟨front.length, hj⟩
    simp only [List.get_eq_getElem, hsplit, List.take_left,
      List.getElem_append_right (Nat.le_refl _), Nat.sub_self, List.getElem_cons_zero] at hcases
    have hfold : Target.indexAfterAll .x64 last front.flatten = _ :=
      X64.foldl_indexAfter last front.flatten
    rcases hcases with hshort | hnone | ⟨hproduct, hlong⟩
    · exact .inl hshort
    · rw [hnone, Option.none_or] at hfold
      exact .inr (.inl hfold)
    · rw [hproduct, Option.some_or] at hfold
      exact .inr (.inr ⟨rfl, hfold, hlong⟩)

/-! ## Calls -/

/-- What an emitter can be asked for. -/
inductive EmitterCall where
  | fetch (v : Int64)
  | operator (op : Operator)
  | tree (t : Tree)

namespace Emitter

/-- Answers a call. -/
def call (e : Emitter) : EmitterCall → Emitter × Option SizeMismatch
  | .fetch v => e.fetch v
  | .operator op => e.operator op
  | .tree t => e.tree t

/-- Answers calls in turn, and goes on after those that fail. -/
def callAll (e : Emitter) (calls : List EmitterCall) : Emitter :=
  calls.foldl (fun e c => (e.call c).1) e

/-- What every symbol keeps is kept by symbols in turn, whether or not they all fit. -/
theorem symbols_keeps {P : Emitter → Prop} (hkeeps : ∀ e s, P e → P (e.symbol s).1) {e : Emitter}
    (h : P e) (symbols : List Symbol) : P (e.symbols symbols).1 := by
  induction symbols generalizing e with
  | nil => exact h
  | cons s rest ih =>
    have hs := hkeeps e s h
    rw [Emitter.symbols]
    split
    · next next hnext =>
      rw [hnext] at hs
      exact ih hs
    · next next mismatch hnext =>
      rw [hnext] at hs
      exact hs

/-- What every symbol keeps is kept by any calls. -/
theorem callAll_keeps {P : Emitter → Prop} (hkeeps : ∀ e s, P e → P (e.symbol s).1) {e : Emitter}
    (h : P e) (calls : List EmitterCall) : P (e.callAll calls) := by
  induction calls generalizing e with
  | nil => exact h
  | cons c rest ih =>
    apply ih
    cases c with
    | fetch v => exact hkeeps e (.value v) h
    | operator op => exact hkeeps e (.operator op) h
    | tree t => exact symbols_keeps hkeeps h t.symbols

end Emitter

/-- A slot that is known was loaded by the last write of the index register; or no fetch fits any
more; or, on x86-64, the last write was a product, and exactly one fetch fits. -/
def IndexState.Justified (target : Target) (room : Nat) (last : Option IndexWrite)
    (index : IndexState) : Prop :=
  ∀ slot, index = .known slot →
    last = some (.load slot) ∨ room < target.fetchSize ∨
      (target = .x64 ∧ last = some .product ∧ room = target.fetchSize)

/-- What is justified with some room is justified with less. -/
theorem IndexState.Justified.mono {target : Target} {room less : Nat} {last : Option IndexWrite}
    {index : IndexState} (h : index.Justified target room last) (hle : less ≤ room) :
    index.Justified target less last := by
  intro slot hslot
  rcases h slot hslot with hload | hroom | ⟨hx64, hproduct, hroom⟩
  · exact .inl hload
  · exact .inr (.inl (Nat.lt_of_le_of_lt hle hroom))
  · rcases Nat.lt_or_eq_of_le (hroom ▸ hle) with hlt | heq
    · exact .inr (.inl hlt)
    · exact .inr (.inr ⟨hx64, hproduct, heq⟩)

namespace Emitter

/-- An emitter whose buffer holds whole instructions, with room up to a limit, and whose knowledge
of the index register is justified by them. -/
structure Sound (target : Target) (limit : Nat) (e : Emitter) : Prop where
  target_eq : e.target = target
  limit_eq : e.buffer.capacity - e.buffer.reserve = limit
  length_le : e.buffer.length ≤ limit
  limit_le : limit ≤ e.buffer.bytes.size
  assembled : ∃ is, e.buffer.written = target.bytes is
  justified : e.index.Justified target e.buffer.room (target.lastIndexWrite e.buffer.written)

variable {target : Target} {limit : Nat}

/-- Instructions that fit keep an emitter sound, if its new knowledge is justified by them. -/
theorem Sound.extend {e : Emitter} (h : e.Sound target limit) {js : List target.Instruction}
    (hfits : (target.bytes js).length ≤ e.buffer.room) (pool : ConstantPool) {index : IndexState}
    (hindex : index.Justified target (e.buffer.room - (target.bytes js).length)
      (target.indexAfterAll (target.lastIndexWrite e.buffer.written) js))
    (trace : Array Emission) :
    Sound target limit ⟨e.target, e.buffer.extend (target.bytes js), pool, index, trace⟩ := by
  have hlength : e.buffer.length + (target.bytes js).length ≤ limit := by
    have hroom : e.buffer.room = limit - e.buffer.length := by rw [← h.limit_eq]; rfl
    have hle := h.length_le
    omega
  have hwritten : (e.buffer.extend (target.bytes js)).written =
      e.buffer.written ++ target.bytes js :=
    e.buffer.written_extend _ (Nat.le_trans hlength h.limit_le)
  obtain ⟨is, his⟩ := h.assembled
  have hroom : (e.buffer.extend (target.bytes js)).room =
      e.buffer.room - (target.bytes js).length := Nat.sub_add_eq _ _ _
  refine ⟨h.target_eq, h.limit_eq, hlength, ?_, ⟨is ++ js, ?_⟩, ?_⟩
  · change limit ≤ (CodeBuffer.overwrite _ _ _).size
    rw [CodeBuffer.size_overwrite]
    exact h.limit_le
  · rw [hwritten, his, Target.bytes_append]
  · change index.Justified target (e.buffer.extend _).room _
    rw [hroom, hwritten, his, Target.lastIndexWrite_append, ← his]
    exact hindex

/-- A fetch keeps an emitter sound, whether or not it fits. -/
theorem Sound.fetch {e : Emitter} (h : e.Sound target limit) (v : Int64) :
    (e.fetch v).1.Sound target limit := by
  obtain ⟨target', buffer, pool, index, trace⟩ := e
  obtain rfl : target' = target := h.target_eq
  have hlimit : buffer.length ≤ buffer.capacity - buffer.reserve := h.limit_eq.symm ▸ h.length_le
  let slot := (pool.intern v).1
  let elided : Bool := index = .known slot
  have hlength := target'.length_fetch slot !elided
  rcases buffer.emitAll_cases (target'.fetch slot !elided) hlimit with
    ⟨hroom, hall⟩ | ⟨front, piece, rest, mismatch, hsplit, hfront, hpiece, hall⟩
  · simp only [Emitter.fetch, hall, slot, elided]
    rw [hlength] at hroom
    rw [target'.fetch_eq, ← target'.bytes_flatten] at hlength ⊢
    refine h.extend (by rw [hlength]; exact hroom) _ ?_ _
    rintro _ ⟨⟩
    rw [hlength]
    cases hindex : decide (index = .known slot) with
    | false => exact .inl (target'.indexAfterAll_fetch _ _)
    | true =>
      have hknown : index = .known slot := of_decide_eq_true hindex
      rw [Bool.not_true, target'.indexAfterAll_elided]
      rcases h.justified slot hknown with hload | hnone | ⟨-, -, hexact⟩
      · exact .inl hload
      · exact absurd hroom (Nat.not_le.2 hnone)
      · refine .inr (.inl ?_)
        change buffer.room - _ < _
        have hexact : buffer.room = target'.fetchSize := hexact
        have hpos : 0 < target'.fetchSize := by cases target' <;> decide
        omega
  · simp only [Emitter.fetch, hall, slot, elided]
    rw [hsplit, List.flatten_append, List.length_append, List.flatten_cons, List.length_append]
      at hlength
    rw [target'.fetch_eq] at hsplit
    obtain ⟨fronts, _, _, -, hfronts, -⟩ := target'.exists_split hsplit
    rw [hfronts] at hfront hpiece hlength ⊢
    refine h.extend hfront _ (fun _ _ => .inr (.inl ?_)) trace
    change buffer.room - _ < _
    omega

/-- An operator keeps an emitter sound, also when it is cut off. -/
theorem Sound.operator {e : Emitter} (h : e.Sound target limit) (op : Operator) :
    (e.operator op).1.Sound target limit := by
  obtain ⟨target', buffer, pool, index, trace⟩ := e
  obtain rfl : target' = target := h.target_eq
  have hlimit : buffer.length ≤ buffer.capacity - buffer.reserve := h.limit_eq.symm ▸ h.length_le
  rcases buffer.emitAll_cases (target'.operator op) hlimit with
    ⟨hroom, hall⟩ | ⟨front, piece, rest, mismatch, hsplit, hfront, hpiece, hall⟩
  · simp only [Emitter.operator, hall]
    rw [target'.operator_eq, ← target'.bytes_flatten] at hroom ⊢
    refine h.extend hroom pool ?_ _
    cases hclobbers : op.clobbersIndex with
    | true =>
      rintro _ ⟨⟩
    | false =>
      rw [target'.indexAfterAll_operator _ hclobbers]
      exact h.justified.mono (Nat.sub_le _ _)
  · simp only [Emitter.operator, hall]
    rw [target'.operator_eq] at hsplit
    obtain ⟨fronts, cut, rests, hpieces, hfronts, rfl⟩ := target'.exists_split hsplit
    rw [hfronts] at hfront hpiece ⊢
    refine h.extend hfront pool ?_ trace
    change IndexState.Justified _ (buffer.room - _) _ _
    rcases target'.indexAfterAll_front hpieces (target'.lastIndexWrite buffer.written) with
      hshort | hsame | ⟨hx64, hproduct, hlong⟩
    · exact fun _ _ => .inr (.inl (by omega))
    · rw [hsame]
      exact h.justified.mono (Nat.sub_le _ _)
    · rw [hproduct]
      intro slot _
      rcases Nat.lt_or_eq_of_le (show buffer.room - (target'.bytes fronts.flatten).length ≤
        target'.fetchSize by omega) with hlt | heq
      · exact .inr (.inl hlt)
      · exact .inr (.inr ⟨hx64, rfl, heq⟩)

/-- A symbol keeps an emitter sound, whether or not it fits. -/
theorem Sound.symbol {e : Emitter} (h : e.Sound target limit) (s : Symbol) :
    (e.symbol s).1.Sound target limit := by
  cases s with
  | value v => exact h.fetch v
  | operator op => exact h.operator op

/-- Symbols in turn keep an emitter sound, also when one of them does not fit. -/
theorem Sound.symbols {e : Emitter} (h : e.Sound target limit) (symbols : List Symbol) :
    (e.symbols symbols).1.Sound target limit :=
  symbols_keeps (fun _ s h => h.symbol s) h symbols

/-- All calls keep an emitter sound, whichever of them fail. -/
theorem Sound.callAll {e : Emitter} (h : e.Sound target limit) (calls : List EmitterCall) :
    (e.callAll calls).Sound target limit :=
  callAll_keeps (fun _ s h => h.symbol s) h calls

/-- An emitter starts out sound, since it knows nothing. -/
theorem sound_start {bytes : Array UInt8} {capacity : Nat} {buffer : CodeBuffer}
    (h : CodeBuffer.create bytes capacity target.epilogueSize = .ok buffer) :
    (start target buffer).Sound target (capacity - target.epilogueSize) := by
  obtain ⟨-, hsize, rfl⟩ := CodeBuffer.eq_of_create_eq_ok h
  refine ⟨rfl, rfl, Nat.zero_le _, ?_, ⟨[], rfl⟩, fun _ hknown => by cases hknown⟩
  change capacity - _ ≤ bytes.size
  omega

/-- Whatever an emitter has been called for before, and whether or not it fitted, a fetch that is
elided finds its slot loaded by the last write of the index register; or the code is for x86-64,
the last write is a product whose multiplication did not fit, and the fetch takes the last eight
bytes in front of the reserve. -/
theorem lastIndexWrite_of_elided {bytes : Array UInt8} {capacity : Nat} {buffer : CodeBuffer}
    (hcreate : CodeBuffer.create bytes capacity target.epilogueSize = .ok buffer)
    (calls : List EmitterCall) (symbols : List Symbol) {mid next : Emitter}
    (hmid : ((start target buffer).callAll calls).symbols symbols = (mid, none)) {v : Int64}
    {slot : UInt32} (hfetch : mid.fetch v = (next, none))
    (helided : next.trace = mid.trace.push (.fetch slot true)) :
    target.lastIndexWrite mid.buffer.written = some (.load slot) ∨
      (target = .x64 ∧ target.lastIndexWrite mid.buffer.written = some .product ∧
        next.buffer.length = capacity - target.epilogueSize) := by
  have hsound : mid.Sound target (capacity - target.epilogueSize) := by
    have h := ((sound_start hcreate).callAll calls).symbols symbols
    rwa [hmid] at h
  obtain ⟨target', buffer, pool, index, trace⟩ := mid
  obtain rfl : target' = target := hsound.target_eq
  have hlimit : buffer.length ≤ buffer.capacity - buffer.reserve :=
    hsound.limit_eq.symm ▸ hsound.length_le
  rcases buffer.emitAll_cases
      (target'.fetch (pool.intern v).1 !decide (index = .known (pool.intern v).1)) hlimit with
    ⟨hroom, hall⟩ | ⟨_, _, _, mismatch, -, -, -, hall⟩
  · simp only [Emitter.fetch, hall, Prod.mk.injEq, and_true] at hfetch
    subst hfetch
    rw [target'.length_fetch] at hroom
    obtain ⟨rfl, hdecide⟩ := Emission.fetch.inj (Array.back_eq_of_push_eq helided)
    have hindex : index = .known (pool.intern v).1 := of_decide_eq_true hdecide
    rcases hsound.justified _ hindex with hload | hnone | ⟨hx64, hproduct, hexact⟩
    · exact .inl hload
    · exact absurd hroom (Nat.not_le.2 hnone)
    · refine .inr ⟨hx64, hproduct, ?_⟩
      rw [← hsound.limit_eq]
      change buffer.length + _ = buffer.capacity - buffer.reserve
      rw [target'.length_fetch, ← show buffer.room = target'.fetchSize from hexact]
      exact Nat.add_sub_cancel' hlimit
  · simp only [Emitter.fetch, hall] at hfetch
    cases hfetch

/-- A pool that holds a one in its first slot, and nothing else. -/
def onlyOne : ConstantPool := ⟨#[1], (∅ : Std.HashMap Int64 UInt32).insert 1 0⟩

/-- The first constant gets slot 0. -/
theorem intern_one_empty : ConstantPool.empty.intern 1 = (0, onlyOne) := by
  simp [ConstantPool.empty, ConstantPool.intern, onlyOne]

/-- A constant that is there gets the slot that it has. -/
theorem intern_one_onlyOne : onlyOne.intern 1 = (0, onlyOne) := by
  simp [ConstantPool.intern, onlyOne]

/-- A fetch of the same constant again is elided. -/
theorem lastIndexWrite_of_fetch_twice :
    ∃ buffer mid next,
      CodeBuffer.create (Array.replicate 64 0) 64 (Target.epilogueSize .a64) = .ok buffer ∧
      (start .a64 buffer).callAll [.fetch 1] = mid ∧ mid.fetch 1 = (next, none) ∧
      next.trace = mid.trace.push (.fetch 0 true) ∧
      Target.lastIndexWrite .a64 mid.buffer.written = some (.load 0) := by
  let buffer : CodeBuffer := ⟨Array.replicate 64 0, 0, 64, 8⟩
  let loaded := buffer.extend (Target.fetch .a64 0 true).flatten
  let elided := loaded.extend (Target.fetch .a64 0 false).flatten
  have hloaded : buffer.emitAll (Target.fetch .a64 0 true) = (loaded, none) :=
    buffer.emitAll_of_le _ (by decide)
  have helided : loaded.emitAll (Target.fetch .a64 0 false) = (elided, none) :=
    loaded.emitAll_of_le _ (by decide)
  let mid : Emitter := ⟨.a64, loaded, onlyOne, .known 0, #[.fetch 0 false]⟩
  let next : Emitter := ⟨.a64, elided, onlyOne, .known 0, mid.trace.push (.fetch 0 true)⟩
  have hmid : (start .a64 buffer).callAll [.fetch 1] = mid := by
    simp [callAll, call, start, fetch, intern_one_empty, hloaded, mid]
  have hnext : mid.fetch 1 = (next, none) := by
    simp [mid, next, fetch, intern_one_onlyOne, helided]
  have hcreate : CodeBuffer.create (Array.replicate 64 0) 64 (Target.epilogueSize .a64) =
      .ok buffer := rfl
  have hwrite := lastIndexWrite_of_elided hcreate [.fetch 1] [] (congrArg (·, none) hmid) hnext rfl
  refine ⟨buffer, mid, next, hcreate, hmid, hnext, rfl, hwrite.resolve_right ?_⟩
  rintro ⟨htarget, -⟩
  cases htarget

/-- In a buffer of 32 bytes on x86-64 the no-ops of a product no longer fit behind two fetches of
one.  The next fetch of one does, and is elided although the product was written last. -/
theorem exists_elided_after_product :
    ∃ buffer mid next,
      CodeBuffer.create (Array.replicate 40 0) 32 (Target.epilogueSize .x64) = .ok buffer ∧
      (start .x64 buffer).callAll [.fetch 1, .fetch 1, .operator .mul] = mid ∧
      mid.fetch 1 = (next, none) ∧ next.trace = mid.trace.push (.fetch 0 true) ∧
      Target.lastIndexWrite .x64 mid.buffer.written = some .product := by
  let buffer : CodeBuffer := ⟨Array.replicate 40 0, 0, 32, 2⟩
  let loaded := buffer.extend (Target.fetch .x64 0 true).flatten
  let elided := loaded.extend (Target.fetch .x64 0 false).flatten
  let cut := elided.extend ((Target.operator .x64 .mul).take 3).flatten
  let last := cut.extend (Target.fetch .x64 0 false).flatten
  have hloaded : buffer.emitAll (Target.fetch .x64 0 true) = (loaded, none) :=
    buffer.emitAll_of_le _ (by decide)
  have helided : loaded.emitAll (Target.fetch .x64 0 false) = (elided, none) :=
    loaded.emitAll_of_le _ (by decide)
  have hcut : elided.emitAll (Target.operator .x64 .mul) = (cut, some ⟨31, 30⟩) :=
    elided.emitAll_append_of_lt ((Target.operator .x64 .mul).take 3) _ _ (by decide) (by decide)
  have hlast : cut.emitAll (Target.fetch .x64 0 false) = (last, none) :=
    cut.emitAll_of_le _ (by decide)
  let mid : Emitter := ⟨.x64, cut, onlyOne, .known 0, #[.fetch 0 false, .fetch 0 true]⟩
  let next : Emitter := ⟨.x64, last, onlyOne, .known 0, mid.trace.push (.fetch 0 true)⟩
  have hmid : (start .x64 buffer).callAll [.fetch 1, .fetch 1, .operator .mul] = mid := by
    simp [callAll, call, start, fetch, operator, intern_one_empty, intern_one_onlyOne, hloaded,
      helided, hcut, mid]
  have hnext : mid.fetch 1 = (next, none) := by
    simp [mid, next, fetch, intern_one_onlyOne, hlast]
  have hwritten : mid.buffer.written = Target.bytes .x64
      [.loadIndex 0, .pushConstant, .nop 4, .pushConstant, .pop .rcx, .pop .rax, .imul .rcx,
        .push .rax] := by
    simp only [mid, cut, elided, loaded, CodeBuffer.extend_append]
    exact buffer.written_extend _ (by decide)
  refine ⟨buffer, mid, next, rfl, hmid, hnext, rfl, ?_⟩
  rw [hwritten, Target.lastIndexWrite, Target.disassemble_bytes]
  rfl

end Emitter

end Reckoner
