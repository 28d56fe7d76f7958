import Reckoner.Proofs.Emitter.IndexTrust
import Reckoner.Proofs.Emission

/-!
# What a call leaves behind for which there is no room

Whether the code of a symbol fits can be told from its length, before anything is written.  The
emitter does not look ahead: it writes the pieces of the code up to the first one that does not
fit, and ends there.  What is left behind is a start of the code and the constant in its slot; the
record and the trust in the index register come after the last piece, so they are not touched.

The reserve is out of reach of all this, which is why code can be ended after any failure.
-/

set_option autoImplicit false

namespace Reckoner

/-- Of pieces that do not fit together a start is appended, and some of them is missing. -/
theorem CodeBuffer.emitAll_of_lt (b : CodeBuffer) (pieces : List (List UInt8))
    (hlength : b.length ≤ b.capacity - b.reserve)
    (h : b.capacity - b.reserve < b.length + pieces.flatten.length) :
    ∃ front missing mismatch, front ++ missing = pieces.flatten ∧ missing ≠ [] ∧
      b.length + front.length ≤ b.capacity - b.reserve ∧
      b.emitAll pieces = (b.extend front, some mismatch) := by
  rcases b.emitAll_cases pieces hlength with
    ⟨hroom, -⟩ | ⟨front, piece, rest, mismatch, rfl, hfront, hpiece, hall⟩
  · unfold room at hroom
    omega
  · unfold room at hfront hpiece
    refine ⟨front.flatten, piece ++ rest.flatten, mismatch, by simp, ?_, by omega, hall⟩
    intro hmissing
    have hnil : piece = [] := (List.append_eq_nil_iff.1 hmissing).1
    rw [hnil, List.length_nil] at hpiece
    omega

namespace Emitter

/-- The code that a symbol gets if there is room for it. -/
def codeFor (e : Emitter) (s : Symbol) : List UInt8 := (e.knowledge.emission s).code e.target

/-- The code of a symbol has the size that is predicted for the symbol. -/
theorem length_codeFor (e : Emitter) (s : Symbol) :
    (e.codeFor s).length = s.codeSize e.target :=
  Knowledge.length_code_emission e.target e.knowledge s

/-- The code does not depend on the buffer. -/
theorem buffer_symbol_of_le (roomy : Emitter) (s : Symbol)
    (h : roomy.buffer.length + s.codeSize roomy.target ≤
      roomy.buffer.capacity - roomy.buffer.reserve) :
    (roomy.symbol s).1.buffer = roomy.buffer.extend (roomy.codeFor s) := by
  rw [roomy.symbol_of_le s h, codeFor, ← Knowledge.code_singleton]
  rfl

/-- What is left of a symbol without room: a start of its code, and its constant. -/
structure Residue (e : Emitter) (s : Symbol) (after : Emitter) : Prop where
  index_eq : after.index = e.index
  trace_eq : after.trace = e.trace
  pool_eq : after.pool =
    match s with
    | .value v => (e.pool.intern v).2
    | .operator _ => e.pool
  written_eq : ∃ front missing, front ++ missing = e.codeFor s ∧ missing ≠ [] ∧
    after.buffer.length = e.buffer.length + front.length ∧
    after.buffer.written = e.buffer.written ++ front

/-- A symbol without room leaves a start of its code. -/
theorem symbol_of_lt (e : Emitter) (s : Symbol)
    (hlength : e.buffer.length ≤ e.buffer.capacity - e.buffer.reserve)
    (h : e.buffer.capacity - e.buffer.reserve < e.buffer.length + s.codeSize e.target) :
    ∃ front missing mismatch, front ++ missing = e.codeFor s ∧ missing ≠ [] ∧
      e.buffer.length + front.length ≤ e.buffer.capacity - e.buffer.reserve ∧
      e.symbol s =
        ({ e with
            buffer := e.buffer.extend front
            pool := (e.knowledge.after s).pool }, some mismatch) := by
  rw [← length_codeFor] at h
  obtain ⟨target, buffer, pool, index, trace⟩ := e
  cases s with
  | value v =>
    obtain ⟨front, missing, mismatch, hsplit, hmissing, hfront, hall⟩ :=
      buffer.emitAll_of_lt (target.fetch (pool.intern v).1 !decide (index = .known (pool.intern v).1))
        hlength h
    refine ⟨front, missing, mismatch, hsplit, hmissing, hfront, ?_⟩
    simp [symbol, fetch, hall, knowledge, Knowledge.after]
  | operator op =>
    obtain ⟨front, missing, mismatch, hsplit, hmissing, hfront, hall⟩ :=
      buffer.emitAll_of_lt (target.operator op) hlength h
    refine ⟨front, missing, mismatch, hsplit, hmissing, hfront, ?_⟩
    simp [symbol, operator, hall, knowledge, Knowledge.after]

/-- An emitter whose code ends in front of the reserve of its buffer. -/
structure Within (target : Target) (capacity : Nat) (e : Emitter) : Prop where
  target_eq : e.target = target
  capacity_eq : e.buffer.capacity = capacity
  reserve_eq : e.buffer.reserve = target.epilogueSize
  length_le : e.buffer.length + target.epilogueSize ≤ capacity
  capacity_le : capacity ≤ e.buffer.bytes.size

variable {target : Target} {capacity : Nat}

namespace Within

/-- Code that fits in front of the reserve keeps an emitter within its buffer. -/
theorem extend {e : Emitter} (h : e.Within target capacity) {code : List UInt8}
    (hfits : e.buffer.length + code.length ≤ e.buffer.capacity - e.buffer.reserve)
    (pool : ConstantPool) (index : IndexState) (trace : Array Emission) :
    Within target capacity ⟨e.target, e.buffer.extend code, pool, index, trace⟩ := by
  have hlength := h.length_le
  rw [h.capacity_eq, h.reserve_eq] at hfits
  refine ⟨h.target_eq, h.capacity_eq, h.reserve_eq, ?_, ?_⟩
  · change e.buffer.length + code.length + target.epilogueSize ≤ capacity
    omega
  · change capacity ≤ (CodeBuffer.overwrite _ _ _).size
    rw [CodeBuffer.size_overwrite]
    exact h.capacity_le

/-- A symbol is emitted as a whole when there is room for it, and leaves its residue when not. -/
theorem symbol_cases {e : Emitter} (h : e.Within target capacity) (s : Symbol) :
    (e.buffer.length + s.codeSize target ≤ capacity - target.epilogueSize ∧
      e.symbol s = (e.accept [s], none) ∧ (e.accept [s]).Within target capacity) ∨
    (capacity - target.epilogueSize < e.buffer.length + s.codeSize target ∧
      ∃ after mismatch, e.symbol s = (after, some mismatch) ∧ after.Within target capacity ∧
        e.Residue s after) := by
  have hlimit : e.buffer.capacity - e.buffer.reserve = capacity - target.epilogueSize := by
    rw [h.capacity_eq, h.reserve_eq]
  have hcode : s.codeSize target = s.codeSize e.target := by rw [h.target_eq]
  have hlength := h.length_le
  have hsize := h.capacity_le
  rw [← hlimit, hcode]
  rcases Nat.lt_or_ge (e.buffer.capacity - e.buffer.reserve)
    (e.buffer.length + s.codeSize e.target) with hlong | hfits
  · obtain ⟨front, missing, mismatch, hsplit, hmissing, hfront, hsymbol⟩ :=
      e.symbol_of_lt s (by omega) hlong
    refine .inr ⟨hlong, _, mismatch, hsymbol, ?_, ?_⟩
    · exact h.extend hfront _ _ _
    · refine ⟨rfl, rfl, ?_, front, missing, hsplit, hmissing, rfl, ?_⟩
      · cases s <;> rfl
      · exact e.buffer.written_extend front (by omega)
  · refine .inl ⟨hfits, e.symbol_of_le s hfits, ?_⟩
    apply h.extend
    rw [Knowledge.code_singleton, Knowledge.length_code_emission]
    exact hfits

/-- A symbol keeps an emitter within its buffer, whether or not it fits. -/
theorem symbol {e : Emitter} (h : e.Within target capacity) (s : Symbol) :
    (e.symbol s).1.Within target capacity := by
  obtain ⟨-, hsymbol, hwithin⟩ | ⟨-, after, mismatch, hsymbol, hwithin, -⟩ := h.symbol_cases s
  · rw [hsymbol]
    exact hwithin
  · rw [hsymbol]
    exact hwithin

/-- A symbol fails just when its code would run into the reserve. -/
theorem symbol_ne_none_iff {e : Emitter} (h : e.Within target capacity) (s : Symbol) :
    (e.symbol s).2 ≠ none ↔
      capacity - target.epilogueSize < e.buffer.length + s.codeSize target := by
  obtain ⟨hfits, hsymbol, -⟩ | ⟨hlong, after, mismatch, hsymbol, -⟩ := h.symbol_cases s
  · rw [hsymbol]
    exact iff_of_false (fun h => h rfl) (Nat.not_lt.2 hfits)
  · rw [hsymbol]
    exact iff_of_true (Option.some_ne_none _) hlong

/-- A symbol that is emitted takes the bytes of its code. -/
theorem length_symbol {e : Emitter} (h : e.Within target capacity) {s : Symbol}
    (hnone : (e.symbol s).2 = none) :
    (e.symbol s).1.buffer.length = e.buffer.length + s.codeSize target := by
  have hfits : e.buffer.length + s.codeSize target ≤ capacity - target.epilogueSize := by
    rw [← Nat.not_lt, ← h.symbol_ne_none_iff s]
    exact not_not_intro hnone
  rw [← h.capacity_eq, ← h.reserve_eq, ← h.target_eq] at hfits
  rw [e.buffer_symbol_of_le s hfits, CodeBuffer.length_extend, length_codeFor, h.target_eq]

/-- A symbol that fails leaves its residue. -/
theorem residue_symbol {e : Emitter} (h : e.Within target capacity) {s : Symbol}
    (hfails : (e.symbol s).2 ≠ none) : e.Residue s (e.symbol s).1 := by
  obtain ⟨-, hsymbol, -⟩ | ⟨-, after, mismatch, hsymbol, -, hresidue⟩ := h.symbol_cases s
  · rw [hsymbol] at hfails
    exact absurd rfl hfails
  · rw [hsymbol]
    exact hresidue

/-- Symbols are all emitted, or those in front of the first one that leaves its residue. -/
theorem symbols_cases {e : Emitter} (h : e.Within target capacity) (symbols : List Symbol) :
    e.symbols symbols = (e.accept symbols, none) ∨
    ∃ front s rest after mismatch, symbols = front ++ s :: rest ∧
      e.symbols front = (e.accept front, none) ∧
      (e.accept front).symbol s = (after, some mismatch) ∧
      e.symbols symbols = (after, some mismatch) ∧ (e.accept front).Residue s after := by
  induction symbols generalizing e with
  | nil => exact .inl (by rw [accept_nil, Emitter.symbols])
  | cons s rest ih =>
    obtain ⟨-, hsymbol, hwithin⟩ | ⟨-, after, mismatch, hsymbol, -, hresidue⟩ := h.symbol_cases s
    · have hcons : ∀ more, e.symbols (s :: more) = (e.accept [s]).symbols more := by
        intro more
        rw [Emitter.symbols, hsymbol]
      have haccept : ∀ more, (e.accept [s]).accept more = e.accept (s :: more) :=
        e.accept_append [s]
      obtain hall | ⟨front, last, behind, after, mismatch, rfl, hfront, hlast, hall, hresidue⟩ :=
        ih hwithin
      · exact .inl (by rw [hcons, hall, haccept])
      · rw [haccept] at hfront hlast hresidue
        refine .inr ⟨s :: front, last, behind, after, mismatch, rfl, ?_, hlast, ?_, hresidue⟩
        · rw [hcons, hfront]
        · rw [hcons, hall]
    · refine .inr ⟨[], s, rest, after, mismatch, rfl, ?_, ?_, ?_, ?_⟩
      · rw [accept_nil, Emitter.symbols]
      · rw [accept_nil, hsymbol]
      · rw [Emitter.symbols, hsymbol]
      · rw [accept_nil]
        exact hresidue

/-- A tree is emitted as a whole, or up to the first symbol that leaves its residue. -/
theorem tree_cases {e : Emitter} (h : e.Within target capacity) (t : Tree) :
    e.tree t = (e.accept t.symbols, none) ∨
    ∃ front s rest mid, t.symbols = front ++ s :: rest ∧ e.symbols front = (mid, none) ∧
      mid = e.accept front ∧ (mid.symbol s).2 ≠ none ∧ e.tree t = mid.symbol s ∧
      mid.Residue s (e.tree t).1 := by
  obtain hall | ⟨front, s, rest, after, mismatch, hsplit, hfront, hlast, hall, hresidue⟩ :=
    h.symbols_cases t.symbols
  · exact .inl hall
  · refine .inr ⟨front, s, rest, e.accept front, hsplit, hfront, rfl, ?_, ?_, ?_⟩
    · rw [hlast]
      exact Option.some_ne_none _
    · rw [hlast]
      exact hall
    · rw [tree, hall]
      exact hresidue

/-- The reserve has room for the end of the code. -/
theorem finish_eq_ok {e : Emitter} (h : e.Within target capacity) :
    ∃ emitted, e.finish = .ok emitted ∧
      emitted.buffer.length = e.buffer.length + target.epilogueSize ∧
      emitted.buffer.length ≤ capacity := by
  have hlength := h.length_le
  refine ⟨_, e.finish_of_le ?_, ?_, ?_⟩
  · rw [h.target_eq, h.capacity_eq]
    exact hlength
  · rw [CodeBuffer.length_extend, h.target_eq, target.length_epilogue]
  · rw [CodeBuffer.length_extend, h.target_eq, target.length_epilogue]
    exact hlength

end Within

/-- An emitter starts out within its buffer. -/
theorem within_start {bytes : Array UInt8} {buffer : CodeBuffer}
    (h : CodeBuffer.create bytes capacity target.epilogueSize = .ok buffer) :
    (start target buffer).Within target capacity := by
  obtain ⟨hreserve, hsize, rfl⟩ := CodeBuffer.eq_of_create_eq_ok h
  refine ⟨rfl, rfl, rfl, ?_, hsize⟩
  exact (Nat.zero_add _).trans_le hreserve

/-- Whatever an emitter has been called for before, the next number or operator is refused exactly
when its code does not fit in front of the reserve, and then leaves only its residue, which is part
of the code that it gets wherever there is room; a tree is emitted up to the first symbol that is
refused; and the code can be ended. -/
theorem call_leaves {bytes : Array UInt8} {buffer : CodeBuffer}
    (hcreate : CodeBuffer.create bytes capacity target.epilogueSize = .ok buffer)
    (calls : List EmitterCall) {e : Emitter} (he : (start target buffer).callAll calls = e) :
    (∀ s : Symbol,
      ((e.symbol s).2 ≠ none ↔
        capacity - target.epilogueSize < e.buffer.length + s.codeSize target) ∧
      ((e.symbol s).2 = none →
        (e.symbol s).1.buffer.length = e.buffer.length + s.codeSize target) ∧
      ((e.symbol s).2 ≠ none → e.Residue s (e.symbol s).1) ∧
      ∀ roomy : Emitter, roomy.target = target → roomy.knowledge = e.knowledge →
        roomy.buffer.length + s.codeSize target ≤ roomy.buffer.capacity - roomy.buffer.reserve →
        (roomy.symbol s).2 = none ∧
          (roomy.symbol s).1.buffer = roomy.buffer.extend (e.codeFor s)) ∧
    (∀ t : Tree,
      e.tree t = (e.accept t.symbols, none) ∨
      ∃ front s rest mid, t.symbols = front ++ s :: rest ∧ e.symbols front = (mid, none) ∧
        mid = e.accept front ∧ (mid.symbol s).2 ≠ none ∧ e.tree t = mid.symbol s ∧
        mid.Residue s (e.tree t).1) ∧
    ∃ emitted, e.finish = .ok emitted ∧
      emitted.buffer.length = e.buffer.length + target.epilogueSize ∧
      emitted.buffer.length ≤ capacity := by
  have hwithin : e.Within target capacity := by
    rw [← he]
    exact callAll_keeps (fun _ s h => h.symbol s) (within_start hcreate) calls
  refine ⟨?_, hwithin.tree_cases, hwithin.finish_eq_ok⟩
  intro s
  refine ⟨hwithin.symbol_ne_none_iff s, hwithin.length_symbol, hwithin.residue_symbol, ?_⟩
  intro roomy hroomy hknowledge hfits
  rw [← hroomy] at hfits
  have hcode : e.codeFor s = roomy.codeFor s := by
    rw [codeFor, codeFor, hknowledge, hwithin.target_eq, hroomy]
  rw [hcode, roomy.buffer_symbol_of_le s hfits, roomy.symbol_of_le s hfits]
  exact ⟨rfl, rfl⟩

/-- With room for two fetches on x86-64, a sum behind the first one is cut off, and the second one
still fits. -/
theorem call_leaves_part_of_sum :
    ∃ buffer e, CodeBuffer.create (Array.replicate 20 0) 18 (Target.epilogueSize .x64) = .ok buffer ∧
      (start .x64 buffer).callAll [.fetch 7] = e ∧ e.buffer.length = 8 ∧
      (e.operator .add).2 ≠ none ∧ e.Residue (.operator .add) (e.operator .add).1 ∧
      (e.fetch 7).2 = none ∧ (e.fetch 7).1.buffer.length = 16 ∧
      ∃ emitted, e.finish = .ok emitted ∧ emitted.buffer.length = 10 ∧
        emitted.buffer.length ≤ 18 := by
  let buffer : CodeBuffer := ⟨Array.replicate 20 0, 0, 18, 2⟩
  have hcreate : CodeBuffer.create (Array.replicate 20 0) 18 (Target.epilogueSize .x64) =
      .ok buffer := rfl
  obtain ⟨hstart, -, -⟩ := call_leaves hcreate [] rfl
  obtain ⟨hfails, hlength, -, -⟩ := hstart (.value 7)
  have hfirst : ((start .x64 buffer).symbol (.value 7)).2 = none := by
    apply Decidable.not_not.1
    intro hcut
    exact absurd (hfails.1 hcut) (by decide)
  obtain ⟨e, he⟩ : ∃ e, (start .x64 buffer).callAll [.fetch 7] = e := ⟨_, rfl⟩
  have hone : (start .x64 buffer).callAll [.fetch 7] =
      ((start .x64 buffer).symbol (.value 7)).1 := rfl
  have height : e.buffer.length = 8 := by
    rw [← he, hone]
    exact hlength hfirst
  obtain ⟨hsymbol, -, emitted, hemitted, hended, hcapacity⟩ := call_leaves hcreate _ he
  obtain ⟨hsum, -, hresidue, -⟩ := hsymbol (.operator .add)
  have hcut : (e.symbol (.operator .add)).2 ≠ none := by
    apply hsum.2
    rw [height]
    decide
  obtain ⟨hsecond, hsixteen, -, -⟩ := hsymbol (.value 7)
  have hfits : (e.symbol (.value 7)).2 = none := by
    apply Decidable.not_not.1
    intro hcut
    have hlong := hsecond.1 hcut
    rw [height] at hlong
    exact absurd hlong (by decide)
  rw [height] at hsixteen hended
  exact ⟨buffer, e, hcreate, he, height, hcut, hresidue hcut, hfits, hsixteen hfits, emitted,
    hemitted, hended, hcapacity⟩

end Emitter

end Reckoner
