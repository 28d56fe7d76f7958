import Mathlib.Data.List.Induction
import Reckoner.Proofs.Program.Trace

/-!
# Which loads are elided

From a fetch on, the emitter knows the slot in the index register, until a multiplication or the
next fetch.  A load is elided when the slot that is known is the one to be loaded.  Slots stand for
constants here: a constant that has been fetched keeps its slot, and as long as slot numbers fit 32
bits no other constant gets it.  So what is known of the register comes down to the constant that
was fetched last (`Knowledge.Holds`), and that depends on the symbols alone.

For a tree the symbols are its post-order, in which neighbouring leaves are separated by operators
only.  The elided loads are therefore the neighbours that are equal with no multiplication between
them.
-/

set_option autoImplicit false

namespace Reckoner

namespace Symbol

/-! ## The constant fetched last -/

/-- Operators, none of them a multiplication. -/
def KeepIndex (symbols : List Symbol) : Prop :=
  ∀ s ∈ symbols, ∃ op, s = .operator op ∧ op ≠ .mul

/-- The last fetch was of `v`, and nothing after it was a multiplication. -/
def FetchedLast (v : Int64) (symbols : List Symbol) : Prop :=
  ∃ front since, symbols = front ++ .value v :: since ∧ KeepIndex since

/-- Before the first symbol no value has been fetched. -/
theorem not_fetchedLast_nil (v : Int64) : ¬FetchedLast v [] := by
  rintro ⟨front, since, h, -⟩
  exact List.append_ne_nil_of_right_ne_nil front (List.cons_ne_nil _ _) h.symm

/-- A value stays the last one fetched through every operator but the multiplication. -/
theorem fetchedLast_append_singleton (v : Int64) (symbols : List Symbol) (s : Symbol) :
    FetchedLast v (symbols ++ [s]) ↔
      s = .value v ∨ (∃ op, s = .operator op ∧ op ≠ .mul) ∧ FetchedLast v symbols := by
  constructor
  · rintro ⟨front, since, h, hkeep⟩
    rcases List.eq_nil_or_concat' since with rfl | ⟨rest, last, rfl⟩
    · exact .inl (List.append_singleton_inj.1 h).2
    · rw [← List.cons_append, ← List.append_assoc, List.append_singleton_inj] at h
      obtain ⟨rfl, rfl⟩ := h
      obtain ⟨hrest, hlast⟩ := List.forall_mem_append.1 hkeep
      exact .inr ⟨hlast s List.mem_cons_self, front, rest, rfl, hrest⟩
  · rintro (rfl | ⟨hs, front, since, rfl, hkeep⟩)
    · exact ⟨symbols, [], rfl, fun _ h => absurd h List.not_mem_nil⟩
    · refine ⟨front, since ++ [s], by rw [List.append_assoc, List.cons_append], ?_⟩
      exact List.forall_mem_append.2 ⟨hkeep, List.forall_mem_singleton.2 hs⟩

/-- The constant in the slot that the index register is known to hold, after a symbol. -/
def heldAfter (held : Option Int64) : Symbol → Option Int64
  | .value v => some v
  | .operator op => if op = .mul then none else held

/-- The constant that is held is the one fetched last, so that the condition can be computed. -/
theorem foldl_heldAfter_eq_some_iff (symbols : List Symbol) (v : Int64) :
    symbols.foldl heldAfter none = some v ↔ FetchedLast v symbols := by
  induction symbols using List.reverseRecOn with
  | nil => exact iff_of_false nofun (not_fetchedLast_nil v)
  | append_singleton symbols s ih =>
    rw [List.foldl_append, fetchedLast_append_singleton, ← ih]
    cases s with
    | value w => simp [heldAfter]
    | operator op => by_cases hop : op = .mul <;> simp [heldAfter, hop]

instance (v : Int64) (symbols : List Symbol) : Decidable (FetchedLast v symbols) :=
  decidable_of_iff _ (foldl_heldAfter_eq_some_iff symbols v)

/-! ## Neighbours -/

/-- The operators between each value and the next, and after the last one. -/
def between (symbols : List Symbol) : List (List Symbol) :=
  (symbols.splitOnP fun s => s.value?.isSome).tail

/-- How many neighbouring values are equal, with no multiplication between the two. -/
def countRepeats (values : List Int64) (between : List (List Symbol)) : Nat :=
  ((values.zip values.tail).zip between).countP
    fun ((v, w), operators) => v = w ∧ .operator .mul ∉ operators

/-- How many values are equal to the one before, with no multiplication between the two. -/
def repeats (symbols : List Symbol) : Nat :=
  countRepeats (symbols.filterMap value?) (between symbols)

/-- Without symbols nothing is repeated. -/
@[simp] theorem repeats_nil : repeats [] = 0 := rfl

/-- One symbol repeats nothing. -/
@[simp] theorem repeats_singleton (s : Symbol) : repeats [s] = 0 := by cases s <;> rfl

/-- An operator before the first value does not matter. -/
theorem repeats_operator (op : Operator) (symbols : List Symbol) :
    repeats (.operator op :: symbols) = repeats symbols := by
  simp [repeats, between, List.filterMap_cons, List.splitOnP_cons_eq_if_modifyHead]

/-- A value repeats its neighbour just when the two are equal. -/
theorem repeats_value_value (v w : Int64) (symbols : List Symbol) :
    repeats (.value v :: .value w :: symbols) =
      repeats (.value w :: symbols) + if v = w then 1 else 0 := by
  simp [repeats, between, countRepeats, List.splitOnP_cons_eq_if_modifyHead, List.countP_cons]

/-- A multiplication hides the value before it, and no other operator does. -/
theorem repeats_value_operator (v : Int64) (op : Operator) (symbols : List Symbol) :
    repeats (.value v :: .operator op :: symbols) =
      if op = .mul then repeats symbols else repeats (.value v :: symbols) := by
  obtain ⟨first, rest, hsplit⟩ :=
    List.exists_cons_of_ne_nil (List.splitOnP_ne_nil (fun s => s.value?.isSome) symbols)
  unfold repeats between countRepeats
  cases hvalues : symbols.filterMap value? with
  | nil => simp [hvalues, List.filterMap_cons]
  | cons w values =>
    by_cases hop : op = .mul <;>
      simp [hvalues, hsplit, hop, @eq_comm _ Operator.mul op, List.filterMap_cons,
        List.splitOnP_cons_eq_if_modifyHead, List.countP_cons]

end Symbol

/-- How many neighbouring leaves are equal, with no multiplication between the two in post-order. -/
def Expr.repeatedNeighbours (e : Expr) : Nat :=
  Symbol.countRepeats e.leaves (Symbol.between e.postOrder)

/-- Counting over the leaves of an expression is counting over its post-order. -/
theorem Expr.repeatedNeighbours_eq (e : Expr) :
    e.repeatedNeighbours = Symbol.repeats e.postOrder := by
  rw [repeatedNeighbours, Symbol.repeats, e.filterMap_value?_postOrder]

/-! ## What the slot in the index register stands for -/

namespace Knowledge

/-- Either nothing is known of the index register, or it holds the slot of a constant. -/
def Holds (k : Knowledge) : Option Int64 → Prop
  | none => k.index = .unknown
  | some v => ∃ slot, k.index = .known slot ∧ k.pool.slots[v]? = some slot

/-- A symbol keeps the description of the index register. -/
theorem Holds.after {k : Knowledge} {held : Option Int64} (h : k.Holds held) (s : Symbol) :
    (k.after s).Holds (s.heldAfter held) := by
  cases s with
  | value v => exact ⟨(k.pool.intern v).1, rfl, k.pool.getElem?_slots_intern v⟩
  | operator op =>
    cases op with
    | mul => rfl
    | add | sub | div | xor => exact h

/-- Symbols in turn keep the description of the index register. -/
theorem holds_afterAll (symbols : List Symbol) :
    (start.afterAll symbols).Holds (symbols.foldl Symbol.heldAfter none) := by
  induction symbols using List.reverseRecOn with
  | nil => rfl
  | append_singleton symbols s ih =>
    rw [afterAll_append, List.foldl_append]
    exact ih.after s

/-- The slot that is known is the one of a constant exactly when the constant is the one held. -/
theorem Holds.index_eq_known_iff {k : Knowledge} {held : Option Int64} (h : k.Holds held)
    (hconsistent : k.pool.Consistent) {v : Int64}
    (hroom : (k.after (.value v)).pool.size ≤ 2 ^ 32) :
    k.index = .known (k.pool.intern v).1 ↔ held = some v := by
  cases held with
  | none =>
    have hindex : k.index = .unknown := h
    rw [hindex]
    exact iff_of_false nofun nofun
  | some w =>
    obtain ⟨slot, hindex, hslot⟩ := h
    rw [hindex, Option.some.injEq]
    constructor
    · intro hknown
      have hsame : slot = (k.pool.intern v).1 := IndexState.known.inj hknown
      have hv := getElem?_slot hconsistent hroom
      have hw := ConstantPool.getElem?_of_values_prefix (k.values_prefix_afterAll [.value v])
        ((hconsistent w slot).1 hslot)
      rw [hsame] at hw
      exact Option.some.inj (hw.symm.trans hv)
    · rintro rfl
      rw [ConstantPool.intern_of_slots hslot]

/-- There are as many slots as distinct values. -/
theorem size_pool_afterAll_start (symbols : List Symbol) :
    (start.afterAll symbols).pool.size = (symbols.filterMap Symbol.value?).eraseDups.length := by
  rw [ConstantPool.size, ← Array.length_toList, toList_values_afterAll_start]

/-- A load is elided exactly when the last fetch was of the same value, with no multiplication
since. -/
theorem index_eq_known_iff_fetchedLast {xs ys : List Symbol} {v : Int64}
    (hroom : (start.afterAll (xs ++ .value v :: ys)).pool.size ≤ 2 ^ 32) :
    (start.afterAll xs).index = .known ((start.afterAll xs).pool.intern v).1 ↔
      Symbol.FetchedLast v xs := by
  rw [afterAll_append] at hroom
  have hfirst : ((start.afterAll xs).after (.value v)).pool.size ≤ 2 ^ 32 :=
    Nat.le_trans (((start.afterAll xs).after (.value v)).size_pool_le_afterAll ys) hroom
  have hconsistent := consistent_afterAll ConstantPool.consistent_empty xs
    (Nat.le_trans ((start.afterAll xs).size_pool_le_afterAll (.value v :: ys)) hroom)
  rw [(holds_afterAll xs).index_eq_known_iff hconsistent hfirst, Symbol.foldl_heldAfter_eq_some_iff]

/-- Operators that keep the index register leave what is known of it. -/
theorem index_afterAll_of_keepIndex (k : Knowledge) {symbols : List Symbol}
    (h : Symbol.KeepIndex symbols) : (k.afterAll symbols).index = k.index := by
  induction symbols generalizing k with
  | nil => rfl
  | cons s rest ih =>
    obtain ⟨hs, hrest⟩ := List.forall_mem_cons.1 h
    obtain ⟨op, rfl, hop⟩ := hs
    refine (ih (k.after (.operator op)) hrest).trans ?_
    cases op with
    | mul => exact absurd rfl hop
    | add | sub | div | xor => rfl

/-- The known slot is the one of the last fetch, with no multiplication since. -/
theorem index_afterAll_eq_known_iff (symbols : List Symbol) (slot : UInt32) :
    (start.afterAll symbols).index = .known slot ↔
      ∃ front v since, symbols = front ++ .value v :: since ∧ Symbol.KeepIndex since ∧
        ((start.afterAll front).pool.intern v).1 = slot := by
  have hlast : ∀ (front : List Symbol) (v : Int64) {since : List Symbol}, Symbol.KeepIndex since →
      (start.afterAll (front ++ .value v :: since)).index =
        .known ((start.afterAll front).pool.intern v).1 := by
    intro front v since hkeep
    rw [afterAll_append]
    exact index_afterAll_of_keepIndex _ hkeep
  constructor
  · intro hindex
    have hholds := holds_afterAll symbols
    cases hheld : symbols.foldl Symbol.heldAfter none with
    | none =>
      rw [hheld] at hholds
      cases hindex.symm.trans hholds
    | some v =>
      obtain ⟨front, since, rfl, hkeep⟩ := (Symbol.foldl_heldAfter_eq_some_iff symbols v).1 hheld
      rw [hlast front v hkeep] at hindex
      exact ⟨front, v, since, rfl, hkeep, IndexState.known.inj hindex⟩
  · rintro ⟨front, v, since, rfl, hkeep, rfl⟩
    exact hlast front v hkeep

/-- The slot is unknown just when no fetch has come since the last multiplication. -/
theorem index_afterAll_eq_unknown_iff (symbols : List Symbol) :
    (start.afterAll symbols).index = .unknown ↔ ¬∃ v, Symbol.FetchedLast v symbols := by
  have hholds := holds_afterAll symbols
  simp only [← Symbol.foldl_heldAfter_eq_some_iff]
  cases hheld : symbols.foldl Symbol.heldAfter none with
  | none =>
    rw [hheld] at hholds
    exact iff_of_true hholds nofun
  | some v =>
    rw [hheld] at hholds
    obtain ⟨slot, hindex, -⟩ := hholds
    rw [hindex]
    exact iff_of_false nofun fun h => h ⟨v, rfl⟩

/-! ## Exactly the repeated constants are elided -/

/-- With a constant held, the elided loads are the repeats behind a fetch of it. -/
theorem countP_isElided_emissions {k : Knowledge} {held : Option Int64} (h : k.Holds held)
    (hconsistent : k.pool.Consistent) (symbols : List Symbol)
    (hroom : (k.afterAll symbols).pool.size ≤ 2 ^ 32) :
    (k.emissions symbols).countP Emission.isElided =
      Symbol.repeats ((held.map Symbol.value).toList ++ symbols) := by
  induction symbols generalizing k held with
  | nil => cases held <;> simp [emissions]
  | cons s rest ih =>
    have hfirst : (k.after s).pool.size ≤ 2 ^ 32 :=
      Nat.le_trans ((k.after s).size_pool_le_afterAll rest) hroom
    rw [emissions, List.countP_cons,
      ih (h.after s) (consistent_afterAll hconsistent [s] hfirst) hroom]
    cases s with
    | value v =>
      have helided : (k.emission (.value v)).isElided = true ↔ held = some v :=
        decide_eq_true_iff.trans (h.index_eq_known_iff hconsistent hfirst)
      rw [if_congr helided rfl rfl]
      cases held with
      | none => rfl
      | some w => simp [Symbol.heldAfter, Symbol.repeats_value_value]
    | operator op =>
      cases held with
      | none => simp [Symbol.heldAfter, emission, Emission.isElided, Symbol.repeats_operator]
      | some w =>
        by_cases hop : op = .mul <;>
          simp [Symbol.heldAfter, hop, emission, Emission.isElided, Symbol.repeats_value_operator]

end Knowledge

/-- The elided loads of a compiled tree are its neighbouring leaves that are equal, with no
multiplication between the two. -/
theorem Program.elidedReloads_eq {target : Target} {t : Tree} {p : Program}
    (hcompile : compile target t = .ok p) : p.elidedReloads = t.toExpr.repeatedNeighbours := by
  have hstart : Knowledge.start.Holds none := rfl
  rw [t.toExpr.repeatedNeighbours_eq, ← t.symbols_eq, elidedReloads, ← Array.countP_toList,
    trace_eq hcompile]
  exact Knowledge.countP_isElided_emissions hstart ConstantPool.consistent_empty t.symbols
    (size_pool_le hcompile)

/-- In `5 ^ (5 - 5 * 5) ^ 5` there are five leaves and three repeats. -/
example : Expr.repeatedNeighbours
    (.binary .xor
      (.binary .xor (.leaf 5) (.binary .sub (.leaf 5) (.binary .mul (.leaf 5) (.leaf 5))))
      (.leaf 5)) = 3 := by decide

namespace Emitter

/-- A symbol that is emitted leaves its record. -/
theorem knowledge_of_symbol {e last : Emitter} {s : Symbol} (h : e.symbol s = (last, none)) :
    last.knowledge = e.knowledge.after s ∧ last.trace = e.trace.push (e.knowledge.emission s) := by
  obtain ⟨target, buffer, pool, index, trace⟩ := e
  cases s with
  | value v =>
    simp only [symbol, fetch] at h
    split at h
    · cases h
      exact ⟨rfl, rfl⟩
    · cases h
  | operator op =>
    simp only [symbol, operator] at h
    split at h
    · cases h
      exact ⟨rfl, rfl⟩
    · cases h

/-- Symbols that are all emitted leave their records. -/
theorem knowledge_of_symbols {e last : Emitter} {symbols : List Symbol}
    (h : e.symbols symbols = (last, none)) :
    last.knowledge = e.knowledge.afterAll symbols ∧
      last.trace.toList = e.trace.toList ++ e.knowledge.emissions symbols := by
  induction symbols generalizing e with
  | nil =>
    cases h
    exact ⟨rfl, (List.append_nil _).symm⟩
  | cons s rest ih =>
    rw [symbols] at h
    split at h
    · next next hnext =>
      obtain ⟨hknowledge, htrace⟩ := knowledge_of_symbol hnext
      obtain ⟨hlast, hrecords⟩ := ih h
      rw [hknowledge] at hlast hrecords
      rw [htrace, Array.toList_push, List.append_assoc] at hrecords
      exact ⟨hlast, hrecords⟩
    · cases h

variable {target : Target} {buffer : CodeBuffer} {symbols : List Symbol} {e : Emitter}

/-- The trace of an emitter that fits its symbols consists of their records. -/
theorem toList_trace (h : (start target buffer).symbols symbols = (e, none)) :
    e.trace.toList = Knowledge.start.emissions symbols := (knowledge_of_symbols h).2

/-- The record of a symbol stands in the trace at the place of the symbol. -/
theorem getElem?_trace (h : (start target buffer).symbols symbols = (e, none))
    {xs ys : List Symbol} {s : Symbol} (hsplit : symbols = xs ++ s :: ys) :
    e.trace[xs.length]? = some ((Knowledge.start.afterAll xs).emission s) := by
  rw [← Array.getElem?_toList, toList_trace h, hsplit, Knowledge.getElem?_emissions]

/-- A fetch is elided exactly when the last fetch was of the same value, with no multiplication
since. -/
theorem exists_record_of_fetch (h : (start target buffer).symbols symbols = (e, none))
    (hdistinct : (symbols.filterMap Symbol.value?).eraseDups.length ≤ 2 ^ 32) {xs ys : List Symbol}
    {v : Int64} (hsplit : symbols = xs ++ .value v :: ys) :
    ∃ slot elided, e.trace[xs.length]? = some (.fetch slot elided) ∧
      (elided = true ↔ Symbol.FetchedLast v xs) := by
  refine ⟨_, _, getElem?_trace h hsplit, ?_⟩
  rw [hsplit, ← Knowledge.size_pool_afterAll_start] at hdistinct
  exact decide_eq_true_iff.trans (Knowledge.index_eq_known_iff_fetchedLast hdistinct)

/-- After an operator the slot of the last fetch is known, if no multiplication has come since. -/
theorem exists_record_of_operator (h : (start target buffer).symbols symbols = (e, none))
    {xs ys : List Symbol} {op : Operator} (hsplit : symbols = xs ++ .operator op :: ys) :
    ∃ index, e.trace[xs.length]? = some (.operator op index) ∧
      (∀ slot, index = .known slot ↔
        ∃ (front : List Symbol) (v : Int64) (since : List Symbol) (elided : Bool),
          xs ++ [.operator op] = front ++ .value v :: since ∧ Symbol.KeepIndex since ∧
            e.trace[front.length]? = some (.fetch slot elided)) ∧
      (index = .unknown ↔ ¬∃ v, Symbol.FetchedLast v (xs ++ [.operator op])) := by
  have hafter : (Knowledge.start.afterAll xs).after (.operator op) =
      Knowledge.start.afterAll (xs ++ [.operator op]) := by
    rw [Knowledge.afterAll_append]
    rfl
  have hbefore : ∀ {front : List Symbol} {v : Int64} {since : List Symbol},
      xs ++ [.operator op] = front ++ .value v :: since → e.trace[front.length]? =
        some ((Knowledge.start.afterAll front).emission (.value v)) := by
    intro front v since hfront
    apply getElem?_trace h
    rw [hsplit, List.append_cons, hfront, List.append_assoc, List.cons_append]
  refine ⟨_, getElem?_trace h hsplit, fun slot => ?_, ?_⟩
  · rw [hafter, Knowledge.index_afterAll_eq_known_iff]
    constructor
    · rintro ⟨front, v, since, hfront, hkeep, rfl⟩
      exact ⟨front, v, since, _, hfront, hkeep, hbefore hfront⟩
    · rintro ⟨front, v, since, elided, hfront, hkeep, hrecord⟩
      rw [hbefore hfront] at hrecord
      cases hrecord
      exact ⟨front, v, since, hfront, hkeep, rfl⟩
  · rw [hafter]
    exact Knowledge.index_afterAll_eq_unknown_iff _

/-- The trace of a compiled tree is that of an emitter for which the buffer has had room. -/
theorem exists_tree_of_compile_eq_ok {t : Tree} {p : Program}
    (hcompile : Program.compile target t = .ok p) :
    ∃ buffer e, (start target buffer).tree t = (e, none) ∧ e.trace = p.trace := by
  obtain ⟨hp, hfits⟩ := Program.eq_ofTree_of_compile_eq_ok hcompile
  refine ⟨_, _, Program.tree_of_fits hfits (Regions.fill target.filler p.size.codeRegion) rfl, ?_⟩
  rw [hp]
  exact Array.empty_append

/-- Reload elision is exact.  A load is elided when, and only when, the last fetch was of the same
value and no multiplication has come since.  After an operator the emitter knows the slot of the
last fetch, if no multiplication has come since, and otherwise nothing.  So the loads that are
elided in the program of a tree are the neighbouring leaves that are equal with no multiplication
between them. -/
theorem elision_exact :
    (∀ (target : Target) (buffer : CodeBuffer) (symbols : List Symbol) (e : Emitter),
      (start target buffer).symbols symbols = (e, none) →
      (symbols.filterMap Symbol.value?).eraseDups.length ≤ 2 ^ 32 →
      e.trace.size = symbols.length ∧
      (∀ (xs : List Symbol) (v : Int64) (ys : List Symbol), symbols = xs ++ .value v :: ys →
        ∃ slot elided, e.trace[xs.length]? = some (.fetch slot elided) ∧
          (elided = true ↔ Symbol.FetchedLast v xs)) ∧
      ∀ (xs : List Symbol) (op : Operator) (ys : List Symbol), symbols = xs ++ .operator op :: ys →
        ∃ index, e.trace[xs.length]? = some (.operator op index) ∧
          (∀ slot, index = .known slot ↔
            ∃ (front : List Symbol) (v : Int64) (since : List Symbol) (elided : Bool),
              xs ++ [.operator op] = front ++ .value v :: since ∧ Symbol.KeepIndex since ∧
                e.trace[front.length]? = some (.fetch slot elided)) ∧
          (index = .unknown ↔ ¬∃ v, Symbol.FetchedLast v (xs ++ [.operator op]))) ∧
    ∀ (target : Target) (t : Tree) (p : Program), Program.compile target t = .ok p →
      t.toExpr.leaves.eraseDups.length ≤ 2 ^ 32 ∧
      (∃ buffer e, (start target buffer).tree t = (e, none) ∧ e.trace = p.trace) ∧
      p.elidedReloads = t.toExpr.repeatedNeighbours := by
  refine ⟨fun target buffer symbols e h hdistinct => ⟨?_, ?_, ?_⟩, fun target t p hcompile => ?_⟩
  · rw [← Array.length_toList, toList_trace h, Knowledge.length_emissions]
  · exact fun xs v ys hsplit => exists_record_of_fetch h hdistinct hsplit
  · exact fun xs op ys hsplit => exists_record_of_operator h hsplit
  · refine ⟨?_, exists_tree_of_compile_eq_ok hcompile, Program.elidedReloads_eq hcompile⟩
    rw [← t.toExpr.filterMap_value?_postOrder, ← t.symbols_eq, ← Knowledge.size_pool_afterAll_start]
    exact Program.size_pool_le hcompile

/-- In `1 * 1 + 1` the second load is elided and the third is not, because of the multiplication
before it. -/
theorem elision_exact_one_times_one_plus_one :
    ∃ t p, Tree.build? [.leaf 1, .leaf 1, .binary .mul 0 1, .leaf 1, .binary .add 2 3] 4 = some t ∧
      Program.compile .x64 t = .ok p ∧ p.elidedReloads = 1 ∧
      (∃ slot, p.trace[1]? = some (.fetch slot true)) ∧
      p.trace[2]? = some (.operator .mul .unknown) ∧
      ∃ slot, p.trace[3]? = some (.fetch slot false) ∧
        p.trace[4]? = some (.operator .add (.known slot)) := by
  have hfacts : (Tree.build? [.leaf 1, .leaf 1, .binary .mul 0 1, .leaf 1, .binary .add 2 3] 4).map
      (fun t => (t.arena.size, t.shape, t.toExpr)) =
      some (5, ⟨3, 2, 2⟩, .binary .add (.binary .mul (.leaf 1) (.leaf 1)) (.leaf 1)) := by
    decide +kernel
  obtain ⟨t, ht, hfacts⟩ := Option.map_eq_some_iff.1 hfacts
  simp only [Prod.mk.injEq] at hfacts
  obtain ⟨hsize, hshape, hexpr⟩ := hfacts
  have hbuilt : t.Built := ⟨⟨_, _, ht⟩, by omega⟩
  obtain ⟨p, hp⟩ := hbuilt.exists_compile_eq_ok .x64 (by rw [hshape]; decide)
  obtain ⟨hemitter, hprogram⟩ := elision_exact
  obtain ⟨hdistinct, ⟨buffer, e, he, htrace⟩, hreloads⟩ := hprogram .x64 t p hp
  have hsymbols : t.symbols = [.value 1, .value 1, .operator .mul, .value 1, .operator .add] := by
    rw [t.symbols_eq, hexpr]
    rfl
  rw [tree, hsymbols] at he
  obtain ⟨-, hfetch, hoperator⟩ := hemitter .x64 buffer _ e he (by decide)
  obtain ⟨slot, elided, hsecond, hiff⟩ := hfetch [.value 1] 1 _ rfl
  obtain ⟨third, loaded, hthird, hloaded⟩ := hfetch [.value 1, .value 1, .operator .mul] 1 _ rfl
  obtain ⟨index, hmul, -, hunknown⟩ := hoperator [.value 1, .value 1] .mul _ rfl
  obtain ⟨last, hadd, hknown, -⟩ :=
    hoperator [.value 1, .value 1, .operator .mul, .value 1] .add [] rfl
  have hone : elided = true := hiff.2 (by decide)
  have htwo : loaded = false := Bool.eq_false_iff.2 fun h => absurd (hloaded.1 h) (by decide)
  have hnone : index = .unknown := hunknown.2 fun ⟨v, hv⟩ =>
    nomatch (Symbol.foldl_heldAfter_eq_some_iff _ v).2 hv
  have hthree : last = .known third :=
    (hknown third).2 ⟨[.value 1, .value 1, .operator .mul], 1, [.operator .add], loaded, rfl,
      by simp [Symbol.KeepIndex], hthird⟩
  subst hone htwo hnone hthree
  rw [htrace] at hsecond hthird hmul hadd
  refine ⟨t, p, ht, hp, ?_, ⟨slot, hsecond⟩, hmul, third, hthird, hadd⟩
  rw [hreloads, hexpr]
  decide

end Emitter

end Reckoner
