import Mathlib.Algebra.Order.Ring.Nat
import Reckoner.Emitter
import Reckoner.Proofs.Code.Buffer
import Reckoner.Proofs.ConstantPool
import Reckoner.Proofs.Tree.Shape

/-!
# What the emitter writes

What is emitted for a symbol depends on two things only: the constants that have slots,
and what is known of the index register.  `Knowledge` keeps these two and computes the
record of each symbol; the code of a sequence of symbols is then the code of the records,
one after the other.  As long as the buffer has room, the emitter does exactly this, and
whether it has room follows from counting symbols, since every fetch has one length and
every operator another.
-/

set_option autoImplicit false

namespace Reckoner

/-- The number of code bytes of a symbol. -/
def Symbol.codeSize (target : Target) : Symbol → Nat
  | .value _ => target.fetchSize
  | .operator _ => target.operatorSize

/-- The code of an emission record. -/
def Emission.code (target : Target) : Emission → List UInt8
  | .fetch slot elided => (target.fetch slot !elided).flatten
  | .operator op _ => (target.operator op).flatten

/-- What an emitter knows: the constants with their slots, and the index register. -/
structure Knowledge where
  pool : ConstantPool
  index : IndexState

namespace Knowledge

/-- Before the first symbol nothing is known. -/
def start : Knowledge := ⟨.empty, .unknown⟩

/-- What is known after a symbol. -/
def after (k : Knowledge) : Symbol → Knowledge
  | .value v => ⟨(k.pool.intern v).2, .known (k.pool.intern v).1⟩
  | .operator op => ⟨k.pool, if op.clobbersIndex then .unknown else k.index⟩

/-- The record of a symbol. -/
def emission (k : Knowledge) : Symbol → Emission
  | .value v => .fetch (k.pool.intern v).1 (k.index = .known (k.pool.intern v).1)
  | .operator op => .operator op (k.after (.operator op)).index

/-- What is known after a sequence of symbols. -/
def afterAll (k : Knowledge) (symbols : List Symbol) : Knowledge := symbols.foldl after k

/-- The records of a sequence of symbols. -/
def emissions (k : Knowledge) : List Symbol → List Emission
  | [] => []
  | s :: rest => k.emission s :: (k.after s).emissions rest

/-- The code of a sequence of symbols. -/
def code (target : Target) (k : Knowledge) (symbols : List Symbol) : List UInt8 :=
  (k.emissions symbols).flatMap (Emission.code target)

/-- What is known after two runs of symbols is what the second makes of the first. -/
theorem afterAll_append (k : Knowledge) (xs ys : List Symbol) :
    k.afterAll (xs ++ ys) = (k.afterAll xs).afterAll ys := List.foldl_append

/-- The records of two runs of symbols follow one another. -/
theorem emissions_append (k : Knowledge) (xs ys : List Symbol) :
    k.emissions (xs ++ ys) = k.emissions xs ++ (k.afterAll xs).emissions ys := by
  induction xs generalizing k with
  | nil => rfl
  | cons s rest ih =>
    rw [List.cons_append, emissions, emissions, ih, List.cons_append]
    rfl

/-- Each symbol has one record. -/
theorem length_emissions (k : Knowledge) (symbols : List Symbol) :
    (k.emissions symbols).length = symbols.length := by
  induction symbols generalizing k with
  | nil => rfl
  | cons s rest ih => rw [emissions, List.length_cons, ih, List.length_cons]

/-- The record of a symbol stands at the place of the symbol. -/
theorem getElem?_emissions (k : Knowledge) (xs : List Symbol) (s : Symbol) (ys : List Symbol) :
    (k.emissions (xs ++ s :: ys))[xs.length]? = some ((k.afterAll xs).emission s) := by
  rw [emissions_append, ← k.length_emissions xs, List.getElem?_append_right (Nat.le_refl _),
    Nat.sub_self]
  rfl

/-- The code of two runs of symbols is that of the first with that of the second behind it. -/
theorem code_append (target : Target) (k : Knowledge) (xs ys : List Symbol) :
    k.code target (xs ++ ys) = k.code target xs ++ (k.afterAll xs).code target ys := by
  rw [code, emissions_append, List.flatMap_append]
  rfl

/-- The code of one symbol is that of its record. -/
theorem code_singleton (target : Target) (k : Knowledge) (s : Symbol) :
    k.code target [s] = (k.emission s).code target := by
  simp [code, emissions]

/-- The length of the code of a symbol does not depend on what is known. -/
theorem length_code_emission (target : Target) (k : Knowledge) (s : Symbol) :
    ((k.emission s).code target).length = s.codeSize target := by
  cases s with
  | value v => exact target.length_fetch _ _
  | operator op => exact target.length_operator op

/-- The length of code is the sum over its symbols, and does not depend on what is known. -/
theorem length_code (target : Target) (k : Knowledge) (symbols : List Symbol) :
    (k.code target symbols).length = (symbols.map (Symbol.codeSize target)).sum := by
  induction symbols generalizing k with
  | nil => rfl
  | cons s rest ih =>
    rw [← List.singleton_append, code_append, List.length_append, code_singleton,
      length_code_emission, ih, List.map_append, List.sum_append]
    rfl

/-- Constants keep their slots. -/
theorem values_prefix_afterAll (k : Knowledge) (symbols : List Symbol) :
    k.pool.values.toList <+: (k.afterAll symbols).pool.values.toList := by
  induction symbols generalizing k with
  | nil => exact List.prefix_refl _
  | cons s rest ih =>
    refine List.IsPrefix.trans ?_ (ih (k.after s))
    cases s with
    | value v => exact k.pool.values_prefix_intern v
    | operator op => exact List.prefix_refl _

/-- The pool never loses a constant. -/
theorem size_pool_le_afterAll (k : Knowledge) (symbols : List Symbol) :
    k.pool.size ≤ (k.afterAll symbols).pool.size := by
  have h := (k.values_prefix_afterAll symbols).length_le
  rwa [Array.length_toList, Array.length_toList] at h

/-- The map and the table of the pool go on agreeing while slots fit 32 bits. -/
theorem consistent_afterAll {k : Knowledge} (h : k.pool.Consistent) (symbols : List Symbol)
    (hroom : (k.afterAll symbols).pool.size ≤ 2 ^ 32) :
    (k.afterAll symbols).pool.Consistent := by
  induction symbols generalizing k with
  | nil => exact h
  | cons s rest ih =>
    refine ih ?_ hroom
    cases s with
    | value v =>
      exact (h.intern (Nat.le_trans ((k.after (.value v)).size_pool_le_afterAll rest) hroom)).1
    | operator op => exact h

/-- The slot of a value holds it. -/
theorem getElem?_slot {k : Knowledge} (h : k.pool.Consistent) {v : Int64}
    (hroom : (k.after (.value v)).pool.size ≤ 2 ^ 32) :
    (k.after (.value v)).pool.values[(k.pool.intern v).1.toNat]? = some v := (h.intern hroom).2

/-- The symbols of an expression fill at most one slot for each leaf. -/
theorem size_pool_afterAll_le (k : Knowledge) (e : Expr) :
    (k.afterAll e.postOrder).pool.size ≤ k.pool.size + e.leaves.length := by
  induction e generalizing k with
  | leaf v => exact k.pool.size_intern_le v
  | binary op l r ihl ihr =>
    have hl := ihl k
    have hr := ihr (k.afterAll l.postOrder)
    rw [Expr.postOrder, afterAll_append, afterAll_append, Expr.leaves, List.length_append]
    change ((k.afterAll l.postOrder).afterAll r.postOrder).pool.size ≤ _
    omega

end Knowledge

/-- The code of an expression has one fetch for each leaf and one sequence for each operator. -/
theorem Expr.sum_codeSize_postOrder (target : Target) (e : Expr) :
    (e.postOrder.map (Symbol.codeSize target)).sum =
      e.leaves.length * target.fetchSize + e.operatorCount * target.operatorSize := by
  induction e with
  | leaf v => simp [postOrder, leaves, operatorCount, Symbol.codeSize]
  | binary op l r ihl ihr =>
    simp only [postOrder, leaves, operatorCount, List.map_append, List.sum_append, ihl, ihr,
      List.length_append, List.map_singleton, List.sum_singleton, Symbol.codeSize, Nat.add_mul,
      Nat.one_mul]
    omega

namespace Emitter

/-- What the emitter knows. -/
def knowledge (e : Emitter) : Knowledge := ⟨e.pool, e.index⟩

/-- The emitter after a sequence of symbols for which the buffer has room. -/
def accept (e : Emitter) (symbols : List Symbol) : Emitter :=
  { e with
    buffer := e.buffer.extend (e.knowledge.code e.target symbols)
    pool := (e.knowledge.afterAll symbols).pool
    index := (e.knowledge.afterAll symbols).index
    trace := e.trace ++ (e.knowledge.emissions symbols).toArray }

/-- An emitter that accepts no symbols is unchanged. -/
theorem accept_nil (e : Emitter) : e.accept [] = e := by
  simp [accept, Knowledge.code, Knowledge.emissions, Knowledge.afterAll, CodeBuffer.extend_nil,
    knowledge]

/-- Accepting two runs of symbols is accepting them as one. -/
theorem accept_append (e : Emitter) (xs ys : List Symbol) :
    (e.accept xs).accept ys = e.accept (xs ++ ys) := by
  simp only [accept, Knowledge.code_append, Knowledge.emissions_append,
    Knowledge.afterAll_append, CodeBuffer.extend_append, knowledge, Array.append_assoc,
    List.append_toArray]

/-- A symbol for which the buffer has room is emitted as its record says. -/
theorem symbol_of_le (e : Emitter) (s : Symbol)
    (h : e.buffer.length + s.codeSize e.target ≤ e.buffer.capacity - e.buffer.reserve) :
    e.symbol s = (e.accept [s], none) := by
  obtain ⟨target, buffer, pool, index, trace⟩ := e
  rw [← Knowledge.length_code_emission target ⟨pool, index⟩ s] at h
  cases s with
  | value v =>
    have hfits : buffer.emitAll
        (target.fetch (pool.intern v).1 !decide (index = .known (pool.intern v).1)) = (_, none) :=
      buffer.emitAll_of_le _ h
    simp only [symbol, fetch, hfits, accept, Knowledge.code_singleton, knowledge]
    simp [Knowledge.emissions, Knowledge.emission, Knowledge.afterAll, Knowledge.after,
      Emission.code]
  | operator op =>
    have hfits : buffer.emitAll (target.operator op) = (_, none) := buffer.emitAll_of_le _ h
    simp only [symbol, operator, hfits, accept, Knowledge.code_singleton, knowledge]
    simp [Knowledge.emissions, Knowledge.emission, Knowledge.afterAll, Knowledge.after,
      Emission.code]

/-- Symbols for which the buffer has room are emitted as their records say. -/
theorem symbols_of_le (e : Emitter) (symbols : List Symbol)
    (h : e.buffer.length + (symbols.map (Symbol.codeSize e.target)).sum ≤
      e.buffer.capacity - e.buffer.reserve) :
    e.symbols symbols = (e.accept symbols, none) := by
  induction symbols generalizing e with
  | nil => rw [accept_nil, Emitter.symbols]
  | cons s rest ih =>
    rw [List.map_cons, List.sum_cons] at h
    have hcode : ((e.accept [s]).buffer.length) = e.buffer.length + s.codeSize e.target := by
      rw [← Knowledge.length_code_emission e.target e.knowledge s, ← Knowledge.code_singleton]
      rfl
    have hrest := ih (e.accept [s]) (by
      rw [hcode]
      change _ + (rest.map (Symbol.codeSize e.target)).sum ≤ e.buffer.capacity - e.buffer.reserve
      omega)
    rw [Emitter.symbols, e.symbol_of_le s (by omega)]
    exact hrest.trans (congrArg (fun last => (last, none)) (e.accept_append [s] rest))

/-- Code that ends in bytes for which the buffer has room is complete. -/
theorem finish_of_le (e : Emitter)
    (h : e.buffer.length + e.target.epilogueSize ≤ e.buffer.capacity) :
    e.finish = .ok ⟨e.buffer.extend e.target.epilogue, e.pool.sealed, e.trace⟩ := by
  rw [← e.target.length_epilogue] at h
  unfold finish
  rw [e.buffer.emitFinal_of_le _ h]

end Emitter

end Reckoner
