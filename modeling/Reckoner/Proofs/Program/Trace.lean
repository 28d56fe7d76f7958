import Reckoner.Proofs.Code.Regions
import Reckoner.Proofs.Program.Safety

/-!
# What trace, pool and code of a program say of its tree

The trace, the pool and the code are produced side by side while the symbols of a tree are
emitted.  A record of the trace names a slot; that the slot still holds the right constant when
the program is finished is a matter of the pool, which only ever grows at its end.  So the trace
and the final pool give the symbols back.  The pool itself lists the leaves without repetitions,
each where it came first, and the code is that of the records, one after the other.

The code region is larger than the code, in whole pages.  No-ops divide a page and every piece of
code, so what lies behind the code are whole no-ops to the end of the region.
-/

set_option autoImplicit false

namespace Reckoner

/-- The value of a symbol that is no operator. -/
def Symbol.value? : Symbol → Option Int64
  | .value v => some v
  | .operator _ => none

/-- A constant has its value. -/
@[simp] theorem Symbol.value?_value (v : Int64) : (value v).value? = some v := rfl

/-- An operator has no value. -/
@[simp] theorem Symbol.value?_operator (op : Operator) : (operator op).value? = none := rfl

/-- The values among the symbols of an expression are its leaves. -/
theorem Expr.filterMap_value?_postOrder (e : Expr) :
    e.postOrder.filterMap Symbol.value? = e.leaves := by
  induction e with
  | leaf v => rfl
  | binary op l r ihl ihr =>
    rw [postOrder, leaves, List.filterMap_append, List.filterMap_append, ihl, ihr]
    exact List.append_nil _

/-- The symbol that a record stands for, given the constants in their slots. -/
def Emission.symbol? (values : Array Int64) : Emission → Option Symbol
  | .fetch slot _ => values[slot.toNat]?.map .value
  | .operator op _ => some (.operator op)

namespace Knowledge

/-- The pool lists the values of the symbols so far, each where it came first. -/
theorem toList_values_afterAll {k : Knowledge} (hindexed : k.pool.Indexed) {seen : List Int64}
    (hseen : k.pool.values.toList = seen.eraseDups) (symbols : List Symbol) :
    (k.afterAll symbols).pool.values.toList =
      (seen ++ symbols.filterMap Symbol.value?).eraseDups := by
  induction symbols generalizing k seen with
  | nil =>
    rw [List.filterMap_nil, List.append_nil]
    exact hseen
  | cons s rest ih =>
    cases s with
    | operator op => exact ih (k := k.after (.operator op)) hindexed hseen
    | value v =>
      have hrest :=
        ih (k := k.after (.value v)) (hindexed.intern v) (hindexed.toList_intern hseen v)
      rw [List.append_assoc] at hrest
      exact hrest

/-- A pool that was empty at first lists the values of the symbols, each where it came first. -/
theorem toList_values_afterAll_start (symbols : List Symbol) :
    (start.afterAll symbols).pool.values.toList =
      (symbols.filterMap Symbol.value?).eraseDups := by
  have hempty : start.pool.values.toList = ([] : List Int64).eraseDups := rfl
  exact toList_values_afterAll ConstantPool.indexed_empty hempty symbols

/-- The records of symbols give the symbols back, as long as their constants stay in place. -/
theorem map_symbol?_emissions {k : Knowledge} (hconsistent : k.pool.Consistent)
    {symbols : List Symbol} (hroom : (k.afterAll symbols).pool.size ≤ 2 ^ 32)
    {values : Array Int64} (hvalues : (k.afterAll symbols).pool.values.toList <+: values.toList) :
    (k.emissions symbols).map (Emission.symbol? values) = symbols.map some := by
  induction symbols generalizing k with
  | nil => rfl
  | cons s rest ih =>
    have hfirst : (k.after s).pool.size ≤ 2 ^ 32 :=
      Nat.le_trans ((k.after s).size_pool_le_afterAll rest) hroom
    have hnext : (k.after s).pool.Consistent := consistent_afterAll hconsistent [s] hfirst
    have hrest := ih hnext hroom hvalues
    rw [emissions, List.map_cons, hrest, List.map_cons]
    congr 1
    cases s with
    | operator op => rfl
    | value v =>
      have hstays := ((k.after (.value v)).values_prefix_afterAll rest).trans hvalues
      have hfinal : values[(k.pool.intern v).1.toNat]? = some v :=
        ConstantPool.getElem?_of_values_prefix hstays (getElem?_slot hconsistent hfirst)
      rw [emission, Emission.symbol?, hfinal]
      rfl

end Knowledge

namespace Program

variable {target : Target} {t : Tree} {p : Program}

/-- The pool of a program is the one that its symbols leave, sealed. -/
theorem pool_eq (hcompile : compile target t = .ok p) : p.pool = t.finalKnowledge.pool.sealed := by
  rw [(eq_ofTree_of_compile_eq_ok hcompile).1]
  rfl

/-- The constants of a compiled tree are its leaves without repetitions. -/
theorem toList_values_pool (hcompile : compile target t = .ok p) :
    p.pool.values.toList = t.toExpr.leaves.eraseDups := by
  rw [pool_eq hcompile, ← t.toExpr.filterMap_value?_postOrder, ← t.symbols_eq]
  exact Knowledge.toList_values_afterAll_start t.symbols

/-- The records of a compiled tree are those of its symbols. -/
theorem map_symbol?_trace (hcompile : compile target t = .ok p) :
    p.trace.toList.map (Emission.symbol? p.pool.values) = t.toExpr.postOrder.map some := by
  rw [trace_eq hcompile, pool_eq hcompile, ← t.symbols_eq]
  exact Knowledge.map_symbol?_emissions ConstantPool.consistent_empty (size_pool_le hcompile)
    (List.prefix_refl _)

/-- The sizes of a program are those that its shape predicts. -/
theorem ofShape_eq_ok (hcompile : compile target t = .ok p) :
    CodeSize.ofShape target t.shape = .ok p.size := by
  rw [compile_eq] at hcompile
  cases hsize : CodeSize.ofShape target t.shape with
  | ok size =>
    rw [hsize] at hcompile
    cases hcompile
    rfl
  | error e =>
    rw [hsize] at hcompile
    cases hcompile

/-- No-ops divide a page, and every piece of code. -/
theorem filler_dvd_exactLength (target : Target) (shape : Shape) :
    target.filler.length ∣ CodeSize.exactLength target shape := by
  have hfetch : target.filler.length ∣ target.fetchSize := by cases target <;> decide
  have hoperator : target.filler.length ∣ target.operatorSize := by cases target <;> decide
  have hepilogue : target.filler.length ∣ target.epilogueSize := by cases target <;> decide
  unfold CodeSize.exactLength
  apply Nat.dvd_add
  · exact Nat.dvd_add (Nat.dvd_mul_left_of_dvd hfetch _) (Nat.dvd_mul_left_of_dvd hoperator _)
  · exact hepilogue

/-- Behind the code of a compiled tree there are whole no-ops to the end of the region. -/
theorem exists_toList_code_eq (hcompile : compile target t = .ok p) :
    ∃ fillers, p.regions.code.toList =
      t.code target ++ (List.replicate fillers target.filler).flatten := by
  obtain ⟨hp, hfits⟩ := eq_ofTree_of_compile_eq_ok hcompile
  have hfiller : 0 < target.filler.length := by cases target <;> decide
  have hpage : target.filler.length ∣ pageSize := by cases target <;> decide
  obtain ⟨front, hfront⟩ := filler_dvd_exactLength target t.shape
  obtain ⟨whole, hwhole⟩ :=
    hpage.trans (CodeSize.dvd_codeRegion_of_ofShape_eq_ok (ofShape_eq_ok hcompile))
  have hle : front ≤ whole := by
    have hlength := hfits.codeLength_le
    rw [hfits.codeLength_eq, hfront, hwhole] at hlength
    exact Nat.le_of_mul_le_mul_left hlength hfiller
  obtain ⟨behind, rfl⟩ := Nat.exists_eq_add_of_le hle
  have hcode : (t.code target).length = front * target.filler.length := by
    rw [t.length_code, hfront, Nat.mul_comm]
  rw [Nat.mul_comm] at hwhole
  refine ⟨behind, ?_⟩
  rw [hp]
  change (CodeBuffer.overwrite (Regions.fill target.filler p.size.codeRegion) 0
    (t.code target)).toList = _
  rw [CodeBuffer.toList_overwrite_zero _ _ (by
      rw [Regions.size_fill, t.length_code, ← hfits.codeLength_eq]
      exact hfits.codeLength_le),
    hwhole, hcode, Regions.drop_toList_fill hfiller]

/-- Trace, pool, code and tree agree.  With the constants in their slots put in, the trace is the
post-order of the tree, and every slot is one of the pool.  The pool is the leaves from left to
right without repetitions.  The code region holds the code of the records in order, which is as
long for a fetch that trusts the index register as for one that loads it, then the code that
ends a program, and then no-ops only. -/
theorem trace_pool_code_agree (hcompile : compile target t = .ok p) :
    p.trace.toList.map (Emission.symbol? p.pool.values) = t.toExpr.postOrder.map some ∧
    (∀ slot elided, Emission.fetch slot elided ∈ p.trace → slot.toNat < p.pool.size) ∧
    p.pool.values.toList = t.toExpr.leaves.eraseDups ∧
    (∀ slot, ((Emission.fetch slot true).code target).length =
      ((Emission.fetch slot false).code target).length) ∧
    p.regions.code.size = p.size.codeRegion ∧
    ∃ fillers, p.regions.code.toList =
      p.trace.toList.flatMap (Emission.code target) ++ target.epilogue ++
        (List.replicate fillers target.filler).flatten := by
  have hsymbols := map_symbol?_trace hcompile
  refine ⟨hsymbols, ?_, toList_values_pool hcompile, ?_, ?_, ?_⟩
  · intro slot elided hmem
    have hsome : Emission.symbol? p.pool.values (.fetch slot elided) ∈
        t.toExpr.postOrder.map some := by
      rw [← hsymbols]
      exact List.mem_map_of_mem (Array.mem_toList_iff.2 hmem)
    obtain ⟨s, -, hs⟩ := List.mem_map.1 hsome
    obtain ⟨v, hv, -⟩ := Option.map_eq_some_iff.1 hs.symm
    exact (Array.getElem?_eq_some_iff.1 hv).1
  · intro slot
    exact (target.length_fetch slot false).trans (target.length_fetch slot true).symm
  · rw [(eq_ofTree_of_compile_eq_ok hcompile).1]
    change (CodeBuffer.overwrite (Regions.fill target.filler p.size.codeRegion) 0
      (t.code target)).size = _
    rw [CodeBuffer.size_overwrite, Regions.size_fill]
    rfl
  · rw [trace_eq hcompile]
    exact exists_toList_code_eq hcompile

/-- In `9 ^ (2 * 9)` the constant 9 has one slot, which is loaded twice. -/
theorem trace_pool_code_nine_xor_eighteen :
    ∃ t p, Tree.build? [.leaf 9, .leaf 2, .leaf 9, .binary .mul 1 2, .binary .xor 0 3] 4 = some t ∧
      compile .a64 t = .ok p ∧ p.pool.values.toList = [9, 2] ∧
      p.trace.toList.map (Emission.symbol? p.pool.values) =
        [some (.value 9), some (.value 2), some (.value 9), some (.operator .mul),
          some (.operator .xor)] := by
  have hfacts : (Tree.build? [.leaf 9, .leaf 2, .leaf 9, .binary .mul 1 2, .binary .xor 0 3]
      4).map (fun t => (t.arena.size, t.shape, t.toExpr)) =
      some (5, ⟨3, 2, 3⟩, .binary .xor (.leaf 9) (.binary .mul (.leaf 2) (.leaf 9))) := by
    decide +kernel
  obtain ⟨t, ht, hfacts⟩ := Option.map_eq_some_iff.1 hfacts
  simp only [Prod.mk.injEq] at hfacts
  obtain ⟨hsize, hshape, hexpr⟩ := hfacts
  have hbuilt : t.Built := ⟨⟨_, _, ht⟩, by omega⟩
  obtain ⟨p, hp⟩ := hbuilt.exists_compile_eq_ok .a64 (by rw [hshape]; decide)
  obtain ⟨hsymbols, -, hpool, -⟩ := trace_pool_code_agree hp
  refine ⟨t, p, ht, hp, ?_, ?_⟩
  · rw [hpool, hexpr]
    decide
  · rw [hsymbols, hexpr]
    rfl

end Program

end Reckoner
