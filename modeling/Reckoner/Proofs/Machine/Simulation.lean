import Reckoner.Proofs.Machine.Reachability
import Reckoner.Proofs.Program.Compilation
import Reckoner.Proofs.Tree.Interpreter

/-!
# Compiled code computes the value of the expression

The argument is the same for every target.  A `View` names the parts of a machine's state
that compiled code depends on, and `View.Realizes` lists what a target has to show: a
fetch pushes its constant, an operator replaces the two top cells, and the code that ends
a program returns the top cell.  From these the rest follows by induction on the expression.

Three things tie the machine to the emitter at every point.  The code that lies ahead is
what the emitter writes from its present knowledge on; when the emitter knows a slot, the
index register holds it, which is what makes an elided load harmless; and a division by
zero leaves a status of one, which nothing resets, so the arbitrary cell that stands for its
quotient is never mistaken for a value.
-/

set_option autoImplicit false

namespace Reckoner

/-- What a run shows of an evaluation.  If there is a value, it is in the top cell, and the
status is what it was; otherwise the status is one. -/
def Reports (result : Except EvaluationError Int64) (before top after : Int64) : Prop :=
  match result with
  | .ok v => top = v ∧ after = before
  | .error _ => after = 1

/-- A status of one stays. -/
theorem Reports.eq_one {result : Except EvaluationError Int64} {before top after : Int64}
    (h : Reports result before top after) (hbefore : before = 1) : after = 1 := by
  cases result with
  | ok v => exact h.2.trans hbefore
  | error e => exact h

/-- Reports on both operands and on the operator make a report on the expression, even when an
operand has no value and the operator has been applied to whatever stood in its cell. -/
theorem Reports.binary {op : Operator} {l r : Expr} {x y z a b c d : Int64}
    (hl : Reports l.eval a x b) (hr : Reports r.eval b y c) (hop : Reports (op.apply x y) c z d) :
    Reports (Expr.binary op l r).eval a z d := by
  rw [Expr.eval_binary]
  cases hx : l.eval with
  | error e =>
    rw [hx] at hl
    exact hop.eq_one (hr.eq_one hl)
  | ok v =>
    cases hy : r.eval with
    | error e =>
      rw [hy] at hr
      exact hop.eq_one hr
    | ok w =>
      rw [hx] at hl
      rw [hy] at hr
      obtain ⟨rfl, rfl⟩ := hl
      obtain ⟨rfl, rfl⟩ := hr
      exact hop

/-- What an operator leaves in the index register: the high half of the product, if it clobbers
the register, and otherwise what was there. -/
def Operator.indexAfter (op : Operator) (l r index : Int64) : Int64 :=
  if op.clobbersIndex then .ofInt (l.toInt * r.toInt / 0x1_0000_0000_0000_0000) else index

/-- An operator that does not clobber the index register leaves it as it was. -/
theorem Operator.indexAfter_of_clobbersIndex_eq_false {op : Operator}
    (h : op.clobbersIndex = false) (l r index : Int64) : op.indexAfter l r index = index :=
  if_neg (Bool.eq_false_iff.1 h)

/-- The parts of a machine's state that compiled code depends on. -/
structure View (σ : Type) where
  step : SealedRegions → σ → Outcome σ
  pc : σ → Nat
  /-- The content of the index register. -/
  index : σ → Nat
  /-- The stack pointer. -/
  sp : σ → UInt64
  stack : σ → List Int64
  status : σ → Int64
  /-- The constants and the stack can be reached. -/
  usable : σ → Prop
  /-- What a caller takes for the value when the machine returns. -/
  result : σ → Option Int64

namespace View

variable {σ : Type}

/-- What the emitter knows of the index register is so. -/
def Knows (view : View σ) (index : IndexState) (s : σ) : Prop :=
  ∀ slot, index = .known slot → view.index s = slot.toNat

/-- Code of some length leads from one state to another with a given stack. -/
structure Leads (view : View σ) (m : SealedRegions) (s : σ) (length : Nat) (sp : UInt64)
    (stack : List Int64) (t : σ) : Prop where
  reaches : Outcome.Reaches (view.step m) s t
  usable : view.usable t
  pc : view.pc t = view.pc s + length
  sp : view.sp t = sp
  stack : view.stack t = stack

/-- The code of a target does on a machine what it is there for. -/
structure Realizes (view : View σ) (target : Target) : Prop where
  fetch : ∀ {m : SealedRegions} {s : σ} {slot : UInt32} {elided : Bool} {v : Int64},
    view.usable s →
    CodeAt m (view.pc s) ((Emission.fetch slot elided).code target) →
    m.pool[slot.toNat]? = some v →
    (elided = true → view.index s = slot.toNat) →
    ∃ t, view.Leads m s target.fetchSize (view.sp s - UInt64.ofNat target.stackCell)
        (v :: view.stack s) t ∧
      view.index t = slot.toNat ∧ view.status t = view.status s
  operator : ∀ {m : SealedRegions} {s : σ} {op : Operator} {x y : Int64} {below : List Int64},
    view.usable s →
    CodeAt m (view.pc s) (target.operator op).flatten →
    view.stack s = y :: x :: below →
    ∃ t z, view.Leads m s target.operatorSize (view.sp s + UInt64.ofNat target.stackCell)
        (z :: below) t ∧
      (op.clobbersIndex = false → view.index t = view.index s) ∧
      Reports (op.apply x y) (view.status s) z (view.status t)
  epilogue : ∀ {m : SealedRegions} {s : σ} {z : Int64} {below : List Int64},
    view.usable s →
    CodeAt m (view.pc s) target.epilogue →
    view.stack s = z :: below →
    ∃ t last, Outcome.Reaches (view.step m) s t ∧ view.step m t = .returned last ∧
      view.pc last = view.pc s + target.epilogueSize ∧
      view.sp last = view.sp s + UInt64.ofNat target.stackCell ∧ view.stack last = below ∧
      view.result last = some z ∧ view.status last = view.status s

variable {view : View σ} {target : Target} {m : SealedRegions}

/-- Code behind code leads on from where the first led to. -/
theorem Leads.trans {s t u : σ} {first second : Nat} {sp sp' : UInt64} {stack stack' : List Int64}
    (hst : view.Leads m s first sp stack t) (htu : view.Leads m t second sp' stack' u) :
    view.Leads m s (first + second) sp' stack' u where
  reaches := hst.reaches.trans htu.reaches
  usable := htu.usable
  pc := by rw [htu.pc, hst.pc, Nat.add_assoc]
  sp := htu.sp
  stack := htu.stack

/-- Behind code that has been run lies the rest of the code. -/
theorem Leads.rest {s t : σ} {sp : UInt64} {stack : List Int64} {code rest : List UInt8}
    (h : view.Leads m s code.length sp stack t) (hcode : CodeAt m (view.pc s) (code ++ rest)) :
    CodeAt m (view.pc t) rest := by
  rw [h.pc]
  exact hcode.right

/-- The fetch of a constant pushes it, whether or not its load is elided, and the index register
then holds its slot. -/
theorem Realizes.exists_leads_leaf (hview : view.Realizes target) {k : Knowledge}
    (hconsistent : k.pool.Consistent) {v : Int64} (hroom : (k.after (.value v)).pool.size ≤ 2 ^ 32)
    (hpool : (k.after (.value v)).pool.values.toList <+: m.pool.toList) {s : σ}
    (husable : view.usable s)
    (hcode : CodeAt m (view.pc s) ((k.emission (.value v)).code target))
    (hknows : view.Knows k.index s) :
    ∃ t, view.Leads m s target.fetchSize (view.sp s - UInt64.ofNat target.stackCell)
        (v :: view.stack s) t ∧
      view.Knows (k.after (.value v)).index t ∧ view.status t = view.status s := by
  have hcell : m.pool[(k.pool.intern v).1.toNat]? = some v :=
    ConstantPool.getElem?_of_values_prefix hpool (Knowledge.getElem?_slot hconsistent hroom)
  obtain ⟨t, hleads, hindex, hstatus⟩ :=
    hview.fetch husable hcode hcell fun helided => hknows _ (of_decide_eq_true helided)
  refine ⟨t, hleads, ?_, hstatus⟩
  intro slot hknown
  cases hknown
  exact hindex

/-- What is known after an operator is true if the operator has kept the index register unless it
clobbers it. -/
theorem Knows.after_operator {k : Knowledge} {op : Operator} {s t : σ}
    (hknows : view.Knows k.index s)
    (hindex : op.clobbersIndex = false → view.index t = view.index s) :
    view.Knows (k.after (.operator op)).index t := by
  intro slot hknown
  change (if op.clobbersIndex then IndexState.unknown else k.index) = .known slot at hknown
  split at hknown
  · cases hknown
  · next hclobbers =>
    rw [hindex (Bool.eq_false_iff.2 hclobbers)]
    exact hknows slot hknown

/-- The code of an expression, run from a state of which the emitter's knowledge is true,
pushes one cell and reports the value; and the emitter's knowledge is true again. -/
theorem Realizes.exists_leads (hview : view.Realizes target) (e : Expr)
    (k : Knowledge) (hconsistent : k.pool.Consistent)
    (hroom : (k.afterAll e.postOrder).pool.size ≤ 2 ^ 32)
    (hpool : (k.afterAll e.postOrder).pool.values.toList <+: m.pool.toList) (s : σ)
    (husable : view.usable s) (hcode : CodeAt m (view.pc s) (k.code target e.postOrder))
    (hknows : view.Knows k.index s) :
    ∃ t z, view.Leads m s (k.code target e.postOrder).length
        (view.sp s - UInt64.ofNat target.stackCell) (z :: view.stack s) t ∧
      view.Knows (k.afterAll e.postOrder).index t ∧
      Reports e.eval (view.status s) z (view.status t) := by
  induction e generalizing k s with
  | leaf v =>
    rw [Expr.postOrder, Knowledge.code_singleton] at hcode ⊢
    obtain ⟨t, hleads, hknowst, hstatus⟩ :=
      hview.exists_leads_leaf hconsistent hroom hpool husable hcode hknows
    rw [Knowledge.length_code_emission]
    exact ⟨t, v, hleads, hknowst, rfl, hstatus⟩
  | binary op l r ihl ihr =>
    -- what is known after the left operand, and after both
    let kl := k.afterAll l.postOrder
    let kr := kl.afterAll r.postOrder
    have hafter : k.afterAll (Expr.binary op l r).postOrder = kr.after (.operator op) := by
      rw [Expr.postOrder, Knowledge.afterAll_append, Knowledge.afterAll_append]
      rfl
    have hsplit : k.code target (Expr.binary op l r).postOrder =
        k.code target l.postOrder ++
          (kl.code target r.postOrder ++ (target.operator op).flatten) := by
      rw [Expr.postOrder, Knowledge.code_append, Knowledge.code_append, Knowledge.code_singleton,
        List.append_assoc]
      rfl
    rw [hafter] at hroom hpool ⊢
    have hroomr : kr.pool.size ≤ 2 ^ 32 := hroom
    have hprefixr : kr.pool.values.toList <+: m.pool.toList := hpool
    have hrooml : kl.pool.size ≤ 2 ^ 32 :=
      Nat.le_trans (kl.size_pool_le_afterAll r.postOrder) hroomr
    have hprefixl : kl.pool.values.toList <+: m.pool.toList :=
      (kl.values_prefix_afterAll r.postOrder).trans hprefixr
    rw [hsplit] at hcode
    obtain ⟨sl, x, hl, hknowsl, hreportl⟩ :=
      ihl k hconsistent hrooml hprefixl s husable hcode.left hknows
    have hcoder := hl.rest hcode
    obtain ⟨sr, y, hr, hknowsr, hreportr⟩ :=
      ihr kl (Knowledge.consistent_afterAll hconsistent _ hrooml) hroomr hprefixr sl hl.usable
        hcoder.left hknowsl
    obtain ⟨t, z, ht, hindex, hreport⟩ :=
      hview.operator hr.usable (hr.rest hcoder) (hr.stack.trans (congrArg (y :: ·) hl.stack))
    have hleads := hl.trans (hr.trans ht)
    rw [hr.sp, hl.sp, UInt64.sub_add_cancel, ← target.length_operator op, ← List.length_append,
      ← List.length_append, ← hsplit] at hleads
    exact ⟨t, z, hleads, hknowsr.after_operator hindex, hreportl.binary hreportr hreport⟩

end View

namespace Program

/-- The bytes of code that a program consists of. -/
def code (p : Program) : List UInt8 := p.regions.code.toList.take p.size.codeLength

/-- The program lies in memory: its code from the start of the code region on, and the values
of its pool in the first cells of the pool region. -/
structure LoadedIn (p : Program) (m : SealedRegions) : Prop where
  code : p.code <+: m.code.toList
  pool : p.pool.values.toList <+: m.pool.toList

/-- The code of a compiled program is the code of its tree. -/
theorem code_ofTree {target : Target} {t : Tree} {size : CodeSize}
    (h : CodeSize.Fits target t.shape size) : (ofTree target t size).code = t.code target := by
  have hlength : (t.code target).length = size.codeLength :=
    (t.length_code target).trans h.codeLength_eq.symm
  have hroom : 0 + (t.code target).length ≤
      (Regions.fill target.filler size.codeRegion).size := by
    rw [Regions.size_fill, Nat.zero_add, hlength]
    exact h.codeLength_le
  have htake := CodeBuffer.take_overwrite _ 0 (t.code target) hroom
  rw [Nat.zero_add, hlength, List.take_zero, List.nil_append] at htake
  exact htake

/-- A compiled program lies in the memory that it was given. -/
theorem loadedIn_regions {target : Target} {t : Tree} {p : Program}
    (h : compile target t = .ok p) : p.LoadedIn p.regions := by
  obtain ⟨hp, hfits⟩ := eq_ofTree_of_compile_eq_ok h
  refine ⟨List.take_prefix _ _, ?_⟩
  rw [hp]
  refine Regions.prefix_overwriteCells _ _ ?_
  have hpool : t.finalKnowledge.pool.values.size ≤ t.shape.leafCount := t.size_pool_le
  have hcells := hfits.pool_le
  change t.finalKnowledge.pool.values.toList.length ≤ _
  rw [Array.length_toList, Array.size_replicate]
  unfold cellSize at hcells ⊢
  omega

section

variable {target : Target} {t : Tree} {p : Program} {m : SealedRegions}

/-- The code of a tree lies where its program does. -/
theorem LoadedIn.codeAt (hloaded : p.LoadedIn m) (hcompile : compile target t = .ok p) :
    CodeAt m 0 (t.code target) := by
  obtain ⟨hp, hfits⟩ := eq_ofTree_of_compile_eq_ok hcompile
  have h := hloaded.code
  rw [hp, code_ofTree hfits] at h
  exact h

/-- The constants of a tree lie where its program does. -/
theorem LoadedIn.values_prefix (hloaded : p.LoadedIn m) (hcompile : compile target t = .ok p) :
    t.finalKnowledge.pool.values.toList <+: m.pool.toList := by
  have h := hloaded.pool
  rw [(eq_ofTree_of_compile_eq_ok hcompile).1] at h
  exact h

/-- Slot numbers of a tree that is compiled fit 32 bits. -/
theorem size_pool_le (hcompile : compile target t = .ok p) :
    t.finalKnowledge.pool.size ≤ 2 ^ 32 := by
  have hleaves := (eq_ofTree_of_compile_eq_ok hcompile).2.leafCount_le
  unfold maxLeaves at hleaves
  exact Nat.le_trans t.size_pool_le (by omega)

end

end Program

/-- A compiled tree, run from the start of its code, returns at the end of its code with the
stack it was entered with, and reports what the interpreter finds. -/
theorem View.Realizes.exists_reports {σ : Type} {view : View σ} {target : Target}
    (hview : view.Realizes target) {t : Tree} {p : Program}
    (hcompile : Program.compile target t = .ok p) {m : SealedRegions} (hloaded : p.LoadedIn m)
    {s : σ} (husable : view.usable s) (hpc : view.pc s = 0) :
    ∃ n last z, Outcome.run (view.step m) n s = .returned last ∧
      view.pc last = p.size.codeLength ∧ view.sp last = view.sp s ∧
      view.stack last = view.stack s ∧ view.result last = some z ∧
      Reports t.interpret (view.status s) z (view.status last) := by
  have hcode := hloaded.codeAt hcompile
  have hpool := hloaded.values_prefix hcompile
  have hroom := Program.size_pool_le hcompile
  have hlength : (t.code target).length = p.size.codeLength :=
    (t.length_code target).trans (Program.eq_ofTree_of_compile_eq_ok hcompile).2.codeLength_eq.symm
  rw [Tree.finalKnowledge, t.symbols_eq] at hpool hroom
  rw [Tree.code, t.symbols_eq, List.length_append, target.length_epilogue] at hlength
  rw [Tree.code, t.symbols_eq, ← hpc] at hcode
  obtain ⟨body, z, hbody, -, hreport⟩ :=
    hview.exists_leads t.toExpr Knowledge.start ConstantPool.consistent_empty hroom hpool s
      husable hcode.left (fun _ hknown => by cases hknown)
  have hend := hbody.pc
  rw [hpc] at hend
  obtain ⟨stop, last, hstop, hreturned, hlast, hsp, hbelow, hresult, hsame⟩ :=
    hview.epilogue hbody.usable (hbody.rest hcode) hbody.stack
  obtain ⟨n, hn⟩ := (hbody.reaches.trans hstop).exists_returned hreturned
  refine ⟨n, last, z, hn, ?_, ?_, hbelow, hresult, ?_⟩
  · rw [hlast, hend, Nat.zero_add, hlength]
  · rw [hsp, hbody.sp, UInt64.sub_add_cancel]
  · rw [t.interpret_eq, hsame]
    exact hreport

/-- A compiled tree, run from the start of its code with a clear status, returns at the end of
its code with the stack it was entered with, and shows the caller what the interpreter finds. -/
theorem View.Realizes.exists_returned {σ : Type} {view : View σ} {target : Target}
    (hview : view.Realizes target) {t : Tree} {p : Program}
    (hcompile : Program.compile target t = .ok p) {m : SealedRegions} (hloaded : p.LoadedIn m)
    {s : σ} (husable : view.usable s) (hpc : view.pc s = 0) (hstatus : view.status s = 0) :
    ∃ n last, Outcome.run (view.step m) n s = .returned last ∧
      view.pc last = p.size.codeLength ∧ view.sp last = view.sp s ∧
      view.stack last = view.stack s ∧
      match t.interpret with
      | .ok v => view.result last = some v ∧ view.status last = 0
      | .error _ => view.status last = 1 := by
  obtain ⟨n, last, z, hrun, hlast, hsp, hstack, hresult, hreport⟩ :=
    hview.exists_reports hcompile hloaded husable hpc
  refine ⟨n, last, hrun, hlast, hsp, hstack, ?_⟩
  cases hvalue : t.interpret with
  | ok v =>
    rw [hvalue] at hreport
    exact ⟨hresult.trans (congrArg some hreport.1), hreport.2.trans hstatus⟩
  | error e =>
    rw [hvalue] at hreport
    exact hreport

end Reckoner
