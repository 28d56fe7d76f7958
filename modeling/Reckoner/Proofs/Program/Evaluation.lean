import Reckoner.Evaluation
import Reckoner.Proofs.Parser.RoundTrip
import Reckoner.Proofs.Program.Safety

/-!
# Compiling and interpreting agree

Whether a text is evaluated by compiling or by interpreting shows only when its tree is too deep to
be compiled.  Otherwise the code returns, and reports what the interpreter finds.  That it does so
within as many steps as its region has bytes is the one thing left to say: every step leads at least
one instruction further, and an instruction takes at least one byte.
-/

set_option autoImplicit false

namespace Reckoner

namespace Program

variable {target : Target} {t : Tree} {p : Program} {m : SealedRegions} {s : target.State}

/-- A compiled tree has stopped after as many steps as its region has bytes. -/
theorem run_size_code_ne_running (hcompile : compile target t = .ok p) (hloaded : p.LoadedIn m)
    (hpc : target.view.pc s = 0) (u : target.State) :
    Outcome.run (target.view.step m) m.code.size s ≠ .running u := by
  intro hrun
  obtain ⟨j, hj, hlocated⟩ := exists_located hcompile hloaded hpc hrun
  have hlt := hlocated.lt_length
  have hbytes := target.processor.length_le_length_bytes (t.instructions target)
  rw [target.bytes_processor, t.bytes_instructions] at hbytes
  have hregion : (t.code target).length ≤ m.code.size := by
    have h := (hloaded.codeAt hcompile).length_le
    rw [List.drop_zero, Array.length_toList] at h
    exact h
  omega

/-- Within as many steps as its region has bytes, a compiled tree that is entered with a clear
status returns and reports what the interpreter finds. -/
theorem exists_run_size_code (hcompile : compile target t = .ok p) (hloaded : p.LoadedIn m)
    (husable : target.view.usable s) (hpc : target.view.pc s = 0)
    (hstatus : target.view.status s = 0) :
    ∃ last z, Outcome.run (target.view.step m) m.code.size s = .returned last ∧
      target.view.result last = some z ∧
      (if target.view.status last = 0 then .ok z else .error .divisionByZero) = t.interpret := by
  obtain ⟨n, last, z, hrun, -, -, -, hresult, hreport⟩ :=
    target.view_realizes.exists_reports hcompile hloaded husable hpc
  refine ⟨last, z, ?_, hresult, ?_⟩
  · exact Outcome.run_eq_returned hrun (run_size_code_ne_running hcompile hloaded hpc)
  · cases hvalue : t.interpret with
    | ok v =>
      rw [hvalue] at hreport
      obtain ⟨rfl, hclear⟩ := hreport
      rw [if_pos (hclear.trans hstatus)]
    | error e =>
      rw [hvalue] at hreport
      cases e
      have hset : target.view.status last = 1 := hreport
      rw [hset]
      rfl

/-- A call of a compiled tree gives what the interpreter finds. -/
theorem run?_eq (hcompile : compile target t = .ok p) : p.run? = some t.interpret := by
  have htarget : p.target = target := by
    rw [(eq_ofTree_of_compile_eq_ok hcompile).1]
    rfl
  have hloaded := loadedIn_regions hcompile
  rw [run?, htarget]
  cases target with
  | x64 =>
    obtain ⟨last, z, hrun, hresult, hverdict⟩ :=
      exists_run_size_code hcompile hloaded (s := X64.entry) trivial rfl rfl
    have hreturned : X64.runProgram p.regions = .returned last := hrun
    cases hresult
    simp only [Target.call?, hreturned]
    exact congrArg some hverdict
  | a64 =>
    obtain ⟨last, z, hrun, hresult, hverdict⟩ :=
      exists_run_size_code hcompile hloaded (s := A64.entry) ⟨rfl, by decide⟩ rfl rfl
    have hreturned : A64.runProgram p.regions = .returned last := hrun
    have hvalue : last.result = some z := hresult
    simp only [Target.call?, hreturned, hvalue]
    exact congrArg some hverdict

end Program

/-! ## Texts -/

/-- A tree that has been read from a text, and is not too large, has at most `2 ^ 31` leaves. -/
theorem leafCount_le_of_parse_eq_ok {text : List Char} {t : Tree} (h : parse text = .ok t)
    (hsize : t.arena.size ≤ 2 ^ 32) : t.shape.leafCount ≤ 2 ^ 31 := by
  obtain ⟨-, -, -, hnodes⟩ := derives_of_parse_eq_ok h hsize
  exact Tree.leafCount_le_of_size_toExpr_le (Nat.le_trans (Nat.le_of_eq hnodes) hsize)

/-- Without compiling, evaluating a tree is interpreting it. -/
theorem Tree.evaluate_interpreter (t : Tree) (target : Target) :
    t.evaluate .interpreter target = t.interpret.mapError .evaluation := by
  unfold evaluate
  rw [if_neg (by decide)]
  cases t.interpret <;> rfl

/-- A tree that compiles evaluates to what the interpreter finds. -/
theorem Tree.evaluate_compiling {target : Target} {t : Tree} {p : Program}
    (h : Program.compile target t = .ok p) :
    t.evaluate ⟨true⟩ target = t.interpret.mapError .evaluation := by
  unfold evaluate
  simp only [if_true, h, Program.run?_eq h]
  cases t.interpret <;> rfl

/-- A division by zero below some operators, each of which keeps its left operand waiting. -/
def nestedDivision : Nat → Expr
  | 0 => .binary .div (.leaf 1) (.leaf 0)
  | n + 1 => .binary .xor (.leaf 1) (nestedDivision n)

/-- Quotients nested to the right are read at any depth, need one cell more for each level, and
divide by zero. -/
theorem exists_parse_nestedDivision (n : Nat) (hn : 2 * n + 3 ≤ 2 ^ 32) :
    ∃ t, parse (nestedDivision n).render = .ok t ∧ t.arena.size ≤ 2 ^ 32 ∧
      t.shape.stackDepth = n + 2 ∧ t.interpret = .error .divisionByZero := by
  have hexpr : (nestedDivision n).size = 2 * n + 3 ∧ (nestedDivision n).stackDepth = n + 2 ∧
      (nestedDivision n).eval = .error .divisionByZero ∧
      ∀ v ∈ (nestedDivision n).leaves, 0 ≤ v := by
    induction n with
    | zero => exact ⟨rfl, rfl, rfl, by simp [nestedDivision, Expr.leaves]⟩
    | succ n ih =>
      obtain ⟨hsize, hdepth, heval, hleaves⟩ := ih (by omega)
      refine ⟨?_, ?_, ?_, ?_⟩
      · rw [nestedDivision, Expr.size, Expr.size, hsize]
        omega
      · rw [nestedDivision, Expr.stackDepth, Expr.stackDepth, hdepth]
        omega
      · rw [nestedDivision, Expr.eval_binary, heval]
        rfl
      · intro v hv
        rcases List.mem_cons.1 hv with rfl | hv
        · decide
        · exact hleaves v hv
  obtain ⟨hsize, hdepth, heval, hleaves⟩ := hexpr
  obtain ⟨t, ht, hdenotes, hnodes⟩ := Expr.exists_parse_render_eq_ok hleaves (by omega)
  refine ⟨t, ht, by omega, ?_, ?_⟩
  · rw [t.shape_eq, hdenotes]
    exact hdepth
  · rw [t.interpret_eq, hdenotes]
    exact heval

/-- A text that cannot be read is refused in the same way whether it would be compiled or
interpreted.  Interpreting one that can be read gives what the interpreter finds in its tree; so
does compiling it, by running the bytes of the program with anything in the registers, unless the
tree is too deep; and then compiling fails for its depth, whatever the interpreter finds. -/
theorem evaluate_agrees_unless_too_deep (text : List Char) (target : Target) :
    (∀ e, parse text = .error e → ∀ config, evaluate text config target = .error (.parse e)) ∧
    ∀ t, parse text = .ok t → t.arena.size ≤ 2 ^ 32 →
      evaluate text .interpreter target = t.interpret.mapError .evaluation ∧
      (t.shape.stackDepth ≤ maxOperandDepth →
        evaluate text ⟨true⟩ target = t.interpret.mapError .evaluation ∧
        ∃ p, Program.compile target t = .ok p ∧
          ∀ s, target.view.usable s → target.view.pc s = 0 → target.view.status s = 0 →
            ∃ last z, Outcome.run (target.view.step p.regions) p.regions.code.size s =
                .returned last ∧
              target.view.result last = some z ∧
              evaluate text ⟨true⟩ target =
                if target.view.status last = 0 then .ok z
                else .error (.evaluation .divisionByZero)) ∧
      (maxOperandDepth < t.shape.stackDepth →
        evaluate text ⟨true⟩ target =
          .error (.compile (.allocationFailed (t.shape.stackDepth * target.stackCell)
            (.tooDeep t.shape.stackDepth)))) := by
  refine ⟨?_, ?_⟩
  · intro e he config
    rw [evaluate, he]
  intro t ht hsize
  have hread : ∀ config, evaluate text config target = t.evaluate config target := by
    intro config
    rw [evaluate, ht]
  have hleaves := leafCount_le_of_parse_eq_ok ht hsize
  rw [hread, hread]
  refine ⟨t.evaluate_interpreter target, ?_, ?_⟩
  · intro hdepth
    obtain ⟨p, hp⟩ := Program.exists_compile_eq_ok hleaves target hdepth
    have hvalue := Tree.evaluate_compiling hp
    refine ⟨hvalue, p, hp, ?_⟩
    intro s husable hpc hstatus
    obtain ⟨last, z, hrun, hresult, hverdict⟩ :=
      Program.exists_run_size_code hp (Program.loadedIn_regions hp) husable hpc hstatus
    refine ⟨last, z, hrun, hresult, ?_⟩
    rw [hvalue, ← hverdict]
    split <;> rfl
  · intro hdepth
    have hrefused := Program.compile_eq_error_of_lt hleaves target hdepth
    simp only [Tree.evaluate, if_true, hrefused]

/-- A division by zero is found in both ways, by a run that sets the status; one that is too deep
only by the interpreter. -/
theorem evaluate_nested_division :
    (∀ config, evaluate [] config .x64 = .error (.parse .emptyExpression)) ∧
    (∃ t p last, parse (nestedDivision 0).render = .ok t ∧ Program.compile .x64 t = .ok p ∧
      evaluate (nestedDivision 0).render .interpreter .x64 =
        .error (.evaluation .divisionByZero) ∧
      evaluate (nestedDivision 0).render ⟨true⟩ .x64 = .error (.evaluation .divisionByZero) ∧
      Outcome.run (X64.step p.regions) p.regions.code.size X64.entry = .returned last ∧
      last.status ≠ 0) ∧
    evaluate (nestedDivision 16383).render .interpreter .x64 =
        .error (.evaluation .divisionByZero) ∧
      evaluate (nestedDivision 16383).render ⟨true⟩ .x64 =
        .error (.compile (.allocationFailed 131080 (.tooDeep 16385))) := by
  obtain ⟨t, ht, hsize, hdepth, hvalue⟩ := exists_parse_nestedDivision 0 (by decide)
  obtain ⟨u, hu, hsizeu, hdepthu, hvalueu⟩ := exists_parse_nestedDivision 16383 (by decide)
  obtain ⟨hinterpreted, hcompiled, -⟩ :=
    (evaluate_agrees_unless_too_deep _ .x64).2 t ht hsize
  obtain ⟨hinterpretedu, -, hrefused⟩ :=
    (evaluate_agrees_unless_too_deep _ .x64).2 u hu hsizeu
  rw [hvalue] at hinterpreted hcompiled
  rw [hvalueu] at hinterpretedu
  rw [hdepthu] at hrefused
  obtain ⟨hfound, p, hp, hruns⟩ := hcompiled (by rw [hdepth]; decide)
  obtain ⟨last, z, hrun, -, hverdict⟩ := hruns X64.entry trivial rfl rfl
  have hempty : parse [] = .error .emptyExpression := by
    simp [parse, Lexeme.scan, Lexeme.scanFrom, Parser.run]
  refine ⟨(evaluate_agrees_unless_too_deep [] .x64).1 _ hempty, ?_, hinterpretedu,
    hrefused (by decide)⟩
  refine ⟨t, p, last, ht, hp, hinterpreted, hfound, hrun, ?_⟩
  intro hclear
  have hvalued := hfound.symm.trans (hverdict.trans (if_pos hclear))
  cases hvalued

end Reckoner
