import PhpLowering.Proofs.Lowering.Charts
import PhpLowering.Proofs.Reporting
import PhpLowering.Proofs.Stores

/-!
# Slots are stored to before they are loaded

Whatever way control takes through an emitted routine, every slot that is loaded has been stored to on that
way, if the increments in the routine are steady (`Compiler.definedBeforeUse_of_emitted`).  Each routine is
answerable for its own statements only: an increment in a function has no effect on the code around the
function.

An increment that is not steady addresses its location twice, and evaluates a conditional both times.  An
index in a branch is kept the first time, if control takes that branch, and loaded the second time, if
control takes it then (`Compiler.loaded_before_stored`).
-/

namespace PhpLowering

namespace Routine

/-- Control comes through instructions in a row that all have a way on. -/
theorem Path.straight {r : Routine} {way : List Instruction} {pc : Nat} (h : r.Path way pc) :
    ∀ is : List Instruction, is <+: r.code.toList.drop pc → is.all Instruction.fallsThrough = true →
      r.Path (way ++ is) (pc + is.length)
  | [], _, _ => by rwa [List.append_nil]
  | i :: is, ⟨rest, hrest⟩, hall => by
    obtain ⟨hi, his⟩ := Bool.and_eq_true_iff.mp hall
    have hcode : r.code[pc]? = some i := by
      rw [← Array.getElem?_toList, ← List.head?_drop, ← hrest]
      rfl
    have hnext : is <+: r.code.toList.drop (pc + 1) := by
      rw [← List.tail_drop, ← hrest]
      exact ⟨rest, rfl⟩
    have hpath := (h.next hcode hi).straight is hnext his
    rwa [List.append_assoc, Nat.add_right_comm] at hpath

end Routine

/-- Whether the increments are steady in the program and in all functions. -/
def AnalyzedUnit.isSteady (unit : AnalyzedUnit) : Bool :=
  decide (Stmt.Steady unit.statements) &&
    (Stmt.functionsOf unit.statements).all fun function => decide (Stmt.Steady function.2)

namespace Compiler

variable {c : Compiler} {unit : SourceUnit}

/-- **Slots are stored to before they are loaded**, in every routine of an emitted unit the increments in
which find the indices that they take to be kept. -/
theorem definedBeforeUse_of_emitted (hc : c.registry = .standard) (hnumbered : unit.Numbered) (name : String)
    (filePath : Option String) (tempLimit : Option Nat)
    (h : (c.compile unit (Chunk.new name filePath tempLimit)).isEmitted = true) :
    ∃ analyzed diagnostics, c.analyze unit = (.ok analyzed, diagnostics) ∧
      (Stmt.Steady analyzed.statements →
        (c.compile unit (Chunk.new name filePath tempLimit)).sink.main.DefinedBeforeUse) ∧
      List.Forall₂ (fun (function : FunctionHead × List Stmt) (r : Routine) =>
          Stmt.Steady function.2 → r.DefinedBeforeUse)
        (Stmt.functionsOf analyzed.statements)
        (c.compile unit (Chunk.new name filePath tempLimit)).sink.functions.toList := by
  obtain ⟨analyzed, diagnostics, hanalyze, -, heq⟩ := emit_of_isEmitted h
  obtain ⟨known, -, hremains⟩ := remains_of_analyze hc hanalyze
  rw [heq] at h ⊢
  refine ⟨analyzed, diagnostics, hanalyze, ?_⟩
  have hnumbers : (Node.numbers (Stmt.nodesOf analyzed.statements)).Nodup :=
    (hnumbered.sublist (Node.sublist_numbers _)).sublist hremains.numbers
  have hbody : Lowering.Charts (Stmt.Steady analyzed.statements) [] (Stmt.functionsOf analyzed.statements)
      (Lowering.lowerStmts c.loweringSetting analyzed.statements) :=
    Lowering.charts_lowerStmts hc _ hnumbers id
  have hends := Lowering.ends_routineCode_charted
    (s := c.emissionStart analyzed diagnostics (Chunk.new name filePath tempLimit)) false hbody
    ⟨rfl, rfl, rfl, rfl⟩ rfl
  rcases hrun : Lowering.lowerRoutine c.loweringSetting analyzed.statements false
    (c.emissionStart analyzed diagnostics (Chunk.new name filePath tempLimit)) with ⟨_ | _, t⟩
  · rw [emit_of_error hrun] at h
    exact nomatch h
  · obtain ⟨-, -, hdefined, houtside, Fs, hFs, hfunctions⟩ := hends.of_ok hrun
    have hmain : t.active = t.sink.main := Chunk.active_of_outside houtside
    rw [emit_of_ok hrun]
    refine ⟨fun hsteady => hmain ▸ hdefined hsteady, ?_⟩
    obtain rfl : t.sink.functions.toList = Fs := hFs
    exact hfunctions

/-- An operand of an update is used twice in a function and in a loop with a handler, out of which a computed
level leads and the routine returns. -/
def steadyUpdates : SourceUnit :=
  { name := "unit", nextId := 23, span := {}
    statements := [
      .function ⟨0, {}⟩ ⟨"f", false, []⟩ [
        .expression ⟨1, {}⟩ (.incDec ⟨2, {}, .none⟩ true false
          (.item ⟨3, {}, .none⟩ (.var ⟨4, {}, .none⟩ "b") (.call ⟨5, {}, .none⟩ "f" [])))] false,
      .loop ⟨6, {}⟩ (.var ⟨7, {}, .none⟩ "y") [
        .tryCatch ⟨8, {}⟩ [
          .expression ⟨9, {}⟩ (.incDec ⟨10, {}, .none⟩ true true
            (.item ⟨11, {}, .none⟩
              (.item ⟨12, {}, .none⟩ (.var ⟨13, {}, .none⟩ "b") (.call ⟨14, {}, .none⟩ "f" []))
              (.conditional ⟨15, {}, .none⟩ (.var ⟨16, {}, .none⟩ "c") (.var ⟨17, {}, .none⟩ "d")
                (.call ⟨18, {}, .none⟩ "f" [])))),
          .jump ⟨19, {}⟩ .break (some (.var ⟨20, {}, .none⟩ "n"))]
          [.clause {} "E" (some "e") [.jump ⟨21, {}⟩ .return (some (.var ⟨22, {}, .none⟩ "e"))] none] none]] }

theorem definedBeforeUse_steadyUpdates :
    (({} : Compiler).compile steadyUpdates (Chunk.new "unit" none none)).isEmitted = true ∧
      ∀ r ∈ (({} : Compiler).compile steadyUpdates (Chunk.new "unit" none none)).sink.routines,
        r.DefinedBeforeUse := by
  have hnumbered : steadyUpdates.Numbered := by
    unfold SourceUnit.Numbered
    decide
  have h : (({} : Compiler).compile steadyUpdates (Chunk.new "unit" none none)).isEmitted = true := by
    decide +kernel
  obtain ⟨analyzed, diagnostics, hanalyze, hmain, hfunctions⟩ :=
    definedBeforeUse_of_emitted (c := {}) rfl hnumbered "unit" none none h
  have hsteady : (({} : Compiler).analyze steadyUpdates).1.toOption.any AnalyzedUnit.isSteady = true := by
    decide +kernel
  rw [hanalyze] at hsteady
  obtain ⟨hown, hinner⟩ := Bool.and_eq_true_iff.mp hsteady
  refine ⟨h, ?_⟩
  generalize (({} : Compiler).compile steadyUpdates (Chunk.new "unit" none none)).sink = chunk at hmain hfunctions ⊢
  refine List.forall_mem_cons.mpr ⟨hmain (of_decide_eq_true hown), fun r hr => ?_⟩
  obtain ⟨n, hn, rfl⟩ := List.getElem_of_mem hr
  have hn' := hfunctions.length_eq ▸ hn
  exact hfunctions.get hn' hn (of_decide_eq_true (List.all_eq_true.mp hinner _ (List.getElem_mem hn')))

/-- `($c ? $b[f()] : $d)[0]++;` -/
def unsteadyUpdate : SourceUnit :=
  { name := "unit", nextId := 10, span := {}
    statements := [
      .expression ⟨9, {}⟩ (.incDec ⟨8, {}, .none⟩ true true
        (.item ⟨7, {}, .none⟩
          (.conditional ⟨5, {}, .none⟩ (.var ⟨0, {}, .none⟩ "c")
            (.item ⟨3, {}, .none⟩ (.var ⟨1, {}, .none⟩ "b") (.call ⟨2, {}, .none⟩ "f" []))
            (.var ⟨4, {}, .none⟩ "d"))
          (.literal ⟨6, {}, .none⟩ (.int 0))))] }

/-- The value of `f()` is loaded where only `$d` has been evaluated before. -/
theorem loaded_before_stored :
    (({} : Compiler).compile unsteadyUpdate (Chunk.new "unit" none none)).isEmitted = true ∧
      ¬ (({} : Compiler).compile unsteadyUpdate (Chunk.new "unit" none none)).sink.main.DefinedBeforeUse := by
  refine ⟨by decide +kernel, fun hdefined => ?_⟩
  have hstart := Routine.Path.start (r :=
    (({} : Compiler).compile unsteadyUpdate (Chunk.new "unit" none none)).sink.main)
  -- The first time `$c` is false, and the second time it is true.
  have htest := hstart.straight [.loadVar "c", .call .toBool] (by decide +kernel) rfl
  have hother := htest.jump (i := .branchIfFalse ⟨1⟩) (p := 9) (by decide +kernel) (List.mem_singleton_self _)
    (by decide +kernel)
  have hsecond := hother.straight [.loadVar "d", .const 0, .box .integer, .loadVar "c", .call .toBool,
    .branchIfFalse ⟨3⟩, .loadVar "b"] (by decide +kernel) rfl
  have hstored := hdefined _ _ ⟨0⟩ hsecond (by decide +kernel)
  simp at hstored

end Compiler
end PhpLowering
