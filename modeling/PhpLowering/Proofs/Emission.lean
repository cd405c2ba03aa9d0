import PhpLowering.Proofs.Lowering.Stmt
import PhpLowering.Unit

/-!
# The code of a unit

What is known of a chunk after the emission of a whole unit: the main routine is the code of
the statements of the unit, and the functions are the code of the functions declared in it,
in the order in which their declarations end.

If every failure is accepted nothing has to be known of the unit, so whatever is emitted
passes the verifier of the operand stack.
-/

namespace PhpLowering

open Pass (Ends)

/-- A chunk holds the code of statements and of the functions declared in them. -/
structure Chunk.CodeOf (memory : RuleMemory) (statements : List Stmt) (c : Chunk) : Prop where
  main : c.main.CodeOf memory statements
  functions : List.Forall₂ (fun p f => Routine.CodeOf memory p.2 f) (Stmt.functionsOf statements)
    c.functions.toList

/-- The routines of a chunk. -/
def Chunk.routines (c : Chunk) : List Routine :=
  c.main :: c.functions.toList

/-- Every routine of a chunk is the code of the unit or of a function in it. -/
theorem Chunk.CodeOf.of_mem {memory : RuleMemory} {statements : List Stmt} {c : Chunk} {r : Routine}
    (h : c.CodeOf memory statements) (hr : r ∈ c.routines) : ∃ body, r.CodeOf memory body := by
  rcases List.mem_cons.mp hr with rfl | hr
  · exact ⟨statements, h.main⟩
  · obtain ⟨n, hn, hget⟩ := List.mem_iff_getElem.mp hr
    have hlength := h.functions.length_eq
    refine ⟨(Stmt.functionsOf statements)[n].2, ?_⟩
    rw [← hget]
    exact h.functions.get (hlength ▸ hn) hn

namespace Lowering

variable {E : CompileError → Prop} {cfg : Setting}

/-- A unit that is emitted into an empty chunk. -/
theorem ends_lowerRoutine (hE : Tolerates E) (hcfg : cfg.registry = .standard) (body : List Stmt)
    (name : String) (filePath : Option String) (tempLimit : Option Nat) (table : RuleTable)
    (memory : RuleMemory) (diagnostics : Array Diagnostic) (releases : Nat → ReleaseOrder) (htable : Granted E table.Regular)
    (hserves : Granted E (Stmt.ServesAll E body 0 ∧ ((Stmt.ownOf body).filterMap Stmt.label?).Nodup)) :
    Ends (lowerRoutine cfg body false)
      { sink := Chunk.new name filePath tempLimit, table, memory, diagnostics, releases }
      (fun _ t => t.sink.CodeOf memory body) E := by
  obtain ⟨u, hu⟩ : ∃ u : Surroundings, u =
    { outside := none, finished := [], earlier := [], memory, loops := [], nesting := 0
      returnsRef := false } := ⟨_, rfl⟩
  refine (ends_routineCode (u := u) hE (records_lowerStmts hE hcfg body) (hserves.imp fun h => h.1)
    (hserves.imp fun h => h.2) ⟨rfl, rfl, rfl, rfl⟩ ?_).mono ?_
  · rw [hu]
    exact
      { outside := rfl, finished := .nil, earlier := List.nil_prefix, memory := rfl, loops := rfl
        nesting := rfl, returnsRef := rfl, table := htable }
  · rintro _ t ⟨-, ⟨f, ha⟩, hfinished⟩
    rw [hu] at ha hfinished
    have hmain : t.active = t.sink.main := Chunk.active_of_outside ha.outside
    rw [hmain] at hfinished
    exact ⟨hfinished.codeOf, ha.finished⟩

end Lowering

/-- Whether a unit went through all steps. -/
def Outcome.isEmitted {σ : Type} (o : Outcome σ) : Bool :=
  match o.result with
  | .ok compiled => compiled.emitted
  | .error _ => false

namespace Compiler

variable {c : Compiler} {unit : SourceUnit}

/-- A unit that was emitted has been analysed without an error, and its emission went well. -/
theorem emit_of_isEmitted {σ : Type} [Sink σ] {sink : σ} (h : (c.compile unit sink).isEmitted = true) :
    ∃ analyzed diagnostics, c.analyze unit = (.ok analyzed, diagnostics) ∧
      hasErrors diagnostics = false ∧ c.compile unit sink = c.emit analyzed diagnostics sink := by
  rcases hanalyze : c.analyze unit with ⟨result, diagnostics⟩
  cases result with
  | error f =>
    simp only [compile, hanalyze, Outcome.isEmitted] at h
    exact nomatch h
  | ok analyzed =>
    by_cases herrors : hasErrors diagnostics = true
    · simp only [compile, hanalyze, if_pos herrors, Outcome.isEmitted, AnalyzedUnit.compiled] at h
      exact nomatch h
    · refine ⟨analyzed, diagnostics, rfl, by simpa using herrors, ?_⟩
      simp only [compile, hanalyze, if_neg herrors]

/-- What an emission that went well leaves in an empty chunk. -/
theorem codeOf_of_emit {analyzed : AnalyzedUnit} {diagnostics : Array Diagnostic} {name : String}
    {filePath : Option String} {tempLimit : Option Nat} (hc : c.registry = .standard)
    (h : (c.emit analyzed diagnostics (Chunk.new name filePath tempLimit)).isEmitted = true) :
    (c.emit analyzed diagnostics (Chunk.new name filePath tempLimit)).sink.CodeOf analyzed.memory
      analyzed.statements := by
  have hends := Lowering.ends_lowerRoutine Lowering.tolerates_anyFailure
    (show c.loweringSetting.registry = .standard from hc) analyzed.statements name filePath tempLimit
    analyzed.table analyzed.memory diagnostics c.releases .any .any
  rcases hrun : Lowering.lowerRoutine c.loweringSetting analyzed.statements false
    (c.emissionStart analyzed diagnostics (Chunk.new name filePath tempLimit)) with ⟨result, t⟩
  cases result with
  | ok a =>
    simp only [emit, hrun]
    exact hends.of_ok hrun
  | error e =>
    simp only [emit, hrun, Outcome.isEmitted] at h
    exact nomatch h

/-- **Whatever is emitted passes the verifier of the operand stack.** -/
theorem stackSafe_of_emitted (hc : c.registry = .standard) (name : String) (filePath : Option String)
    (tempLimit : Option Nat)
    (h : (c.compile unit (Chunk.new name filePath tempLimit)).isEmitted = true) :
    ∀ r ∈ (c.compile unit (Chunk.new name filePath tempLimit)).sink.routines, r.StackSafe := by
  obtain ⟨analyzed, diagnostics, -, -, heq⟩ := emit_of_isEmitted h
  rw [heq] at h ⊢
  intro r hr
  obtain ⟨body, hbody⟩ := (codeOf_of_emit hc h).of_mem hr
  exact hbody.stackSafe

/-- A loop that is left by as many levels as a variable says, and a statement behind it. -/
def computedBreak : SourceUnit :=
  { name := "unit", nextId := 6, span := {}
    statements := [
      .loop ⟨0, {}⟩ (.var ⟨1, {}, .none⟩ "x")
        [.jump ⟨2, {}⟩ .break (some (.var ⟨3, {}, .none⟩ "y"))],
      .expression ⟨4, {}⟩ (.var ⟨5, {}, .none⟩ "z")] }

theorem stackSafe_computedBreak :
    (({} : Compiler).compile computedBreak (Chunk.new "unit" none none)).isEmitted = true ∧
      ∀ r ∈ (({} : Compiler).compile computedBreak (Chunk.new "unit" none none)).sink.routines,
        r.StackSafe := by
  have h : (({} : Compiler).compile computedBreak (Chunk.new "unit" none none)).isEmitted = true := by
    decide +kernel
  exact ⟨h, stackSafe_of_emitted rfl "unit" none none h⟩

end Compiler
end PhpLowering
