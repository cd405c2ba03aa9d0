import PhpLowering.Proofs.Analysis.Course
import PhpLowering.Proofs.Lowering.Progress
import PhpLowering.Proofs.Tree.Declared
import PhpLowering.Unit

/-!
# How a compilation ends

There are five ways in which the compilation of a unit ends, and `Compiler.Concludes` lists them,
with what is told to the sink and what is reported in each.  Nothing is assumed about the registry or
about the sink, which may refuse any call.

* A failure of the analysis is not reported, and the sink is not called.
* A unit with errors is not emitted, and the sink is not called.
* Otherwise the unit is emitted.  If that fails in a statement, the failure is reported at the
  innermost statement that was begun, and nowhere else.  If it fails behind the last statement, where
  the unit returns, there is no statement to report it at.

However the emission fails, after the first call that is refused the sink is called no more, except
to give slots back.
-/

namespace PhpLowering

/-! ## What is reported before the emission -/

namespace Declarations

variable (symbols : Symbols)

/-- Nothing has been reported but that functions are declared again. -/
def Found.Proper (found : Found) : Prop :=
  ∀ d ∈ found.diagnostics, ∃ name, d.problem = .functionRedeclared name

theorem proper_addFunction {found : Found} (head : FunctionHead) (h : found.Proper) :
    (addFunction symbols head found).Proper := by
  unfold addFunction
  dsimp only
  split
  · exact h
  · exact h

theorem proper_declare {found : Found} (conditional : Bool) (head : FunctionHead) (span : Span)
    (h : found.Proper) : (declare symbols conditional head span found).Proper := by
  unfold declare
  dsimp only
  split
  · exact proper_addFunction symbols head h
  · split
    · exact List.forall_mem_append.mpr ⟨h, List.forall_mem_singleton.mpr ⟨_, rfl⟩⟩
    · exact proper_addFunction symbols head h

/-- Ahead of the analysis nothing is reported but that functions are declared again. -/
theorem proper_collect (statements : List Stmt) : (collect symbols statements).Proper :=
  invariant_collect (fun conditional head span _ => proper_declare symbols conditional head span) nofun statements

end Declarations

namespace Analysis

/-- Nothing that has been reported is a failure of the emission. -/
def State.Proper (s : State) : Prop :=
  ∀ d ∈ s.diagnostics, d.problem.Found

instance : Stable State.Proper where
  alike h hdiagnostics _ d hd := h d (hdiagnostics ▸ hd)
  report span s hp h d hd := by
    rcases Array.mem_push.mp hd with hd | rfl
    · exact h d hd
    · exact hp

theorem harmless_proper (cfg : Setting) (body : List Stmt) (s : State) :
    Harmless cfg State.Proper body s := by
  intro tag name value t _
  refine KeepsAt.bind (preserves_analyze cfg value .read).keepsAt fun c u _ => ?_
  have hdeclare (v : Literal) :
      Preserves State.Proper (Pass.transform (State.declareConstant cfg name v tag.span)) := by
    refine preserves_transform fun w hw => ?_
    unfold State.declareConstant
    split
    · exact Stable.report _ nofun hw
    · exact hw
  refine Preserves.keepsAt ?_
  cases c.value? <;> dsimp only <;> infer_instance

end Analysis

namespace Compiler

open Lowering (Innermost lowerStmts routineEnd)
open Sink (Talk Ceases)

variable {c : Compiler} {unit : SourceUnit}

/-- **The analysis reports no failure of the emission.** -/
theorem found_of_analyze {result : Except Fault AnalyzedUnit} {diagnostics : Array Diagnostic}
    (h : c.analyze unit = (result, diagnostics)) : ∀ d ∈ diagnostics, d.problem.Found := by
  unfold analyze at h
  generalize hfound : Declarations.collect c.symbols unit.statements = found at h
  have hproper : found.Proper := hfound ▸ Declarations.proper_collect c.symbols unit.statements
  have hrun : (Analysis.analyzeStmts (c.analysisSetting found.functions) unit.statements
      { nextId := unit.nextId, diagnostics := found.diagnostics.toArray }).2.Proper :=
    Analysis.carries_analyzeStmts _ _ (Analysis.harmless_proper _ _ _) fun d hd => by
      obtain ⟨name, hname⟩ := hproper d (List.mem_toArray.mp hd)
      rw [hname]
      nofun
  dsimp only at h
  split at h
  · rename_i heq
    cases h
    rwa [heq] at hrun
  · rename_i heq
    cases h
    rw [heq] at hrun
    exact Analysis.Stable.finish hrun

variable {σ : Type} [Sink σ] (c unit)

/-- The ways in which the compilation of a unit ends. -/
inductive Concludes (sink : σ) : Outcome σ → Prop where
  /-- The analysis fails. -/
  | analysisFailed {fault diagnostics}
    (hanalyze : c.analyze unit = (.error fault, diagnostics))
    (hfound : ∀ d ∈ diagnostics, ∀ message, d.problem ≠ .emissionFailed message) :
    Concludes sink { result := .error (.internal fault), sink, diagnostics }
  /-- The analysis finds an error. -/
  | notEmitted {analyzed diagnostics}
    (hanalyze : c.analyze unit = (.ok analyzed, diagnostics))
    (herror : ∃ d ∈ diagnostics, d.severity = .error) :
    Concludes sink { result := .ok (analyzed.compiled false), sink, diagnostics }
  /-- The unit is emitted. -/
  | emitted {analyzed diagnostics calls sink'}
    (hanalyze : c.analyze unit = (.ok analyzed, diagnostics))
    (hclean : ∀ d ∈ diagnostics, d.severity ≠ .error)
    (htalk : Talk sink calls sink') (haccepted : Sink.Accepted calls) :
    Concludes sink { result := .ok (analyzed.compiled true), sink := sink', diagnostics }
  /-- The emission fails in a statement. -/
  | failedInStatement {analyzed diagnostics calls sink' x t source}
    (hanalyze : c.analyze unit = (.ok analyzed, diagnostics))
    (hclean : ∀ d ∈ diagnostics, d.severity ≠ .error)
    (hinnermost : Innermost c.loweringSetting analyzed.statements (c.emissionStart analyzed diagnostics sink) x t)
    (hunique : ∀ y u, Innermost c.loweringSetting analyzed.statements
      (c.emissionStart analyzed diagnostics sink) y u → y.span = x.span)
    (hsource : source.isReported = false)
    (htalk : Talk sink calls sink') (hceases : Ceases calls) :
    Concludes sink
      { result := .error (.reported x.span source)
        sink := sink'
        diagnostics := diagnostics.push ⟨.emissionFailed source.message, x.span⟩ }
  /-- The emission fails behind the last statement. -/
  | failedAtEnd {analyzed diagnostics calls sink' t e u}
    (hanalyze : c.analyze unit = (.ok analyzed, diagnostics))
    (hclean : ∀ d ∈ diagnostics, d.severity ≠ .error)
    (hstatements : lowerStmts c.loweringSetting analyzed.statements
      (c.emissionStart analyzed diagnostics sink) = (.ok (), t))
    (hend : routineEnd false t = (.error e, u))
    (hnew : e.isReported = false)
    (htalk : Talk sink calls sink') (hceases : Ceases calls) :
    Concludes sink { result := .error e, sink := sink', diagnostics }

variable {c unit}

/-- The emission of a unit fails in its statements or behind them. -/
theorem error_of_lowerRoutine {cfg : Lowering.Setting} {body : List Stmt} {start u : Lowering.State σ}
    {e : CompileError} (hframe : start.frame = {})
    (h : Lowering.lowerRoutine cfg body false start = (.error e, u)) :
    (∃ t, lowerStmts cfg body start = (.error e, t)) ∨
      ∃ t v, lowerStmts cfg body start = (.ok (), t) ∧ routineEnd false t = (.error e, v) := by
  have hfresh : Lowering.updateFrame (fun _ => { returnsRef := false }) start = (.ok (), start) := by
    rw [Lowering.updateFrame, Pass.update_apply, ← hframe]
  rw [Lowering.lowerRoutine, Lowering.routineCode,
    Pass.bind_of_ok (show Lowering.frame start = (.ok start.frame, start) from rfl),
    Pass.bind_of_ok hfresh] at h
  obtain ⟨t, h⟩ := Pass.error_of_ensuring h
  rcases (Pass.bind_eq_error_iff _ _ _ _ _).mp h with hbody | ⟨_, v, hbody, hend⟩
  · exact Or.inl ⟨t, hbody⟩
  · exact Or.inr ⟨v, t, hbody, hend⟩

section

variable {sink : σ} {analyzed : AnalyzedUnit} {diagnostics : Array Diagnostic} {t : Lowering.State σ}

theorem emit_of_ok (h : Lowering.lowerRoutine c.loweringSetting analyzed.statements false
    (c.emissionStart analyzed diagnostics sink) = (.ok (), t)) :
    c.emit analyzed diagnostics sink =
      { result := .ok (analyzed.compiled true), sink := t.sink, diagnostics := t.diagnostics } := by
  simp only [emit, h]

theorem emit_of_error {e : CompileError} (h : Lowering.lowerRoutine c.loweringSetting analyzed.statements
    false (c.emissionStart analyzed diagnostics sink) = (.error e, t)) :
    c.emit analyzed diagnostics sink =
      { result := .error e, sink := t.sink, diagnostics := t.diagnostics } := by
  simp only [emit, h]

end

theorem concludes_emit {sink : σ} {analyzed : AnalyzedUnit} {diagnostics : Array Diagnostic}
    (hanalyze : c.analyze unit = (.ok analyzed, diagnostics))
    (hclean : ∀ d ∈ diagnostics, d.severity ≠ .error) :
    Concludes c unit sink (c.emit analyzed diagnostics sink) := by
  have hbody := Lowering.reports_lowerStmts (σ := σ) c.loweringSetting analyzed.statements
  have hroutine : Lowering.Fair (Lowering.lowerRoutine (σ := σ) c.loweringSetting analyzed.statements false) := by
    unfold Lowering.lowerRoutine
    infer_instance
  obtain ⟨calls, htalk, hends⟩ := hroutine.talk (c.emissionStart analyzed diagnostics sink)
  rcases hrun : Lowering.lowerRoutine c.loweringSetting analyzed.statements false
    (c.emissionStart analyzed diagnostics sink) with ⟨r, u⟩
  rw [hrun] at htalk hends
  cases r with
  | ok a =>
    obtain ⟨haccepted, hdiagnostics⟩ := hends
    have hsame : u.diagnostics = diagnostics := hdiagnostics
    rw [emit_of_ok hrun, hsame]
    exact .emitted hanalyze hclean htalk haccepted
  | error e =>
    rw [emit_of_error hrun]
    obtain ⟨hceases, ⟨hnew, hdiagnostics⟩ | ⟨span, source, rfl, hsource, hdiagnostics⟩⟩ := hends
    · have hsame : u.diagnostics = diagnostics := hdiagnostics
      rw [hsame]
      rcases error_of_lowerRoutine rfl hrun with ⟨t, hstatements⟩ | ⟨t, v, hstatements, hend⟩
      · rw [Lowering.lowerStmts_reported hstatements] at hnew
        exact nomatch hnew
      · exact .failedAtEnd hanalyze hclean hstatements hend hnew htalk hceases
    · rcases error_of_lowerRoutine rfl hrun with ⟨t, hstatements⟩ | ⟨t, v, -, hend⟩
      · obtain ⟨x, v, source', hinnermost, heq, -⟩ := Lowering.exists_innermost hstatements
        cases heq
        have hpushed : u.diagnostics = diagnostics.push ⟨.emissionFailed source.message, x.span⟩ := hdiagnostics
        rw [hpushed]
        refine .failedInStatement hanalyze hclean hinnermost ?_ hsource htalk hceases
        intro y w hy
        obtain ⟨source', w', hreported, -⟩ := hy.reported
        have heq := Except.error.inj (Prod.mk.inj (hreported.symm.trans hstatements)).1
        exact (CompileError.reported.inj heq).1
      · exact (Lowering.not_reported_of_plain hend rfl).elim

variable (c unit)

/-- A compilation ends in one of the five ways. -/
theorem concludes_compile (sink : σ) : Concludes c unit sink (c.compile unit sink) := by
  unfold compile
  rcases hanalyze : c.analyze unit with ⟨result, diagnostics⟩
  cases result with
  | error fault => exact .analysisFailed hanalyze (found_of_analyze hanalyze)
  | ok analyzed =>
    dsimp only
    split
    · rename_i herrors
      obtain ⟨i, hi, herror⟩ := Array.any_eq_true.mp herrors
      exact .notEmitted hanalyze ⟨diagnostics[i], Array.getElem_mem hi, by simpa [Diagnostic.isError] using herror⟩
    · rename_i herrors
      refine concludes_emit hanalyze fun d hd herror => herrors ?_
      exact Array.any_eq_true'.mpr ⟨d, hd, by simpa [Diagnostic.isError] using herror⟩

/-- After a refusal a transcript goes on with slots that are given back, and with nothing else. -/
theorem ceases_transcript (sink : σ) :
    Ceases (c.compile unit ({ inner := sink } : Transcript σ)).sink.calls := by
  have hends := concludes_compile c unit ({ inner := sink } : Transcript σ)
  generalize c.compile unit ({ inner := sink } : Transcript σ) = out at hends
  cases hends with
  | analysisFailed | notEmitted => trivial
  | emitted _ _ htalk haccepted =>
    rw [Transcript.talk_transcript htalk]
    exact haccepted.ceases
  | failedInStatement _ _ _ _ _ htalk hceases | failedAtEnd _ _ _ _ _ htalk hceases =>
    rw [Transcript.talk_transcript htalk]
    exact hceases

/-- **A compilation ends in one of the five ways, and stops where a call is refused.**  The calls that a
transcript in front of the sink has written down are all that the sink was told. -/
theorem compile_ends (sink : σ) :
    Concludes c unit sink (c.compile unit sink) ∧
      Ceases (c.compile unit ({ inner := sink } : Transcript σ)).sink.calls :=
  ⟨concludes_compile c unit sink, ceases_transcript c unit sink⟩

end Compiler
end PhpLowering
