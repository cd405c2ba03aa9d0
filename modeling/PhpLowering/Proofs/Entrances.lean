import PhpLowering.Proofs.Acceptance
import PhpLowering.Proofs.Analysis.Encounters
import PhpLowering.Proofs.Constants

/-!
# Where a `goto` leads

A loop or a `try` is meant to have no entrance for a `goto` (`Stmt.hasEntry`).  The analysis knows the
labels of a routine only by name, and the one place where it looks at what stands around a label is
when it leaves out dead code.

* `label_found_of_goto`: in an accepted unit, the label of a `goto` that is left belongs to a label
  statement that the analysis has come to in the same routine, and every loop or `try` around that
  statement could be reached when the analysis came to it.  Where the `goto` stands does not matter.
* `goto_enters_loop`: so a `goto` from outside into a loop that can be reached is accepted.
-/

namespace PhpLowering
namespace Stmt

/-- Whether a statement is a loop or a `try`, into which no `goto` should lead. -/
def isClosed : Stmt → Bool
  | .loop .. | .tryCatch .. => true
  | _ => false

/-- No `goto` of a routine leads into a loop or a `try` from outside. -/
def EntersNothing (body : List Stmt) : Prop :=
  ∀ g ∈ ownOf body, ∀ l ∈ ownOf body, ∀ name, g.goto? = some name → l.label? = some name →
    ∀ y ∈ ownOf body, y.isClosed = true → l ∈ y.own → g ∈ y.own

end Stmt

namespace Analysis

variable {cfg : Setting} {body inner : List Stmt} {s t u : State} {name : String}

/-- The routines that an analysis goes through: the statements it begins with, and the bodies of the
functions that it comes to. -/
inductive Routines (cfg : Setting) (body : List Stmt) (s : State) : List Stmt → State → Prop where
  | main : Routines cfg body s body s
  | function {tag : StmtTag} {head : FunctionHead} {inner : List Stmt} {dead : Bool} {t : State}
    (hcomes : Comes cfg body s (.function tag head inner dead) t) :
    Routines cfg body s inner (t.enterRoutine head.byRef)

/-- A loop or a `try` is left out where it is dead. -/
theorem isElidable_of_isClosed {y : Stmt} (h : y.isClosed = true) : isElidable y = true := by
  cases y with
  | loop | tryCatch => simp [isElidable, Stmt.isDeclaration, Stmt.isEmpty, Stmt.hasEntry]
  | _ => cases h

/-- A label that has an entry without a definition is reported at the end of its routine. -/
theorem reports_reportUndefined {entry : LabelEntry} (hlookup : s.scope.labels.lookup name = some entry)
    (hundefined : entry.definedAt = none) :
    s.reportUndefined.Reports ⟨.undefinedLabel name, entry.firstGoto.getD {}⟩ := by
  obtain ⟨before, behind, hlabels, -⟩ := List.lookup_eq_some_iff.mp hlookup
  have hkept (labels : List (String × LabelEntry)) (s : State) {d : Diagnostic} (hs : s.Reports d) :
      (labels.foldl (fun s p => if p.2.definedAt.isNone then
        s.report (.undefinedLabel p.1) (p.2.firstGoto.getD {}) else s) s).Reports d := by
    induction labels generalizing s with
    | nil => exact hs
    | cons p rest ih =>
      rw [List.foldl_cons]
      refine ih _ ?_
      split
      · exact Array.mem_push_of_mem _ hs
      · exact hs
  unfold State.reportUndefined
  rw [hlabels, List.foldl_append, List.foldl_cons]
  refine hkept behind _ ?_
  dsimp only
  rw [hundefined, Option.isNone_none, if_pos rfl]
  exact Array.mem_push_self

/-- What is missing at the end of a function is reported for the function. -/
theorem reports_function {tag : StmtTag} {head : FunctionHead} {dead : Bool} {home : Home StmtKind}
    {out : List Stmt} {d : Diagnostic} (hadmits : Admits cfg (.function tag head inner dead) s home u)
    (hrun : analyzeStmts cfg inner (u.enterRoutine head.byRef) = (.ok out, t))
    (hreports : t.reportUndefined.Reports d) :
    (analyzeStmt cfg (.function tag head inner dead) s).2.Reports d := by
  rw [analyzeStmt, hadmits]
  refine reports_bind_of_ok rfl (reports_bind_of_ok rfl ?_)
  refine reports_bind (x := Pass.ensuring _ _) ?_ fun _ => inferInstance
  rw [Pass.ensuring_apply, hrun, leaveRoutine_of_enclosing (enclosing_analyzeStmts inner hrun)]
  exact hreports

end Analysis

namespace Compiler

open Analysis (Comes Encounters FindsLabel Routines analyzeStmts)

variable {c : Compiler} {unit : SourceUnit} {d : Diagnostic}

/-- What the analysis of the statements of a unit reports is reported for the unit. -/
theorem mem_analyze_of_reports
    (h : (analyzeStmts (c.unitSetting unit) unit.statements (c.analysisStart unit)).2.Reports d) :
    d ∈ (c.analyze unit).2 := by
  rcases hrun : analyzeStmts (c.unitSetting unit) unit.statements (c.analysisStart unit) with ⟨r, t⟩
  rw [hrun] at h
  have hanalyze : (c.analyze unit).2 = match r with
      | .error _ => t.diagnostics
      | .ok _ => t.finish.diagnostics := by
    unfold unitSetting analysisStart at hrun
    unfold analyze
    dsimp only
    rw [hrun]
    cases r <;> rfl
  rw [hanalyze]
  cases r with
  | error f => exact h
  | ok out => exact Analysis.Stable.finish (P := Analysis.State.Reports d) h

/-- The routines of a unit begin in sound states, without labels. -/
theorem routine_start (hc : c.registry = .standard) {body : List Stmt} {s : Analysis.State}
    (h : Routines (c.unitSetting unit) unit.statements (c.analysisStart unit) body s) :
    Analysis.Sound s ∧ s.scope.labels = [] := by
  have hstart : Analysis.Sound (c.analysisStart unit) := ⟨RuleTable.regular_empty, nofun⟩
  cases h with
  | main => exact ⟨hstart, rfl⟩
  | function hcomes => exact ⟨⟨(hcomes.sound hc hstart).table, by rintro _ _ ⟨⟩⟩, rfl⟩

/-- A label without a definition at the end of a routine is an error of the unit. -/
theorem reports_of_routine {body out : List Stmt} {s t : Analysis.State}
    (h : Routines (c.unitSetting unit) unit.statements (c.analysisStart unit) body s)
    (hrun : analyzeStmts (c.unitSetting unit) body s = (.ok out, t)) (hreports : t.reportUndefined.Reports d) :
    d ∈ (c.analyze unit).2 := by
  cases h with
  | main =>
    have henclosing : t.enclosing = [] := Analysis.enclosing_analyzeStmts _ hrun
    have hfinish : t.finish = t.reportUndefined := by
      simp only [Analysis.State.finish, henclosing, List.foldl_nil]
    have hanalyze : (c.analyze unit).2 = t.finish.diagnostics := by
      unfold unitSetting analysisStart at hrun
      unfold analyze
      dsimp only
      rw [hrun]
    rw [hanalyze, hfinish]
    exact hreports
  | function hcomes =>
    refine mem_analyze_of_reports (hcomes.reported fun s' home hadmits => ?_)
    exact Analysis.reports_function hadmits hrun hreports

/-- **In an accepted unit the label of a `goto` is one that the analysis has come to, and every loop and
`try` around it could be reached.** -/
theorem label_found_of_goto (hc : c.registry = .standard) (h : hasErrors (c.analyze unit).2 = false)
    {body out : List Stmt} {s t : Analysis.State}
    (hroutine : Routines (c.unitSetting unit) unit.statements (c.analysisStart unit) body s)
    (hrun : analyzeStmts (c.unitSetting unit) body s = (.ok out, t)) {name : String}
    (hgoto : name ∈ Stmt.gotosOf out) :
    FindsLabel (c.unitSetting unit) body s name ∧
      ∀ around tag u, Encounters (c.unitSetting unit) body s around (.label tag name) u →
        ∀ y v, (y, v) ∈ around → y.isClosed = true → v.unreachable = false := by
  obtain ⟨hsound, hlabels⟩ := routine_start hc hroutine
  have hcfg : (c.unitSetting unit).registry = .standard := hc
  have hreworked := (Analysis.settles_analyzeStmts hcfg body s hsound).of_ok hrun
  obtain ⟨entry, hlookup, -⟩ := hreworked.goes name hgoto
  have hdefined : entry.definedAt.isSome = true := by
    -- otherwise the label would have been reported
    cases hdefined : entry.definedAt with
    | some span => rfl
    | none =>
      have hreported := reports_of_routine hroutine hrun (Analysis.reports_reportUndefined hlookup hdefined)
      exact nomatch hasErrors_eq_false_iff.mp h _ hreported
  constructor
  · rcases Analysis.defines_of_analyzeStmts name body hrun ⟨entry, hlookup, hdefined⟩ with
      ⟨before, hbefore, -⟩ | hfound
    · rw [hlabels] at hbefore
      exact nomatch hbefore
    · exact hfound
  · intro around tag u hencounters y v hmem hclosed
    exact hencounters.alive hmem (Analysis.isElidable_of_isClosed hclosed)

/-! ## A `goto` into a loop -/

/-- A `goto` behind a loop leads to a label in the loop. -/
def enteredLoop : SourceUnit :=
  { name := "unit", nextId := 4, span := {}
    statements := [
      .loop ⟨0, {}⟩ (.var ⟨1, {}, .none⟩ "x") [.label ⟨2, {}⟩ "L"],
      .goto ⟨3, {}⟩ "L"] }

/-- The loop is analysed where it can be reached, and so is the label in it. -/
theorem analyzeStmts_enteredLoop : ∃ t,
    analyzeStmts (({} : Compiler).unitSetting enteredLoop) enteredLoop.statements
        (({} : Compiler).analysisStart enteredLoop) =
      (.ok [.loop ⟨0, {}⟩ (.var ⟨1, {}, .read⟩ "x") [.label ⟨2, {}⟩ "L"], .goto ⟨3, {}⟩ "L"], t) ∧
      t.finish.diagnostics = #[] := by
  obtain ⟨cfg, hcfg⟩ : ∃ cfg, cfg = ({} : Compiler).unitSetting enteredLoop := ⟨_, rfl⟩
  obtain ⟨start, hstart⟩ : ∃ start, start = ({} : Compiler).analysisStart enteredLoop := ⟨_, rfl⟩
  -- the table is a hash map, which does not compute: what it is asked for is a lemma
  have hregistry : cfg.registry = .standard := by rw [hcfg]; rfl
  have hlabel := Analysis.analyzeStmt_label hregistry ⟨2, {}⟩ "L"
    (s := start.enterLoop) (by rw [hstart]; exact Std.HashMap.getElem?_empty)
  have hloop : Analysis.analyzeStmt cfg
      (.loop ⟨0, {}⟩ (.var ⟨1, {}, .none⟩ "x") [.label ⟨2, {}⟩ "L"]) start =
      (do
        return .loop ⟨0, {}⟩ (.var ⟨1, {}, .read⟩ "x")
          (← Analysis.inLoop (analyzeStmts cfg [.label ⟨2, {}⟩ "L"])) : Analyze Stmt) start := by
    rw [hcfg, hstart]
    with_unfolding_all rfl
  rw [← hcfg, ← hstart]
  simp only [enteredLoop, analyzeStmts, Pass.bind_apply, hloop, Analysis.inLoop, Pass.update_apply,
    Pass.ensuring_apply, hlabel]
  rw [hcfg, hstart]
  exact ⟨_, rfl, rfl⟩

theorem analyze_enteredLoop :
    hasErrors (({} : Compiler).analyze enteredLoop).2 = false ∧
      ∃ analyzed, (({} : Compiler).analyze enteredLoop).1 = .ok analyzed ∧ analyzed.statements =
        [.loop ⟨0, {}⟩ (.var ⟨1, {}, .read⟩ "x") [.label ⟨2, {}⟩ "L"], .goto ⟨3, {}⟩ "L"] := by
  obtain ⟨t, hrun, hreported⟩ := analyzeStmts_enteredLoop
  unfold unitSetting analysisStart at hrun
  unfold analyze
  dsimp only
  rw [hrun]
  dsimp only
  rw [hreported]
  exact ⟨hasErrors_eq_false_iff.mpr nofun, _, rfl, rfl⟩

theorem label_found_enteredLoop :
    hasErrors (({} : Compiler).analyze enteredLoop).2 = false ∧
      FindsLabel (({} : Compiler).unitSetting enteredLoop) enteredLoop.statements
        (({} : Compiler).analysisStart enteredLoop) "L" := by
  obtain ⟨herrors, -⟩ := analyze_enteredLoop
  obtain ⟨t, hrun, -⟩ := analyzeStmts_enteredLoop
  exact ⟨herrors, (label_found_of_goto rfl herrors .main hrun List.mem_cons_self).1⟩

/-- **A `goto` from outside into a loop is accepted.** -/
theorem goto_enters_loop :
    hasErrors (({} : Compiler).analyze enteredLoop).2 = false ∧
      ∃ analyzed, (({} : Compiler).analyze enteredLoop).1 = .ok analyzed ∧
        ¬ Stmt.EntersNothing analyzed.statements := by
  obtain ⟨herrors, analyzed, hanalyze, hstatements⟩ := analyze_enteredLoop
  refine ⟨herrors, analyzed, hanalyze, fun hnothing => ?_⟩
  rw [hstatements] at hnothing
  have hinside := hnothing (.goto ⟨3, {}⟩ "L") (by simp [Stmt.ownOf, Stmt.own]) (.label ⟨2, {}⟩ "L")
    (by simp [Stmt.ownOf, Stmt.own]) "L" rfl rfl
    (.loop ⟨0, {}⟩ (.var ⟨1, {}, .read⟩ "x") [.label ⟨2, {}⟩ "L"]) (by simp [Stmt.ownOf, Stmt.own]) rfl
    (by simp [Stmt.ownOf, Stmt.own])
  simp [Stmt.ownOf, Stmt.own] at hinside

end Compiler
end PhpLowering
