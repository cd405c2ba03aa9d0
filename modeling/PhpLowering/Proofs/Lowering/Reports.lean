import PhpLowering.Proofs.Lowering.Conduct

/-!
# Failures of statements are reported once

The code of a statement is made of plain code and of other statements.  A failure of plain code is
new, and the statement reports it; a failure that comes from another statement has been reported
there and is passed on.  So every failure of a statement has been reported exactly once
(`reports_lowerStmts`), whatever the sink and the registry are.
-/

namespace PhpLowering
namespace Lowering

set_option synthInstance.maxSize 100000

open Sink (Accepted Ceases)

variable {σ α : Type} [Sink σ]

/-- A step whose failures have been reported. -/
abbrev Reports (x : Emit σ α) : Prop :=
  Behaves Reported x

variable {E : CompileError → Array Diagnostic → Array Diagnostic → Prop} {x y : Emit σ α}

instance (priority := low) fair_of_reports [h : Reports x] : Fair x where
  talk s := by
    obtain ⟨calls, htalk, h⟩ := h.talk s
    refine ⟨calls, htalk, ?_⟩
    rcases hx : x s with ⟨r, t⟩
    rw [hx] at h
    cases r with
    | ok a => exact h
    | error e => exact ⟨h.1, Or.inr h.2⟩

/-- A failure that is new is reported, and one that is not is left alone. -/
instance reports_reporting (span : Span) {x : Emit σ Unit} [h : Fair x] : Reports (reporting span x) where
  talk s := by
    obtain ⟨calls, htalk, h⟩ := h.talk s
    unfold reporting
    rcases hx : x s with ⟨r, t⟩
    rw [hx] at htalk h
    cases r with
    | ok a => exact ⟨calls, htalk, h⟩
    | error e =>
      rcases h with ⟨hceases, ⟨hnew, hsame⟩ | ⟨place, source, rfl, hsource, hpushed⟩⟩
      · dsimp only at hsame ⊢
        rw [hnew, if_neg Bool.false_ne_true, hsame]
        exact ⟨calls, htalk, hceases, span, e, rfl, hnew, rfl⟩
      · exact ⟨calls, htalk, hceases, place, source, rfl, hsource, hpushed⟩

/-! ## Code between statements -/

variable (cfg : Setting)

section Parts

variable {body : Emit σ Unit} [Fair body] {part : Option (Emit σ Unit)}

theorem fair_branchCode (condition : Expr) (hpart : ∀ code, part = some code → Fair code) :
    Fair (branchCode cfg condition body part) := by
  unfold branchCode
  cases part with
  | none => dsimp only; infer_instance
  | some code =>
    have hcode := hpart code rfl
    dsimp only
    infer_instance

instance fair_loopCode (condition : Expr) : Fair (loopCode cfg condition body) := by
  unfold loopCode
  infer_instance

instance fair_routineCode (returnsRef : Bool) : Fair (routineCode returnsRef body) := by
  unfold routineCode
  infer_instance

instance fair_clauseCode (exception : Temp) (regionEnd : Label) (type : String) (var : Option String) :
    Fair (clauseCode exception regionEnd type var body) := by
  unfold clauseCode
  infer_instance

instance fair_handlersCode (clauses : Temp → Emit σ Unit) [∀ t, Fair (clauses t)] :
    Fair (handlersCode clauses) := by
  unfold handlersCode
  infer_instance

theorem fair_cleanupCode (hasClauses : Bool) (hpart : ∀ code, part = some code → Fair code) :
    Fair (cleanupCode hasClauses part) := by
  unfold cleanupCode
  cases part with
  | none => dsimp only; infer_instance
  | some code =>
    have hcode := hpart code rfl
    dsimp only
    infer_instance

theorem fair_tryCode (hasClauses : Bool) {clauses : Label → Temp → Emit σ Unit}
    (hclauses : ∀ l t, Fair (clauses l t)) (hpart : ∀ code, part = some code → Fair code) :
    Fair (tryCode cfg body hasClauses clauses part) := by
  have hcleanup := fair_cleanupCode hasClauses hpart
  have hregion : Fair (regionCode body hasClauses clauses part) := by
    unfold regionCode
    dsimp only
    infer_instance
  unfold tryCode
  infer_instance

end Parts

/-! ## Statements -/

/-- A statement reports what fails in it, if the code of its rule is fair. -/
theorem reports_statement {kind : StmtKind} {tag : StmtTag} {code : Home StmtKind → Emit σ Unit}
    (h : ∀ home, Fair (code home)) : Reports (statement cfg kind tag code) := by
  have hpoint : Reports (Pass.update fun s => { s with sink := Sink.sequencePoint tag.span s.sink } :
      Emit σ Unit) :=
    behaves_told (.sequencePoint tag.span) (fun _ => rfl) fun _ => rfl
  have hrule : Fair (byStmtRule cfg kind tag code) := by
    unfold byStmtRule
    infer_instance
  unfold statement
  infer_instance

mutual

/-- **Whatever fails in a statement has been reported once when the statement is done.** -/
theorem reports_lowerStmt : ∀ x : Stmt, Reports (lowerStmt cfg x : Emit σ Unit)
  | .expression .. | .echo .. | .jump .. | .goto .. | .label .. | .throw .. | .unset .. | .constDecl ..
  | .empty .. => by
    rw [lowerStmt]
    exact reports_statement cfg fun _ => inferInstance
  | .block _ body => by
    have hbody := reports_lowerStmts body
    rw [lowerStmt]
    exact reports_statement cfg fun _ => inferInstance
  | .branch _ condition thenBody elseBody => by
    have hthen := reports_lowerStmts thenBody
    have helse := reports_lowerOptional elseBody
    rw [lowerStmt]
    exact reports_statement cfg fun _ => fair_branchCode cfg condition fun code hcode =>
      have := helse code hcode
      inferInstance
  | .loop _ condition body => by
    have hbody := reports_lowerStmts body
    rw [lowerStmt]
    exact reports_statement cfg fun _ => inferInstance
  | .tryCatch _ body catches cleanup => by
    have hbody := reports_lowerStmts body
    have hclauses := reports_lowerClauses catches
    have hcleanup := reports_lowerOptional cleanup
    rw [lowerStmt]
    refine reports_statement cfg fun _ => fair_tryCode cfg _ (fun _ _ => ?_) fun code hcode => ?_
    · infer_instance
    · have := hcleanup code hcode
      infer_instance
  | .function _ head body _ => by
    have hbody := reports_lowerStmts body
    rw [lowerStmt]
    exact reports_statement cfg fun _ => inferInstance
termination_by structural x => x

theorem reports_lowerStmts : ∀ body : List Stmt, Reports (lowerStmts cfg body : Emit σ Unit)
  | [] => behaves_pure ()
  | x :: rest => by
    have hx := reports_lowerStmt x
    have hrest := reports_lowerStmts rest
    rw [lowerStmts]
    infer_instance
termination_by structural body => body

theorem reports_lowerOptional : ∀ (part : Option (List Stmt)) (code : Emit σ Unit),
    lowerOptional cfg part = some code → Reports code
  | none, _, h => nomatch h
  | some body, _, h => Option.some.inj h ▸ reports_lowerStmts body
termination_by structural part => part

theorem reports_lowerClauses : ∀ (catches : List Catch) (regionEnd : Label) (exception : Temp),
    Fair (lowerClauses cfg catches regionEnd exception : Emit σ Unit)
  | [], _, _ => behaves_pure ()
  | .clause _ type var body resolved :: rest, regionEnd, exception => by
    have hbody := reports_lowerStmts body
    have hrest := reports_lowerClauses rest regionEnd exception
    rw [lowerClauses]
    infer_instance
termination_by structural catches => catches

end

end Lowering
end PhpLowering
