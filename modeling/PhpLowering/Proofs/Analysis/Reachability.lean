import PhpLowering.Proofs.Analysis.Turns
import PhpLowering.Proofs.Tree.Paths

/-!
# What the flag for dead code says about executions

The analysis carries one flag that says whether the next statement can be reached.  Statements set it
behind a jump, and clear it where two ways come together; branches, loops, `try` and functions save and
restore it.  **`alive_analyzeStmts`** is what the flag comes down to: where statements can be reached
and can be executed to their end, what follows them can be reached.

Conditions go as the analysis has folded them: `Folded cfg may body s` says that `may` allows nothing
else to those conditions that the analysis of `body` comes to.
-/

namespace PhpLowering

/-- The condition of a branch or a loop. -/
def Stmt.condition? : Stmt → Option Expr
  | .branch _ condition _ _ | .loop _ condition _ => some condition
  | _ => none

namespace Analysis

open Pass (bind_eq_ok_iff)

variable {cfg : Setting} {may : Expr → Bool → Prop} {s t u : State}

/-- A branch is only decided by its condition. -/
theorem decided?_of_decision {c : Evaluation} {thenBody : List Stmt} {elseBody : Option (List Stmt)} {b : Bool}
    (h : decision cfg c thenBody elseBody = some b) : decided? cfg c = some b := by
  unfold decision at h
  split at h
  · exact nomatch h
  · exact h

variable (cfg may) in
/-- Conditions that the analysis has folded do not turn out the other way. -/
def Folded (body : List Stmt) (s : State) : Prop :=
  ∀ x t e c u b, Comes cfg body s x t → x.condition? = some e → analyze cfg e .read t = (.ok c, u) →
    decided? cfg c = some b → ¬ may e (!b)

namespace Folded

variable {y z : Stmt} {rest inner : List Stmt} {home : Home StmtKind}

theorem head (h : Folded cfg may (y :: rest) s) : Folded cfg may [y] s :=
  fun x t e c u b hcomes => h x t e c u b hcomes.mono

theorem tail (h : Folded cfg may (y :: rest) s) (hdone : analyzeStmt cfg y s = (.ok z, t)) :
    Folded cfg may rest t :=
  fun x v e c u b hcomes => h x v e c u b (.later hdone hcomes)

theorem part (h : Folded cfg may (y :: rest) s) (hadmits : Admits cfg y s home t)
    (hpart : Part cfg y t inner u) : Folded cfg may inner u :=
  fun x v e c w b hcomes => h x v e c w b (.within hadmits hpart hcomes)

/-- A branch that is decided does not go the other way. -/
theorem decision {tag : StmtTag} {condition : Expr} {thenBody : List Stmt} {elseBody : Option (List Stmt)}
    {c : Evaluation} {b : Bool} (h : Folded cfg may [.branch tag condition thenBody elseBody] s)
    (hadmits : Admits cfg (.branch tag condition thenBody elseBody) s home t)
    (hcondition : analyze cfg condition .read t = (.ok c, u))
    (hdecision : decision cfg c thenBody elseBody = some b) : ¬ may condition (!b) :=
  h _ t condition c u b (.here hadmits) rfl hcondition (decided?_of_decision hdecision)

end Folded

/-! ## Parts that end alive -/

/-- Behind the branches of a condition that is not decided the code can be reached. -/
theorem alive_analyzeElse {entry : Reachability} {part out : Option (List Stmt)}
    (h : analyzeElse cfg entry part s = (.ok out, t)) (hs : s.unreachable = false) :
    t.unreachable = false := by
  cases part with
  | none =>
    cases h
    exact hs
  | some body =>
    obtain ⟨_, _, -, rfl⟩ := analyzeElse_eq_ok h
    rfl

/-- Behind the clauses of a `try` the code can be reached. -/
theorem alive_analyzeCatches {catches out : List Catch} (h : analyzeCatches cfg catches s = (.ok out, t))
    (hs : s.unreachable = false) : t.unreachable = false := by
  induction catches generalizing s out with
  | nil =>
    cases h
    exact hs
  | cons clause rest ih =>
    obtain ⟨span, type, var, handler, resolved⟩ := clause
    obtain ⟨_, _, _, -, hrest⟩ := analyzeCatches_cons_eq_ok h
    exact ih hrest rfl

/-- A routine does not change whether the code around it can be reached. -/
theorem alive_leaveRoutine {body out : List Stmt} {returnsRef : Bool} (hs : s.unreachable = false)
    (h : analyzeStmts cfg body (s.enterRoutine returnsRef) = (.ok out, t)) :
    t.leaveRoutine.unreachable = false := by
  rw [leaveRoutine_of_enclosing (enclosing_analyzeStmts body h)]
  exact hs

/-- Behind a branch the code can be reached if it can behind the part that is taken. -/
theorem alive_branch {tag : StmtTag} {condition : Expr} {thenBody : List Stmt} {elseBody : Option (List Stmt)}
    {y : Stmt} (hthenPart : ∀ s out t, analyzeStmts cfg thenBody s = (.ok out, t) → Folded cfg may thenBody s →
      Stmt.ExecutesAll may thenBody .done → s.unreachable = false → t.unreachable = false)
    (helsePart : ∀ s out t, analyzeOptional cfg elseBody s = (.ok out, t) →
      (∀ body, elseBody = some body → Folded cfg may body s ∧ Stmt.ExecutesAll may body .done) →
      s.unreachable = false → t.unreachable = false)
    (h : analyzeStmt cfg (.branch tag condition thenBody elseBody) s = (.ok y, t))
    (hfolded : Folded cfg may [.branch tag condition thenBody elseBody] s)
    (hx : (Stmt.branch tag condition thenBody elseBody).Executes may .done) (hs : s.unreachable = false) :
    t.unreachable = false := by
  cases analyzeStmt_turn h with
  | leftOut _ hdead => exact absurd (hs.symm.trans hdead) Bool.false_ne_true
  | quiet hquiet => exact hquiet.alive hs
  | thenTaken hadmits hquiet hcondition hdecision hdead hthen =>
    have halive := (hquiet.trans (quiet_analyze hcondition)).alive hs
    have hnot := hfolded.decision hadmits hcondition hdecision
    obtain ⟨_, _, -, rfl⟩ := asDead_eq_ok hdead
    cases hx with
    | step hstep => exact absurd hstep Bool.false_ne_true
    | thenPart _ hall =>
      exact hthenPart _ _ _ hthen (hfolded.part hadmits (.thenTaken hcondition hdecision hdead)) hall halive
    | elsePart hmay | noElse hmay => exact (hnot hmay).elim
  | elseTaken hadmits hquiet hcondition hdecision hdead helse =>
    have halive := (hquiet.trans (quiet_analyze hcondition)).alive hs
    have hnot := hfolded.decision hadmits hcondition hdecision
    obtain ⟨_, _, -, rfl⟩ := asDead_eq_ok hdead
    refine helsePart _ _ _ helse ?_ halive
    rintro body rfl
    refine ⟨hfolded.part hadmits (.elseTaken hcondition hdecision hdead), ?_⟩
    cases hx with
    | step hstep => exact absurd hstep Bool.false_ne_true
    | thenPart hmay => exact (hnot hmay).elim
    | elsePart _ hall => exact hall
  | noneTaken hadmits hquiet hcondition hdecision hdead =>
    obtain ⟨_, _, -, rfl⟩ := asDead_eq_ok hdead
    exact (hquiet.trans (quiet_analyze hcondition)).alive hs
  | branch _ _ _ _ _ hthen helse =>
    obtain ⟨_, -, rfl⟩ := inConditional_eq_ok hthen
    exact alive_analyzeElse helse rfl

/-! ## The whole -/

mutual

theorem alive_analyzeStmt : ∀ (x : Stmt) {s : State} {y : Stmt} {t : State},
    analyzeStmt cfg x s = (.ok y, t) → Folded cfg may [x] s → x.Executes may .done →
    s.unreachable = false → t.unreachable = false
  | .expression .., s, _, _, h, _, _, hs | .echo .., s, _, _, h, _, _, hs | .unset .., s, _, _, h, _, _, hs
  | .constDecl .., s, _, _, h, _, _, hs | .empty .., s, _, _, h, _, _, hs => by
    cases analyzeStmt_turn h with
    | leftOut _ hdead => exact absurd (hs.symm.trans hdead) Bool.false_ne_true
    | quiet hquiet => exact hquiet.alive hs
  | .jump .., _, _, _, h, _, hx, hs => by
    -- nothing behind a jump is executed
    cases hx with
    | step hstep => exact absurd hstep Bool.false_ne_true
  | .throw .., _, _, _, h, _, hx, hs => by
    cases hx with
    | step hstep => exact absurd hstep Bool.false_ne_true
  | .goto .., _, _, _, h, _, hx, hs => by
    cases hx with
    | step hstep => exact absurd hstep Bool.false_ne_true
  | .label .., _, _, _, h, _, _, hs => by
    cases analyzeStmt_turn h with
    | leftOut _ hdead => exact absurd (hs.symm.trans hdead) Bool.false_ne_true
    | quiet hquiet => exact hquiet.alive hs
    | label _ _ halive hrun =>
      rw [State.unreachable, flow_analyzeLabel hrun]
      exact halive
  | .block _ body, _, _, _, h, hfolded, hx, hs => by
    cases analyzeStmt_turn h with
    | leftOut _ hdead => exact absurd (hs.symm.trans hdead) Bool.false_ne_true
    | quiet hquiet => exact hquiet.alive hs
    | block hadmits hquiet hbody =>
      cases hx with
      | step hstep => exact absurd hstep Bool.false_ne_true
      | block hall =>
        exact alive_analyzeStmts body hbody (hfolded.part hadmits (.block ..)) hall (hquiet.alive hs)
  | .branch _ _ thenBody elseBody, _, _, _, h, hfolded, hx, hs =>
    alive_branch (fun _ _ _ => alive_analyzeStmts thenBody) (fun _ _ _ => alive_analyzeOptional elseBody) h hfolded hx hs
  | .loop _ condition body, _, _, _, h, _, _, hs => by
    cases analyzeStmt_turn h with
    | leftOut _ hdead => exact absurd (hs.symm.trans hdead) Bool.false_ne_true
    | quiet hquiet => exact hquiet.alive hs
    | loopDead _ _ _ _ hbody | loop _ _ _ _ _ hbody =>
      obtain ⟨_, -, rfl⟩ := inLoop_eq_ok hbody
      rfl
  | .tryCatch _ body catches cleanup, _, _, _, h, hfolded, hx, hs => by
    cases analyzeStmt_turn h with
    | leftOut _ hdead => exact absurd (hs.symm.trans hdead) Bool.false_ne_true
    | quiet hquiet => exact hquiet.alive hs
    | tryCatch hadmits _ hbody hcatches hcleanup =>
      have hall := Stmt.executesAll_cleanup_of_done hx
      obtain ⟨_, -, rfl⟩ := inConditional_eq_ok hbody
      refine alive_analyzeOptional cleanup hcleanup ?_ (alive_analyzeCatches hcatches rfl)
      rintro body rfl
      exact ⟨hfolded.part hadmits (.cleanup hbody hcatches), hall⟩
  | .function _ head body _, _, _, _, h, _, _, hs => by
    cases analyzeStmt_turn h with
    | leftOut _ hdead => exact absurd (hs.symm.trans hdead) Bool.false_ne_true
    | quiet hquiet => exact hquiet.alive hs
    | function _ hquiet hbody => exact alive_leaveRoutine (hquiet.alive hs) hbody
termination_by structural x => x

/-- **Behind statements that can be reached and can be executed to their end, the code can be reached.** -/
theorem alive_analyzeStmts : ∀ (body : List Stmt) {s : State} {out : List Stmt} {t : State},
    analyzeStmts cfg body s = (.ok out, t) → Folded cfg may body s → Stmt.ExecutesAll may body .done →
    s.unreachable = false → t.unreachable = false
  | [], _, _, _, h, _, _, hs => by
    cases h
    exact hs
  | x :: rest, _, _, _, h, hfolded, hall, hs => by
    rw [analyzeStmts] at h
    obtain ⟨y, u, hrun, h⟩ := (bind_eq_ok_iff ..).mp h
    obtain ⟨ys, v, hrest, h⟩ := (bind_eq_ok_iff ..).mp h
    cases h
    obtain ⟨hx, hall⟩ := Stmt.executesAll_cons_done hall
    exact alive_analyzeStmts rest hrest (hfolded.tail hrun) hall (alive_analyzeStmt x hrun hfolded.head hx hs)
termination_by structural body => body

theorem alive_analyzeOptional : ∀ (part : Option (List Stmt)) {s : State} {out : Option (List Stmt)}
    {t : State}, analyzeOptional cfg part s = (.ok out, t) →
    (∀ body, part = some body → Folded cfg may body s ∧ Stmt.ExecutesAll may body .done) →
    s.unreachable = false → t.unreachable = false
  | none, _, _, _, h, _, hs => by
    cases h
    exact hs
  | some body, _, _, _, h, hbody, hs => by
    rw [analyzeOptional] at h
    obtain ⟨out, u, hrun, h⟩ := (bind_eq_ok_iff ..).mp h
    cases h
    obtain ⟨hfolded, hall⟩ := hbody body rfl
    exact alive_analyzeStmts body hrun hfolded hall hs
termination_by structural part => part

end

end Analysis
end PhpLowering
