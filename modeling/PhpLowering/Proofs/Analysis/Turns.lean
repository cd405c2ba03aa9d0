import PhpLowering.Proofs.Analysis.Containment
import PhpLowering.Proofs.Analysis.Course

/-!
# How a statement is analysed

A statement that is analysed successfully has been left out, or let pass, or handed to the rule made
for it, which has analysed its parts in a fixed order.  `Turn` has a constructor for each of these
ways, with the runs of the parts as equations, and `analyzeStmt_turn` says that there is no other.  What
is to be shown about the analysis of statements is then shown by the cases of `Turn`, without opening
`analyzeStmt` again.

`Quiet s t` says what holds between the states around a step that is no concern of the flow of control:
the labels and the routines stay as they are, and code that can be reached can still be reached.
-/

namespace PhpLowering

/-- Whether a statement stands for one that was left out as dead code. -/
def Stmt.isUnreachable : Stmt → Bool
  | .empty _ .unreachable => true
  | _ => false

namespace Analysis

open Pass (bind_eq_ok_iff)

variable {α β : Type} {cfg : Setting} {s t u : State}

/-! ## Quiet steps -/

/-- Nothing happens to labels and routines, and what could be reached still can. -/
structure Quiet (s t : State) : Prop where
  scope : t.scope = s.scope
  enclosing : t.enclosing = s.enclosing
  alive : s.unreachable = false → t.unreachable = false

namespace Quiet

theorem refl (s : State) : Quiet s s :=
  ⟨rfl, rfl, id⟩

theorem trans (h : Quiet s t) (h' : Quiet t u) : Quiet s u :=
  ⟨h'.scope.trans h.scope, h'.enclosing.trans h.enclosing, fun hs => h'.alive (h.alive hs)⟩

/-- Steps that do not touch the flow of control. -/
theorem of_eq (hflow : t.flow = s.flow) (hscope : t.scope = s.scope) (henclosing : t.enclosing = s.enclosing) :
    Quiet s t :=
  ⟨hscope, henclosing, fun hs => by rwa [State.unreachable, hflow]⟩

end Quiet

instance robust_quiet (s : State) : Robust (Quiet s) where
  alike h hflow hscope henclosing _ _ := h.trans (.of_eq hflow hscope henclosing)
  enter h := h.trans ⟨rfl, rfl, id⟩
  leave h := h.trans ⟨rfl, rfl, fun _ => rfl⟩
  warn _ _ _ h := h.trans (.of_eq rfl rfl rfl)

theorem Preserves.quiet {x : Analyze α} {a : α} (h : Preserves (Quiet s) x) (hrun : x s = (.ok a, t)) :
    Quiet s t := by
  have ht := h.keep s (.refl s)
  rwa [hrun] at ht

theorem quiet_analyze {e : Expr} {access : Access} {c : Evaluation} (h : analyze cfg e access s = (.ok c, t)) :
    Quiet s t :=
  (preserves_analyze cfg e access).quiet h

theorem quiet_keep {c : Evaluation} {e : Expr} (h : keep c s = (.ok e, t)) : Quiet s t :=
  (preserves_keep c).quiet h

theorem quiet_analyzeAll {access : Access} {es es' : List Expr} (h : analyzeAll cfg access es s = (.ok es', t)) :
    Quiet s t :=
  (preserves_analyzeAll cfg access es).quiet h

theorem quiet_resolveType (name : String) (span : Span) (s : State) :
    Quiet s (s.resolveType cfg name span).2 := by
  unfold State.resolveType
  split
  · exact .refl s
  · exact .of_eq rfl rfl rfl

theorem quiet_checkLevel (level : Option Expr) (span : Span) (s : State) :
    Quiet s (checkLevel level span s) := by
  unfold checkLevel
  dsimp only
  cases staticLevel? level <;> dsimp only <;> split
  all_goals exact .of_eq rfl rfl rfl

theorem quiet_reportUnreachable (options : Options) (span : Span) (s : State) :
    Quiet s (s.reportUnreachable options span) := by
  unfold State.reportUnreachable
  dsimp only
  split
  · exact .refl s
  · split <;> exact ⟨rfl, rfl, id⟩

theorem quiet_constDecl {tag : StmtTag} {name : String} {value : Expr} {y : Stmt}
    (h : analyzeConstDecl cfg tag name value s = (.ok y, t)) : Quiet s t ∧ y.isUnreachable = false := by
  obtain ⟨e, u, hvalue, h⟩ := (bind_eq_ok_iff ..).mp h
  have hu := quiet_analyze hvalue
  cases hv : e.value? with
  | none =>
    rw [hv] at h
    obtain ⟨node, v, hkeep, h⟩ := (bind_eq_ok_iff ..).mp h
    cases h
    exact ⟨hu.trans (quiet_keep hkeep), rfl⟩
  | some v =>
    rw [hv] at h
    obtain ⟨fresh, w, hdeclare, h⟩ := (bind_eq_ok_iff ..).mp h
    obtain ⟨node, w', hkeep, h⟩ := (bind_eq_ok_iff ..).mp h
    cases h
    have hw : w = (u.declareConstant cfg name v tag.span).2 := (congrArg Prod.snd hdeclare).symm
    refine ⟨hu.trans (Quiet.trans ?_ (quiet_keep hkeep)), rfl⟩
    rw [hw]
    unfold State.declareConstant
    split <;> exact .of_eq rfl rfl rfl

theorem quiet_expression {tag : StmtTag} {e : Expr} {y : Stmt}
    (h : analyzeExpression cfg tag e s = (.ok y, t)) : Quiet s t ∧ y.isUnreachable = false := by
  obtain ⟨ev, u, hanalyze, h⟩ := (bind_eq_ok_iff ..).mp h
  cases ev with
  | value v node =>
    cases h
    exact ⟨(quiet_analyze hanalyze).trans (.of_eq rfl rfl rfl), rfl⟩
  | residual node =>
    cases h
    exact ⟨quiet_analyze hanalyze, rfl⟩

theorem quiet_jump {tag : StmtTag} {kind : JumpKind} {expr : Option Expr} {y : Stmt}
    (h : analyzeJump cfg tag kind expr s = (.ok y, t)) :
    ∃ e u, y = .jump tag kind e ∧ Quiet s u ∧ t = u.enterUnreachable := by
  have hend {e : Option Expr} {u : State} (hu : Quiet s u)
      (hrest : (do
        if kind ≠ .return then Pass.update (checkLevel e tag.span)
        Pass.update State.enterUnreachable
        return .jump tag kind e : Analyze Stmt) u = (.ok y, t)) :
      ∃ e u, y = .jump tag kind e ∧ Quiet s u ∧ t = u.enterUnreachable := by
    split at hrest
    · cases hrest
      exact ⟨e, _, rfl, hu.trans (quiet_checkLevel e tag.span u), rfl⟩
    · cases hrest
      exact ⟨e, u, rfl, hu, rfl⟩
  cases expr with
  | none => exact hend (.refl s) h
  | some e =>
    obtain ⟨returnsRef, _, hpeek, h⟩ := (bind_eq_ok_iff ..).mp h
    cases hpeek
    obtain ⟨node, v, hkept, h⟩ := (bind_eq_ok_iff ..).mp h
    obtain ⟨ev, w, hanalyze, hkeep⟩ := (bind_eq_ok_iff ..).mp hkept
    exact hend ((quiet_analyze hanalyze).trans (quiet_keep hkeep)) h

/-! ## Parts -/

theorem inConditional_eq_ok {x : Analyze α} {a : α} (h : inConditional x s = (.ok a, t)) :
    ∃ u, x s.enterConditional = (.ok a, u) ∧ t = u.leaveConditional := by
  obtain ⟨ha, rfl⟩ := Prod.mk.inj h
  exact ⟨_, Prod.ext ha rfl, rfl⟩

theorem inLoop_eq_ok {x : Analyze α} {a : α} (h : inLoop x s = (.ok a, t)) :
    ∃ u, x s.enterLoop = (.ok a, u) ∧ t = u.leaveLoop := by
  obtain ⟨ha, rfl⟩ := Prod.mk.inj h
  exact ⟨_, Prod.ext ha rfl, rfl⟩

theorem attempt_of_ok {x : Analyze α} {a : α} (h : x s = (.ok a, t)) : x.attempt s = (.ok (.ok a), t) := by
  rw [Pass.attempt_apply, h]

theorem asDead_eq_ok {x : Analyze α} (h : asDead x s = (.ok (), t)) :
    ∃ a u, x s.enterDead = (.ok a, u) ∧ t = u.restore s.reachability := by
  obtain ⟨saved, _, hpeek, h⟩ := (bind_eq_ok_iff ..).mp h
  cases hpeek
  obtain ⟨_, _, henter, h⟩ := (bind_eq_ok_iff ..).mp h
  cases henter
  obtain ⟨a, u, hx, h⟩ := (bind_eq_ok_iff ..).mp h
  cases h
  obtain ⟨ha, hu⟩ := Prod.mk.inj hx
  exact ⟨a, _, Prod.ext ha rfl, hu.symm⟩

/-- The second branch goes on as the first one was entered. -/
theorem analyzeElse_eq_ok {entry : Reachability} {body : List Stmt} {out : Option (List Stmt)}
    (h : analyzeElse cfg entry (some body) s = (.ok out, t)) :
    ∃ b u, analyzeStmts cfg body (s.restore entry).enterConditional = (.ok b, u) ∧ t = u.leaveConditional := by
  rw [analyzeElse] at h
  obtain ⟨_, _, hrestore, h⟩ := (bind_eq_ok_iff ..).mp h
  cases hrestore
  obtain ⟨b, v, hbody, h⟩ := (bind_eq_ok_iff ..).mp h
  cases h
  obtain ⟨u, hrun, rfl⟩ := inConditional_eq_ok hbody
  exact ⟨b, u, hrun, rfl⟩

/-- The clauses of a `try` are analysed one behind the other. -/
theorem analyzeCatches_cons_eq_ok {span : Span} {type : String} {var : Option String} {handler : List Stmt}
    {resolved : Option String} {rest out : List Catch}
    (h : analyzeCatches cfg (.clause span type var handler resolved :: rest) s = (.ok out, t)) :
    ∃ b u es, analyzeStmts cfg handler (s.resolveType cfg type span).2.enterConditional = (.ok b, u) ∧
      analyzeCatches cfg rest u.leaveConditional = (.ok es, t) := by
  rw [analyzeCatches] at h
  obtain ⟨found, v, hresolve, h⟩ := (bind_eq_ok_iff ..).mp h
  have hv : v = (s.resolveType cfg type span).2 := (congrArg Prod.snd hresolve).symm
  obtain ⟨b, w, hhandler, h⟩ := (bind_eq_ok_iff ..).mp h
  obtain ⟨es, w', hrest, h⟩ := (bind_eq_ok_iff ..).mp h
  cases h
  obtain ⟨u, hrun, rfl⟩ := inConditional_eq_ok hhandler
  exact ⟨b, u, es, hv ▸ hrun, hrest⟩

theorem analyzeCatches_cons_of_ok {span : Span} {type : String} {handler : List Stmt} {rest es : List Catch}
    {b : List Stmt} (var resolved : Option String)
    (hhandler : analyzeStmts cfg handler (s.resolveType cfg type span).2.enterConditional = (.ok b, u))
    (hrest : analyzeCatches cfg rest u.leaveConditional = (.ok es, t)) :
    ∃ es, analyzeCatches cfg (.clause span type var handler resolved :: rest) s = (.ok es, t) := by
  have hinner : inConditional (analyzeStmts cfg handler) (s.resolveType cfg type span).2 =
      (.ok b, u.leaveConditional) := by
    show (_, State.leaveConditional _) = _
    rw [hhandler]
  rw [analyzeCatches, Pass.bind_apply]
  dsimp only [Pass.transform]
  rw [Pass.bind_apply, hinner]
  dsimp only
  rw [Pass.bind_apply, hrest]
  exact ⟨_, rfl⟩

/-! ## The ways of a statement -/

variable (cfg) in
/-- The ways in which a statement is analysed, each with what it becomes and where the analysis ends. -/
inductive Turn : Stmt → State → Stmt → State → Prop where
  /-- It is dead. -/
  | leftOut {x s t} (id : Nat) (hdead : s.unreachable = true) (helidable : isElidable x = true)
    (hscope : t.scope = s.scope) (henclosing : t.enclosing = s.enclosing) :
    Turn x s (.empty ⟨id, x.span⟩ .unreachable) t
  /-- It is let pass, or it has no parts and is no concern of the flow of control. -/
  | quiet {x s y t} (hquiet : Quiet s t) (hy : y.isUnreachable = true → x.isEmpty = true) : Turn x s y t
  | jump {tag kind e s e' u} (hquiet : Quiet s u) :
    Turn (.jump tag kind e) s (.jump tag kind e') u.enterUnreachable
  | throw {tag e s e' u} (hquiet : Quiet s u) : Turn (.throw tag e) s (.throw tag e') u.enterUnreachable
  | goto {tag l s home u} (hadmits : Admits cfg (.goto tag l) s home u) (hquiet : Quiet s u) :
    Turn (.goto tag l) s (.goto tag l) (u.gotoLabel l tag.span).enterUnreachable
  | label {tag name s home u t} (hadmits : Admits cfg (.label tag name) s home u) (hquiet : Quiet s u)
    (halive : u.unreachable = false) (hrun : analyzeLabel tag name home u = (.ok (.label tag name), t)) :
    Turn (.label tag name) s (.label tag name) t
  | block {tag body s home u out t} (hadmits : Admits cfg (.block tag body) s home u) (hquiet : Quiet s u)
    (hbody : analyzeStmts cfg body u = (.ok out, t)) : Turn (.block tag body) s (.block tag out) t
  | thenTaken {tag condition thenBody elseBody s home u c v w out t}
    (hadmits : Admits cfg (.branch tag condition thenBody elseBody) s home u) (hquiet : Quiet s u)
    (hcondition : analyze cfg condition .read u = (.ok c, v))
    (hdecision : decision cfg c thenBody elseBody = some true)
    (hdead : asDead (analyzeOptional cfg elseBody) v = (.ok (), w))
    (hthen : analyzeStmts cfg thenBody w = (.ok out, t)) :
    Turn (.branch tag condition thenBody elseBody) s (.block tag out) t
  | elseTaken {tag condition thenBody elseBody s home u c v w out t}
    (hadmits : Admits cfg (.branch tag condition thenBody elseBody) s home u) (hquiet : Quiet s u)
    (hcondition : analyze cfg condition .read u = (.ok c, v))
    (hdecision : decision cfg c thenBody elseBody = some false)
    (hdead : asDead (analyzeStmts cfg thenBody) v = (.ok (), w))
    (helse : analyzeOptional cfg elseBody w = (.ok (some out), t)) :
    Turn (.branch tag condition thenBody elseBody) s (.block tag out) t
  | noneTaken {tag condition thenBody s home u c v w}
    (hadmits : Admits cfg (.branch tag condition thenBody none) s home u) (hquiet : Quiet s u)
    (hcondition : analyze cfg condition .read u = (.ok c, v))
    (hdecision : decision cfg c thenBody none = some false)
    (hdead : asDead (analyzeStmts cfg thenBody) v = (.ok (), w)) :
    Turn (.branch tag condition thenBody none) s (w.emptyStmt tag.span .skipped).1
      (w.emptyStmt tag.span .skipped).2
  | branch {tag condition thenBody elseBody s home u c v e w a w' b t}
    (hadmits : Admits cfg (.branch tag condition thenBody elseBody) s home u) (hquiet : Quiet s u)
    (hcondition : analyze cfg condition .read u = (.ok c, v))
    (hdecision : decision cfg c thenBody elseBody = none) (hkeep : keep c v = (.ok e, w))
    (hthen : inConditional (analyzeStmts cfg thenBody) w = (.ok a, w'))
    (helse : analyzeElse cfg w.reachability elseBody w' = (.ok b, t)) :
    Turn (.branch tag condition thenBody elseBody) s (.branch tag e a b) t
  | loopDead {tag condition body s home u c v w}
    (hadmits : Admits cfg (.loop tag condition body) s home u) (hquiet : Quiet s u)
    (hcondition : analyze cfg condition .read u = (.ok c, v)) (hdecided : decided? cfg c = some false)
    (hbody : inLoop (asDead (analyzeStmts cfg body)) v = (.ok (), w)) :
    Turn (.loop tag condition body) s (w.emptyStmt tag.span .skipped).1 (w.emptyStmt tag.span .skipped).2
  | loop {tag condition body s home u c v e w out t}
    (hadmits : Admits cfg (.loop tag condition body) s home u) (hquiet : Quiet s u)
    (hcondition : analyze cfg condition .read u = (.ok c, v)) (hdecided : decided? cfg c ≠ some false)
    (hkeep : keep c v = (.ok e, w)) (hbody : inLoop (analyzeStmts cfg body) w = (.ok out, t)) :
    Turn (.loop tag condition body) s (.loop tag e out) t
  | tryCatch {tag body catches cleanup s home u b v es w c t}
    (hadmits : Admits cfg (.tryCatch tag body catches cleanup) s home u) (hquiet : Quiet s u)
    (hbody : inConditional (analyzeStmts cfg body) u = (.ok b, v))
    (hcatches : analyzeCatches cfg catches v = (.ok es, w))
    (hcleanup : analyzeOptional cfg cleanup w = (.ok c, t)) :
    Turn (.tryCatch tag body catches cleanup) s (.tryCatch tag b es c) t
  | function {tag head body dead s home u out t}
    (hadmits : Admits cfg (.function tag head body dead) s home u) (hquiet : Quiet s u)
    (hbody : analyzeStmts cfg body (u.enterRoutine head.byRef) = (.ok out, t)) :
    Turn (.function tag head body dead) s (.function tag head out u.unreachable) t.leaveRoutine

/-- Where a rule takes over, nothing has happened but that it was looked up, and that a label ends dead
code. -/
theorem byStmtRule_turn {x y : Stmt} {analyzed : Home StmtKind → Analyze Stmt} {s' : State}
    (hs : Quiet s s') (heq : ∀ analyzed, ifAlive cfg x analyzed s = byStmtRule cfg x analyzed s')
    (h : byStmtRule cfg x analyzed s' = (.ok y, t)) :
    Quiet s t ∧ y = x ∨
      ∃ home u, Admits cfg x s home u ∧ Quiet s u ∧ u.flow = s'.flow ∧ analyzed home u = (.ok y, t) := by
  obtain ⟨handle, u, htable, h⟩ := (bind_eq_ok_iff ..).mp h
  obtain ⟨table, hu⟩ : ∃ table, u = { s' with table } := ⟨_, (congrArg Prod.snd htable).symm⟩
  have hquiet : Quiet s u := hs.trans (hu ▸ .of_eq rfl rfl rfl)
  split at h
  · rename_i hown
    refine Or.inr ⟨handle.home, u, fun analyzed => ?_, hquiet, by rw [hu], h⟩
    rw [heq, byStmtRule, Pass.bind_apply, htable]
    dsimp only
    rw [if_pos hown]
  · split at h
    · cases h
      exact Or.inl ⟨hquiet, rfl⟩
    · cases h

/-- A statement is left out, let pass, or handed to the rule made for it. -/
theorem ifAlive_turn {x y : Stmt} {analyzed : Home StmtKind → Analyze Stmt}
    (h : ifAlive cfg x analyzed s = (.ok y, t)) :
    Turn cfg x s y t ∨
      ∃ home u, Admits cfg x s home u ∧ Quiet s u ∧ (x.isLabel = true → u.unreachable = false) ∧
        analyzed home u = (.ok y, t) := by
  have hpassed (hquiet : Quiet s t) (heq : y = x) : Turn cfg x s y t := by
    refine .quiet hquiet fun hy => ?_
    subst heq
    unfold Stmt.isUnreachable at hy
    split at hy
    · rfl
    · exact nomatch hy
  unfold ifAlive at h
  split at h
  · rename_i hlabel
    have hs : Quiet s s.leaveUnreachable := ⟨rfl, rfl, fun _ => rfl⟩
    rcases byStmtRule_turn hs (fun _ => by rw [ifAlive, if_pos hlabel]; rfl) h with
      ⟨hquiet, heq⟩ | ⟨home, u, hadmits, hquiet, hflow, hrun⟩
    · exact Or.inl (hpassed hquiet heq)
    · refine Or.inr ⟨home, u, hadmits, hquiet, fun _ => ?_, hrun⟩
      rw [State.unreachable, hflow]
      rfl
  · rename_i hlabel
    obtain ⟨dead, _, hpeek, h⟩ := (bind_eq_ok_iff ..).mp h
    cases hpeek
    split at h
    · rename_i hdead
      obtain ⟨hdead, helidable⟩ := Bool.and_eq_true_iff.mp hdead
      have hquiet := quiet_reportUnreachable cfg.options x.span s
      cases h
      exact Or.inl (.leftOut _ hdead helidable hquiet.scope hquiet.enclosing)
    · rename_i halive
      have heq (analyzed) : ifAlive cfg x analyzed s = byStmtRule cfg x analyzed s := by
        rw [ifAlive, if_neg hlabel, Pass.bind_apply]
        dsimp only [Pass.peek_apply]
        rw [if_neg halive]
      rcases byStmtRule_turn (.refl s) heq h with ⟨hquiet, heq⟩ | ⟨home, u, hadmits, hquiet, -, hrun⟩
      · exact Or.inl (hpassed hquiet heq)
      · exact Or.inr ⟨home, u, hadmits, hquiet, fun hl => absurd hl hlabel, hrun⟩

section

variable {tag : StmtTag} {condition : Expr} {thenBody : List Stmt} {elseBody : Option (List Stmt)}
  {home : Home StmtKind} {c : Evaluation}

/-- A branch whose condition is known to be true. -/
theorem analyzeStmt_branch_true (hadmits : Admits cfg (.branch tag condition thenBody elseBody) s home t)
    (hcondition : analyze cfg condition .read t = (.ok c, u))
    (hdecision : decision cfg c thenBody elseBody = some true) :
    analyzeStmt cfg (.branch tag condition thenBody elseBody) s = (do
      asDead (analyzeOptional cfg elseBody)
      return .block tag (← analyzeStmts cfg thenBody) : Analyze Stmt) u := by
  rw [analyzeStmt, hadmits, Pass.bind_apply, hcondition]
  unfold decision at hdecision
  dsimp only
  rewrite [hdecision]
  rfl

/-- A branch whose condition is known to be false. -/
theorem analyzeStmt_branch_false (hadmits : Admits cfg (.branch tag condition thenBody elseBody) s home t)
    (hcondition : analyze cfg condition .read t = (.ok c, u))
    (hdecision : decision cfg c thenBody elseBody = some false) :
    analyzeStmt cfg (.branch tag condition thenBody elseBody) s = (do
      asDead (analyzeStmts cfg thenBody)
      match ← analyzeOptional cfg elseBody with
      | some body => return .block tag body
      | none => emptyStmt tag.span .skipped : Analyze Stmt) u := by
  rw [analyzeStmt, hadmits, Pass.bind_apply, hcondition]
  unfold decision at hdecision
  dsimp only
  rewrite [hdecision]
  rfl

/-- A branch that is not decided.  A failure of the first part is passed on behind the second part. -/
theorem analyzeStmt_branch_none (hadmits : Admits cfg (.branch tag condition thenBody elseBody) s home t)
    (hcondition : analyze cfg condition .read t = (.ok c, u))
    (hdecision : decision cfg c thenBody elseBody = none) :
    analyzeStmt cfg (.branch tag condition thenBody elseBody) s = (do
      let condition ← keep c
      let entry ← Pass.peek State.reachability
      let t ← (inConditional (analyzeStmts cfg thenBody)).attempt
      let elseBody ← analyzeElse cfg entry elseBody
      return .branch tag condition (← Pass.ofExcept t) elseBody : Analyze Stmt) u := by
  rw [analyzeStmt, hadmits, Pass.bind_apply, hcondition]
  unfold decision at hdecision
  dsimp only
  rewrite [hdecision]
  rfl

/-- A branch is decided or both of its parts are kept. -/
theorem branch_turn {y : Stmt} (hadmits : Admits cfg (.branch tag condition thenBody elseBody) s home u)
    (hquiet : Quiet s u) (h : analyzeStmt cfg (.branch tag condition thenBody elseBody) s = (.ok y, t)) :
    Turn cfg (.branch tag condition thenBody elseBody) s y t := by
  have hrule := h
  rw [analyzeStmt, hadmits] at hrule
  obtain ⟨c, v, hcondition, -⟩ := (bind_eq_ok_iff ..).mp hrule
  rcases hdecision : decision cfg c thenBody elseBody with _ | _ | _
  · rw [analyzeStmt_branch_none hadmits hcondition hdecision] at h
    obtain ⟨e, w, hkeep, h⟩ := (bind_eq_ok_iff ..).mp h
    obtain ⟨entry, _, hpeek, h⟩ := (bind_eq_ok_iff ..).mp h
    cases hpeek
    obtain ⟨r, w', hthen, h⟩ := (bind_eq_ok_iff ..).mp h
    obtain ⟨b, v', helse, h⟩ := (bind_eq_ok_iff ..).mp h
    obtain ⟨a, _, hr, h⟩ := (bind_eq_ok_iff ..).mp h
    cases r with
    | error f => exact nomatch hr
    | ok a' =>
      cases hr
      cases h
      rw [Pass.attempt_apply] at hthen
      obtain ⟨ha, hw'⟩ := Prod.mk.inj hthen
      exact .branch hadmits hquiet hcondition hdecision hkeep (Prod.ext (Except.ok.inj ha) hw') helse
  · rw [analyzeStmt_branch_false hadmits hcondition hdecision] at h
    obtain ⟨_, w, hdead, h⟩ := (bind_eq_ok_iff ..).mp h
    obtain ⟨r, w', helse, h⟩ := (bind_eq_ok_iff ..).mp h
    cases r with
    | none =>
      cases elseBody with
      | none =>
        cases helse
        cases h
        exact .noneTaken hadmits hquiet hcondition hdecision hdead
      | some elseBody =>
        rw [analyzeOptional] at helse
        obtain ⟨out, _, -, helse⟩ := (bind_eq_ok_iff ..).mp helse
        exact nomatch helse
    | some out =>
      cases h
      exact .elseTaken hadmits hquiet hcondition hdecision hdead helse
  · rw [analyzeStmt_branch_true hadmits hcondition hdecision] at h
    obtain ⟨_, w, hdead, h⟩ := (bind_eq_ok_iff ..).mp h
    obtain ⟨out, w', hthen, h⟩ := (bind_eq_ok_iff ..).mp h
    cases h
    exact .thenTaken hadmits hquiet hcondition hdecision hdead hthen

end

/-- A loop whose condition is known to be false is skipped. -/
theorem loop_turn {tag : StmtTag} {condition : Expr} {body : List Stmt} {home : Home StmtKind} {y : Stmt}
    (hadmits : Admits cfg (.loop tag condition body) s home u) (hquiet : Quiet s u)
    (h : analyzeStmt cfg (.loop tag condition body) s = (.ok y, t)) :
    Turn cfg (.loop tag condition body) s y t := by
  rw [analyzeStmt, hadmits] at h
  obtain ⟨c, v, hcondition, h⟩ := (bind_eq_ok_iff ..).mp h
  split at h
  · rename_i hdecided
    obtain ⟨_, w, hbody, h⟩ := (bind_eq_ok_iff ..).mp h
    cases h
    exact .loopDead hadmits hquiet hcondition hdecided hbody
  · rename_i hdecided
    obtain ⟨e, w, hkeep, h⟩ := (bind_eq_ok_iff ..).mp h
    obtain ⟨out, w', hbody, h⟩ := (bind_eq_ok_iff ..).mp h
    cases h
    exact .loop hadmits hquiet hcondition hdecided hkeep hbody

/-- **A statement that is analysed has gone one of the ways.** -/
theorem analyzeStmt_turn {x y : Stmt} (h : analyzeStmt cfg x s = (.ok y, t)) : Turn cfg x s y t := by
  have halive := h
  cases x <;> rw [analyzeStmt] at halive <;>
    obtain hturn | ⟨home, u, hadmits, hquiet, hlabel, hrun⟩ := ifAlive_turn halive <;> try exact hturn
  case expression tag e =>
    obtain ⟨hu, hy⟩ := quiet_expression hrun
    refine .quiet (hquiet.trans hu) fun hdead => ?_
    rw [hy] at hdead
    exact nomatch hdead
  case echo tag es =>
    obtain ⟨es', v, hes, hrun⟩ := (bind_eq_ok_iff ..).mp hrun
    cases hrun
    exact .quiet (hquiet.trans (quiet_analyzeAll hes)) nofun
  case block tag body =>
    obtain ⟨out, v, hbody, hrun⟩ := (bind_eq_ok_iff ..).mp hrun
    cases hrun
    exact .block hadmits hquiet hbody
  case branch tag condition thenBody elseBody => exact branch_turn hadmits hquiet h
  case loop tag condition body => exact loop_turn hadmits hquiet h
  case jump tag kind e =>
    obtain ⟨e', v, rfl, hv, rfl⟩ := quiet_jump hrun
    exact .jump (hquiet.trans hv)
  case goto tag l =>
    cases hrun
    exact .goto hadmits hquiet
  case label tag name =>
    have hy : y = .label tag name := by
      obtain ⟨cell, v, -, hrun⟩ := (bind_eq_ok_iff ..).mp hrun
      cases cell <;> cases hrun <;> rfl
    subst hy
    exact .label hadmits hquiet (hlabel rfl) hrun
  case tryCatch tag body catches cleanup =>
    obtain ⟨b, v, hbody, hrun⟩ := (bind_eq_ok_iff ..).mp hrun
    obtain ⟨es, w, hcatches, hrun⟩ := (bind_eq_ok_iff ..).mp hrun
    obtain ⟨c, w', hcleanup, hrun⟩ := (bind_eq_ok_iff ..).mp hrun
    cases hrun
    exact .tryCatch hadmits hquiet hbody hcatches hcleanup
  case throw tag e =>
    obtain ⟨e', v, hkept, hrun⟩ := (bind_eq_ok_iff ..).mp hrun
    obtain ⟨c, w, hanalyze, hkeep⟩ := (bind_eq_ok_iff ..).mp hkept
    cases hrun
    exact .throw (hquiet.trans ((quiet_analyze hanalyze).trans (quiet_keep hkeep)))
  case unset tag es =>
    obtain ⟨es', v, hes, hrun⟩ := (bind_eq_ok_iff ..).mp hrun
    cases hrun
    exact .quiet (hquiet.trans (quiet_analyzeAll hes)) nofun
  case constDecl tag name value =>
    obtain ⟨hu, hy⟩ := quiet_constDecl hrun
    refine .quiet (hquiet.trans hu) fun hdead => ?_
    rw [hy] at hdead
    exact nomatch hdead
  case function tag head body dead =>
    obtain ⟨dead', _, hpeek, hrun⟩ := (bind_eq_ok_iff ..).mp hrun
    cases hpeek
    obtain ⟨_, _, henter, hrun⟩ := (bind_eq_ok_iff ..).mp hrun
    cases henter
    obtain ⟨out, v, hbody, hrun⟩ := (bind_eq_ok_iff ..).mp hrun
    obtain ⟨hout, rfl⟩ := Prod.mk.inj hbody
    cases hrun
    exact .function hadmits hquiet (Prod.ext hout rfl)
  case empty tag kind =>
    cases hrun
    exact .quiet hquiet fun _ => rfl

/-- A statement that could be left out is handed to its rule only where it can be reached. -/
theorem Admits.alive {x : Stmt} {home : Home StmtKind} (h : Admits cfg x s home t)
    (helidable : isElidable x = true) : t.unreachable = false := by
  have hlabel : ¬ x.isLabel = true := by
    cases x with
    | label => simp [isElidable, Stmt.hasEntry] at helidable
    | _ => exact Bool.false_ne_true
  cases hs : s.unreachable with
  | true =>
    -- the statement is left out, whatever its rule does
    have hrun := h fun _ => Pass.fail (.wrongRule (.stmt .empty) (.stmt .empty))
    rw [ifAlive, if_neg hlabel, Pass.bind_apply, Pass.peek_apply] at hrun
    dsimp only at hrun
    simp only [hs, helidable, Bool.and_self, if_true] at hrun
    cases hrun
  | false =>
    have heq (analyzed) : ifAlive cfg x analyzed s = byStmtRule cfg x analyzed s := by
      rw [ifAlive, if_neg hlabel, Pass.bind_apply, Pass.peek_apply]
      dsimp only
      rw [hs, Bool.false_and]
      rfl
    have hrun := h fun _ => pure x
    rw [heq] at hrun
    rcases byStmtRule_turn (.refl s) heq hrun with ⟨hquiet, -⟩ | ⟨_, u, -, hquiet, -, hu⟩
    · exact hquiet.alive hs
    · cases hu
      exact hquiet.alive hs

/-! ## Routines -/

theorem flow_labelEntry (name : String) (firstGoto : Option Span) (s : State) :
    (s.labelEntry name firstGoto).2.flow = s.flow := by
  unfold State.labelEntry
  split <;> rfl

/-- A label that is defined changes nothing but the labels. -/
theorem flow_analyzeLabel {tag : StmtTag} {name : String} {home : Home StmtKind} {y : Stmt}
    (h : analyzeLabel tag name home s = (.ok y, t)) : t.flow = s.flow := by
  obtain ⟨cell, u, hdefine, h⟩ := (bind_eq_ok_iff ..).mp h
  have hu : u = (s.defineLabel name tag.span).2 := (congrArg Prod.snd hdefine).symm
  have hu : u.flow = s.flow := by
    rw [hu, State.defineLabel]
    dsimp only
    split <;> exact flow_labelEntry name none s
  cases cell <;> cases h <;> exact hu

/-- Behind statements the same routines are around as in front of them. -/
theorem enclosing_analyzeStmts (body : List Stmt) {out : List Stmt} (h : analyzeStmts cfg body s = (.ok out, t)) :
    t.enclosing = s.enclosing := by
  have hcontained := (contained_analyzeStmts cfg body).run s
  rw [h] at hcontained
  exact hcontained.enclosing

end Analysis
end PhpLowering
