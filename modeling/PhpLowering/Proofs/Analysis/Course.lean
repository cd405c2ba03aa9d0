import PhpLowering.Proofs.Analysis.Frame

/-!
# The course of the analysis

`Comes cfg body s x t` says that the analysis of the statements `body`, begun in the state `s`, comes
to the statement `x` and hands it to its rule in the state `t`.  Statements that are left out as dead
code are not come to, and neither are those for which the registry has no rule of their kind.  The
parts of a statement are entered in the order in which the analysis does it, which is not always that
of the text: `Part` lists them, each with the state in which it is entered.

A stable property that no declaration of a constant breaks holds along the whole course: whenever
the analysis comes to a statement (`Comes.carries`), and at the end (`carries_analyzeStmts`).
-/

namespace PhpLowering
namespace Analysis

open Pass (bind_eq_ok_iff)

variable {α β : Type} (cfg : Setting)

/-- The rule made for a statement takes over, in a state. -/
def Admits (x : Stmt) (s : State) (home : Home StmtKind) (t : State) : Prop :=
  ∀ analyzed, ifAlive cfg x analyzed s = analyzed home t

/-- The branch that a condition decides for.  A branch that a `goto` can enter is never decided. -/
def decision (c : Evaluation) (thenBody : List Stmt) (elseBody : Option (List Stmt)) : Option Bool :=
  if Stmt.anyEntry thenBody || Stmt.optionalEntry elseBody then none else decided? cfg c

/-- The parts of a statement, with the states in which its rule takes over and enters them. -/
inductive Part : Stmt → State → List Stmt → State → Prop where
  | block (tag body s) : Part (.block tag body) s body s
  | elseDead {tag condition thenBody elseBody s c t}
    (hcondition : analyze cfg condition .read s = (.ok c, t))
    (hdecision : decision cfg c thenBody (some elseBody) = some true) :
    Part (.branch tag condition thenBody (some elseBody)) s elseBody t.enterDead
  | thenTaken {tag condition thenBody elseBody s c t u}
    (hcondition : analyze cfg condition .read s = (.ok c, t))
    (hdecision : decision cfg c thenBody elseBody = some true)
    (hdead : asDead (analyzeOptional cfg elseBody) t = (.ok (), u)) :
    Part (.branch tag condition thenBody elseBody) s thenBody u
  | thenDead {tag condition thenBody elseBody s c t}
    (hcondition : analyze cfg condition .read s = (.ok c, t))
    (hdecision : decision cfg c thenBody elseBody = some false) :
    Part (.branch tag condition thenBody elseBody) s thenBody t.enterDead
  | elseTaken {tag condition thenBody elseBody s c t u}
    (hcondition : analyze cfg condition .read s = (.ok c, t))
    (hdecision : decision cfg c thenBody (some elseBody) = some false)
    (hdead : asDead (analyzeStmts cfg thenBody) t = (.ok (), u)) :
    Part (.branch tag condition thenBody (some elseBody)) s elseBody u
  | thenPart {tag condition thenBody elseBody s c t e u}
    (hcondition : analyze cfg condition .read s = (.ok c, t))
    (hdecision : decision cfg c thenBody elseBody = none)
    (hkeep : keep c t = (.ok e, u)) :
    Part (.branch tag condition thenBody elseBody) s thenBody u.enterConditional
  | elsePart {tag condition thenBody elseBody s c t e u r v}
    (hcondition : analyze cfg condition .read s = (.ok c, t))
    (hdecision : decision cfg c thenBody (some elseBody) = none)
    (hkeep : keep c t = (.ok e, u))
    (hthen : (inConditional (analyzeStmts cfg thenBody)).attempt u = (.ok r, v)) :
    Part (.branch tag condition thenBody (some elseBody)) s elseBody
      (v.restore u.reachability).enterConditional
  | loopDead {tag condition body s c t}
    (hcondition : analyze cfg condition .read s = (.ok c, t))
    (hdecided : decided? cfg c = some false) :
    Part (.loop tag condition body) s body t.enterLoop.enterDead
  | loopBody {tag condition body s c t e u}
    (hcondition : analyze cfg condition .read s = (.ok c, t))
    (hdecided : decided? cfg c ≠ some false)
    (hkeep : keep c t = (.ok e, u)) :
    Part (.loop tag condition body) s body u.enterLoop
  | tryBody (tag body catches cleanup s) :
    Part (.tryCatch tag body catches cleanup) s body s.enterConditional
  | clause {tag body earlier span type var handler resolved later cleanup s b t es u}
    (hbody : inConditional (analyzeStmts cfg body) s = (.ok b, t))
    (hearlier : analyzeCatches cfg earlier t = (.ok es, u)) :
    Part (.tryCatch tag body (earlier ++ .clause span type var handler resolved :: later) cleanup) s
      handler (u.resolveType cfg type span).2.enterConditional
  | cleanup {tag body catches cleanup s b t es u}
    (hbody : inConditional (analyzeStmts cfg body) s = (.ok b, t))
    (hcatches : analyzeCatches cfg catches t = (.ok es, u)) :
    Part (.tryCatch tag body catches (some cleanup)) s cleanup u
  | function (tag head body dead s) :
    Part (.function tag head body dead) s body (s.enterRoutine head.byRef)

/-- The analysis of statements comes to one of them, or to one within them. -/
inductive Comes : List Stmt → State → Stmt → State → Prop where
  | here {x rest s home t} (hadmits : Admits cfg x s home t) : Comes (x :: rest) s x t
  | later {y z rest s t x u} (hdone : analyzeStmt cfg y s = (.ok z, t)) (h : Comes rest t x u) :
    Comes (y :: rest) s x u
  | within {y rest s home t part u x v} (hadmits : Admits cfg y s home t) (hpart : Part cfg y t part u)
    (h : Comes part u x v) : Comes (y :: rest) s x v

variable {cfg} {P : State → Prop} {s t u : State} {x : Analyze α}

theorem Comes.mono {y z : Stmt} {rest : List Stmt} (h : Comes cfg [y] s z t) : Comes cfg (y :: rest) s z t := by
  cases h with
  | here hadmits => exact .here hadmits
  | later hdone h => exact nomatch h
  | within hadmits hpart h => exact .within hadmits hpart h

/-! ## Changes of the state -/

namespace Stable

variable [Stable P]

theorem enterUnreachable (h : P s) : P s.enterUnreachable := by
  unfold State.enterUnreachable
  split
  · exact h
  · exact alike h rfl rfl

theorem reportUnreachable (options : Options) (span : Span) (h : P s) :
    P (s.reportUnreachable options span) := by
  unfold State.reportUnreachable
  dsimp only
  split
  · exact h
  · split
    · exact report span nofun (alike h rfl rfl)
    · exact alike h rfl rfl

theorem labelEntry (name : String) (firstGoto : Option Span) (h : P s) :
    P (s.labelEntry name firstGoto).2 := by
  unfold State.labelEntry
  split
  · exact h
  · exact alike h rfl rfl

theorem gotoLabel (name : String) (span : Span) (h : P s) : P (s.gotoLabel name span) :=
  alike (labelEntry name (some span) h) rfl rfl

theorem defineLabel (name : String) (span : Span) (h : P s) : P (s.defineLabel name span).2 := by
  have hentry := labelEntry name none h
  unfold State.defineLabel
  dsimp only
  split
  · exact report _ nofun (report _ nofun hentry)
  · exact alike hentry rfl rfl

theorem reportUndefined (h : P s) : P s.reportUndefined := by
  unfold State.reportUndefined
  generalize s.scope.labels = labels
  induction labels generalizing s with
  | nil => exact h
  | cons entry rest ih =>
    rw [List.foldl_cons]
    refine ih ?_
    dsimp only
    split
    · exact report _ nofun h
    · exact h

theorem leaveRoutine (h : P s) : P s.leaveRoutine := by
  unfold State.leaveRoutine
  split
  · exact h
  · exact alike (reportUndefined h) rfl rfl

theorem finish (h : P s) : P s.finish := by
  unfold State.finish
  refine reportUndefined ?_
  generalize s.enclosing = routines
  induction routines generalizing s with
  | nil => exact h
  | cons _ rest ih => exact ih (leaveRoutine h)

theorem resolveType (name : String) (span : Span) (h : P s) : P (s.resolveType cfg name span).2 := by
  unfold State.resolveType
  split
  · exact h
  · exact report _ (by rintro _ ⟨⟩) h

theorem checkLevel (level : Option Expr) (span : Span) (h : P s) : P (checkLevel level span s) := by
  unfold Analysis.checkLevel
  dsimp only
  cases staticLevel? level <;> dsimp only <;> split
  all_goals first | exact report _ nofun h | exact h

end Stable

section

variable [Stable P]

instance preserves_emptyStmt (span : Span) (kind : EmptyKind) : Preserves P (emptyStmt span kind) :=
  preserves_transform fun _ h => Stable.alike h rfl rfl

theorem preserves_analyzeJump (tag : StmtTag) (kind : JumpKind) (expr : Option Expr) :
    Preserves P (analyzeJump cfg tag kind expr) := by
  have hcheck (level) : Preserves P (Pass.update (checkLevel level tag.span)) :=
    preserves_update fun _ => Stable.checkLevel _ _
  have hdead : Preserves P (Pass.update State.enterUnreachable) :=
    preserves_update fun _ => Stable.enterUnreachable
  unfold analyzeJump
  refine Preserves.bind inferInstance fun returnsRef => ?_
  cases expr with
  | none => dsimp only; infer_instance
  | some e =>
    have he := preserves_analyze (P := P) cfg e
    dsimp only
    infer_instance

theorem preserves_analyzeLabel (tag : StmtTag) (name : String) (home : Home StmtKind) :
    Preserves P (analyzeLabel tag name home) := by
  unfold analyzeLabel
  refine Preserves.bind (preserves_transform fun _ => Stable.defineLabel name tag.span) fun cell => ?_
  cases cell with
  | none => exact preserves_pure _
  | some cell =>
    have hset : Preserves P (Pass.update fun s => { s with memory := s.memory.setLabel home cell }) :=
      preserves_update fun _ h => Stable.alike h rfl rfl
    dsimp only
    infer_instance

theorem preserves_analyzeExpression (tag : StmtTag) (e : Expr) :
    Preserves P (analyzeExpression cfg tag e) := by
  unfold analyzeExpression
  refine (preserves_analyze cfg e .none).bind fun ev => ?_
  cases ev <;> dsimp only <;> infer_instance

end

/-! ## Steps from a given state -/

/-- A step that is taken from a given state keeps a property. -/
def KeepsAt (P : State → Prop) (x : Analyze α) (s : State) : Prop :=
  P s → P (x s).2

theorem Preserves.keepsAt (h : Preserves P x) : KeepsAt P x s :=
  h.keep s

namespace KeepsAt

theorem bind {f : α → Analyze β} (hx : KeepsAt P x s)
    (hf : ∀ a t, x s = (.ok a, t) → KeepsAt P (f a) t) : KeepsAt P (x >>= f) s := by
  intro hs
  have hkept := hx hs
  rw [Pass.bind_apply]
  rcases hrun : x s with ⟨r, t⟩
  rw [hrun] at hkept
  cases r with
  | error e => exact hkept
  | ok a => exact hf a t hrun hkept

/-- A step whose answer is all that is used of it. -/
theorem thenPreserves {f : α → Analyze β} (hx : KeepsAt P x s) (hf : ∀ a, Preserves P (f a)) :
    KeepsAt P (x >>= f) s :=
  hx.bind fun a _ _ => (hf a).keepsAt

theorem update {f : State → State} {g : Unit → Analyze α} (hf : P s → P (f s))
    (hg : KeepsAt P (g ()) (f s)) : KeepsAt P (Pass.update f >>= g) s :=
  fun hs => hg (hf hs)

theorem ensuring {f : State → State} (hx : KeepsAt P x s) (hf : ∀ s, P s → P (f s)) :
    KeepsAt P (x.ensuring f) s :=
  fun hs => hf _ (hx hs)

theorem attempt (hx : KeepsAt P x s) : KeepsAt P x.attempt s :=
  hx

variable [Stable P]

theorem inConditional (hx : KeepsAt P x s.enterConditional) : KeepsAt P (inConditional x) s :=
  update (fun h => Stable.alike h rfl rfl) (hx.ensuring fun _ h => Stable.alike h rfl rfl)

theorem inLoop (hx : KeepsAt P x s.enterLoop) : KeepsAt P (inLoop x) s :=
  update (fun h => Stable.alike h rfl rfl) (hx.ensuring fun _ h => Stable.alike h rfl rfl)

theorem asDead (hx : KeepsAt P x s.enterDead) : KeepsAt P (asDead x) s := by
  have hinner : KeepsAt P (x.ensuring (State.restore s.reachability)) s.enterDead :=
    hx.ensuring fun _ h => Stable.alike h rfl rfl
  refine KeepsAt.bind (preserves_peek _).keepsAt fun saved t hpeek => ?_
  cases hpeek
  exact update (f := State.enterDead) (fun h => Stable.alike h rfl rfl)
    (hinner.thenPreserves fun _ => preserves_pure ())

/-- A statement keeps a property if its rule does, wherever that takes over. -/
theorem ifAlive {node : Stmt} {analyzed : Home StmtKind → Analyze Stmt}
    (h : ∀ home t, Admits cfg node s home t → KeepsAt P (analyzed home) t) :
    KeepsAt P (ifAlive cfg node analyzed) s := by
  have hrule (s' : State) (heq : ∀ analyzed, Analysis.ifAlive cfg node analyzed s = byStmtRule cfg node analyzed s') :
      KeepsAt P (byStmtRule cfg node analyzed) s' := by
    refine KeepsAt.bind (preserves_onTable _).keepsAt fun handle t htable => ?_
    split
    · rename_i hown
      refine h handle.home t fun analyzed => ?_
      rw [heq]
      unfold byStmtRule
      rw [Pass.bind_apply, htable]
      dsimp only
      rw [if_pos hown]
    · exact Preserves.keepsAt inferInstance
  unfold Analysis.ifAlive
  split
  · rename_i hlabel
    refine update (fun h => Stable.alike h rfl rfl) (hrule _ fun analyzed => ?_)
    unfold Analysis.ifAlive
    rw [if_pos hlabel]
    rfl
  · rename_i hlabel
    refine KeepsAt.bind (preserves_peek _).keepsAt fun dead t hpeek => ?_
    cases hpeek
    split
    · have hreport : Preserves P (Pass.update (State.reportUnreachable cfg.options node.span)) :=
        preserves_update fun _ => Stable.reportUnreachable _ _
      exact Preserves.keepsAt inferInstance
    · rename_i halive
      refine hrule _ fun analyzed => ?_
      unfold Analysis.ifAlive
      rw [if_neg hlabel, Pass.bind_apply]
      dsimp only [Pass.peek_apply]
      rw [if_neg halive]

end KeepsAt

/-! ## The whole course -/

variable (cfg P) in
/-- No constant that the analysis of statements declares breaks a property. -/
def Harmless (body : List Stmt) (s : State) : Prop :=
  ∀ tag name value t, Comes cfg body s (.constDecl tag name value) t →
    KeepsAt P (analyzeConstDecl cfg tag name value) t

namespace Harmless

variable {y z : Stmt} {rest inner : List Stmt} {home : Home StmtKind}

theorem head (h : Harmless cfg P (y :: rest) s) : Harmless cfg P [y] s :=
  fun tag name value t hcomes => h tag name value t hcomes.mono

theorem tail (h : Harmless cfg P (y :: rest) s) (hdone : analyzeStmt cfg y s = (.ok z, t)) :
    Harmless cfg P rest t :=
  fun tag name value u hcomes => h tag name value u (.later hdone hcomes)

theorem part (h : Harmless cfg P (y :: rest) s) (hadmits : Admits cfg y s home t)
    (hpart : Part cfg y t inner u) : Harmless cfg P inner u :=
  fun tag name value v hcomes => h tag name value v (.within hadmits hpart hcomes)

end Harmless

section

variable [Stable P]

variable {tag : StmtTag} {condition : Expr} {body thenBody : List Stmt} {elseBody : Option (List Stmt)}

theorem carries_branch
    (hthenPart : ∀ s, Harmless cfg P thenBody s → KeepsAt P (analyzeStmts cfg thenBody) s)
    (hoptional : ∀ s, (∀ body, elseBody = some body → Harmless cfg P body s) →
      KeepsAt P (analyzeOptional cfg elseBody) s)
    (helse : ∀ entry s, (∀ body, elseBody = some body → Harmless cfg P body (s.restore entry).enterConditional) →
      KeepsAt P (analyzeElse cfg entry elseBody) s)
    (h : Harmless cfg P [.branch tag condition thenBody elseBody] s) :
    KeepsAt P (analyzeStmt cfg (.branch tag condition thenBody elseBody)) s := by
  rw [analyzeStmt]
  refine .ifAlive fun home t hadmits => ?_
  refine KeepsAt.bind (preserves_analyze cfg condition .read).keepsAt fun c u hc => ?_
  dsimp only
  split
  · rename_i hdecision
    have hdead : KeepsAt P (analyzeOptional cfg elseBody) u.enterDead := by
      refine hoptional _ fun part hpart => ?_
      subst hpart
      exact h.part hadmits (.elseDead hc hdecision)
    refine KeepsAt.bind hdead.asDead fun _ v hrun => ?_
    have hthen := hthenPart v (h.part hadmits (.thenTaken hc hdecision hrun))
    exact hthen.thenPreserves fun _ => inferInstance
  · rename_i hdecision
    have hdead := hthenPart _ (h.part hadmits (.thenDead hc hdecision))
    refine KeepsAt.bind hdead.asDead fun _ v hrun => ?_
    refine KeepsAt.thenPreserves ?_ fun r => ?_
    · refine hoptional v fun part hpart => ?_
      subst hpart
      exact h.part hadmits (.elseTaken hc hdecision hrun)
    · cases r <;> dsimp only <;> infer_instance
  · rename_i hdecision
    refine KeepsAt.bind (preserves_keep c).keepsAt fun e v hkeep => ?_
    refine KeepsAt.bind (preserves_peek _).keepsAt fun entry _ hpeek => ?_
    cases hpeek
    have hthen := hthenPart _ (h.part hadmits (.thenPart hc hdecision hkeep))
    refine KeepsAt.bind hthen.inConditional.attempt fun r w hrun => ?_
    refine KeepsAt.thenPreserves ?_ fun _ => inferInstance
    refine helse v.reachability w fun part hpart => ?_
    subst hpart
    exact h.part hadmits (.elsePart hc hdecision hkeep hrun)

theorem carries_loop (hpart : ∀ s, Harmless cfg P body s → KeepsAt P (analyzeStmts cfg body) s)
    (h : Harmless cfg P [.loop tag condition body] s) :
    KeepsAt P (analyzeStmt cfg (.loop tag condition body)) s := by
  rw [analyzeStmt]
  refine .ifAlive fun home t hadmits => ?_
  refine KeepsAt.bind (preserves_analyze cfg condition .read).keepsAt fun c u hc => ?_
  split
  · rename_i hdecided
    have hbody := hpart _ (h.part hadmits (.loopDead hc hdecided))
    exact hbody.asDead.inLoop.thenPreserves fun _ => inferInstance
  · rename_i hdecided
    refine KeepsAt.bind (preserves_keep c).keepsAt fun e v hkeep => ?_
    have hbody := hpart _ (h.part hadmits (.loopBody hc hdecided hkeep))
    exact hbody.inLoop.thenPreserves fun _ => inferInstance

set_option linter.unusedSectionVars false

mutual

theorem carries_analyzeStmt : ∀ (y : Stmt) (s : State), Harmless cfg P [y] s →
    KeepsAt P (analyzeStmt cfg y) s
  | .expression tag e, s, _ => by
    rw [analyzeStmt]
    exact .ifAlive fun _ _ _ => (preserves_analyzeExpression tag e).keepsAt
  | .echo tag es, s, _ => by
    have hes := preserves_analyzeAll (P := P) cfg .read es
    rw [analyzeStmt]
    exact .ifAlive fun _ _ _ => Preserves.keepsAt inferInstance
  | .block tag body, s, h => by
    rw [analyzeStmt]
    refine .ifAlive fun home t hadmits => ?_
    have hbody := carries_analyzeStmts body t (h.part hadmits (.block ..))
    exact hbody.thenPreserves fun _ => inferInstance
  | .branch _ _ thenBody elseBody, _, h =>
    carries_branch (carries_analyzeStmts thenBody) (carries_analyzeOptional elseBody)
      (fun entry => carries_analyzeElse entry elseBody) h
  | .loop _ _ body, _, h => carries_loop (carries_analyzeStmts body) h
  | .jump tag kind expr, s, _ => by
    rw [analyzeStmt]
    exact .ifAlive fun _ _ _ => (preserves_analyzeJump tag kind expr).keepsAt
  | .goto tag label, s, _ => by
    have hgoto : Preserves P (Pass.update (State.gotoLabel label tag.span)) :=
      preserves_update fun _ => Stable.gotoLabel _ _
    have hdead : Preserves P (Pass.update State.enterUnreachable) :=
      preserves_update fun _ => Stable.enterUnreachable
    rw [analyzeStmt]
    exact .ifAlive fun _ _ _ => Preserves.keepsAt inferInstance
  | .label tag name, s, _ => by
    rw [analyzeStmt]
    exact .ifAlive fun home _ _ => (preserves_analyzeLabel tag name home).keepsAt
  | .tryCatch tag body catches cleanup, s, h => by
    rw [analyzeStmt]
    refine .ifAlive fun home t hadmits => ?_
    have hbody := carries_analyzeStmts body _ (h.part hadmits (.tryBody ..))
    refine KeepsAt.bind hbody.inConditional fun b u hrun => ?_
    refine KeepsAt.bind (carries_analyzeCatches catches u ?_) fun es v hcatches => ?_
    · rintro earlier span type var handler resolved later es v rfl hearlier
      exact h.part hadmits (.clause hrun hearlier)
    · refine KeepsAt.thenPreserves ?_ fun _ => inferInstance
      refine carries_analyzeOptional cleanup v fun part hpart => ?_
      subst hpart
      exact h.part hadmits (.cleanup hrun hcatches)
  | .throw tag e, s, _ => by
    have he := preserves_analyze (P := P) cfg e
    have hdead : Preserves P (Pass.update State.enterUnreachable) :=
      preserves_update fun _ => Stable.enterUnreachable
    rw [analyzeStmt]
    exact .ifAlive fun _ _ _ => Preserves.keepsAt inferInstance
  | .unset tag targets, s, _ => by
    have htargets := preserves_analyzeAll (P := P) cfg .write targets
    rw [analyzeStmt]
    exact .ifAlive fun _ _ _ => Preserves.keepsAt inferInstance
  | .constDecl tag name value, s, h => by
    rw [analyzeStmt]
    exact .ifAlive fun home t hadmits => h tag name value t (.here hadmits)
  | .function tag head body dead, s, h => by
    rw [analyzeStmt]
    refine .ifAlive fun home t hadmits => ?_
    refine KeepsAt.bind (preserves_peek _).keepsAt fun dead' _ hpeek => ?_
    cases hpeek
    have hbody := carries_analyzeStmts body _ (h.part hadmits (.function ..))
    refine KeepsAt.update (f := State.enterRoutine head.byRef) (fun h => Stable.alike h rfl rfl) ?_
    exact (hbody.ensuring fun _ => Stable.leaveRoutine).thenPreserves fun _ => inferInstance
  | .empty tag kind, s, _ => by
    rw [analyzeStmt]
    exact .ifAlive fun _ _ _ => Preserves.keepsAt inferInstance
termination_by structural y => y

/-- **A stable property that no constant breaks is kept to the end.** -/
theorem carries_analyzeStmts : ∀ (body : List Stmt) (s : State), Harmless cfg P body s →
    KeepsAt P (analyzeStmts cfg body) s
  | [], _, _ => (preserves_pure _).keepsAt
  | y :: rest, s, h => by
    rw [analyzeStmts]
    refine (carries_analyzeStmt y s h.head).bind fun z t hdone => ?_
    exact (carries_analyzeStmts rest t (h.tail hdone)).thenPreserves fun _ => inferInstance
termination_by structural body => body

theorem carries_analyzeOptional : ∀ (part : Option (List Stmt)) (s : State),
    (∀ body, part = some body → Harmless cfg P body s) → KeepsAt P (analyzeOptional cfg part) s
  | none, _, _ => (preserves_pure _).keepsAt
  | some body, s, h => by
    rw [analyzeOptional]
    exact (carries_analyzeStmts body s (h body rfl)).thenPreserves fun _ => inferInstance
termination_by structural part => part

theorem carries_analyzeElse (entry : Reachability) : ∀ (part : Option (List Stmt)) (s : State),
    (∀ body, part = some body → Harmless cfg P body (s.restore entry).enterConditional) →
      KeepsAt P (analyzeElse cfg entry part) s
  | none, _, _ => (preserves_pure _).keepsAt
  | some body, s, h => by
    rw [analyzeElse]
    refine KeepsAt.update (fun h => Stable.alike h rfl rfl) ?_
    have hbody := carries_analyzeStmts body _ (h body rfl)
    exact hbody.inConditional.thenPreserves fun _ => inferInstance
termination_by structural part => part

theorem carries_analyzeCatches : ∀ (catches : List Catch) (s : State),
    (∀ earlier span type var handler resolved later es t,
      catches = earlier ++ .clause span type var handler resolved :: later →
      analyzeCatches cfg earlier s = (.ok es, t) →
      Harmless cfg P handler (t.resolveType cfg type span).2.enterConditional) →
    KeepsAt P (analyzeCatches cfg catches) s
  | [], _, _ => (preserves_pure _).keepsAt
  | .clause span type var handler resolved :: rest, s, h => by
    rw [analyzeCatches]
    have hresolve : Preserves P (Pass.transform (State.resolveType cfg type span)) :=
      preserves_transform fun _ => Stable.resolveType type span
    refine hresolve.keepsAt.bind fun found t hfound => ?_
    have hstate : t = (s.resolveType cfg type span).2 := (congrArg Prod.snd hfound).symm
    have hhandler := carries_analyzeStmts handler t.enterConditional (by
      rw [hstate]
      exact h [] span type var handler resolved rest [] s rfl rfl)
    refine hhandler.inConditional.bind fun body u hrun => ?_
    refine KeepsAt.thenPreserves (carries_analyzeCatches rest u ?_) fun _ => inferInstance
    rintro earlier span' type' var' handler' resolved' later es v rfl hearlier
    refine h (.clause span type var handler resolved :: earlier) span' type' var' handler' resolved' later
      (.clause span type var body (some found) :: es) v rfl ?_
    rw [analyzeCatches, Pass.bind_apply, hfound]
    dsimp only
    rw [Pass.bind_apply, hrun]
    dsimp only
    rw [Pass.bind_apply, hearlier]
    rfl
termination_by structural catches => catches

end

/-- A property that is kept by a step holds where the step ends. -/
theorem KeepsAt.of_run {r : Except Fault α} (h : KeepsAt P x s) (hs : P s) (hrun : x s = (r, t)) : P t := by
  have ht := h hs
  rwa [hrun] at ht

/-- The rule of a statement takes over where a stable property still holds. -/
theorem Admits.keeps {y : Stmt} {home : Home StmtKind} (h : Admits cfg y s home t) (hs : P s) : P t := by
  have hrule : KeepsAt P (ifAlive cfg y fun _ => pure y) s :=
    .ifAlive fun _ _ _ => (preserves_pure y).keepsAt
  exact hrule.of_run hs (h _)

/-- A stable property that no constant breaks holds wherever a part is entered. -/
theorem Part.carries {y : Stmt} {part : List Stmt} (hpart : Part cfg y s part t) (hs : P s)
    (h : ∀ part u, Part cfg y s part u → Harmless cfg P part u) : P t := by
  have hcondition {e : Expr} {c : Evaluation} {u : State} (hrun : analyze cfg e .read s = (.ok c, u)) : P u :=
    (preserves_analyze cfg e .read).keepsAt.of_run hs hrun
  cases hpart with
  | block => exact hs
  | elseDead hc _ => exact Stable.alike (hcondition hc) rfl rfl
  | @thenTaken tag condition _ elseBody _ c u _ hc hdecision hdead =>
    have helse : KeepsAt P (analyzeOptional cfg elseBody) u.enterDead := by
      refine carries_analyzeOptional elseBody _ fun part heq => ?_
      subst heq
      exact h _ _ (.elseDead hc hdecision)
    exact helse.asDead.of_run (hcondition hc) hdead
  | thenDead hc _ => exact Stable.alike (hcondition hc) rfl rfl
  | elseTaken hc hdecision hdead =>
    have hthen := carries_analyzeStmts _ _ (h _ _ (.thenDead hc hdecision))
    exact hthen.asDead.of_run (hcondition hc) hdead
  | thenPart hc _ hkeep =>
    exact Stable.alike ((preserves_keep _).keepsAt.of_run (hcondition hc) hkeep) rfl rfl
  | elsePart hc hdecision hkeep hthen =>
    have hu := (preserves_keep (P := P) _).keepsAt.of_run (hcondition hc) hkeep
    have hbody := carries_analyzeStmts _ _ (h _ _ (.thenPart hc hdecision hkeep))
    exact Stable.alike (hbody.inConditional.attempt.of_run hu hthen) rfl rfl
  | loopDead hc _ => exact Stable.alike (hcondition hc) rfl rfl
  | loopBody hc _ hkeep =>
    exact Stable.alike ((preserves_keep _).keepsAt.of_run (hcondition hc) hkeep) rfl rfl
  | tryBody => exact Stable.alike hs rfl rfl
  | clause hbody hearlier =>
    have htry := carries_analyzeStmts _ _ (h _ _ (.tryBody ..))
    have hu := htry.inConditional.of_run hs hbody
    refine Stable.alike (Stable.resolveType _ _ ((carries_analyzeCatches _ _ ?_).of_run hu hearlier)) rfl rfl
    rintro earlier span type var handler resolved later es v rfl hfirst
    rw [List.append_assoc] at h
    exact h _ _ (.clause hbody hfirst)
  | cleanup hbody hcatches =>
    have htry := carries_analyzeStmts _ _ (h _ _ (.tryBody ..))
    have hu := htry.inConditional.of_run hs hbody
    refine (carries_analyzeCatches _ _ ?_).of_run hu hcatches
    rintro earlier span type var handler resolved later es v rfl hfirst
    exact h _ _ (.clause hbody hfirst)
  | function => exact Stable.alike hs rfl rfl

/-- **A stable property that no constant breaks holds wherever the analysis comes.** -/
theorem Comes.carries {body : List Stmt} {y : Stmt} (hcomes : Comes cfg body s y t)
    (h : Harmless cfg P body s) (hs : P s) : P t := by
  induction hcomes with
  | here hadmits => exact hadmits.keeps hs
  | later hdone _ ih => exact ih (h.tail hdone) ((carries_analyzeStmt _ _ h.head).of_run hs hdone)
  | within hadmits hpart _ ih =>
    exact ih (h.part hadmits hpart)
      (hpart.carries (hadmits.keeps hs) fun _ _ hpart => h.part hadmits hpart)

end

end Analysis
end PhpLowering
