import PhpLowering.Proofs.Analysis.Stmt
import PhpLowering.Proofs.Analysis.Turns

/-!
# The labels that the analysis of a routine comes to

The labels of a routine are in one table, whatever stands around them.  `Encounters cfg body s around x t`
follows the analysis of a routine like `Comes` does, without going into functions, and keeps a record of
the statements around the one that it comes to, the outermost first.

* `defines_of_analyzeStmts`: a label that is in the table with a definition was there before, or the
  analysis has come to a label statement of that name in the routine.
* `Comes.reported`: what is reported for a statement that the analysis comes to is reported in the end.
* `Comes.sound`: with the standard registry every state in which the analysis comes to a statement is
  sound.
-/

namespace PhpLowering
namespace Analysis

open Pass (bind_eq_ok_iff)

variable {α β : Type} {cfg : Setting} {s t u v : State} {x y : Stmt} {body inner : List Stmt}
  {home : Home StmtKind} {name : String}

/-! ## Sound states -/

theorem Admits.sound (hcfg : cfg.registry = .standard) (h : Admits cfg x s home t) (hs : Sound s) : Sound t := by
  have hrule : SettlesStmt [] (ifAlive cfg x fun _ => pure (.empty x.tag .source)) :=
    settles_ifAlive hcfg (.of_finds (.pure (leaf_empty _ _)))
  exact ((hrule s hs).of_ok (h _)).advances.sound hs

theorem sound_analyze (hcfg : cfg.registry = .standard) {e : Expr} {access : Access} {c : Evaluation}
    (h : analyze cfg e access s = (.ok c, t)) (hs : Sound s) : Sound t :=
  ((finds_analyze hcfg e access s hs.table).of_ok h).1.sound hs

theorem Settles.sound {ids : List Nat} {x : Analyze α} {own : α → List Stmt}
    {fs : α → List (FunctionHead × List Stmt)} {P : α → Nat → Prop} {r : Except Fault α}
    (h : Settles ids x own fs P) (hrun : x s = (r, t)) (hs : Sound s) : Sound t := by
  cases r with
  | ok a => exact ((h s hs).of_ok hrun).advances.sound hs
  | error f => exact ((h s hs).of_error hrun).elim

/-- The parts of a statement are entered in sound states. -/
theorem Part.sound (hcfg : cfg.registry = .standard) (h : Part cfg x s inner t) (hs : Sound s) : Sound t := by
  have hkept {e : Expr} {c : Evaluation} {node : Expr} {u v : State}
      (hcondition : analyze cfg e .read s = (.ok c, u)) (hkeep : keep c u = (.ok node, v)) : Sound v := by
    have hfinds := finds_analyze hcfg e .read s hs.table
    have hu := (hfinds.of_ok hcondition).1.sound hs
    exact ((finds_keep (hfinds.of_ok hcondition).2 u hu.table).of_ok hkeep).1.sound hu
  cases h with
  | block => exact hs
  | elseDead hcondition | thenDead hcondition =>
    exact (calm_restore _ _).sound (sound_analyze hcfg hcondition hs)
  | thenTaken hcondition _ hdead =>
    exact (settles_analyzeOptional hcfg _).asDead.sound hdead (sound_analyze hcfg hcondition hs)
  | elseTaken hcondition _ hdead =>
    exact (settles_analyzeStmts hcfg _).asDead.sound hdead (sound_analyze hcfg hcondition hs)
  | thenPart hcondition _ hkeep => exact (calm_enterConditional _).sound (hkept hcondition hkeep)
  | elsePart hcondition _ hkeep hthen =>
    obtain ⟨hr, hv⟩ := Prod.mk.inj hthen
    have hv := (settles_analyzeStmts hcfg _).inConditional.sound (Prod.ext (Except.ok.inj hr) hv)
      (hkept hcondition hkeep)
    exact ((calm_restore _ _).trans (calm_enterConditional _)).sound hv
  | loopDead hcondition =>
    have hu := sound_analyze hcfg hcondition hs
    exact ⟨hu.table, hu.cells⟩
  | loopBody hcondition _ hkeep =>
    have hv := hkept hcondition hkeep
    exact ⟨hv.table, hv.cells⟩
  | tryBody => exact (calm_enterConditional _).sound hs
  | clause hbody hearlier =>
    have hbody := (settles_analyzeStmts hcfg _).inConditional.sound hbody hs
    have hearlier := (settles_analyzeCatches hcfg _).sound hearlier hbody
    refine (calm_enterConditional _).sound (Still.sound ?_ hearlier)
    exact ((finds_resolveType _ _ _ hearlier.table).of_ok rfl).1.toStill
  | cleanup hbody hcatches =>
    have hbody := (settles_analyzeStmts hcfg _).inConditional.sound hbody hs
    exact (settles_analyzeCatches hcfg _).sound hcatches hbody
  | function => exact hs.enterRoutine _

/-- With the standard registry the analysis comes to every statement in a sound state. -/
theorem Comes.sound (hcfg : cfg.registry = .standard) (h : Comes cfg body s x t) (hs : Sound s) : Sound t := by
  induction h with
  | here hadmits => exact hadmits.sound hcfg hs
  | later hdone _ ih => exact ih ((settles_analyzeStmt hcfg _).sound hdone hs)
  | within hadmits hpart _ ih => exact ih (hpart.sound hcfg (hadmits.sound hcfg hs))

/-! ## What is reported -/

/-- Something has been reported. -/
def State.Reports (d : Diagnostic) (s : State) : Prop :=
  d ∈ s.diagnostics

variable {d : Diagnostic}

instance stable_reports : Stable (State.Reports d) where
  alike h hdiagnostics _ := by rwa [State.Reports, hdiagnostics]
  report _ _ _ h := Array.mem_push_of_mem _ h

/-- Nothing that is reported is taken back. -/
theorem harmless_reports : Harmless cfg (State.Reports d) body s := by
  intro tag name value t _
  refine KeepsAt.bind (preserves_analyze cfg value .read).keepsAt fun ev u _ => ?_
  cases ev.value? with
  | none => exact Preserves.keepsAt inferInstance
  | some v =>
    have hdeclare : Preserves (State.Reports d) (Pass.transform (State.declareConstant cfg name v tag.span)) := by
      refine preserves_transform fun s hs => ?_
      unfold State.declareConstant
      split
      · exact Stable.report _ nofun hs
      · exact hs
    exact Preserves.keepsAt inferInstance

instance reports_analyzeStmts (body : List Stmt) : Preserves (State.Reports d) (analyzeStmts cfg body) :=
  ⟨fun s => carries_analyzeStmts body s harmless_reports⟩

instance reports_analyzeOptional (part : Option (List Stmt)) :
    Preserves (State.Reports d) (analyzeOptional cfg part) :=
  ⟨fun s => carries_analyzeOptional part s fun _ _ => harmless_reports⟩

instance reports_analyzeElse (entry : Reachability) (part : Option (List Stmt)) :
    Preserves (State.Reports d) (analyzeElse cfg entry part) :=
  ⟨fun s => carries_analyzeElse entry part s fun _ _ => harmless_reports⟩

instance reports_analyzeCatches (catches : List Catch) :
    Preserves (State.Reports d) (analyzeCatches cfg catches) :=
  ⟨fun s => carries_analyzeCatches catches s fun _ _ _ _ _ _ _ _ _ _ _ => harmless_reports⟩

/-- What the first of two steps reports. -/
theorem reports_bind {f : α → Analyze β} {x : Analyze α} (h : (x s).2.Reports d)
    (hf : ∀ a, Preserves (State.Reports d) (f a)) : ((x >>= f) s).2.Reports d := by
  rw [Pass.bind_apply]
  rcases hrun : x s with ⟨r, t⟩
  rw [hrun] at h
  cases r with
  | error e => exact h
  | ok a => exact (hf a).keep t h

/-- What the second of two steps reports. -/
theorem reports_bind_of_ok {f : α → Analyze β} {x : Analyze α} {a : α} (hx : x s = (.ok a, t))
    (h : (f a t).2.Reports d) : ((x >>= f) s).2.Reports d := by
  rw [Pass.bind_apply, hx]
  exact h

theorem reports_asDead {x : Analyze α} (h : (x s.enterDead).2.Reports d) : (asDead x s).2.Reports d := by
  have hinner : ((x.ensuring (State.restore s.reachability)) s.enterDead).2.Reports d := h
  exact reports_bind_of_ok rfl (reports_bind_of_ok rfl (reports_bind hinner fun _ => preserves_pure ()))

theorem reports_optional (h : (analyzeStmts cfg body s).2.Reports d) :
    (analyzeOptional cfg (some body) s).2.Reports d := by
  rw [analyzeOptional]
  exact reports_bind h fun _ => preserves_pure _

theorem reports_clause {earlier later : List Catch} {span : Span} {type : String} {var : Option String}
    {handler : List Stmt} {resolved : Option String} {es : List Catch}
    (hearlier : analyzeCatches cfg earlier s = (.ok es, t))
    (h : (analyzeStmts cfg handler (t.resolveType cfg type span).2.enterConditional).2.Reports d) :
    (analyzeCatches cfg (earlier ++ .clause span type var handler resolved :: later) s).2.Reports d := by
  induction earlier generalizing s es with
  | nil =>
    cases hearlier
    rw [List.nil_append, analyzeCatches]
    refine reports_bind_of_ok (a := (t.resolveType cfg type span).1) rfl ?_
    exact reports_bind (x := inConditional _) h fun _ => inferInstance
  | cons clause rest ih =>
    obtain ⟨span', type', var', handler', resolved'⟩ := clause
    rw [analyzeCatches] at hearlier
    obtain ⟨found, u, hfound, hearlier⟩ := (bind_eq_ok_iff ..).mp hearlier
    obtain ⟨b, v, hhandler, hearlier⟩ := (bind_eq_ok_iff ..).mp hearlier
    obtain ⟨es', w, hrest, hearlier⟩ := (bind_eq_ok_iff ..).mp hearlier
    cases hearlier
    rw [List.cons_append, analyzeCatches]
    refine reports_bind_of_ok hfound (reports_bind_of_ok hhandler ?_)
    exact reports_bind (ih hrest) fun _ => preserves_pure _

/-- What is reported for a part of a statement is reported for the statement. -/
theorem Part.reported (h : Part cfg x t inner u) (hadmits : Admits cfg x s home t)
    (hreports : (analyzeStmts cfg inner u).2.Reports d) : (analyzeStmt cfg x s).2.Reports d := by
  cases h with
  | block =>
    rw [analyzeStmt, hadmits]
    exact reports_bind hreports fun _ => inferInstance
  | elseDead hcondition hdecision =>
    rw [analyzeStmt_branch_true hadmits hcondition hdecision]
    exact reports_bind (reports_asDead (reports_optional hreports)) fun _ => inferInstance
  | thenTaken hcondition hdecision hdead =>
    rw [analyzeStmt_branch_true hadmits hcondition hdecision]
    exact reports_bind_of_ok hdead (reports_bind hreports fun _ => inferInstance)
  | thenDead hcondition hdecision =>
    rw [analyzeStmt_branch_false hadmits hcondition hdecision]
    refine reports_bind (reports_asDead hreports) fun _ => Preserves.bind inferInstance fun r => ?_
    cases r <;> dsimp only <;> infer_instance
  | elseTaken hcondition hdecision hdead =>
    rw [analyzeStmt_branch_false hadmits hcondition hdecision]
    refine reports_bind_of_ok hdead (reports_bind (reports_optional hreports) fun r => ?_)
    cases r <;> dsimp only <;> infer_instance
  | thenPart hcondition hdecision hkeep =>
    rw [analyzeStmt_branch_none hadmits hcondition hdecision]
    refine reports_bind_of_ok hkeep (reports_bind_of_ok rfl ?_)
    exact reports_bind (x := Pass.attempt _) hreports fun _ => inferInstance
  | elsePart hcondition hdecision hkeep hthen =>
    rw [analyzeStmt_branch_none hadmits hcondition hdecision]
    refine reports_bind_of_ok hkeep (reports_bind_of_ok rfl (reports_bind_of_ok hthen ?_))
    refine reports_bind ?_ fun _ => inferInstance
    rw [analyzeElse]
    exact reports_bind_of_ok rfl (reports_bind (x := inConditional _) hreports fun _ => inferInstance)
  | loopDead hcondition hdecided =>
    rw [analyzeStmt, hadmits]
    refine reports_bind_of_ok hcondition ?_
    rw [if_pos hdecided]
    exact reports_bind (x := inLoop _) (reports_asDead hreports) fun _ => inferInstance
  | loopBody hcondition hdecided hkeep =>
    rw [analyzeStmt, hadmits]
    refine reports_bind_of_ok hcondition ?_
    rw [if_neg hdecided]
    exact reports_bind_of_ok hkeep (reports_bind (x := inLoop _) hreports fun _ => inferInstance)
  | tryBody =>
    rw [analyzeStmt, hadmits]
    exact reports_bind (x := inConditional _) hreports fun _ => inferInstance
  | clause hbody hearlier =>
    rw [analyzeStmt, hadmits]
    exact reports_bind_of_ok hbody (reports_bind (reports_clause hearlier hreports) fun _ => inferInstance)
  | cleanup hbody hcatches =>
    rw [analyzeStmt, hadmits]
    refine reports_bind_of_ok hbody (reports_bind_of_ok hcatches ?_)
    exact reports_bind (reports_optional hreports) fun _ => inferInstance
  | function =>
    rw [analyzeStmt, hadmits]
    refine reports_bind_of_ok rfl (reports_bind_of_ok rfl ?_)
    refine reports_bind (x := Pass.ensuring _ _) ?_ fun _ => inferInstance
    exact Stable.leaveRoutine hreports

/-- **What is reported for a statement that the analysis comes to stays reported.** -/
theorem Comes.reported (h : Comes cfg body s x t) (hreports : ∀ s' home, Admits cfg x s' home t →
    (analyzeStmt cfg x s').2.Reports d) : (analyzeStmts cfg body s).2.Reports d := by
  induction h with
  | here hadmits =>
    rw [analyzeStmts]
    exact reports_bind (hreports _ _ hadmits) fun _ => inferInstance
  | later hdone _ ih =>
    rw [analyzeStmts]
    exact reports_bind_of_ok hdone (reports_bind (ih hreports) fun _ => inferInstance)
  | within hadmits hpart _ ih =>
    rw [analyzeStmts]
    exact reports_bind (hpart.reported hadmits (ih hreports)) fun _ => inferInstance

/-! ## Labels -/

/-- The analysis of a routine comes to a statement, with these statements around it. -/
inductive Encounters (cfg : Setting) : List Stmt → State → List (Stmt × State) → Stmt → State → Prop where
  | here {x rest s home t} (hadmits : Admits cfg x s home t) : Encounters cfg (x :: rest) s [] x t
  | later {y z rest s t around x u} (hdone : analyzeStmt cfg y s = (.ok z, t))
    (h : Encounters cfg rest t around x u) : Encounters cfg (y :: rest) s around x u
  | within {y rest s home t part u around x v} (hadmits : Admits cfg y s home t)
    (hown : y.isDeclaration = false) (hpart : Part cfg y t part u) (h : Encounters cfg part u around x v) :
    Encounters cfg (y :: rest) s ((y, t) :: around) x v

variable {around : List (Stmt × State)}

/-- Of the statements around, those that can be left out can be reached. -/
theorem Encounters.alive (h : Encounters cfg body s around x t) (hmem : (y, u) ∈ around)
    (helidable : isElidable y = true) : u.unreachable = false := by
  induction h with
  | here => exact nomatch hmem
  | later _ _ ih => exact ih hmem
  | within hadmits _ _ _ ih =>
    rcases List.mem_cons.mp hmem with heq | hmem
    · cases heq
      exact hadmits.alive helidable
    · exact ih hmem

variable (cfg) in
/-- The analysis of statements comes to a label statement with this name. -/
def FindsLabel (body : List Stmt) (s : State) (name : String) : Prop :=
  ∃ around tag t, Encounters cfg body s around (.label tag name) t

namespace FindsLabel

variable {rest : List Stmt} {z : Stmt}

theorem head (h : FindsLabel cfg [y] s name) : FindsLabel cfg (y :: rest) s name := by
  obtain ⟨around, tag, t, h⟩ := h
  refine ⟨around, tag, t, ?_⟩
  cases h with
  | here hadmits => exact .here hadmits
  | later _ h => exact nomatch h
  | within hadmits hown hpart h => exact .within hadmits hown hpart h

theorem tail (hdone : analyzeStmt cfg y s = (.ok z, t)) (h : FindsLabel cfg rest t name) :
    FindsLabel cfg (y :: rest) s name := by
  obtain ⟨around, tag, u, h⟩ := h
  exact ⟨around, tag, u, .later hdone h⟩

theorem part (hadmits : Admits cfg y s home t) (hown : y.isDeclaration = false) (hpart : Part cfg y t inner u)
    (h : FindsLabel cfg inner u name) : FindsLabel cfg [y] s name := by
  obtain ⟨around, tag, v, h⟩ := h
  exact ⟨_, tag, v, .within hadmits hown hpart h⟩

end FindsLabel

/-- What is defined depends on the table of the routine only. -/
theorem State.Defines.of_scope (h : t.Defines name) (hscope : t.scope = s.scope) : s.Defines name := by
  unfold State.Defines at h ⊢
  rwa [← hscope]

theorem scope_enterUnreachable (s : State) : s.enterUnreachable.scope = s.scope := by
  unfold State.enterUnreachable
  split <;> rfl

/-- Making an entry defines nothing. -/
theorem defines_of_labelEntry {firstGoto : Option Span} {name' : String}
    (h : (s.labelEntry name' firstGoto).2.Defines name) : s.Defines name := by
  unfold State.labelEntry at h
  split at h
  · exact h
  · obtain ⟨entry, hlookup, hdefined⟩ := h
    rw [lookup_putLabel] at hlookup
    split at hlookup
    · cases hlookup
      exact nomatch hdefined
    · exact ⟨entry, hlookup, hdefined⟩

/-- A label statement defines its own label and no other. -/
theorem defines_of_analyzeLabel {tag : StmtTag} {name' : String} {y : Stmt}
    (h : analyzeLabel tag name' home s = (.ok y, t)) (ht : t.Defines name) : s.Defines name ∨ name = name' := by
  obtain ⟨cell, u, hdefine, h⟩ := (bind_eq_ok_iff ..).mp h
  have hu : u = (s.defineLabel name' tag.span).2 := (congrArg Prod.snd hdefine).symm
  have ht : (s.defineLabel name' tag.span).2.Defines name := by
    rw [← hu]
    cases cell <;> cases h <;> exact ht
  unfold State.defineLabel at ht
  dsimp only at ht
  split at ht
  · exact Or.inl (defines_of_labelEntry ht)
  · obtain ⟨entry, hlookup, hdefined⟩ := ht
    rw [lookup_putLabel] at hlookup
    split at hlookup
    · exact Or.inr ‹_›
    · exact Or.inl (defines_of_labelEntry ⟨entry, hlookup, hdefined⟩)

section

variable (cfg name) in
/-- A label that is defined behind statements was defined before, or the analysis has come to its statement. -/
def TracesStmts (body : List Stmt) : Prop :=
  ∀ s out t, analyzeStmts cfg body s = (.ok out, t) → t.Defines name → s.Defines name ∨ FindsLabel cfg body s name

variable (cfg name) in
def TracesOptional (part : Option (List Stmt)) : Prop :=
  ∀ s out t, analyzeOptional cfg part s = (.ok out, t) → t.Defines name →
    s.Defines name ∨ ∃ body, part = some body ∧ FindsLabel cfg body s name

variable (cfg name) in
def TracesElse (part : Option (List Stmt)) : Prop :=
  ∀ entry s out t, analyzeElse cfg entry part s = (.ok out, t) → t.Defines name →
    s.Defines name ∨ ∃ body, part = some body ∧ FindsLabel cfg body (s.restore entry).enterConditional name

variable (cfg name) in
def TracesCatches (catches : List Catch) : Prop :=
  ∀ s out t, analyzeCatches cfg catches s = (.ok out, t) → t.Defines name → s.Defines name ∨
    ∃ earlier span type var handler resolved later es u,
      catches = earlier ++ .clause span type var handler resolved :: later ∧
      analyzeCatches cfg earlier s = (.ok es, u) ∧
      FindsLabel cfg handler (u.resolveType cfg type span).2.enterConditional name

variable {tag : StmtTag} {condition : Expr} {thenBody : List Stmt} {elseBody cleanup : Option (List Stmt)}
  {catches : List Catch}

theorem defines_of_branch (htrace : TracesStmts cfg name thenBody) (hoptional : TracesOptional cfg name elseBody)
    (helsePart : TracesElse cfg name elseBody)
    (h : analyzeStmt cfg (.branch tag condition thenBody elseBody) s = (.ok y, t)) (ht : t.Defines name) :
    s.Defines name ∨ FindsLabel cfg [.branch tag condition thenBody elseBody] s name := by
  cases analyzeStmt_turn h with
  | leftOut _ _ _ hscope => exact Or.inl (ht.of_scope hscope)
  | quiet hquiet => exact Or.inl (ht.of_scope hquiet.scope)
  | thenTaken hadmits hquiet hcondition hdecision hdead hthen =>
    have hscope := (hquiet.trans (quiet_analyze hcondition)).scope
    rcases htrace _ _ _ hthen ht with hw | hfound
    · obtain ⟨_, _, helse, rfl⟩ := asDead_eq_ok hdead
      rcases hoptional _ _ _ helse (hw.of_scope rfl) with hv | ⟨body, rfl, hfound⟩
      · exact Or.inl (hv.of_scope hscope)
      · exact Or.inr (hfound.part hadmits rfl (.elseDead hcondition hdecision))
    · exact Or.inr (hfound.part hadmits rfl (.thenTaken hcondition hdecision hdead))
  | elseTaken hadmits hquiet hcondition hdecision hdead helse =>
    have hscope := (hquiet.trans (quiet_analyze hcondition)).scope
    rcases hoptional _ _ _ helse ht with hw | ⟨body, rfl, hfound⟩
    · obtain ⟨_, _, hthen, rfl⟩ := asDead_eq_ok hdead
      rcases htrace _ _ _ hthen (hw.of_scope rfl) with hv | hfound
      · exact Or.inl (hv.of_scope hscope)
      · exact Or.inr (hfound.part hadmits rfl (.thenDead hcondition hdecision))
    · exact Or.inr (hfound.part hadmits rfl (.elseTaken hcondition hdecision hdead))
  | noneTaken hadmits hquiet hcondition hdecision hdead =>
    have hscope := (hquiet.trans (quiet_analyze hcondition)).scope
    obtain ⟨_, _, hthen, rfl⟩ := asDead_eq_ok hdead
    rcases htrace _ _ _ hthen (ht.of_scope rfl) with hv | hfound
    · exact Or.inl (hv.of_scope hscope)
    · exact Or.inr (hfound.part hadmits rfl (.thenDead hcondition hdecision))
  | branch hadmits hquiet hcondition hdecision hkeep hthen helse =>
    have hscope := ((hquiet.trans (quiet_analyze hcondition)).trans (quiet_keep hkeep)).scope
    rcases helsePart _ _ _ _ helse ht with hw | ⟨body, rfl, hfound⟩
    · obtain ⟨_, hrun, rfl⟩ := inConditional_eq_ok hthen
      rcases htrace _ _ _ hrun (hw.of_scope rfl) with hv | hfound
      · exact Or.inl (hv.of_scope hscope)
      · exact Or.inr (hfound.part hadmits rfl (.thenPart hcondition hdecision hkeep))
    · exact Or.inr (hfound.part hadmits rfl
        (.elsePart hcondition hdecision hkeep (attempt_of_ok hthen)))

theorem defines_of_loop (htrace : TracesStmts cfg name body)
    (h : analyzeStmt cfg (.loop tag condition body) s = (.ok y, t)) (ht : t.Defines name) :
    s.Defines name ∨ FindsLabel cfg [.loop tag condition body] s name := by
  cases analyzeStmt_turn h with
  | leftOut _ _ _ hscope => exact Or.inl (ht.of_scope hscope)
  | quiet hquiet => exact Or.inl (ht.of_scope hquiet.scope)
  | loopDead hadmits hquiet hcondition hdecided hbody =>
    have hscope := (hquiet.trans (quiet_analyze hcondition)).scope
    obtain ⟨_, hdead, rfl⟩ := inLoop_eq_ok hbody
    obtain ⟨_, _, hrun, rfl⟩ := asDead_eq_ok hdead
    rcases htrace _ _ _ hrun (ht.of_scope rfl) with hv | hfound
    · exact Or.inl (hv.of_scope hscope)
    · exact Or.inr (hfound.part hadmits rfl (.loopDead hcondition hdecided))
  | loop hadmits hquiet hcondition hdecided hkeep hbody =>
    have hscope := ((hquiet.trans (quiet_analyze hcondition)).trans (quiet_keep hkeep)).scope
    obtain ⟨_, hrun, rfl⟩ := inLoop_eq_ok hbody
    rcases htrace _ _ _ hrun (ht.of_scope rfl) with hv | hfound
    · exact Or.inl (hv.of_scope hscope)
    · exact Or.inr (hfound.part hadmits rfl (.loopBody hcondition hdecided hkeep))

theorem defines_of_tryCatch (htrace : TracesStmts cfg name body) (hclauses : TracesCatches cfg name catches)
    (hoptional : TracesOptional cfg name cleanup)
    (h : analyzeStmt cfg (.tryCatch tag body catches cleanup) s = (.ok y, t)) (ht : t.Defines name) :
    s.Defines name ∨ FindsLabel cfg [.tryCatch tag body catches cleanup] s name := by
  cases analyzeStmt_turn h with
  | leftOut _ _ _ hscope => exact Or.inl (ht.of_scope hscope)
  | quiet hquiet => exact Or.inl (ht.of_scope hquiet.scope)
  | tryCatch hadmits hquiet hbody hcatches hcleanup =>
    rcases hoptional _ _ _ hcleanup ht with hw | ⟨part, rfl, hfound⟩
    · rcases hclauses _ _ _ hcatches hw with
        hv | ⟨earlier, span, type, var, handler, resolved, later, es, w, rfl, hearlier, hfound⟩
      · obtain ⟨_, hrun, rfl⟩ := inConditional_eq_ok hbody
        rcases htrace _ _ _ hrun (hv.of_scope rfl) with hu | hfound
        · exact Or.inl (hu.of_scope hquiet.scope)
        · exact Or.inr (hfound.part hadmits rfl (.tryBody ..))
      · exact Or.inr (hfound.part hadmits rfl (.clause hbody hearlier))
    · exact Or.inr (hfound.part hadmits rfl (.cleanup hbody hcatches))

end

mutual

theorem defines_of_analyzeStmt (name : String) : ∀ (x : Stmt) {s : State} {y : Stmt} {t : State},
    analyzeStmt cfg x s = (.ok y, t) → t.Defines name → s.Defines name ∨ FindsLabel cfg [x] s name
  | .expression .., _, _, _, h, ht | .echo .., _, _, _, h, ht | .unset .., _, _, _, h, ht
  | .constDecl .., _, _, _, h, ht | .empty .., _, _, _, h, ht => by
    cases analyzeStmt_turn h with
    | leftOut _ _ _ hscope => exact Or.inl (ht.of_scope hscope)
    | quiet hquiet => exact Or.inl (ht.of_scope hquiet.scope)
  | .jump .., _, _, _, h, ht => by
    cases analyzeStmt_turn h with
    | leftOut _ _ _ hscope => exact Or.inl (ht.of_scope hscope)
    | quiet hquiet => exact Or.inl (ht.of_scope hquiet.scope)
    | jump hquiet => exact Or.inl (ht.of_scope ((scope_enterUnreachable _).trans hquiet.scope))
  | .throw .., _, _, _, h, ht => by
    cases analyzeStmt_turn h with
    | leftOut _ _ _ hscope => exact Or.inl (ht.of_scope hscope)
    | quiet hquiet => exact Or.inl (ht.of_scope hquiet.scope)
    | throw hquiet => exact Or.inl (ht.of_scope ((scope_enterUnreachable _).trans hquiet.scope))
  | .goto .., _, _, _, h, ht => by
    cases analyzeStmt_turn h with
    | leftOut _ _ _ hscope => exact Or.inl (ht.of_scope hscope)
    | quiet hquiet => exact Or.inl (ht.of_scope hquiet.scope)
    | goto _ hquiet =>
      have hgoto : State.Defines _ name := ht.of_scope (scope_enterUnreachable _)
      exact Or.inl ((defines_of_labelEntry hgoto).of_scope hquiet.scope)
  | .label tag name', _, _, _, h, ht => by
    cases analyzeStmt_turn h with
    | leftOut _ _ _ hscope => exact Or.inl (ht.of_scope hscope)
    | quiet hquiet => exact Or.inl (ht.of_scope hquiet.scope)
    | label hadmits hquiet _ hrun =>
      rcases defines_of_analyzeLabel hrun ht with hu | rfl
      · exact Or.inl (hu.of_scope hquiet.scope)
      · exact Or.inr ⟨[], tag, _, .here hadmits⟩
  | .block _ body, _, _, _, h, ht => by
    cases analyzeStmt_turn h with
    | leftOut _ _ _ hscope => exact Or.inl (ht.of_scope hscope)
    | quiet hquiet => exact Or.inl (ht.of_scope hquiet.scope)
    | block hadmits hquiet hbody =>
      rcases defines_of_analyzeStmts name body hbody ht with hu | hfound
      · exact Or.inl (hu.of_scope hquiet.scope)
      · exact Or.inr (hfound.part hadmits rfl (.block ..))
  | .branch _ _ thenBody elseBody, _, _, _, h, ht =>
    defines_of_branch (fun _ _ _ => defines_of_analyzeStmts name thenBody)
      (fun _ _ _ => defines_of_analyzeOptional name elseBody)
      (fun entry _ _ _ => defines_of_analyzeElse name entry elseBody) h ht
  | .loop _ _ body, _, _, _, h, ht => defines_of_loop (fun _ _ _ => defines_of_analyzeStmts name body) h ht
  | .tryCatch _ body catches cleanup, _, _, _, h, ht =>
    defines_of_tryCatch (fun _ _ _ => defines_of_analyzeStmts name body)
      (fun _ _ _ => defines_of_analyzeCatches name catches)
      (fun _ _ _ => defines_of_analyzeOptional name cleanup) h ht
  | .function _ head body _, _, _, _, h, ht => by
    cases analyzeStmt_turn h with
    | leftOut _ _ _ hscope => exact Or.inl (ht.of_scope hscope)
    | quiet hquiet => exact Or.inl (ht.of_scope hquiet.scope)
    | function _ hquiet hbody =>
      rw [leaveRoutine_of_enclosing (enclosing_analyzeStmts body hbody)] at ht
      exact Or.inl (ht.of_scope hquiet.scope)
termination_by structural x => x

/-- **A label that is defined was defined before, or the analysis has come to its statement.** -/
theorem defines_of_analyzeStmts (name : String) : ∀ (body : List Stmt) {s : State} {out : List Stmt} {t : State},
    analyzeStmts cfg body s = (.ok out, t) → t.Defines name → s.Defines name ∨ FindsLabel cfg body s name
  | [], _, _, _, h, ht => by
    cases h
    exact Or.inl ht
  | x :: rest, _, _, _, h, ht => by
    rw [analyzeStmts] at h
    obtain ⟨y, u, hx, h⟩ := (bind_eq_ok_iff ..).mp h
    obtain ⟨ys, v, hrest, h⟩ := (bind_eq_ok_iff ..).mp h
    cases h
    rcases defines_of_analyzeStmts name rest hrest ht with hu | hfound
    · exact (defines_of_analyzeStmt name x hx hu).imp_right FindsLabel.head
    · exact Or.inr (hfound.tail hx)
termination_by structural body => body

theorem defines_of_analyzeOptional (name : String) : ∀ (part : Option (List Stmt)) {s : State}
    {out : Option (List Stmt)} {t : State}, analyzeOptional cfg part s = (.ok out, t) → t.Defines name →
      s.Defines name ∨ ∃ body, part = some body ∧ FindsLabel cfg body s name
  | none, _, _, _, h, ht => by
    cases h
    exact Or.inl ht
  | some body, _, _, _, h, ht => by
    rw [analyzeOptional] at h
    obtain ⟨out, u, hbody, h⟩ := (bind_eq_ok_iff ..).mp h
    cases h
    exact (defines_of_analyzeStmts name body hbody ht).imp_right fun hfound => ⟨body, rfl, hfound⟩
termination_by structural part => part

theorem defines_of_analyzeElse (name : String) (entry : Reachability) : ∀ (part : Option (List Stmt))
    {s : State} {out : Option (List Stmt)} {t : State}, analyzeElse cfg entry part s = (.ok out, t) →
      t.Defines name → s.Defines name ∨
        ∃ body, part = some body ∧ FindsLabel cfg body (s.restore entry).enterConditional name
  | none, _, _, _, h, ht => by
    cases h
    exact Or.inl ht
  | some body, _, _, _, h, ht => by
    obtain ⟨_, _, hrun, rfl⟩ := analyzeElse_eq_ok h
    rcases defines_of_analyzeStmts name body hrun (ht.of_scope rfl) with hs | hfound
    · exact Or.inl (hs.of_scope rfl)
    · exact Or.inr ⟨body, rfl, hfound⟩
termination_by structural part => part

theorem defines_of_analyzeCatches (name : String) : ∀ (catches : List Catch) {s : State} {out : List Catch}
    {t : State}, analyzeCatches cfg catches s = (.ok out, t) → t.Defines name → s.Defines name ∨
      ∃ earlier span type var handler resolved later es u,
        catches = earlier ++ .clause span type var handler resolved :: later ∧
        analyzeCatches cfg earlier s = (.ok es, u) ∧
        FindsLabel cfg handler (u.resolveType cfg type span).2.enterConditional name
  | [], _, _, _, h, ht => by
    cases h
    exact Or.inl ht
  | .clause span type var handler resolved :: rest, s, _, _, h, ht => by
    obtain ⟨b, u, es, hhandler, hrest⟩ := analyzeCatches_cons_eq_ok h
    rcases defines_of_analyzeCatches name rest hrest ht with
      hu | ⟨earlier, span', type', var', handler', resolved', later, es', v, rfl, hearlier, hfound⟩
    · rcases defines_of_analyzeStmts name handler hhandler (hu.of_scope rfl) with hs | hfound
      · exact Or.inl (hs.of_scope (quiet_resolveType type span s).scope)
      · exact Or.inr ⟨[], span, type, var, handler, resolved, rest, [], s, rfl, rfl, hfound⟩
    · obtain ⟨es'', hall⟩ := analyzeCatches_cons_of_ok var resolved hhandler hearlier
      exact Or.inr ⟨_ :: earlier, span', type', var', handler', resolved', later, es'', v, rfl, hall, hfound⟩
termination_by structural catches => catches

end

end Analysis
end PhpLowering
