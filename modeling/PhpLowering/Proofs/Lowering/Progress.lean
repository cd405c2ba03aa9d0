import PhpLowering.Proofs.Lowering.Reports

/-!
# The statement at which an emission fails

While code is emitted there is always a chain of statements that have been begun and are not done,
each within the one before it.  `Begun cfg body s x t` says that the emission of `body`, started in
the state `s`, comes to the statement `x` in the state `t`.  To come to a statement within another
one, the code in front of it has to be emitted first; `Inside` lists the parts of a statement
together with that code.

If the emission fails, the statements that have been begun and are not done are those that fail
themselves, and the innermost of them is the one that has none of the others in it (`Innermost`).
A failure is reported there, and passes all statements around it unchanged:

* `exists_innermost`: a failure comes with an innermost statement, at whose place it is reported;
* `Innermost.reported`: no other place comes into question.
-/

namespace PhpLowering

namespace Pass

variable {ε σ α β : Type} {x : Pass ε σ α} {f : α → Pass ε σ β} {g : σ → σ} {s t u : σ} {a : α} {e : ε}

theorem bind_of_ok (h : x s = (.ok a, t)) : (x >>= f) s = f a t := by
  rw [bind_apply, h]

theorem bind_of_error (h : x s = (.error e, t)) : (x >>= f) s = (.error e, t) := by
  rw [bind_apply, h]

theorem ensuring_of_error (h : x s = (.error e, t)) : x.ensuring g s = (.error e, g t) := by
  rw [ensuring_apply, h]

theorem error_of_ensuring (h : x.ensuring g s = (.error e, u)) : ∃ t, x s = (.error e, t) := by
  rw [ensuring_apply] at h
  exact ⟨_, Prod.ext (Prod.mk.inj h).1 rfl⟩

end Pass

namespace Lowering

open Pass (bind_of_ok bind_of_error ensuring_of_error error_of_ensuring bind_eq_ok_iff bind_eq_error_iff)

variable {σ α β : Type} [Sink σ] (cfg : Setting)

/-- The beginning of an exception region; the answer is the label behind it. -/
def regionHead : Emit σ Label := do
  updateFrame Frame.enterException
  toSink Sink.beginTry

/-- Whether a `try` is emitted as a plain block. -/
def elided (catches : List Catch) (cleanup : Option (List Stmt)) : Bool :=
  catches.isEmpty && cleanup.isNone && cfg.options.elideEmptyTry

/-- The handlers of a region, if it has clauses. -/
def handlersPart (catches : List Catch) (regionEnd : Label) : Emit σ Unit :=
  if !catches.isEmpty then handlersCode (lowerClauses cfg catches regionEnd) else pure ()

/-- A part of a statement, and the code that is emitted between the beginning of the statement and
that of the part. -/
inductive Inside : Stmt → Emit σ Unit → List Stmt → Prop where
  | block (tag body) : Inside (.block tag body) (pure ()) body
  | thenPart (tag condition thenBody elseBody) :
    Inside (.branch tag condition thenBody elseBody)
      (do let _ ← branchHead cfg condition)
      thenBody
  | elsePart (tag condition thenBody elseBody) :
    Inside (.branch tag condition thenBody (some elseBody))
      (do
        let otherwise ← branchHead cfg condition
        lowerStmts cfg thenBody
        let _ ← elseHead otherwise)
      elseBody
  | loopBody (tag condition body) :
    Inside (.loop tag condition body)
      (do let _ ← loopHead cfg condition)
      body
  | bareTry (tag body catches cleanup) (helided : elided cfg catches cleanup = true) :
    Inside (.tryCatch tag body catches cleanup) (pure ()) body
  | tryBody (tag body catches cleanup) (helided : elided cfg catches cleanup = false) :
    Inside (.tryCatch tag body catches cleanup)
      (do let _ ← regionHead)
      body
  | clause (tag body earlier span type var handler resolved later cleanup) :
    Inside (.tryCatch tag body (earlier ++ .clause span type var handler resolved :: later) cleanup)
      (do
        let regionEnd ← regionHead
        lowerStmts cfg body
        let exception ← handlersHead
        lowerClauses cfg earlier regionEnd exception
        let _ ← clauseHead exception (resolved.getD type) var)
      handler
  | cleanup (tag body catches cleanup) :
    Inside (.tryCatch tag body catches (some cleanup))
      (do
        let regionEnd ← regionHead
        lowerStmts cfg body
        handlersPart cfg catches regionEnd
        toSink Sink.beginFinally)
      cleanup
  | function (tag head body dead) :
    Inside (.function tag head body dead)
      (do
        toSink (Sink.beginFunction head)
        updateFrame fun _ => { returnsRef := head.byRef })
      body

/-- Says which statement the next instructions come from. -/
def announce (x : Stmt) : Emit σ Unit :=
  if cfg.options.sequencePoints && x.kind ≠ .empty then
    Pass.update fun s => { s with sink := Sink.sequencePoint x.span s.sink }
  else pure ()

/-- Looks the rule of a statement up, which has to be the one made for its kind. -/
def findRule (x : Stmt) : Emit σ Unit := do
  let handle ← onTable (RuleTable.stmt cfg.registry x.kind x.id)
  if handle.rule = x.kind then return
  else fault (.wrongRule (.stmt handle.rule) (.stmt x.kind))

/-- The beginning of a statement. -/
def enter (x : Stmt) : Emit σ Unit := do
  announce cfg x
  findRule cfg x

/-- A part of a statement that is begun in a state is come to in another one. -/
def Opens (x : Stmt) (s : State σ) (body : List Stmt) (t : State σ) : Prop :=
  ∃ lead, Inside cfg x lead body ∧ (do enter cfg x; lead) s = (.ok (), t)

/-- The emission of statements comes to one of them, or to one within them. -/
inductive Begun : List Stmt → State σ → Stmt → State σ → Prop where
  | here (x rest s) : Begun (x :: rest) s x s
  | later {y rest s t u x} (hdone : lowerStmt cfg y s = (.ok (), t)) (h : Begun rest t x u) :
    Begun (y :: rest) s x u
  | within {y rest body s t u x} (hopens : Opens cfg y s body t) (h : Begun body t x u) :
    Begun (y :: rest) s x u

/-- A statement that is begun in a state is not finished. -/
def Fails (x : Stmt) (s : State σ) : Prop :=
  ∃ e t, lowerStmt cfg x s = (.error e, t)

/-- A statement fails, and no statement within it does. -/
structure Innermost (body : List Stmt) (s : State σ) (x : Stmt) (t : State σ) : Prop where
  begun : Begun cfg body s x t
  fails : Fails cfg x t
  last : ∀ part u, Opens cfg x t part u → ∀ y v, Begun cfg part u y v → ¬ Fails cfg y v

/-! ## Following a failure through code -/

section Following

variable {cfg} {x : Emit σ α} {f : α → Emit σ β} {s t u : State σ} {e : CompileError}

/-- Plain code does not fail with a failure that has been reported. -/
theorem not_reported_of_plain [hx : Plain x] (h : x s = (.error e, t)) (he : e.isReported = true) :
    False := by
  obtain ⟨calls, -, hx⟩ := hx.talk s
  rw [h] at hx
  rw [hx.2.1] at he
  exact nomatch he

/-- A failure that has been reported comes from behind plain code. -/
theorem behind_plain [Plain x] (h : (x >>= f) s = (.error e, u)) (he : e.isReported = true) :
    ∃ a t, x s = (.ok a, t) ∧ f a t = (.error e, u) :=
  ((bind_eq_error_iff x f s u e).mp h).resolve_left fun hx => not_reported_of_plain hx he

theorem lowerStmts_reported {body : List Stmt} (h : lowerStmts cfg body s = (.error e, t)) :
    e.isReported = true := by
  obtain ⟨calls, -, hbody⟩ := (reports_lowerStmts cfg body).talk s
  rw [h] at hbody
  obtain ⟨-, span, source, rfl, -⟩ := hbody
  rfl

end Following

/-! ## The code of one statement -/

/-- The code of a statement by the rule made for its kind. -/
def ownCode : Stmt → Home StmtKind → Emit σ Unit
  | .expression _ e, _ => do
    let _ ← discard (← lower cfg e .value)
  | .echo _ es, _ => echoAll cfg es
  | .block _ body, _ => lowerStmts cfg body
  | .branch _ condition thenBody elseBody, _ =>
    branchCode cfg condition (lowerStmts cfg thenBody) (lowerOptional cfg elseBody)
  | .loop _ condition body, _ => loopCode cfg condition (lowerStmts cfg body)
  | .jump _ kind expr, _ => jumpCode cfg kind expr
  | .goto _ label, _ => do
    jump (← routineLabel label) 0
  | .label _ name, home => labelCode name home
  | .tryCatch _ body catches cleanup, _ =>
    tryCode cfg (lowerStmts cfg body) (!catches.isEmpty) (lowerClauses cfg catches)
      (lowerOptional cfg cleanup)
  | .throw _ e, _ => do
    let _ ← boxed (lower cfg e)
    emit .throw
  | .unset _ targets, _ => unsetAll cfg targets
  | .constDecl _ name value, _ => do
    let _ ← boxed (lower cfg value)
    emit (.defineConstant name)
  | .function _ head body _, _ => do
    toSink (Sink.beginFunction head)
    routineCode head.byRef (lowerStmts cfg body)
    toSink Sink.endFunction
  | .empty .., _ => return

theorem lowerStmt_eq (x : Stmt) :
    (lowerStmt cfg x : Emit σ Unit) = statement cfg x.kind x.tag (ownCode cfg x) := by
  cases x <;> rw [lowerStmt] <;> rfl

variable {cfg} {x : Stmt} {body : List Stmt} {lead : Emit σ Unit} {s t u : State σ}
  {e : CompileError} {home : Home StmtKind}

theorem announce_ok (x : Stmt) (s : State σ) : ∃ t, announce cfg x s = (.ok (), t) := by
  unfold announce
  split
  · exact ⟨_, rfl⟩
  · exact ⟨_, rfl⟩

theorem lowerStmt_of_announce (h : announce cfg x s = (.ok (), t)) :
    lowerStmt cfg x s = reporting x.span (byStmtRule cfg x.kind x.tag (ownCode cfg x)) t := by
  rw [lowerStmt_eq, ← bind_of_ok (f := fun _ =>
    reporting x.span (byStmtRule cfg x.kind x.tag (ownCode cfg x))) h]
  unfold statement announce
  split <;> rfl

/-- The rule of a statement is found, and its code is emitted; or the statement is not begun, and if
it fails that is a new failure. -/
theorem findRule_cases (x : Stmt) (s : State σ) :
    (∃ home t, findRule cfg x s = (.ok (), t) ∧
      byStmtRule cfg x.kind x.tag (ownCode cfg x) s = ownCode cfg x home t) ∨
    (∀ t, findRule cfg x s ≠ (.ok (), t)) ∧
      ∀ e u, byStmtRule cfg x.kind x.tag (ownCode cfg x) s = (.error e, u) → e.isReported = false := by
  unfold findRule byStmtRule
  rcases hlookup : (onTable (RuleTable.stmt cfg.registry x.kind x.id) : Emit σ _) s with ⟨r, t⟩
  have hlookup' : (onTable (RuleTable.stmt cfg.registry x.kind x.tag.id) : Emit σ _) s = (r, t) := hlookup
  cases r with
  | error e =>
    rw [bind_of_error hlookup, bind_of_error hlookup']
    refine Or.inr ⟨nofun, ?_⟩
    rintro e' u heq
    cases heq
    exact Bool.eq_false_iff.mpr (not_reported_of_plain hlookup)
  | ok handle =>
    rw [bind_of_ok hlookup, bind_of_ok hlookup']
    by_cases hrule : handle.rule = x.kind
    · rw [if_pos hrule, if_pos hrule]
      exact Or.inl ⟨handle.home, t, rfl, rfl⟩
    · rw [if_neg hrule, if_neg hrule]
      refine Or.inr ⟨nofun, ?_⟩
      split
      · nofun
      · rintro e u heq
        cases heq
        rfl

/-- Once a statement is begun, it does what its code does, and reports what is new. -/
theorem lowerStmt_of_enter (h : enter cfg x s = (.ok (), u)) :
    ∃ home, lowerStmt cfg x s = reporting x.span (ownCode cfg x home) u := by
  obtain ⟨t, ht⟩ := announce_ok x s
  unfold enter at h
  rw [bind_of_ok ht] at h
  rw [lowerStmt_of_announce ht]
  rcases findRule_cases x t with ⟨home, t', hfound, hcode⟩ | ⟨hnot, -⟩
  · rw [hfound] at h
    cases h
    refine ⟨home, ?_⟩
    unfold reporting
    rw [hcode]
  · exact (hnot u h).elim

/-- A failure of a statement is new and reported by it, or comes from what is within it. -/
theorem lowerStmt_error (h : lowerStmt cfg x s = (.error e, u)) :
    (∃ source, e = .reported x.span source ∧ source.isReported = false ∧
      ∀ t, enter cfg x s = (.ok (), t) → ∃ home u', ownCode cfg x home t = (.error source, u')) ∨
    e.isReported = true ∧ ∃ home t, enter cfg x s = (.ok (), t) ∧ ownCode cfg x home t = (.error e, u) := by
  obtain ⟨t, ht⟩ := announce_ok x s
  have henter : enter cfg x s = findRule cfg x t := bind_of_ok ht
  rw [lowerStmt_of_announce ht] at h
  rw [henter]
  unfold reporting at h
  rcases hrun : byStmtRule cfg x.kind x.tag (ownCode cfg x) t with ⟨r, t'⟩
  rw [hrun] at h
  cases r with
  | ok a => exact nomatch h
  | error e' =>
    dsimp only at h
    split at h
    · rename_i hreported
      cases h
      refine Or.inr ⟨hreported, ?_⟩
      rcases findRule_cases x t with ⟨home, t'', hfound, hcode⟩ | ⟨-, hnew⟩
      · exact ⟨home, t'', hfound, hcode.symm.trans hrun⟩
      · rw [hnew _ _ hrun] at hreported
        exact nomatch hreported
    · rename_i hnew
      cases h
      refine Or.inl ⟨e', rfl, by simpa using hnew, ?_⟩
      intro v hv
      rcases findRule_cases x t with ⟨home, t'', hfound, hcode⟩ | ⟨hnot, -⟩
      · rw [hfound] at hv
        cases hv
        exact ⟨home, t', hcode.symm.trans hrun⟩
      · exact (hnot v hv).elim

/-! ## Clauses -/

theorem lowerClauses_error {span type var handler resolved later} {earlier : List Catch}
    {regionEnd : Label} {exception : Temp}
    (hlead : (do
      lowerClauses cfg earlier regionEnd exception
      let _ ← clauseHead exception (Option.getD resolved type) var : Emit σ Unit) s = (.ok (), t))
    (h : lowerStmts cfg handler t = (.error e, u)) :
    lowerClauses cfg (earlier ++ .clause span type var handler resolved :: later) regionEnd exception s =
      (.error e, u) := by
  induction earlier generalizing s with
  | nil =>
    rw [lowerClauses, pure_bind] at hlead
    obtain ⟨next, t', hhead, heq⟩ := (bind_eq_ok_iff _ _ _ _ _).mp hlead
    cases heq
    rw [List.nil_append, lowerClauses]
    refine bind_of_error ?_
    unfold clauseCode
    rw [bind_of_ok hhead]
    exact bind_of_error h
  | cons c rest ih =>
    obtain ⟨span', type', var', handler', resolved'⟩ := c
    rw [lowerClauses, bind_assoc] at hlead
    obtain ⟨_, t', hfirst, hlead⟩ := (bind_eq_ok_iff _ _ _ _ _).mp hlead
    rw [List.cons_append, lowerClauses, bind_of_ok hfirst]
    exact ih hlead

theorem clause_of_lowerClauses {regionEnd : Label} {exception : Temp} {catches : List Catch}
    (h : lowerClauses cfg catches regionEnd exception s = (.error e, u)) (he : e.isReported = true) :
    ∃ earlier span type var handler resolved later t,
      catches = earlier ++ .clause span type var handler resolved :: later ∧
      (do
        lowerClauses cfg earlier regionEnd exception
        let _ ← clauseHead exception (Option.getD resolved type) var : Emit σ Unit) s = (.ok (), t) ∧
      lowerStmts cfg handler t = (.error e, u) := by
  induction catches generalizing s with
  | nil => exact nomatch h
  | cons c rest ih =>
    obtain ⟨span, type, var, handler, resolved⟩ := c
    rw [lowerClauses] at h
    rcases (bind_eq_error_iff _ _ _ _ _).mp h with hfirst | ⟨_, t, hfirst, hrest⟩
    · obtain ⟨next, t, hhead, hcode⟩ := behind_plain hfirst he
      have hbody : lowerStmts cfg handler t = (.error e, u) := by
        rcases (bind_eq_error_iff _ _ _ _ _).mp hcode with hbody | ⟨_, t', -, htail⟩
        · exact hbody
        · exact (not_reported_of_plain htail he).elim
      refine ⟨[], span, type, var, handler, resolved, rest, t, rfl, ?_, hbody⟩
      rw [lowerClauses, pure_bind, bind_of_ok hhead]
      rfl
    · obtain ⟨earlier, span', type', var', handler', resolved', later, t', rfl, hlead, hbody⟩ := ih hrest
      refine ⟨.clause span type var handler resolved :: earlier, span', type', var', handler', resolved',
        later, t', rfl, ?_, hbody⟩
      rw [lowerClauses, bind_assoc, bind_of_ok hfirst]
      exact hlead

/-! ## Constructs

For every construct: a failure of one of its parts is a failure of the whole, and a failure of the
whole that has been reported is one of its parts. -/

section Constructs

variable {thenCode elseCode code cleanup : Emit σ Unit} {part : Option (Emit σ Unit)} {condition : Expr}

theorem branchCode_error_then {otherwise : Label} (hhead : branchHead cfg condition s = (.ok otherwise, t))
    (h : thenCode t = (.error e, u)) : branchCode cfg condition thenCode part s = (.error e, u) := by
  unfold branchCode
  rw [bind_of_ok hhead]
  exact bind_of_error h

theorem branchCode_error_else
    (hlead : (do
      let otherwise ← branchHead cfg condition
      thenCode
      let _ ← elseHead otherwise : Emit σ Unit) s = (.ok (), t))
    (h : elseCode t = (.error e, u)) : branchCode cfg condition thenCode (some elseCode) s = (.error e, u) := by
  obtain ⟨otherwise, t₁, hhead, hlead⟩ := (bind_eq_ok_iff _ _ _ _ _).mp hlead
  obtain ⟨_, t₂, hthen, hlead⟩ := (bind_eq_ok_iff _ _ _ _ _).mp hlead
  obtain ⟨done, t₃, helse, heq⟩ := (bind_eq_ok_iff _ _ _ _ _).mp hlead
  cases heq
  unfold branchCode
  rw [bind_of_ok hhead, bind_of_ok hthen]
  dsimp only
  rw [bind_of_ok helse]
  exact bind_of_error h

theorem error_of_branchCode (h : branchCode cfg condition thenCode part s = (.error e, u))
    (he : e.isReported = true) :
    (∃ otherwise t, branchHead cfg condition s = (.ok otherwise, t) ∧ thenCode t = (.error e, u)) ∨
      ∃ elseCode t, part = some elseCode ∧
        (do
          let otherwise ← branchHead cfg condition
          thenCode
          let _ ← elseHead otherwise : Emit σ Unit) s = (.ok (), t) ∧
        elseCode t = (.error e, u) := by
  obtain ⟨otherwise, t, hhead, h⟩ := behind_plain h he
  rcases (bind_eq_error_iff _ _ _ _ _).mp h with hthen | ⟨_, t₁, hthen, h⟩
  · exact Or.inl ⟨otherwise, t, hhead, hthen⟩
  · cases part with
    | none => exact (not_reported_of_plain h he).elim
    | some elseCode =>
      obtain ⟨done, t₂, helse, h⟩ := behind_plain h he
      rcases (bind_eq_error_iff _ _ _ _ _).mp h with herror | ⟨_, t₃, -, h⟩
      · refine Or.inr ⟨elseCode, t₂, rfl, ?_, herror⟩
        rw [bind_of_ok hhead, bind_of_ok hthen, bind_of_ok helse]
        rfl
      · exact (not_reported_of_plain h he).elim

theorem loopCode_error {loop : Loop} (hhead : loopHead cfg condition s = (.ok loop, t))
    (h : code t = (.error e, u)) : ∃ u', loopCode cfg condition code s = (.error e, u') := by
  unfold loopCode
  rw [bind_of_ok hhead]
  exact ⟨_, bind_of_error (ensuring_of_error h)⟩

theorem error_of_loopCode (h : loopCode cfg condition code s = (.error e, u)) (he : e.isReported = true) :
    ∃ loop t u', loopHead cfg condition s = (.ok loop, t) ∧ code t = (.error e, u') := by
  obtain ⟨loop, t, hhead, h⟩ := behind_plain h he
  rcases (bind_eq_error_iff _ _ _ _ _).mp h with hbody | ⟨_, t₁, -, h⟩
  · obtain ⟨u', hbody⟩ := error_of_ensuring hbody
    exact ⟨loop, t, u', hhead, hbody⟩
  · exact (not_reported_of_plain h he).elim

theorem routineCode_error {returnsRef : Bool}
    (hframe : updateFrame (fun _ => { returnsRef }) s = (.ok (), t)) (h : code t = (.error e, u)) :
    ∃ u', routineCode returnsRef code s = (.error e, u') := by
  unfold routineCode
  rw [bind_of_ok (show frame s = (.ok s.frame, s) from rfl), bind_of_ok hframe]
  exact ⟨_, ensuring_of_error (bind_of_error h)⟩

theorem error_of_routineCode {returnsRef : Bool} (h : routineCode returnsRef code s = (.error e, u))
    (he : e.isReported = true) :
    ∃ t u', updateFrame (fun _ => { returnsRef }) s = (.ok (), t) ∧ code t = (.error e, u') := by
  obtain ⟨outer, t, houter, h⟩ := behind_plain h he
  cases houter
  obtain ⟨_, t₁, hframe, h⟩ := behind_plain h he
  obtain ⟨u', h⟩ := error_of_ensuring h
  rcases (bind_eq_error_iff _ _ _ _ _).mp h with hbody | ⟨_, t₂, -, h⟩
  · exact ⟨t₁, u', hframe, hbody⟩
  · exact (not_reported_of_plain h he).elim

/-- A region is left after a failure as it was entered. -/
theorem thenRegion_error {x : Label → Emit σ Unit} {regionEnd : Label}
    (hhead : regionHead s = (.ok regionEnd, t)) (h : x regionEnd t = (.error e, u)) :
    ∃ u', (do
      updateFrame Frame.enterException
      thenFrame (do x (← toSink Sink.beginTry)) Frame.leaveException : Emit σ Unit) s = (.error e, u') := by
  obtain ⟨_, t₁, hframe, htry⟩ := (bind_eq_ok_iff _ _ _ _ _).mp hhead
  rw [bind_of_ok hframe]
  exact ⟨_, ensuring_of_error ((bind_of_ok htry).trans h)⟩

theorem error_of_thenRegion {x : Label → Emit σ Unit}
    (h : (do
      updateFrame Frame.enterException
      thenFrame (do x (← toSink Sink.beginTry)) Frame.leaveException : Emit σ Unit) s = (.error e, u))
    (he : e.isReported = true) :
    ∃ regionEnd t u', regionHead s = (.ok regionEnd, t) ∧ x regionEnd t = (.error e, u') := by
  obtain ⟨_, t₁, hframe, h⟩ := behind_plain h he
  obtain ⟨u', h⟩ := error_of_ensuring h
  obtain ⟨regionEnd, t₂, htry, h⟩ := behind_plain h he
  refine ⟨regionEnd, t₂, u', ?_, h⟩
  unfold regionHead
  rw [bind_of_ok hframe]
  exact htry

end Constructs

/-! ## Exception regions -/

section Regions

variable {catches : List Catch} {cleanup : Option (List Stmt)}

variable (cfg) in
/-- What an exception region consists of after its beginning. -/
def regionRest (body : List Stmt) (catches : List Catch) (cleanup : Option (List Stmt))
    (regionEnd : Label) : Emit σ Unit := do
  lowerStmts cfg body
  handlersPart cfg catches regionEnd
  cleanupCode (!catches.isEmpty) (lowerOptional cfg cleanup)
  toSink Sink.endRegion

theorem ownCode_try_of_elided {tag : StmtTag} (helided : elided cfg catches cleanup = true) :
    ownCode cfg (.tryCatch tag body catches cleanup) home s = lowerStmts cfg body s := by
  show tryCode cfg _ _ _ _ s = _
  unfold tryCode
  rw [if_pos]
  cases cleanup with
  | none => simpa [elided, lowerOptional] using helided
  | some part => simp [elided] at helided

theorem ownCode_try {tag : StmtTag} (helided : elided cfg catches cleanup = false) :
    ownCode cfg (.tryCatch tag body catches cleanup) home s =
      (do
        updateFrame Frame.enterException
        thenFrame (do regionRest cfg body catches cleanup (← toSink Sink.beginTry))
          Frame.leaveException : Emit σ Unit) s := by
  show tryCode cfg _ _ _ _ s = _
  unfold tryCode
  rw [if_neg]
  · cases catches <;> rfl
  · cases cleanup with
    | none => simpa [elided, lowerOptional] using helided
    | some part => simp [lowerOptional]

theorem not_elided_of_clause (earlier : List Catch) (c : Catch) (later : List Catch) :
    elided cfg (earlier ++ c :: later) cleanup = false := by
  simp [elided]

theorem not_elided_of_cleanup (part : List Stmt) : elided cfg catches (some part) = false := by
  simp [elided]

end Regions

/-! ## Into a statement and out of it -/

/-- A failure of a part of a statement is a failure of its code. -/
theorem ownCode_error {part : List Stmt} (hinside : Inside cfg x lead part) (hlead : lead s = (.ok (), t))
    (h : lowerStmts cfg part t = (.error e, u)) : ∃ u', ownCode cfg x home s = (.error e, u') := by
  cases hinside with
  | block tag =>
    cases hlead
    exact ⟨u, h⟩
  | thenPart tag condition thenBody elseBody =>
    obtain ⟨otherwise, t', hhead, heq⟩ := (bind_eq_ok_iff _ _ _ _ _).mp hlead
    cases heq
    exact ⟨u, branchCode_error_then hhead h⟩
  | elsePart tag condition thenBody elseBody => exact ⟨u, branchCode_error_else hlead h⟩
  | loopBody tag condition =>
    obtain ⟨loop, t', hhead, heq⟩ := (bind_eq_ok_iff _ _ _ _ _).mp hlead
    cases heq
    exact loopCode_error hhead h
  | bareTry tag _ catches cleanup helided =>
    cases hlead
    exact ⟨u, (ownCode_try_of_elided helided).trans h⟩
  | tryBody tag _ catches cleanup helided =>
    obtain ⟨regionEnd, t', hhead, heq⟩ := (bind_eq_ok_iff _ _ _ _ _).mp hlead
    cases heq
    rw [ownCode_try helided]
    exact thenRegion_error hhead (bind_of_error h)
  | clause tag body earlier span type var handler resolved later cleanup =>
    obtain ⟨regionEnd, t₁, hhead, hlead⟩ := (bind_eq_ok_iff _ _ _ _ _).mp hlead
    obtain ⟨_, t₂, hbody, hlead⟩ := (bind_eq_ok_iff _ _ _ _ _).mp hlead
    obtain ⟨exception, t₃, hhandlers, hlead⟩ := (bind_eq_ok_iff _ _ _ _ _).mp hlead
    have hclauses : lowerClauses cfg (earlier ++ .clause span type var part resolved :: later) regionEnd
        exception t₃ = (.error e, u) := lowerClauses_error hlead h
    have hpart : handlersPart cfg (earlier ++ .clause span type var part resolved :: later) regionEnd t₂ =
        (.error e, u) := by
      unfold handlersPart
      rw [if_pos (by simp)]
      exact (bind_of_ok hhandlers).trans (bind_of_error hclauses)
    rw [ownCode_try (not_elided_of_clause ..)]
    exact thenRegion_error hhead ((bind_of_ok hbody).trans (bind_of_error hpart))
  | cleanup tag body catches cleanup =>
    obtain ⟨regionEnd, t₁, hhead, hlead⟩ := (bind_eq_ok_iff _ _ _ _ _).mp hlead
    obtain ⟨_, t₂, hbody, hlead⟩ := (bind_eq_ok_iff _ _ _ _ _).mp hlead
    obtain ⟨_, t₃, hclauses, hlead⟩ := (bind_eq_ok_iff _ _ _ _ _).mp hlead
    have hpart : cleanupCode (!catches.isEmpty) (lowerOptional cfg (some part)) t₃ = (.error e, u) :=
      (bind_of_ok hlead).trans h
    rw [ownCode_try (not_elided_of_cleanup _)]
    exact thenRegion_error hhead
      ((bind_of_ok hbody).trans ((bind_of_ok hclauses).trans (bind_of_error hpart)))
  | function tag head body dead =>
    obtain ⟨_, t₁, hbegin, hframe⟩ := (bind_eq_ok_iff _ _ _ _ _).mp hlead
    obtain ⟨u', hroutine⟩ := routineCode_error hframe h
    exact ⟨u', (bind_of_ok hbegin).trans (bind_of_error hroutine)⟩

/-- A failure of the code of a statement that has been reported is one of a part of it. -/
theorem error_of_ownCode (h : ownCode cfg x home s = (.error e, u)) (he : e.isReported = true) :
    ∃ lead body t u', Inside cfg x lead body ∧ lead s = (.ok (), t) ∧
      lowerStmts cfg body t = (.error e, u') := by
  cases x with
  | expression | echo | jump | goto | label | throw | unset | constDecl | empty =>
    refine (@not_reported_of_plain _ _ _ (ownCode cfg _ home) _ _ _ ?_ h he).elim
    unfold ownCode
    infer_instance
  | block tag body => exact ⟨_, body, s, u, .block .., rfl, h⟩
  | branch tag condition thenBody elseBody =>
    rcases error_of_branchCode h he with ⟨otherwise, t, hhead, hthen⟩ | ⟨code, t, hcode, hlead, helse⟩
    · exact ⟨_, thenBody, t, u, .thenPart .., bind_of_ok hhead, hthen⟩
    · cases elseBody with
      | none => cases hcode
      | some elseBody =>
        cases hcode
        exact ⟨_, elseBody, t, u, .elsePart .., hlead, helse⟩
  | loop tag condition body =>
    obtain ⟨loop, t, u', hhead, hbody⟩ := error_of_loopCode h he
    exact ⟨_, body, t, u', .loopBody .., bind_of_ok hhead, hbody⟩
  | tryCatch tag body catches cleanup =>
    cases helided : elided cfg catches cleanup with
    | true =>
      rw [ownCode_try_of_elided helided] at h
      exact ⟨_, body, s, u, .bareTry tag body catches cleanup helided, rfl, h⟩
    | false =>
      rw [ownCode_try helided] at h
      obtain ⟨regionEnd, t₁, u', hhead, h⟩ := error_of_thenRegion h he
      rcases (bind_eq_error_iff _ _ _ _ _).mp h with hbody | ⟨_, t₂, hbody, h⟩
      · exact ⟨_, body, t₁, u', .tryBody tag body catches cleanup helided, bind_of_ok hhead, hbody⟩
      rcases (bind_eq_error_iff _ _ _ _ _).mp h with hclauses | ⟨_, t₃, hclauses, h⟩
      · unfold handlersPart at hclauses
        split at hclauses
        · obtain ⟨exception, t₃, hhandlers, hclauses⟩ := behind_plain hclauses he
          rcases (bind_eq_error_iff _ _ _ _ _).mp hclauses with hclauses | ⟨_, t₄, -, hrest⟩
          · obtain ⟨earlier, span, type, var, handler, resolved, later, t, rfl, hlead, hhandler⟩ :=
              clause_of_lowerClauses hclauses he
            refine ⟨_, handler, t, u', .clause tag body earlier span type var handler resolved later
              cleanup, ?_, hhandler⟩
            rw [bind_of_ok hhead, bind_of_ok hbody, bind_of_ok hhandlers]
            exact hlead
          · exact (not_reported_of_plain hrest he).elim
        · exact nomatch hclauses
      rcases (bind_eq_error_iff _ _ _ _ _).mp h with hcleanup | ⟨_, t₄, -, hend⟩
      · cases cleanup with
        | none =>
          refine (@not_reported_of_plain _ _ _ (cleanupCode _ none) _ _ _ ?_ hcleanup he).elim
          unfold cleanupCode
          infer_instance
        | some cleanup =>
          obtain ⟨_, t, hfinally, hcleanup⟩ := behind_plain hcleanup he
          refine ⟨_, cleanup, t, u', .cleanup tag body catches cleanup, ?_, hcleanup⟩
          rw [bind_of_ok hhead, bind_of_ok hbody, bind_of_ok hclauses]
          exact hfinally
      · exact (not_reported_of_plain hend he).elim
  | function tag head body dead =>
    obtain ⟨_, t₁, hbegin, h⟩ := behind_plain h he
    rcases (bind_eq_error_iff _ _ _ _ _).mp h with hroutine | ⟨_, t₂, -, hend⟩
    · obtain ⟨t, u', hframe, hbody⟩ := error_of_routineCode hroutine he
      exact ⟨_, body, t, u', .function .., (bind_of_ok hbegin).trans hframe, hbody⟩
    · exact (not_reported_of_plain hend he).elim

theorem Inside.sizeOf_lt {part : List Stmt} (h : Inside cfg x lead part) : sizeOf part < sizeOf x := by
  cases h with
  | clause tag body earlier span type var handler resolved later cleanup =>
    have hmem : Catch.clause span type var part resolved ∈
        earlier ++ .clause span type var part resolved :: later :=
      List.mem_append_right _ List.mem_cons_self
    have hclause := List.sizeOf_lt_of_mem hmem
    simp only [Catch.clause.sizeOf_spec, Stmt.tryCatch.sizeOf_spec] at hclause ⊢
    omega
  | _ =>
    simp only [Stmt.block.sizeOf_spec, Stmt.branch.sizeOf_spec, Stmt.loop.sizeOf_spec,
      Stmt.tryCatch.sizeOf_spec, Stmt.function.sizeOf_spec, Option.some.sizeOf_spec]
    omega

/-- A failure of a part of a statement is a failure of the statement. -/
theorem Opens.error {part : List Stmt} (h : Opens cfg x s part t)
    (hpart : lowerStmts cfg part t = (.error e, u)) :
    (∃ u', lowerStmt cfg x s = (.error e, u')) ∧
      ∃ v, enter cfg x s = (.ok (), v) ∧ ∀ home, ∃ u', ownCode cfg x home v = (.error e, u') := by
  obtain ⟨lead, hinside, hrun⟩ := h
  obtain ⟨_, v, henter, hlead⟩ := (bind_eq_ok_iff _ _ _ _ _).mp hrun
  have hown (home) : ∃ u', ownCode cfg x home v = (.error e, u') := ownCode_error hinside hlead hpart
  refine ⟨?_, v, henter, hown⟩
  obtain ⟨home, hcode⟩ := lowerStmt_of_enter henter
  obtain ⟨u', hown⟩ := hown home
  refine ⟨u', ?_⟩
  rw [hcode]
  unfold reporting
  rw [hown]
  exact if_pos (lowerStmts_reported hpart)

/-- **A failure of a statement that the emission has come to is passed on to the end.** -/
theorem Begun.error (h : Begun cfg body s x t) (hx : lowerStmt cfg x t = (.error e, u)) :
    ∃ u', lowerStmts cfg body s = (.error e, u') := by
  induction h with
  | here x rest s => exact ⟨u, bind_of_error hx⟩
  | later hdone h ih =>
    obtain ⟨u', hrest⟩ := ih hx
    exact ⟨u', (bind_of_ok hdone).trans hrest⟩
  | within hopens h ih =>
    obtain ⟨u', hpart⟩ := ih hx
    obtain ⟨⟨u'', hy⟩, -⟩ := hopens.error hpart
    exact ⟨u'', bind_of_error hy⟩

/-- A statement whose failure is new is the innermost one. -/
theorem innermost_of_new {rest : List Stmt} {source : CompileError} (hx : Fails cfg x s)
    (hnew : source.isReported = false)
    (hcode : ∀ t, enter cfg x s = (.ok (), t) → ∃ home u', ownCode cfg x home t = (.error source, u')) :
    Innermost cfg (x :: rest) s x s where
  begun := .here ..
  fails := hx
  last := by
    rintro part u hopens y v hbegun ⟨e, w, hy⟩
    obtain ⟨w', hpart⟩ := hbegun.error hy
    obtain ⟨-, t, henter, hown⟩ := hopens.error hpart
    obtain ⟨home, u', hsource⟩ := hcode t henter
    obtain ⟨u'', hown⟩ := hown home
    cases hsource.symm.trans hown
    rw [lowerStmts_reported hpart] at hnew
    exact nomatch hnew

/-- **An emission that fails has an innermost statement that fails, and has reported it there.** -/
theorem exists_innermost (h : lowerStmts cfg body s = (.error e, u)) :
    ∃ x t source, Innermost cfg body s x t ∧ e = .reported x.span source ∧ source.isReported = false := by
  -- The statement is within the first one or behind it, so in a smaller list either way.
  induction hsize : sizeOf body using Nat.strongRecOn generalizing body s u with
  | ind n ih =>
    subst hsize
    cases body with
    | nil => exact nomatch h
    | cons y rest =>
      rcases (bind_eq_error_iff _ _ _ _ _).mp h with hy | ⟨_, t, hdone, hrest⟩
      · rcases lowerStmt_error hy with ⟨source, he, hnew, hcode⟩ | ⟨he, home, t, henter, hcode⟩
        · exact ⟨y, s, source, innermost_of_new ⟨e, u, hy⟩ hnew hcode, he, hnew⟩
        · obtain ⟨lead, part, t', u', hinside, hlead, hpart⟩ := error_of_ownCode hcode he
          have hlt : sizeOf part < sizeOf (y :: rest) := by
            have := hinside.sizeOf_lt
            simp only [List.cons.sizeOf_spec]
            omega
          obtain ⟨x, v, source, hx, hplace⟩ := ih _ hlt hpart rfl
          have hopens : Opens cfg y s part t' := ⟨lead, hinside, (bind_of_ok henter).trans hlead⟩
          exact ⟨x, v, source, ⟨.within hopens hx.begun, hx.fails, hx.last⟩, hplace⟩
      · have hlt : sizeOf rest < sizeOf (y :: rest) := by
          simp only [List.cons.sizeOf_spec]
          omega
        obtain ⟨x, v, source, hx, hplace⟩ := ih _ hlt hrest rfl
        exact ⟨x, v, source, ⟨.later hdone hx.begun, hx.fails, hx.last⟩, hplace⟩

/-- **An emission with an innermost statement that fails is reported at the place of that statement.** -/
theorem Innermost.reported (h : Innermost cfg body s x t) :
    ∃ source u, lowerStmts cfg body s = (.error (.reported x.span source), u) ∧
      source.isReported = false := by
  obtain ⟨e, v, hx⟩ := h.fails
  rcases lowerStmt_error hx with ⟨source, rfl, hnew, -⟩ | ⟨he, home, t', henter, hcode⟩
  · obtain ⟨u, hbody⟩ := h.begun.error hx
    exact ⟨source, u, hbody, hnew⟩
  · obtain ⟨lead, part, t'', u', hinside, hlead, hpart⟩ := error_of_ownCode hcode he
    obtain ⟨y, w, source, hy, -⟩ := exists_innermost hpart
    exact (h.last part t'' ⟨lead, hinside, (bind_of_ok henter).trans hlead⟩ y w hy.begun hy.fails).elim

end Lowering
end PhpLowering
