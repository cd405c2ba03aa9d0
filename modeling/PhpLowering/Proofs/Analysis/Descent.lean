import PhpLowering.Proofs.Analysis.Origins
import PhpLowering.Proofs.Tree.Paths

/-!
# What the parts of an analysed statement come from

Every expression that is left in a statement has been kept of one that was analysed, and for what it was
analysed depends on the kind of the statement (`asks`): a removed location for being written to, a
statement that is just an expression for nothing, the expression of a `return` for what the routine returns,
and everything else for its value.  The clauses of a `try` have the classes that their names stand for.

**`descends_analyzeStmts`** says so of all statements of a routine and of the functions in it, for each with
its own convention of returning.  What is known of the analysis of expressions is thereby known of the
expressions in an analysed unit.
-/

namespace PhpLowering

/-- The clauses of a `try`. -/
def Stmt.clauses : Stmt → List Catch
  | .tryCatch _ _ catches _ => catches
  | _ => []

namespace Analysis

open Pass (Ends)

variable (cfg : Setting)

/-- The access for which an expression of a statement is analysed in a routine. -/
def asks (byRef : Bool) : Stmt → Expr → Access
  | .expression .., _ => .none
  | .unset .., _ => .write
  | .jump _ kind _, e => jumpAccess kind byRef e
  | _, _ => .read

/-- The class that a name stands for. -/
def className (name : String) : String :=
  (cfg.symbols.type? name).getD (Text.globalName name)

/-- A node is what is kept of an expression that was analysed for an access. -/
def KeptOf (e : Expr) (access : Access) (node : Expr) : Prop :=
  ∃ s t ev nextId, s.table.Regular ∧ analyze cfg e access s = (.ok ev, t) ∧ node = (ev.literalize nextId).1

/-- The parts of a statement are left of parts of that kind. -/
structure Descends (byRef : Bool) (y : Stmt) : Prop where
  exprs : ∀ node ∈ y.exprs, ∃ e, KeptOf cfg e (asks byRef y e) node
  clauses : ∀ {span type var body resolved}, .clause span type var body resolved ∈ y.clauses →
    resolved = some (className cfg type)

/-- The same of the statements of a routine and of some functions. -/
structure DescendAll (byRef : Bool) (own : List Stmt) (fs : List (FunctionHead × List Stmt)) : Prop where
  own : ∀ y ∈ own, Descends cfg byRef y
  functions : ∀ f ∈ fs, ∀ y ∈ Stmt.ownOf f.2, Descends cfg f.1.byRef y

variable {cfg} {α β : Type} {x : Analyze α} {Q : α → Prop} {R : β → Prop} {s t u : State} {byRef : Bool}
  {own own' : List Stmt} {fs fs' : List (FunctionHead × List Stmt)} {y : Stmt}

namespace DescendAll

theorem nil : DescendAll cfg byRef [] [] :=
  ⟨nofun, nofun⟩

theorem append (h : DescendAll cfg byRef own fs) (h' : DescendAll cfg byRef own' fs') :
    DescendAll cfg byRef (own ++ own') (fs ++ fs') :=
  ⟨List.forall_mem_append.mpr ⟨h.own, h'.own⟩, List.forall_mem_append.mpr ⟨h.functions, h'.functions⟩⟩

theorem cons (hy : Descends cfg byRef y) (h : DescendAll cfg byRef own fs) : DescendAll cfg byRef (y :: own) fs :=
  ⟨List.forall_mem_cons.mpr ⟨hy, h.own⟩, h.functions⟩

end DescendAll

/-- A statement without expressions and clauses. -/
theorem descends_bare (hexprs : y.exprs = []) (hclauses : y.clauses = []) : Descends cfg byRef y where
  exprs := by rw [hexprs]; nofun
  clauses := by rw [hclauses]; nofun

/-- A statement with one expression. -/
theorem descends_single {e node : Expr} (hexprs : y.exprs = [node]) (hclauses : y.clauses = [])
    (hnode : KeptOf cfg e (asks byRef y e) node) : Descends cfg byRef y where
  exprs := by
    rw [hexprs]
    exact List.forall_mem_singleton.mpr ⟨e, hnode⟩
  clauses := by rw [hclauses]; nofun

/-! ## Steps -/

/-- The routine is the same, and so are those around it. -/
structure Stays (s t : State) : Prop where
  table : s.table.Regular → t.table.Regular
  returnsRef : t.scope.returnsRef = s.scope.returnsRef
  enclosing : t.enclosing = s.enclosing

namespace Stays

theorem refl (s : State) : Stays s s :=
  ⟨id, rfl, rfl⟩

theorem trans (h : Stays s t) (h' : Stays t u) : Stays s u :=
  ⟨fun hs => h'.table (h.table hs), h'.returnsRef.trans h.returnsRef, h'.enclosing.trans h.enclosing⟩

theorem of_still (h : Still s t) : Stays s t :=
  ⟨h.table, by rw [h.scope], h.enclosing⟩

theorem labelEntry (name : String) (firstGoto : Option Span) (s : State) :
    Stays s (s.labelEntry name firstGoto).2 := by
  unfold State.labelEntry
  split <;> exact ⟨id, rfl, rfl⟩

theorem gotoLabel (name : String) (span : Span) (s : State) : Stays s (s.gotoLabel name span) :=
  (labelEntry name (some span) s).trans ⟨id, rfl, rfl⟩

theorem defineLabel (name : String) (span : Span) (s : State) : Stays s (s.defineLabel name span).2 := by
  refine (labelEntry name none s).trans ?_
  unfold State.defineLabel
  dsimp only
  split <;> exact ⟨id, rfl, rfl⟩

theorem reportUnreachable (options : Options) (span : Span) (s : State) :
    Stays s (s.reportUnreachable options span) := by
  unfold State.reportUnreachable
  dsimp only
  split
  · exact .refl s
  · split <;> exact ⟨id, rfl, rfl⟩

theorem enterUnreachable (s : State) : Stays s s.enterUnreachable := by
  unfold State.enterUnreachable
  split <;> exact ⟨id, rfl, rfl⟩

theorem checkLevel (level : Option Expr) (span : Span) (s : State) : Stays s (checkLevel level span s) := by
  unfold Analysis.checkLevel
  dsimp only
  split
  all_goals
    split <;> exact ⟨id, rfl, rfl⟩

theorem resolveType (name : String) (span : Span) (s : State) : Stays s (s.resolveType cfg name span).2 := by
  unfold State.resolveType
  split <;> exact ⟨id, rfl, rfl⟩

theorem declareConstant (name : String) (v : Literal) (span : Span) (s : State) :
    Stays s (s.declareConstant cfg name v span).2 := by
  unfold State.declareConstant
  split <;> exact ⟨id, rfl, rfl⟩

/-- A routine that has been gone into is left. -/
theorem routine (h : Stays (s.enterRoutine byRef) t) : Stays s t.leaveRoutine := by
  unfold State.leaveRoutine
  rw [h.enclosing]
  exact ⟨fun hs => (Later.reportUndefined t).table (h.table hs), rfl, rfl⟩

end Stays

/-- In a routine with this convention, a step succeeds with an answer of this kind. -/
def Delivers (byRef : Bool) (x : Analyze α) (Q : α → Prop) : Prop :=
  ∀ s, s.table.Regular → s.scope.returnsRef = byRef → Ends x s (fun a t => Stays s t ∧ Q a) fun _ => False

namespace Delivers

theorem pure {a : α} (h : Q a) : Delivers byRef (Pure.pure a) Q :=
  fun s _ _ => .pure ⟨.refl s, h⟩

theorem bind {f : α → Analyze β} (hx : Delivers byRef x Q) (hf : ∀ a, Q a → Delivers byRef (f a) R) :
    Delivers byRef (x >>= f) R := by
  intro s hs hbyRef
  refine (hx s hs hbyRef).bind ?_
  rintro a t ⟨hst, ha⟩
  refine (hf a ha t (hst.table hs) (hst.returnsRef.trans hbyRef)).mono ?_
  rintro b u ⟨htu, hb⟩
  exact ⟨hst.trans htu, hb⟩

theorem peek {f : State → α} (h : ∀ s, s.scope.returnsRef = byRef → Q (f s)) : Delivers byRef (Pass.peek f) Q :=
  fun s _ hbyRef => .peek ⟨.refl s, h s hbyRef⟩

theorem update {f : State → State} (h : ∀ s, Stays s (f s)) : Delivers byRef (Pass.update f) fun _ => True :=
  fun s _ _ => .update ⟨h s, trivial⟩

theorem transform {f : State → α × State} (h : ∀ s, Stays s (f s).2) (hQ : ∀ s, Q (f s).1) :
    Delivers byRef (Pass.transform f) Q :=
  fun s _ _ => .transform ⟨h s, hQ s⟩

theorem ensuring {f : State → State} (hx : Delivers byRef x Q) (hf : ∀ s, Stays s (f s)) :
    Delivers byRef (x.ensuring f) Q :=
  fun s hs hbyRef => .ensuring ((hx s hs hbyRef).mono fun _ t ht => ⟨ht.1.trans (hf t), ht.2⟩)

theorem attempt (hx : Delivers byRef x Q) : Delivers byRef x.attempt fun r => ∃ a, r = .ok a ∧ Q a := by
  refine fun s hs hbyRef => (hx s hs hbyRef).attempt.mono ?_
  rintro r t ⟨a, rfl, ht, ha⟩
  exact ⟨ht, a, rfl, ha⟩

/-- The state is changed first. -/
theorem after {f : State → State} {g : Unit → Analyze β} (hf : ∀ s, Stays s (f s)) (hg : Delivers byRef (g ()) R) :
    Delivers byRef (Pass.update f >>= g) R :=
  (update hf).bind fun _ _ => hg

/-- The state is looked at first. -/
theorem looking {f : State → α} {g : α → Analyze β} (hg : ∀ a, Delivers byRef (g a) R) :
    Delivers byRef (Pass.peek f >>= g) R :=
  (peek (Q := fun _ => True) fun _ _ => trivial).bind fun a _ => hg a

theorem inConditional (hx : Delivers byRef x Q) : Delivers byRef (inConditional x) Q :=
  after (fun _ => ⟨id, rfl, rfl⟩) (hx.ensuring fun _ => ⟨id, rfl, rfl⟩)

theorem inLoop (hx : Delivers byRef x Q) : Delivers byRef (inLoop x) Q :=
  after (fun _ => ⟨id, rfl, rfl⟩) (hx.ensuring fun _ => ⟨id, rfl, rfl⟩)

theorem asDead (hx : Delivers byRef x Q) : Delivers byRef (asDead x) fun _ => True := by
  refine looking fun saved => after (fun _ => ⟨id, rfl, rfl⟩) ?_
  exact (hx.ensuring (f := State.restore saved) fun _ => ⟨id, rfl, rfl⟩).bind fun _ _ => .pure trivial

theorem of_finds (h : Finds x Q) : Delivers byRef x Q :=
  fun s hs _ => (h s hs).mono fun _ _ ht => ⟨.of_still ht.1.toStill, ht.2⟩

end Delivers

/-! ## Expressions in statements -/

section Expressions

variable (hcfg : cfg.registry = .standard)
include hcfg

/-- An expression is analysed; whatever is kept of it has been analysed for that access. -/
theorem delivers_analyze (e : Expr) (access : Access) : Delivers byRef (analyze cfg e access) fun ev =>
    ∀ nextId, KeptOf cfg e access (ev.literalize nextId).1 := by
  refine fun s hs _ => .intro (fun ev t hrun => ?_) fun f t hrun => ?_
  · obtain ⟨hcalm, -⟩ := (finds_analyze hcfg e access s hs).of_ok hrun
    exact ⟨.of_still hcalm.toStill, fun nextId => ⟨s, t, ev, nextId, hs, hrun, rfl⟩⟩
  · exact (finds_analyze hcfg e access s hs).of_error hrun

omit hcfg in
theorem delivers_keep {e : Expr} {access : Access} {ev : Evaluation}
    (h : ∀ nextId, KeptOf cfg e access (ev.literalize nextId).1) :
    Delivers byRef (keep ev) (KeptOf cfg e access) :=
  .transform (fun _ => ⟨id, rfl, rfl⟩) fun s => h s.nextId

theorem delivers_kept (e : Expr) (access : Access) :
    Delivers byRef (kept (analyze cfg e access)) (KeptOf cfg e access) :=
  (delivers_analyze hcfg e access).bind fun _ h => delivers_keep h

theorem delivers_analyzeAll (access : Access) (es : List Expr) : Delivers byRef (analyzeAll cfg access es)
    fun nodes => ∀ node ∈ nodes, ∃ e, KeptOf cfg e access node := by
  induction es with
  | nil => exact .pure fun _ hnode => absurd hnode List.not_mem_nil
  | cons e rest ih =>
    exact (delivers_kept hcfg e access).bind fun _ hnode => ih.bind
      fun _ hnodes => .pure (List.forall_mem_cons.mpr ⟨⟨e, hnode⟩, hnodes⟩)

/-! ## Statements -/

omit hcfg in
/-- Nothing is left of a statement but an empty one. -/
theorem delivers_emptyStmt (span : Span) (kind : EmptyKind) : Delivers byRef (emptyStmt span kind) fun y =>
    DescendAll cfg byRef y.own y.functions :=
  .transform (fun _ => ⟨id, rfl, rfl⟩) fun _ => DescendAll.nil.cons (descends_bare rfl rfl)

theorem delivers_byStmtRule {analyzed : Home StmtKind → Analyze Stmt} {P : Stmt → Prop}
    (h : ∀ home, Delivers byRef (analyzed home) P) : Delivers byRef (byStmtRule cfg y analyzed) P := by
  have htable : Delivers byRef (onTable (RuleTable.stmt cfg.registry y.kind y.id)) fun handle =>
      handle.rule = y.kind := by
    rw [hcfg]
    refine .of_finds fun s hs => (ends_onTable hs (RuleTable.ends_stmt s.table y.kind y.id)).mono ?_
    rintro handle t ⟨hcalm, rfl⟩
    exact ⟨hcalm, rfl⟩
  refine htable.bind fun handle hrule => ?_
  rw [if_pos hrule]
  exact h handle.home

/-- A statement is left out, or handled by its rule. -/
theorem delivers_ifAlive {analyzed : Home StmtKind → Analyze Stmt}
    (h : ∀ home, Delivers byRef (analyzed home) fun y => DescendAll cfg byRef y.own y.functions) :
    Delivers byRef (ifAlive cfg y analyzed) fun y => DescendAll cfg byRef y.own y.functions := by
  unfold ifAlive
  split
  · exact .after (fun _ => ⟨id, rfl, rfl⟩) (delivers_byStmtRule hcfg h)
  · refine .looking fun dead => ?_
    split
    · exact .after (Stays.reportUnreachable _ _) (delivers_emptyStmt _ _)
    · exact delivers_byStmtRule hcfg h

theorem delivers_analyzeJump (tag : StmtTag) (kind : JumpKind) (expr : Option Expr) :
    Delivers byRef (analyzeJump cfg tag kind expr) fun y => DescendAll cfg byRef y.own y.functions := by
  have hrest : ∀ expr', (∀ node ∈ expr'.toList, ∃ e, KeptOf cfg e (jumpAccess kind byRef e) node) →
      Delivers byRef (do
        if kind ≠ .return then Pass.update (checkLevel expr' tag.span)
        Pass.update State.enterUnreachable
        return Stmt.jump tag kind expr') fun y => DescendAll cfg byRef y.own y.functions := by
    intro expr' hexpr
    have hend : Delivers byRef (do
        Pass.update State.enterUnreachable
        return Stmt.jump tag kind expr') fun y => DescendAll cfg byRef y.own y.functions :=
      .after Stays.enterUnreachable (.pure (DescendAll.nil.cons ⟨hexpr, nofun⟩))
    split
    · exact .after (Stays.checkLevel _ _) hend
    · exact hend
  refine (Delivers.peek (Q := fun returnsRef => returnsRef = byRef) fun _ h => h).bind ?_
  rintro _ rfl
  cases expr with
  | none => exact hrest none nofun
  | some e =>
    refine (delivers_kept hcfg e _).bind fun node hnode => hrest (some node) ?_
    exact List.forall_mem_singleton.mpr ⟨e, hnode⟩

theorem delivers_analyzeExpression (tag : StmtTag) (e : Expr) :
    Delivers byRef (analyzeExpression cfg tag e) fun y => DescendAll cfg byRef y.own y.functions := by
  refine (delivers_analyze hcfg e .none).bind fun ev hev => ?_
  cases ev with
  | value v node => exact delivers_emptyStmt _ _
  | residual node => exact .pure (DescendAll.nil.cons (descends_single rfl rfl (hev 0)))

theorem delivers_analyzeConstDecl (tag : StmtTag) (name : String) (value : Expr) :
    Delivers byRef (analyzeConstDecl cfg tag name value) fun y => DescendAll cfg byRef y.own y.functions := by
  refine (delivers_analyze hcfg value .read).bind fun ev hev => ?_
  have hrest : Delivers byRef (do return Stmt.constDecl tag name (← keep ev)) fun y =>
      DescendAll cfg byRef y.own y.functions :=
    (delivers_keep hev).bind fun node hnode => .pure (DescendAll.nil.cons (descends_single rfl rfl hnode))
  split
  · exact (Delivers.transform (Q := fun _ => True) (Stays.declareConstant _ _ _) fun _ => trivial).bind
      fun _ _ => hrest
  · exact hrest

omit hcfg in
theorem delivers_analyzeLabel (tag : StmtTag) (name : String) (home : Home StmtKind) :
    Delivers byRef (analyzeLabel tag name home) fun y => DescendAll cfg byRef y.own y.functions := by
  have hlabel : Delivers byRef (Pure.pure (Stmt.label tag name)) fun y =>
      DescendAll cfg byRef y.own y.functions :=
    .pure (DescendAll.nil.cons (descends_bare rfl rfl))
  refine (Delivers.transform (Q := fun _ => True) (Stays.defineLabel name tag.span) fun _ => trivial).bind
    fun cell _ => ?_
  cases cell with
  | none => exact hlabel
  | some cell => exact .after (fun _ => ⟨id, rfl, rfl⟩) hlabel

end Expressions

/-! ## The induction -/

mutual

/-- What is left of a statement comes from the parts that it should. -/
theorem descends_analyzeStmt (hcfg : cfg.registry = .standard) : ∀ (y : Stmt) (byRef : Bool),
    Delivers byRef (analyzeStmt cfg y) fun y' => DescendAll cfg byRef y'.own y'.functions
  | .expression tag e, byRef => by
    rw [analyzeStmt]
    exact delivers_ifAlive hcfg fun _ => delivers_analyzeExpression hcfg tag e
  | .echo tag es, byRef => by
    rw [analyzeStmt]
    refine delivers_ifAlive hcfg fun _ => (delivers_analyzeAll hcfg .read es).bind fun nodes hnodes => .pure ?_
    exact DescendAll.nil.cons ⟨hnodes, nofun⟩
  | .block tag body, byRef => by
    rw [analyzeStmt]
    refine delivers_ifAlive hcfg fun _ => (descends_analyzeStmts hcfg body byRef).bind fun body' hbody => .pure ?_
    exact hbody.cons (descends_bare rfl rfl)
  | .branch tag condition thenBody elseBody, byRef => by
    rw [analyzeStmt]
    have hthen := descends_analyzeStmts hcfg thenBody byRef
    have helse := descends_analyzeOptional hcfg elseBody byRef
    refine delivers_ifAlive hcfg fun _ => (delivers_analyze hcfg condition .read).bind fun c hc => ?_
    dsimp only
    split
    · refine helse.asDead.bind fun _ _ => hthen.bind fun body hbody => .pure ?_
      exact hbody.cons (descends_bare rfl rfl)
    · refine hthen.asDead.bind fun _ _ => helse.bind fun body hbody => ?_
      cases body with
      | some body => exact .pure (hbody.cons (descends_bare rfl rfl))
      | none => exact delivers_emptyStmt _ _
    · refine (delivers_keep hc).bind fun node hnode => ?_
      refine .looking fun entry => ?_
      refine hthen.inConditional.attempt.bind ?_
      rintro _ ⟨thenBody', rfl, hthen'⟩
      refine (descends_analyzeElse hcfg entry elseBody byRef).bind fun elseBody' helse' => .pure ?_
      exact (hthen'.append helse').cons (descends_single rfl rfl hnode)
  | .loop tag condition body, byRef => by
    rw [analyzeStmt]
    have hbody := descends_analyzeStmts hcfg body byRef
    refine delivers_ifAlive hcfg fun _ => (delivers_analyze hcfg condition .read).bind fun c hc => ?_
    split
    · exact hbody.asDead.inLoop.bind fun _ _ => delivers_emptyStmt _ _
    · refine (delivers_keep hc).bind fun node hnode => hbody.inLoop.bind fun body' hbody' => .pure ?_
      exact hbody'.cons (descends_single rfl rfl hnode)
  | .jump tag kind expr, byRef => by
    rw [analyzeStmt]
    exact delivers_ifAlive hcfg fun _ => delivers_analyzeJump hcfg tag kind expr
  | .goto tag label, byRef => by
    rw [analyzeStmt]
    refine delivers_ifAlive hcfg fun _ => .after (Stays.gotoLabel _ _) (.after Stays.enterUnreachable (.pure ?_))
    exact DescendAll.nil.cons (descends_bare rfl rfl)
  | .label tag name, byRef => by
    rw [analyzeStmt]
    exact delivers_ifAlive hcfg (delivers_analyzeLabel tag name)
  | .tryCatch tag body catches cleanup, byRef => by
    rw [analyzeStmt]
    refine delivers_ifAlive hcfg fun _ => ?_
    refine (descends_analyzeStmts hcfg body byRef).inConditional.bind fun body' hbody => ?_
    refine (descends_analyzeCatches hcfg catches byRef).bind fun catches' hcatches => ?_
    refine (descends_analyzeOptional hcfg cleanup byRef).bind fun cleanup' hcleanup => .pure ?_
    exact (hbody.append (hcatches.1.append hcleanup)).cons ⟨nofun, hcatches.2 _ _ _ _ _⟩
  | .throw tag e, byRef => by
    rw [analyzeStmt]
    refine delivers_ifAlive hcfg fun _ => (delivers_kept hcfg e .read).bind fun node hnode => ?_
    exact .after Stays.enterUnreachable (.pure (DescendAll.nil.cons (descends_single rfl rfl hnode)))
  | .unset tag targets, byRef => by
    rw [analyzeStmt]
    refine delivers_ifAlive hcfg fun _ => (delivers_analyzeAll hcfg .write targets).bind fun nodes hnodes => .pure ?_
    exact DescendAll.nil.cons ⟨hnodes, nofun⟩
  | .constDecl tag name value, byRef => by
    rw [analyzeStmt]
    exact delivers_ifAlive hcfg fun _ => delivers_analyzeConstDecl hcfg tag name value
  | .function tag head body dead, byRef => by
    rw [analyzeStmt]
    refine delivers_ifAlive hcfg fun _ => ?_
    refine .looking fun dead' => ?_
    -- The body has the convention of the function, and behind it that of the routine around is back.
    have hroutine : Delivers byRef (do
        Pass.update (State.enterRoutine head.byRef)
        (analyzeStmts cfg body).ensuring State.leaveRoutine) fun body' =>
          DescendAll cfg head.byRef (Stmt.ownOf body') (Stmt.functionsOf body') := by
      intro s hs _
      have hbody := descends_analyzeStmts hcfg body head.byRef (s.enterRoutine head.byRef) hs rfl
      refine Ends.bind (Q := fun _ t => t = s.enterRoutine head.byRef) (.update rfl) ?_
      rintro _ _ rfl
      exact .ensuring (hbody.mono fun body' t ht => ⟨ht.1.routine, ht.2⟩)
    have hwhole := hroutine.bind (R := fun y => DescendAll cfg byRef y.own y.functions)
      (f := fun body' => pure (Stmt.function tag head body' dead')) fun body' hbody => .pure
        ⟨List.forall_mem_singleton.mpr (descends_bare rfl rfl), List.forall_mem_append.mpr
          ⟨hbody.functions, List.forall_mem_singleton.mpr hbody.own⟩⟩
    rwa [bind_assoc] at hwhole
  | .empty tag kind, byRef => by
    rw [analyzeStmt]
    exact delivers_ifAlive hcfg fun _ => .pure (DescendAll.nil.cons (descends_bare rfl rfl))
termination_by structural y => y

/-- **What is left of the statements of a routine comes from the parts that it should**, and so in the functions
that are declared in it. -/
theorem descends_analyzeStmts (hcfg : cfg.registry = .standard) : ∀ (ys : List Stmt) (byRef : Bool),
    Delivers byRef (analyzeStmts cfg ys) fun ys' => DescendAll cfg byRef (Stmt.ownOf ys') (Stmt.functionsOf ys')
  | [], byRef => .pure .nil
  | y :: rest, byRef => by
    rw [analyzeStmts]
    exact (descends_analyzeStmt hcfg y byRef).bind fun y' hy => (descends_analyzeStmts hcfg rest byRef).bind
      fun rest' hrest => .pure (hy.append hrest)
termination_by structural ys => ys

theorem descends_analyzeOptional (hcfg : cfg.registry = .standard) : ∀ (body : Option (List Stmt)) (byRef : Bool),
    Delivers byRef (analyzeOptional cfg body) fun body' =>
      DescendAll cfg byRef (Stmt.ownOfOptional body') (Stmt.functionsOfOptional body')
  | none, byRef => .pure .nil
  | some body, byRef => by
    rw [analyzeOptional]
    exact (descends_analyzeStmts hcfg body byRef).bind fun body' hbody => .pure hbody
termination_by structural body => body

theorem descends_analyzeElse (hcfg : cfg.registry = .standard) (entry : Reachability) :
    ∀ (body : Option (List Stmt)) (byRef : Bool), Delivers byRef (analyzeElse cfg entry body) fun body' =>
      DescendAll cfg byRef (Stmt.ownOfOptional body') (Stmt.functionsOfOptional body')
  | none, byRef => .pure .nil
  | some body, byRef => by
    rw [analyzeElse]
    refine .after (fun _ => ⟨id, rfl, rfl⟩) ?_
    exact (descends_analyzeStmts hcfg body byRef).inConditional.bind fun body' hbody => .pure hbody
termination_by structural body => body

theorem descends_analyzeCatches (hcfg : cfg.registry = .standard) : ∀ (catches : List Catch) (byRef : Bool),
    Delivers byRef (analyzeCatches cfg catches) fun catches' =>
      DescendAll cfg byRef (Stmt.ownOfCatches catches') (Stmt.functionsOfCatches catches') ∧
        ∀ span type var body resolved, .clause span type var body resolved ∈ catches' →
          resolved = some (className cfg type)
  | [], byRef => .pure ⟨.nil, nofun⟩
  | .clause span type var body resolved :: rest, byRef => by
    rw [analyzeCatches]
    have hname : ∀ s : State, (s.resolveType cfg type span).1 = className cfg type := by
      intro s
      unfold State.resolveType className
      split <;> simp [*]
    refine (Delivers.transform (Q := fun name => name = className cfg type) (Stays.resolveType type span) hname).bind ?_
    rintro _ rfl
    refine (descends_analyzeStmts hcfg body byRef).inConditional.bind fun body' hbody => ?_
    refine (descends_analyzeCatches hcfg rest byRef).bind fun rest' hrest => .pure ⟨hbody.append hrest.1, ?_⟩
    intro span' type' var' body'' resolved' hmem
    rcases List.mem_cons.mp hmem with heq | hmem
    · cases heq
      rfl
    · exact hrest.2 _ _ _ _ _ hmem
termination_by structural catches => catches

end

end Analysis
end PhpLowering
