import PhpLowering.Proofs.Analysis.Bond
import PhpLowering.Proofs.Analysis.Containment
import PhpLowering.Proofs.Tree.Copy

/-!
# Two analyses of statements

What a relation between states has to go through besides the analysis of expressions (`Bond`), so that it
goes through the analysis of statements, is collected in `Accord`: reports of dead code, labels, constants
and routines.

**`agrees_analyzeStmts`**: two analyses of the same statements that begin in related states end in related
states, and the trees that they leave have the same shape.
-/

namespace PhpLowering

/-- Whether a node has to do with constants. -/
def Node.isConstant : Node → Bool
  | .expr (.constant ..) => true
  | .stmt (.constDecl ..) => true
  | _ => false

namespace Analysis

variable {α β γ δ : Type} {c : Copying} {cfg cfg' : Setting} {known : Prop} {R : State → State → Prop}

/-- A relation between states that nothing in the analysis of statements can break. -/
class Accord (cfg cfg' : outParam Setting) (c : outParam Copying) (known : outParam Prop)
    (R : State → State → Prop) : Prop extends Bond cfg cfg' c known R where
  returnsRef {s s' : State} : R s s' → s'.scope.returnsRef = s.scope.returnsRef
  reportUnreachable {s s' : State} : R s s' → ∀ span,
    R (s.reportUnreachable cfg.options span) (s'.reportUnreachable cfg'.options span)
  ruleStmt {s s' : State} : R s s' → ∀ kind id, (RuleTable.stmt cfg.registry kind id s'.table).1 =
      (RuleTable.stmt cfg.registry kind id s.table).1 ∧
    R { s with table := (RuleTable.stmt cfg.registry kind id s.table).2 }
      { s' with table := (RuleTable.stmt cfg.registry kind id s'.table).2 }
  withConstants {s s' : State} : known → R s s' → ∀ constants, R { s with constants } { s' with constants }
  goto {s s' : State} : R s s' → ∀ name span, R (s.gotoLabel name span) (s'.gotoLabel name span)
  label (tag : StmtTag) (name : String) (home : Home StmtKind) :
    Agrees R (Stmt.shape c) (analyzeLabel tag name home) (analyzeLabel tag name home)
  enterRoutine {s s' : State} : R s s' → ∀ returnsRef, R (s.enterRoutine returnsRef) (s'.enterRoutine returnsRef)
  leaveRoutine {s s' t t' : State} {returnsRef : Bool} : R s s' → Contained (s.enterRoutine returnsRef) t →
    Contained (s'.enterRoutine returnsRef) t' → R t t' → R t.leaveRoutine t'.leaveRoutine

/-- Two settings that the analysis cannot tell apart. -/
theorem accord_eq (hcfg : Kindred cfg cfg')
    (hreport : cfg'.options.reportUnreachable = cfg.options.reportUnreachable) : Accord cfg cfg' {} True Eq where
  kindred := hcfg
  level hs _ := by rw [hs]
  number hs _ := by rw [hs]
  flow hs := by rw [hs]
  withFlow hs _ := by rw [hs]
  countKey hs _ _ := by rw [hs]
  report hs _ _ _ := by rw [hs]
  ruleExpr hs _ _ := by
    rw [hs]
    exact ⟨rfl, rfl⟩
  constants _ hs := by rw [hs]
  returnsRef hs := by rw [hs]
  reportUnreachable hs _ := by
    unfold State.reportUnreachable
    rw [hs, hreport]
  ruleStmt hs _ _ := by
    rw [hs]
    exact ⟨rfl, rfl⟩
  withConstants _ hs _ := by rw [hs]
  goto hs _ _ := by rw [hs]
  enterRoutine hs _ := by rw [hs]
  leaveRoutine _ _ _ ht := by rw [ht]
  label _ _ _ s s' hs := by
    rw [hs]
    exact ⟨rfl, rfl⟩

/-! ## Steps of the analysis -/

section Steps

variable [accord : Accord cfg cfg' c known R] {v : α → γ} {x y : Analyze α}

include accord

theorem agrees_reportUnreachable (span : Span) :
    Agrees R id (Pass.update (State.reportUnreachable cfg.options span))
      (Pass.update (State.reportUnreachable cfg'.options span)) :=
  .update fun _ _ hs => accord.reportUnreachable hs span

theorem agrees_emptyStmt (span : Span) (kind : EmptyKind) :
    Agrees R (Stmt.shape c) (emptyStmt span kind) (emptyStmt span kind) :=
  agrees_deals (f := fun n => (Stmt.empty ⟨nodeId n, span⟩ kind, n + 1))
    (g := fun n => (.empty ⟨nodeId n, span⟩ kind, n + 1)) fun hlevel => by
      refine ⟨?_, 1, rfl, rfl⟩
      simp only [Stmt.shape, hlevel.zero]

theorem agrees_reachability : Agrees R id (Pass.peek State.reachability) (Pass.peek State.reachability) :=
  .peek fun _ _ hs => congrArg Flow.reachability (accord.flow hs)

theorem agrees_unreachable : Agrees R id (Pass.peek State.unreachable) (Pass.peek State.unreachable) :=
  .peek fun _ _ hs => congrArg (fun flow : Flow => flow.reachability.unreachable) (accord.flow hs)

theorem agrees_restore (r : Reachability) : Agrees R id (Pass.update (State.restore r)) (Pass.update (State.restore r)) :=
  .update fun _ _ hs => Bond.reflow hs fun flow => { flow with reachability := r }

theorem agrees_enterUnreachable :
    Agrees R id (Pass.update State.enterUnreachable) (Pass.update State.enterUnreachable) :=
  .update fun s s' hs => by
    unfold State.enterUnreachable State.unreachable
    rw [accord.flow hs]
    split
    · exact hs
    · exact Bond.reflow hs fun flow => { flow with reachability := ⟨true, false⟩ }

theorem agrees_byStmtRule {node : Stmt} {f g : Home StmtKind → Analyze Stmt}
    (h : ∀ home, Agrees R (Stmt.shape c) (f home) (g home)) :
    Agrees R (Stmt.shape c) (byStmtRule cfg node f) (byStmtRule cfg' node g) := by
  have htable : Agrees R id (onTable (RuleTable.stmt cfg.registry node.kind node.id))
      (onTable (RuleTable.stmt cfg'.registry node.kind node.id)) := by
    intro s s' hs
    rw [accord.kindred.registry]
    obtain ⟨hanswer, htables⟩ := accord.ruleStmt hs node.kind node.id
    exact ⟨htables, congrArg (Except.map id) hanswer⟩
  refine htable.before fun handle => ?_
  split
  · exact h handle.home
  · split
    · exact .pure rfl
    · exact .fail _

theorem agrees_ifAlive {node : Stmt} {f g : Home StmtKind → Analyze Stmt}
    (h : ∀ home, Agrees R (Stmt.shape c) (f home) (g home)) :
    Agrees R (Stmt.shape c) (ifAlive cfg node f) (ifAlive cfg' node g) := by
  have hrule : Agrees R (Stmt.shape c) (byStmtRule cfg node f) (byStmtRule cfg' node g) := agrees_byStmtRule h
  unfold ifAlive
  split
  · exact (agrees_restore (R := R) ⟨false, false⟩).before fun _ => hrule
  · refine agrees_unreachable.before fun dead => ?_
    split
    · exact (agrees_reportUnreachable node.span).before fun _ => agrees_emptyStmt _ _
    · exact hrule

theorem agrees_asDead (h : Agrees R v x y) : Agrees R id (asDead x) (asDead y) :=
  agrees_reachability.before fun saved => (agrees_restore (R := R) ⟨true, true⟩).before fun _ =>
    (h.ensuring fun _ _ hs => Bond.reflow hs fun flow => { flow with reachability := saved }).bind fun _ _ _ =>
      .pure rfl

theorem agrees_inLoop (h : Agrees R v x y) : Agrees R v (inLoop x) (inLoop y) :=
  .before (.update fun _ _ hs => Bond.reflow hs fun flow =>
      { flow with loops := flow.loops + 1, conditionals := flow.conditionals + 1 })
    fun _ => h.ensuring fun _ _ hs => Bond.reflow hs fun flow =>
      { flow with loops := flow.loops - 1, conditionals := flow.conditionals - 1, reachability := ⟨false, false⟩ }

/-- A routine is left where it was entered. -/
theorem agrees_inRoutine (h : Agrees R v x y) (hx : Relates Contained x) (hy : Relates Contained y)
    (returnsRef : Bool) :
    Agrees R v (do Pass.update (State.enterRoutine returnsRef); x.ensuring State.leaveRoutine)
      (do Pass.update (State.enterRoutine returnsRef); y.ensuring State.leaveRoutine) := by
  intro s s' hs
  obtain ⟨ht, hanswer⟩ := h _ _ (accord.enterRoutine hs returnsRef)
  exact ⟨accord.leaveRoutine hs (hx.run _) (hy.run _) ht, hanswer⟩

theorem agrees_checkLevel (span : Span) {level level' : Option Expr}
    (h : level'.map (Expr.copy c) = level.map (Expr.copy c)) :
    Agrees R id (Pass.update (checkLevel level span)) (Pass.update (checkLevel level' span)) := by
  have hlevel : staticLevel? level' = staticLevel? level := by
    cases level with
    | none => rw [Option.map_eq_none_iff.mp h]
    | some e =>
      cases level' with
      | none => cases h
      | some e' => simp only [staticLevel?, Expr.value?_eq_of_copy (Option.some.inj h)]
  refine .update fun s s' hs => ?_
  unfold checkLevel
  rw [hlevel, accord.flow hs]
  dsimp only
  split <;> split <;> first | exact hs | exact accord.report hs span (by rintro ⟨⟩)

end Steps

/-! ## Parts of statements -/

variable (known) in
/-- If anything here has to do with constants, they are known to be the same. -/
abbrev CertainAll (ns : List Node) : Prop :=
  ∀ n ∈ ns, n.isConstant = true → known

theorem CertainAll.subexprs {e : Expr} (h : CertainAll known e.nodes) : Certain known e.subexprs := by
  intro x hx hkind
  refine h (.expr x) (List.mem_map_of_mem hx) ?_
  cases x with
  | constant => rfl
  | _ => exact nomatch hkind

theorem CertainAll.tail {n : Node} {ns : List Node} (h : CertainAll known (n :: ns)) : CertainAll known ns :=
  fun m hm => h m (List.mem_cons_of_mem _ hm)

theorem CertainAll.append {ns ns' : List Node} (h : CertainAll known (ns ++ ns')) :
    CertainAll known ns ∧ CertainAll known ns' :=
  List.forall_mem_append.mp h

theorem agrees_analyzeAll [Bond cfg cfg' c known R] (access : Access) {es : List Expr}
    (h : CertainAll known (es.flatMap Expr.nodes)) :
    Agrees R (Expr.copyAll c) (analyzeAll cfg access es) (analyzeAll cfg' access es) := by
  induction es with
  | nil => exact .pure rfl
  | cons e rest ih =>
    rw [List.flatMap_cons] at h
    unfold analyzeAll
    refine (agrees_kept (agrees_analyze e h.append.1.subexprs access)).bind fun _ _ he =>
      (ih h.append.2).bind fun _ _ hes => .pure ?_
    rw [Expr.copyAll, Expr.copyAll, he, hes]

section

variable [accord : Accord cfg cfg' c known R]

theorem agrees_analyzeJump (tag : StmtTag) (kind : JumpKind) {expr : Option Expr}
    (h : CertainAll known (expr.toList.flatMap Expr.nodes)) :
    Agrees R (Stmt.shape c) (analyzeJump cfg tag kind expr) (analyzeJump cfg' tag kind expr) := by
  have hreturnsRef : Agrees R id (Pass.peek fun s => s.scope.returnsRef) (Pass.peek fun s => s.scope.returnsRef) :=
    .peek fun _ _ hs => accord.returnsRef hs
  have hrest {level level' : Option Expr} (hlevel : level'.map (Expr.copy c) = level.map (Expr.copy c)) :
      Agrees R (Stmt.shape c)
        (do
          if kind ≠ .return then Pass.update (checkLevel level tag.span)
          Pass.update State.enterUnreachable
          return .jump tag kind level)
        (do
          if kind ≠ .return then Pass.update (checkLevel level' tag.span)
          Pass.update State.enterUnreachable
          return .jump tag kind level') := by
    have hend : Agrees R (Stmt.shape c)
        (do Pass.update State.enterUnreachable; return .jump tag kind level)
        (do Pass.update State.enterUnreachable; return .jump tag kind level') :=
      agrees_enterUnreachable.before fun _ => .pure (congrArg (Stmt.jump _ kind) hlevel)
    split
    · exact (agrees_checkLevel tag.span hlevel).before fun _ => hend
    · exact hend
  unfold analyzeJump
  refine hreturnsRef.before fun returnsRef => ?_
  cases expr with
  | none => exact hrest rfl
  | some e =>
    rw [Option.toList_some, List.flatMap_singleton] at h
    dsimp only
    refine (agrees_kept (agrees_analyze e h.subexprs _)).bind fun _ _ he => ?_
    exact hrest (congrArg some he)

theorem agrees_analyzeExpression (tag : StmtTag) {e : Expr} (h : CertainAll known e.nodes) :
    Agrees R (Stmt.shape c) (analyzeExpression cfg tag e) (analyzeExpression cfg' tag e) := by
  unfold analyzeExpression
  refine (agrees_analyze e h.subexprs .none).bind fun ev ev' hev => ?_
  cases ev with
  | value v node =>
    cases ev' with
    | value => exact agrees_emptyStmt _ _
    | residual => exact nomatch hev
  | residual node =>
    cases ev' with
    | value => exact nomatch hev
    | residual node' => exact .pure (congrArg (Stmt.expression _) (Evaluation.residual.inj hev))

include accord in
theorem agrees_declareConstant (hknown : known) (name : String) (v : Literal) (span : Span) :
    Agrees R id (Pass.transform (State.declareConstant cfg name v span))
      (Pass.transform (State.declareConstant cfg' name v span)) := by
  refine .transform fun s s' hs => ?_
  have hconstants := accord.constants hknown hs
  unfold State.declareConstant
  rw [accord.kindred.constant?_eq hconstants]
  split
  · exact ⟨accord.report hs span nofun, rfl⟩
  · rw [hconstants]
    exact ⟨accord.withConstants hknown hs _, rfl⟩

theorem agrees_analyzeConstDecl (hknown : known) (tag : StmtTag) (name : String) (value : Expr) :
    Agrees R (Stmt.shape c) (analyzeConstDecl cfg tag name value) (analyzeConstDecl cfg' tag name value) := by
  unfold analyzeConstDecl
  refine (agrees_analyze value (fun _ _ _ => hknown) .read).bind fun ev ev' hev => ?_
  have hkeep : Agrees R (Stmt.shape c) (do return .constDecl tag name (← keep ev))
      (do return .constDecl tag name (← keep ev')) :=
    (agrees_keep hev).bind fun _ _ he => .pure (congrArg (Stmt.constDecl _ name) he)
  rw [Evaluation.value?_eq_of_copy hev]
  cases ev.value? with
  | none => exact hkeep
  | some v =>
    dsimp only
    exact (agrees_declareConstant hknown name v tag.span).before fun _ => hkeep

include accord in
theorem agrees_resolveType (type : String) (span : Span) :
    Agrees R id (Pass.transform (State.resolveType cfg type span))
      (Pass.transform (State.resolveType cfg' type span)) := by
  refine .transform fun s s' hs => ?_
  unfold State.resolveType
  rw [accord.kindred.symbols]
  split
  · exact ⟨hs, rfl⟩
  · exact ⟨accord.report hs span (by rintro ⟨⟩), rfl⟩

include accord in
theorem agrees_branch {tag : StmtTag} {condition : Expr} {thenBody : List Stmt} {elseBody : Option (List Stmt)}
    (hcondition : Agrees R (Evaluation.copy c) (analyze cfg condition .read) (analyze cfg' condition .read))
    (hthen : Agrees R (Stmt.shapeOf c) (analyzeStmts cfg thenBody) (analyzeStmts cfg' thenBody))
    (hoptional : Agrees R (Stmt.shapeOfOptional c) (analyzeOptional cfg elseBody) (analyzeOptional cfg' elseBody))
    (helse : ∀ entry, Agrees R (Stmt.shapeOfOptional c) (analyzeElse cfg entry elseBody)
      (analyzeElse cfg' entry elseBody)) :
    Agrees R (Stmt.shape c) (analyzeStmt cfg (.branch tag condition thenBody elseBody))
      (analyzeStmt cfg' (.branch tag condition thenBody elseBody)) := by
  rw [analyzeStmt, analyzeStmt]
  refine agrees_ifAlive fun _ => hcondition.bind fun ev ev' hev => ?_
  dsimp only
  rw [accord.kindred.decided? hev]
  split
  · exact (agrees_asDead hoptional).before fun _ => hthen.bind fun _ _ hxs => .pure (congrArg (Stmt.block _) hxs)
  · refine (agrees_asDead hthen).before fun _ => hoptional.bind fun part part' hpart => ?_
    cases part with
    | none =>
      cases part' with
      | none => exact agrees_emptyStmt _ _
      | some => exact (Option.some_ne_none _ hpart).elim
    | some body =>
      cases part' with
      | none => exact (Option.some_ne_none _ hpart.symm).elim
      | some body' => exact .pure (congrArg (Stmt.block _) (Option.some.inj hpart))
  · refine (agrees_keep hev).bind fun _ _ he => agrees_reachability.before fun entry =>
      (agrees_inConditional hthen).attempt.bind fun _ _ ht => (helse entry).bind fun _ _ hpart =>
        (Pass.Agrees.ofExcept ht).bind fun _ _ hxs => .pure ?_
    simp only [Stmt.shape, he, hxs, hpart]

end

/-! ## Statements -/

mutual

theorem agrees_analyzeStmt [accord : Accord cfg cfg' c known R] : ∀ (x : Stmt) (_ : CertainAll known x.nodes),
    Agrees R (Stmt.shape c) (analyzeStmt cfg x) (analyzeStmt cfg' x)
  | .expression tag e, h => by
    rw [analyzeStmt, analyzeStmt]
    exact agrees_ifAlive fun _ => agrees_analyzeExpression tag h.tail
  | .echo tag es, h => by
    rw [analyzeStmt, analyzeStmt]
    exact agrees_ifAlive fun _ => (agrees_analyzeAll .read h.tail).bind fun _ _ hes =>
      .pure (congrArg (Stmt.echo _) hes)
  | .block tag body, h => by
    have hbody := agrees_analyzeStmts body h.tail
    rw [analyzeStmt, analyzeStmt]
    exact agrees_ifAlive fun _ => hbody.bind fun _ _ hxs => .pure (congrArg (Stmt.block _) hxs)
  | .branch _ condition thenBody elseBody, h => by
    obtain ⟨hparts, helse⟩ := h.tail.append
    obtain ⟨hcondition, hthen⟩ := hparts.append
    exact agrees_branch (agrees_analyze condition hcondition.subexprs .read) (agrees_analyzeStmts thenBody hthen)
      (agrees_analyzeOptional elseBody helse) (agrees_analyzeElse elseBody helse)
  | .loop tag condition body, h => by
    obtain ⟨hcondition, hbody⟩ := h.tail.append
    have hbody := agrees_analyzeStmts body hbody
    rw [analyzeStmt, analyzeStmt]
    refine agrees_ifAlive fun _ => (agrees_analyze condition hcondition.subexprs .read).bind fun ev ev' hev => ?_
    rw [accord.kindred.decided? hev]
    split
    · exact (agrees_inLoop (agrees_asDead hbody)).before fun _ => agrees_emptyStmt _ _
    · refine (agrees_keep hev).bind fun _ _ he => (agrees_inLoop hbody).bind fun _ _ hxs => .pure ?_
      simp only [Stmt.shape, he, hxs]
  | .jump tag kind expr, h => by
    rw [analyzeStmt, analyzeStmt]
    exact agrees_ifAlive fun _ => agrees_analyzeJump tag kind h.tail
  | .goto tag label, _ => by
    have hgoto : Agrees R id (Pass.update (State.gotoLabel label tag.span))
        (Pass.update (State.gotoLabel label tag.span)) :=
      .update fun _ _ hs => accord.goto hs label tag.span
    rw [analyzeStmt, analyzeStmt]
    exact agrees_ifAlive fun _ => hgoto.before fun _ => agrees_enterUnreachable.before fun _ => .pure rfl
  | .label tag name, _ => by
    rw [analyzeStmt, analyzeStmt]
    exact agrees_ifAlive fun home => accord.label tag name home
  | .tryCatch tag body catches cleanup, h => by
    obtain ⟨hparts, hcleanup⟩ := h.tail.append
    obtain ⟨hbody, hcatches⟩ := hparts.append
    have hbody := agrees_analyzeStmts body hbody
    have hcatches := agrees_analyzeCatches catches hcatches
    have hcleanup := agrees_analyzeOptional cleanup hcleanup
    rw [analyzeStmt, analyzeStmt]
    refine agrees_ifAlive fun _ => (agrees_inConditional hbody).bind fun _ _ hxs => hcatches.bind fun _ _ hcs =>
      hcleanup.bind fun _ _ hpart => .pure ?_
    simp only [Stmt.shape, hxs, hcs, hpart]
  | .throw tag e, h => by
    rw [analyzeStmt, analyzeStmt]
    exact agrees_ifAlive fun _ => (agrees_kept (agrees_analyze e h.tail.subexprs .read)).bind fun _ _ he =>
      agrees_enterUnreachable.before fun _ => .pure (congrArg (Stmt.throw _) he)
  | .unset tag targets, h => by
    rw [analyzeStmt, analyzeStmt]
    exact agrees_ifAlive fun _ => (agrees_analyzeAll .write h.tail).bind fun _ _ hes =>
      .pure (congrArg (Stmt.unset _) hes)
  | .constDecl tag name value, h => by
    rw [analyzeStmt, analyzeStmt]
    exact agrees_ifAlive fun _ => agrees_analyzeConstDecl (h _ List.mem_cons_self rfl) tag name value
  | .function tag head body dead, h => by
    have hbody := agrees_inRoutine (agrees_analyzeStmts body h.tail) (contained_analyzeStmts cfg body)
      (contained_analyzeStmts cfg' body) head.byRef
    rw [analyzeStmt, analyzeStmt]
    refine agrees_ifAlive fun _ => agrees_unreachable.before fun dead => ?_
    have hfunction : Agrees R (Stmt.shape c) _ _ :=
      hbody.bind fun xs xs' hxs => .pure (a := Stmt.function tag head xs dead) (b := Stmt.function tag head xs' dead)
        (congrArg (fun xs => Stmt.function _ head xs dead) hxs)
    rwa [bind_assoc, bind_assoc] at hfunction
  | .empty tag kind, _ => by
    rw [analyzeStmt, analyzeStmt]
    exact agrees_ifAlive fun _ => .pure rfl
termination_by structural x => x

/-- **Two analyses of the same statements agree.** -/
theorem agrees_analyzeStmts [accord : Accord cfg cfg' c known R] : ∀ (xs : List Stmt)
    (_ : CertainAll known (Stmt.nodesOf xs)),
    Agrees R (Stmt.shapeOf c) (analyzeStmts cfg xs) (analyzeStmts cfg' xs)
  | [], _ => .pure rfl
  | x :: rest, h => by
    have hx := agrees_analyzeStmt x h.append.1
    have hrest := agrees_analyzeStmts rest h.append.2
    rw [analyzeStmts, analyzeStmts]
    refine hx.bind fun _ _ hx => hrest.bind fun _ _ hxs => .pure ?_
    rw [Stmt.shapeOf, Stmt.shapeOf, hx, hxs]
termination_by structural xs => xs

theorem agrees_analyzeOptional [accord : Accord cfg cfg' c known R] : ∀ (part : Option (List Stmt))
    (_ : CertainAll known (Stmt.nodesOfOptional part)),
    Agrees R (Stmt.shapeOfOptional c) (analyzeOptional cfg part) (analyzeOptional cfg' part)
  | none, _ => .pure rfl
  | some body, h => by
    have hbody := agrees_analyzeStmts body h
    rw [analyzeOptional, analyzeOptional]
    exact hbody.bind fun _ _ hxs => .pure (congrArg some hxs)
termination_by structural part => part

theorem agrees_analyzeElse [accord : Accord cfg cfg' c known R] : ∀ (part : Option (List Stmt))
    (_ : CertainAll known (Stmt.nodesOfOptional part)) (entry : Reachability),
    Agrees R (Stmt.shapeOfOptional c) (analyzeElse cfg entry part) (analyzeElse cfg' entry part)
  | none, _, _ => .pure rfl
  | some body, h, entry => by
    have hbody := agrees_analyzeStmts body h
    rw [analyzeElse, analyzeElse]
    exact (agrees_restore entry).before fun _ => (agrees_inConditional hbody).bind fun _ _ hxs =>
      .pure (congrArg some hxs)
termination_by structural part => part

theorem agrees_analyzeCatches [accord : Accord cfg cfg' c known R] : ∀ (catches : List Catch)
    (_ : CertainAll known (Stmt.nodesOfCatches catches)),
    Agrees R (Stmt.shapeOfCatches c) (analyzeCatches cfg catches) (analyzeCatches cfg' catches)
  | [], _ => .pure rfl
  | .clause span type var body resolved :: rest, h => by
    have hbody := agrees_analyzeStmts body h.append.1
    have hrest := agrees_analyzeCatches rest h.append.2
    rw [analyzeCatches, analyzeCatches]
    refine (agrees_resolveType type span).before fun _ => (agrees_inConditional hbody).bind fun _ _ hxs =>
      hrest.bind fun _ _ hcs => .pure ?_
    rw [Stmt.shapeOfCatches, Stmt.shapeOfCatches, hxs, hcs]
termination_by structural catches => catches

end

/-- If nothing is numbered anew, the two analyses leave the same trees. -/
theorem analyzeStmts_eq [Accord cfg cfg' {} True R] (xs : List Stmt) {s s' : State} (hs : R s s') :
    (analyzeStmts cfg' xs s').1 = (analyzeStmts cfg xs s).1 ∧ R (analyzeStmts cfg xs s).2 (analyzeStmts cfg' xs s').2 := by
  have hself : Stmt.shapeOf {} = id := funext Stmt.shapeOf_self
  have hagrees := agrees_analyzeStmts (R := R) xs fun _ _ _ => trivial
  rw [hself] at hagrees
  exact ⟨hagrees.answer hs, (hagrees s s' hs).1⟩

end Analysis
end PhpLowering
