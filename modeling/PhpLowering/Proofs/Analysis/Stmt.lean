import PhpLowering.Proofs.Analysis.Expr
import PhpLowering.Proofs.Analysis.Labels

/-!
# What the analysis makes of statements

**`settles_analyzeStmts`**: with the standard registry the analysis of statements succeeds, and
what is left of them can be emitted if no error was reported, the refusals of the tree apart.
The induction follows the recursion of `analyzeStmt`.

The levels of `break` and `continue` and the uniqueness of labels are not checked by the
emission.  It relies on the analysis for them, and so both are part of what is said here.
-/

namespace PhpLowering

/-- The number of a node that is a label statement. -/
def Node.labelId? : Node → Option Nat
  | .stmt (.label tag _) => some tag.id
  | _ => none

/-- The numbers of the label statements among nodes. -/
def Node.labelIds (nodes : List Node) : List Nat :=
  nodes.filterMap Node.labelId?

@[simp] theorem Node.labelIds_append (ns ns' : List Node) :
    Node.labelIds (ns ++ ns') = Node.labelIds ns ++ Node.labelIds ns' :=
  List.filterMap_append

/-- There is no label statement in an expression. -/
@[simp] theorem Node.labelIds_expr (e : Expr) : Node.labelIds e.nodes = [] := by
  refine List.filterMap_eq_nil_iff.mpr fun n hn => ?_
  obtain ⟨x, -, rfl⟩ := List.mem_map.mp hn
  rfl

namespace Analysis

open Pass (Ends)

variable {α β : Type} {cfg : Setting} {s t u : State} {x : Analyze α} {own : List Stmt}
  {fs : List (FunctionHead × List Stmt)} {ids ids' : List Nat} {P P' : Nat → Prop}

/-! ## Statements that are put into others -/

namespace Reworked

theorem imp (h : Reworked ids own fs P s t) (hP : P s.flow.loops → P' s.flow.loops) :
    Reworked ids own fs P' s t :=
  { h with serves := fun hc => hP (h.serves hc) }

/-- The order of the label statements does not matter. -/
theorem perm (h : Reworked ids own fs P s t) (hids : ids.Perm ids') : Reworked ids' own fs P s t :=
  have hfresh : FreshIds ids' s → FreshIds ids s := fun hf =>
    ⟨hids.nodup_iff.mpr hf.1, fun i hi => hf.2 i (hids.mem_iff.mp hi)⟩
  { h with
    given := fun i hi => (h.given i hi).imp_right hids.mem_iff.mp
    stands := fun hc hf => h.stands hc (hfresh hf)
    linked := fun hc hf => h.linked hc (hfresh hf) }

/-- A statement around others. -/
theorem wrap {node : Stmt} (h : Reworked ids own fs P s t)
    (hgoto : node.goto? = none) (hlabel : node.label? = none) (hP : P s.flow.loops → P' s.flow.loops) :
    Reworked ids (node :: own) fs P' s t where
  advances := h.advances
  given := h.given
  goes := by
    rw [List.filterMap_cons_none hgoto]
    exact h.goes
  serves hc := hP (h.serves hc)
  nodup := by
    rw [List.filterMap_cons_none hlabel]
    exact h.nodup
  defines := by
    rw [List.filterMap_cons_none hlabel]
    exact h.defines
  stands hc hf tag name hmem := by
    rcases List.mem_cons.mp hmem with heq | hmem
    · rw [← heq] at hlabel
      exact nomatch hlabel
    · exact h.stands hc hf tag name hmem
  linked := h.linked

theorem before (h : Reworked ids own fs P t u) (hst : Calm s t) : Reworked ids own fs P s u :=
  h.around hst.toStill (Calm.refl u).toStill (fun hl => hl.symm.trans hst.loops) (hst.loops ▸ id)

theorem after (h : Reworked ids own fs P s t) (htu : Calm t u) : Reworked ids own fs P s u :=
  h.around (Calm.refl s).toStill htu.toStill (fun hl => htu.loops.trans hl.symm) id

end Reworked

/-! ## Computations that rework statements -/

/-- What can be emitted among so many loops, whatever tree its nodes are part of. -/
def Emittable (ns : List Node) (W : (CompileError → Prop) → Nat → Prop) (depth : Nat) : Prop :=
  ∀ nodes, (∀ n ∈ ns, n ∈ nodes) → W (Refuses nodes) depth

/-- A computation succeeds and leaves statements that can be emitted if no error was reported. -/
def Settles (ids : List Nat) (x : Analyze α) (own : α → List Stmt)
    (fs : α → List (FunctionHead × List Stmt)) (P : α → Nat → Prop) : Prop :=
  ∀ s, Sound s → Ends x s (fun a t => Reworked ids (own a) (fs a) (P a) s t) fun _ => False

/-- A computation that leaves a statement. -/
def SettlesStmt (ids : List Nat) (x : Analyze Stmt) : Prop :=
  Settles ids x Stmt.own Stmt.functions fun a => Emittable a.nodes fun E => a.Serves E

/-- A computation that leaves statements. -/
def SettlesStmts (ids : List Nat) (x : Analyze (List Stmt)) : Prop :=
  Settles ids x Stmt.ownOf Stmt.functionsOf fun a =>
    Emittable (Stmt.nodesOf a) fun E => Stmt.ServesAll E a

/-- A computation that leaves a part that may be missing. -/
def SettlesOptional (ids : List Nat) (x : Analyze (Option (List Stmt))) : Prop :=
  Settles ids x Stmt.ownOfOptional Stmt.functionsOfOptional fun a =>
    Emittable (Stmt.nodesOfOptional a) fun E => Stmt.ServesOptional E a

/-- A computation that leaves clauses. -/
def SettlesCatches (ids : List Nat) (x : Analyze (List Catch)) : Prop :=
  Settles ids x Stmt.ownOfCatches Stmt.functionsOfCatches fun a =>
    Emittable (Stmt.nodesOfCatches a) fun E => Stmt.ServesCatches E a

namespace Settles

variable {own : α → List Stmt} {fs : α → List (FunctionHead × List Stmt)} {P : α → Nat → Prop}

/-- A computation behind one that has nothing to do with labels. -/
theorem afterCalm {y : Analyze β} {Q : β → Prop} {f : β → Analyze α} (hy : Finds y Q)
    (hf : ∀ b, Q b → Settles ids (f b) own fs P) : Settles ids (y >>= f) own fs P := by
  intro s hs
  refine (hy s hs.table).bind ?_
  rintro b t ⟨hst, hb⟩
  exact (hf b hb t (hst.sound hs)).mono fun a u h => h.before hst

theorem inConditional (h : Settles ids x own fs P) : Settles ids (inConditional x) own fs P :=
  .afterCalm (Finds.update calm_enterConditional) fun _ _ s hs =>
    .ensuring ((h s hs).mono fun _ t ht => ht.after (calm_leaveConditional t))

theorem attempt (h : Settles ids x own fs P) (hs : Sound s) :
    Ends x.attempt s (fun r t => ∃ a, r = .ok a ∧ Reworked ids (own a) (fs a) (P a) s t)
      fun _ => False :=
  .attempt (h s hs)

/-- What can never run is analysed and thrown away. -/
theorem asDead (h : Settles ids x own fs P) :
    Settles ids (asDead x) (fun _ => []) (fun _ => []) fun _ _ => True := by
  refine .afterCalm (Finds.peek (Q := fun _ => True) fun _ => trivial) fun saved _ => ?_
  refine .afterCalm (Finds.update fun s => calm_restore _ s) fun _ _ s hs => ?_
  have hdead : Ends (x.ensuring (State.restore saved)) s
      (fun _ t => Reworked ids [] [] (fun _ => True) s t) fun _ => False :=
    .ensuring ((h s hs).mono fun a t ht => ht.discard.after (calm_restore saved t))
  exact hdead.bind fun _ t ht => .pure ht

/-- The body of a loop is analysed with one more loop around. -/
theorem inLoop (h : Settles ids x own fs P) :
    Settles ids (inLoop x) own fs fun a depth => P a (depth + 1) := by
  intro s hs
  have henter : Still s s.enterLoop := { (Calm.refl s).toStill with }
  refine Ends.bind (Q := fun _ t => t = s.enterLoop) (.update rfl) ?_
  rintro _ _ rfl
  refine .ensuring ((h s.enterLoop (henter.sound hs)).mono fun a t ht => ?_)
  refine ht.around henter { (Calm.refl t).toStill with } (fun hl => ?_) id
  show t.flow.loops - 1 = s.flow.loops
  rw [← hl]
  rfl

end Settles

/-! ## Statements without parts -/

/-- A statement without parts that has nothing to do with labels and can be emitted anywhere. -/
structure Leaf (a : Stmt) : Prop where
  own : a.own = [a]
  functions : a.functions = []
  goto : a.goto? = none
  label : a.label? = none
  emittable : ∀ depth, Emittable a.nodes (fun E => a.Serves E) depth

theorem Leaf.reworked {a : Stmt} (h : Leaf a) (hst : Calm s t) :
    Reworked ids a.own a.functions (Emittable a.nodes fun E => a.Serves E) s t := by
  rw [h.own, h.functions]
  refine .of_calm hst (fun x hx => ?_) fun _ => h.emittable _
  rw [List.mem_singleton.mp hx]
  exact ⟨h.goto, h.label⟩

theorem SettlesStmt.of_finds {x : Analyze Stmt} (h : Finds x Leaf) : SettlesStmt ids x :=
  fun s hs => (h s hs.table).mono fun _ _ ht => ht.2.reworked ht.1

theorem leaf_empty (tag : StmtTag) (kind : EmptyKind) : Leaf (.empty tag kind) :=
  ⟨rfl, rfl, rfl, rfl, fun _ _ _ => trivial⟩

theorem finds_emptyStmt (span : Span) (kind : EmptyKind) : Finds (emptyStmt span kind) Leaf :=
  fun s _ => .transform ⟨calm_withNextId _ s, leaf_empty _ _⟩

/-- The nodes of an expression that is part of a statement. -/
theorem among_of_nodes {nodes : List Node} {e : Expr} (h : ∀ n ∈ e.nodes, n ∈ nodes) :
    Expr.Among nodes e.subexprs :=
  fun _ hx => h _ (List.mem_map_of_mem hx)

theorem finds_analyzeExpression (hcfg : cfg.registry = .standard) (tag : StmtTag) (e : Expr) :
    Finds (analyzeExpression cfg tag e) Leaf := by
  refine (finds_analyze hcfg e .none).bind fun ev hev => ?_
  cases ev with
  | value _ _ => exact finds_emptyStmt tag.span .skipped
  | residual node =>
    refine .pure ⟨rfl, rfl, rfl, rfl, fun _ nodes hnodes => ?_⟩
    exact hev.suits.value (Or.inl rfl) nodes (among_of_nodes (List.forall_mem_cons.mp hnodes).2)

theorem calm_enterUnreachable (s : State) : Calm s s.enterUnreachable := by
  unfold State.enterUnreachable
  split
  · exact .refl s
  · exact calm_restore _ s

theorem finds_analyzeConstDecl (hcfg : cfg.registry = .standard) (tag : StmtTag) (name : String)
    (value : Expr) : Finds (analyzeConstDecl cfg tag name value) Leaf := by
  refine (finds_analyze hcfg value .read).bind fun ev hev => ?_
  have hrest : Finds (do return Stmt.constDecl tag name (← keep ev)) Leaf := by
    refine (finds_keep hev).bind fun node hnode => .pure ⟨rfl, rfl, rfl, rfl, ?_⟩
    intro depth nodes hnodes
    exact hnode.operand nodes (among_of_nodes (List.forall_mem_cons.mp hnodes).2)
  have hdeclare : ∀ v, Finds (Pass.transform (State.declareConstant cfg name v tag.span))
      fun _ => True := by
    refine fun v s _ => .transform ⟨?_, trivial⟩
    unfold State.declareConstant
    split
    · exact calm_report _ _ s
    · exact { Calm.refl s with }
  split
  · exact (hdeclare _).andThen fun _ => hrest
  · exact hrest

theorem finds_resolveType (type : String) (span : Span) :
    Finds (Pass.transform (State.resolveType cfg type span)) fun _ => True := by
  refine fun s _ => .transform ⟨?_, trivial⟩
  unfold State.resolveType
  split
  · exact .refl s
  · exact calm_report _ _ s

/-- An empty statement takes the place of statements that are thrown away. -/
theorem Reworked.ends_empty (h : Reworked ids [] [] P s t) (hs : Sound s) (span : Span) :
    Ends (emptyStmt span .skipped) t (fun a u =>
      Reworked ids a.own a.functions (Emittable a.nodes fun E => a.Serves E) s u) fun _ => False := by
  refine (finds_emptyStmt span .skipped t (h.advances.sound hs).table).mono ?_
  rintro a u ⟨htu, ha⟩
  have hempty : Reworked [] a.own a.functions (Emittable a.nodes fun E => a.Serves E) t u :=
    ha.reworked htu
  have hboth := h.seq hempty
  rw [List.append_nil] at hboth
  exact hboth.imp fun hP => hP.2

/-! ## Jumps -/

theorem calm_checkLevel (level : Option Expr) (span : Span) (s : State) :
    Calm s (checkLevel level span s) := by
  unfold checkLevel
  dsimp only
  split <;> split
  all_goals first | exact calm_report _ _ s | exact .refl s

/-- A level that was not reported is one of a loop around. -/
theorem levelServes_of_clean {E : CompileError → Prop} {level : Option Expr} {span : Span}
    (hlevel : ∀ e, level = some e → e.Serves E .operand) (h : (checkLevel level span s).Clean) :
    Stmt.LevelServes E level s.flow.loops := by
  have hreport : ∀ n, ¬ (s.report (.invalidBreakLevel n) span).Clean := fun n hc =>
    nomatch hc ⟨.invalidBreakLevel n, span⟩ Array.mem_push_self
  cases level with
  | none =>
    have hone : (1 : Int64).toInt = 1 := by decide
    simp only [checkLevel, staticLevel?, hone, Int.ofNat_eq_natCast] at h
    split at h
    · exact (hreport _ h).elim
    · rename_i hvalid
      simp only [Bool.or_eq_true, decide_eq_true_eq, not_or] at hvalid
      show 1 ≤ s.flow.loops
      omega
  | some e =>
    unfold Stmt.LevelServes
    cases hvalue : e.value? with
    | some v =>
      simp only [checkLevel, staticLevel?, hvalue, Option.map_some, Int.ofNat_eq_natCast] at h ⊢
      split at h
      · exact (hreport _ h).elim
      · rename_i hvalid
        simp only [Bool.or_eq_true, decide_eq_true_eq, not_or] at hvalid
        omega
    | none =>
      simp only [checkLevel, staticLevel?, hvalue, Option.map_none] at h ⊢
      split at h
      · exact (hreport _ h).elim
      · rename_i hvalid
        exact ⟨hlevel e rfl, Nat.one_le_iff_ne_zero.mpr fun hzero => hvalid (beq_iff_eq.mpr hzero)⟩

theorem Suits.jump {e node : Expr} {kind : JumpKind} {returnsRef : Bool}
    (h : Suits e (jumpAccess kind returnsRef e) node) : node.Fits .operand := by
  unfold jumpAccess at h
  split at h
  · rename_i href
    exact h.reference href.2.2 (Or.inl rfl)
  · exact h.operand

theorem settles_analyzeJump (hcfg : cfg.registry = .standard) (tag : StmtTag) (kind : JumpKind)
    (expr : Option Expr) : SettlesStmt ids (analyzeJump cfg tag kind expr) := by
  have hrest : ∀ expr', (∀ e, expr' = some e → e.Fits .operand) → SettlesStmt ids (do
      if kind ≠ .return then Pass.update (checkLevel expr' tag.span)
      Pass.update State.enterUnreachable
      return Stmt.jump tag kind expr') := by
    intro expr' hexpr
    have hoperand : ∀ nodes, (∀ n ∈ (Stmt.jump tag kind expr').nodes, n ∈ nodes) → ∀ e,
        expr' = some e → e.Serves (Refuses nodes) .operand := by
      rintro nodes hnodes e rfl
      refine hexpr e rfl nodes (among_of_nodes fun n hn => hnodes n ?_)
      exact List.mem_cons_of_mem _ (List.mem_flatMap.mpr ⟨e, List.mem_singleton_self e, hn⟩)
    have hplain : ∀ a ∈ (Stmt.jump tag kind expr').own, a.goto? = none ∧ a.label? = none := by
      intro a ha
      rw [List.mem_singleton.mp ha]
      exact ⟨rfl, rfl⟩
    have hleave : Finds (do
        Pass.update State.enterUnreachable
        return Stmt.jump tag kind expr') fun a => a = .jump tag kind expr' :=
      (Finds.update calm_enterUnreachable).andThen fun _ => .pure rfl
    intro s hs
    by_cases hkind : kind = .return
    · rw [if_neg (not_not.mpr hkind)]
      refine (hleave s hs.table).mono ?_
      rintro _ t ⟨hst, rfl⟩
      refine .of_calm hst hplain fun _ nodes hnodes => ?_
      rw [hkind]
      exact hoperand nodes hnodes
    · rw [if_pos hkind]
      have hcheck := calm_checkLevel expr' tag.span s
      refine Ends.bind (Q := fun _ t => t = checkLevel expr' tag.span s) (.update rfl) ?_
      rintro _ _ rfl
      refine (hleave _ (hcheck.table hs.table)).mono ?_
      rintro _ t ⟨hst, rfl⟩
      refine .of_calm (hcheck.trans hst) hplain fun hclean nodes hnodes => ?_
      have hlevel := levelServes_of_clean (hoperand nodes hnodes) (hst.advances.clean hclean)
      cases kind with
      | «return» => exact (hkind rfl).elim
      | «break» => exact hlevel
      | «continue» => exact hlevel
  refine Settles.afterCalm (Finds.peek (Q := fun _ => True) fun _ => trivial) fun returnsRef _ => ?_
  cases expr with
  | none => exact hrest none nofun
  | some e =>
    refine Settles.afterCalm (finds_analyze hcfg e _).kept fun node hnode => ?_
    exact hrest (some node) fun _ heq => Option.some.inj heq ▸ hnode.jump

/-! ## Rules and dead code -/

theorem calm_reportUnreachable (options : Options) (span : Span) (s : State) :
    Calm s (s.reportUnreachable options span) := by
  unfold State.reportUnreachable
  split
  · exact .refl s
  · dsimp only
    split
    · exact (calm_restore _ s).trans (calm_report _ _ _)
    · exact calm_restore _ s

/-- A statement is handled by the rule made for its kind. -/
theorem settles_byStmtRule (hcfg : cfg.registry = .standard) {x : Stmt}
    {analyzed : Home StmtKind → Analyze Stmt}
    (h : SettlesStmt ids (analyzed (RuleTable.stmtHome x.kind x.id))) :
    SettlesStmt ids (byStmtRule cfg x analyzed) := by
  have htable : Finds (onTable (RuleTable.stmt cfg.registry x.kind x.id)) fun handle =>
      handle = ⟨x.kind, RuleTable.stmtHome x.kind x.id⟩ := by
    rw [hcfg]
    exact fun s hs => ends_onTable hs (RuleTable.ends_stmt s.table x.kind x.id)
  refine Settles.afterCalm htable ?_
  rintro _ rfl
  rw [if_pos rfl]
  exact h

/-- A statement is left out, or handled by its rule. -/
theorem settles_ifAlive (hcfg : cfg.registry = .standard) {x : Stmt}
    {analyzed : Home StmtKind → Analyze Stmt}
    (h : SettlesStmt ids (analyzed (RuleTable.stmtHome x.kind x.id))) :
    SettlesStmt ids (ifAlive cfg x analyzed) := by
  unfold ifAlive
  split
  · exact Settles.afterCalm (Finds.update fun s => calm_restore _ s) fun _ _ =>
      settles_byStmtRule hcfg h
  · refine Settles.afterCalm (Finds.peek (Q := fun _ => True) fun _ => trivial) fun dead _ => ?_
    split
    · exact Settles.afterCalm (Finds.update (calm_reportUnreachable _ _)) fun _ _ =>
        SettlesStmt.of_finds (finds_emptyStmt _ _)
    · exact settles_byStmtRule hcfg h

/-! ## The induction -/

theorem labelIds_branch (tag : StmtTag) (condition : Expr) (thenBody : List Stmt)
    (elseBody : Option (List Stmt)) :
    Node.labelIds (Stmt.branch tag condition thenBody elseBody).nodes =
      Node.labelIds (Stmt.nodesOf thenBody) ++ Node.labelIds (Stmt.nodesOfOptional elseBody) := by
  have hfirst : Node.labelIds (.stmt (.branch tag condition thenBody elseBody) :: condition.nodes) = [] :=
    Node.labelIds_expr condition
  rw [Stmt.nodes, Node.labelIds_append, Node.labelIds_append, hfirst, List.nil_append]

theorem labelIds_loop (tag : StmtTag) (condition : Expr) (body : List Stmt) :
    Node.labelIds (Stmt.loop tag condition body).nodes = Node.labelIds (Stmt.nodesOf body) := by
  have hfirst : Node.labelIds (.stmt (.loop tag condition body) :: condition.nodes) = [] :=
    Node.labelIds_expr condition
  rw [Stmt.nodes, Node.labelIds_append, hfirst, List.nil_append]

theorem labelIds_tryCatch (tag : StmtTag) (body : List Stmt) (catches : List Catch)
    (cleanup : Option (List Stmt)) :
    Node.labelIds (Stmt.tryCatch tag body catches cleanup).nodes =
      Node.labelIds (Stmt.nodesOf body) ++ (Node.labelIds (Stmt.nodesOfCatches catches) ++
        Node.labelIds (Stmt.nodesOfOptional cleanup)) := by
  have hfirst : Node.labelIds (.stmt (.tryCatch tag body catches cleanup) :: Stmt.nodesOf body) =
    Node.labelIds (Stmt.nodesOf body) := rfl
  rw [Stmt.nodes, Node.labelIds_append, Node.labelIds_append, hfirst, List.append_assoc]

/-- Statements that take the place of the one they are in. -/
theorem Reworked.block {tag : StmtTag} {body : List Stmt}
    (h : Reworked ids (Stmt.ownOf body) (Stmt.functionsOf body)
      (Emittable (Stmt.nodesOf body) fun E => Stmt.ServesAll E body) s t) :
    Reworked ids (Stmt.block tag body).own (Stmt.block tag body).functions
      (Emittable (Stmt.block tag body).nodes fun E => (Stmt.block tag body).Serves E) s t :=
  h.wrap rfl rfl fun hP nodes hnodes => hP nodes (List.forall_mem_cons.mp hnodes).2

/-! ### The statements, one by one -/

section

variable {tag : StmtTag} {condition : Expr} {body thenBody : List Stmt} {elseBody cleanup : Option (List Stmt)}
  {catches : List Catch}

theorem settles_echo (hcfg : cfg.registry = .standard) (es : List Expr) :
    SettlesStmt ids (analyzeStmt cfg (.echo tag es)) := by
  rw [analyzeStmt]
  refine settles_ifAlive hcfg (.of_finds ?_)
  refine (finds_analyzeAll hcfg .read es).bind fun es' hes => .pure ⟨rfl, rfl, rfl, rfl, ?_⟩
  intro depth nodes hnodes e he
  obtain ⟨x, hx⟩ := hes e he
  refine hx.operand nodes (among_of_nodes fun n hn => hnodes n ?_)
  exact List.mem_cons_of_mem _ (List.mem_flatMap.mpr ⟨e, he, hn⟩)

theorem settles_unset (hcfg : cfg.registry = .standard) (targets : List Expr) :
    SettlesStmt ids (analyzeStmt cfg (.unset tag targets)) := by
  rw [analyzeStmt]
  refine settles_ifAlive hcfg (.of_finds ?_)
  refine (finds_analyzeAll hcfg .write targets).bind fun es' hes => .pure ⟨rfl, rfl, rfl, rfl, ?_⟩
  intro depth nodes hnodes e he
  obtain ⟨hself, hrest⟩ := List.forall_mem_cons.mp hnodes
  obtain ⟨x, hx⟩ := hes e he
  refine Expr.asPlace_of_mem hself he fun hplace => ⟨Refusal.unset hself he, ?_⟩
  refine hx.formed (Or.inl hplace) nodes (among_of_nodes fun n hn => hrest n ?_)
  exact List.mem_flatMap.mpr ⟨e, he, hn⟩

theorem settles_throw (hcfg : cfg.registry = .standard) (e : Expr) :
    SettlesStmt ids (analyzeStmt cfg (.throw tag e)) := by
  rw [analyzeStmt]
  refine settles_ifAlive hcfg (.of_finds ?_)
  refine (finds_analyze hcfg e .read).kept.bind fun node hnode => ?_
  refine (Finds.update calm_enterUnreachable).andThen fun _ => .pure ⟨rfl, rfl, rfl, rfl, ?_⟩
  intro depth nodes hnodes
  exact hnode.operand nodes (among_of_nodes (List.forall_mem_cons.mp hnodes).2)

theorem settles_goto (hcfg : cfg.registry = .standard) (name : String) :
    SettlesStmt (Node.labelIds (Stmt.goto tag name).nodes) (analyzeStmt cfg (.goto tag name)) := by
  rw [analyzeStmt]
  refine settles_ifAlive hcfg fun s hs => ?_
  refine Ends.bind (Q := fun _ t => t = s.gotoLabel name tag.span) (.update rfl) ?_
  rintro _ _ rfl
  have hgoto : Reworked (Node.labelIds (Stmt.goto tag name).nodes) [.goto tag name] []
      (Emittable (Stmt.goto tag name).nodes fun E => (Stmt.goto tag name).Serves E) s
      (s.gotoLabel name tag.span) := reworked_goto hs tag name tag.span fun _ _ => trivial
  exact hgoto.after (calm_enterUnreachable _)

theorem settles_label (hcfg : cfg.registry = .standard) (name : String) :
    SettlesStmt (Node.labelIds (Stmt.label tag name).nodes) (analyzeStmt cfg (.label tag name)) := by
  rw [analyzeStmt]
  refine settles_ifAlive hcfg fun s hs => ?_
  refine (ends_analyzeLabel hs tag name (P := Emittable (Stmt.label tag name).nodes fun E =>
    (Stmt.label tag name).Serves E) fun _ _ => trivial).mono ?_
  rintro _ t ⟨rfl, ht⟩
  exact ht

theorem settles_branch (hcfg : cfg.registry = .standard)
    (hthen : SettlesStmts (Node.labelIds (Stmt.nodesOf thenBody)) (analyzeStmts cfg thenBody))
    (hoptional : SettlesOptional (Node.labelIds (Stmt.nodesOfOptional elseBody)) (analyzeOptional cfg elseBody))
    (helse : ∀ entry, SettlesOptional (Node.labelIds (Stmt.nodesOfOptional elseBody))
      (analyzeElse cfg entry elseBody)) :
    SettlesStmt (Node.labelIds (Stmt.branch tag condition thenBody elseBody).nodes)
      (analyzeStmt cfg (.branch tag condition thenBody elseBody)) := by
  rw [analyzeStmt, labelIds_branch]
  refine settles_ifAlive hcfg ?_
  refine Settles.afterCalm (finds_analyze hcfg condition .read) fun c hc => ?_
  dsimp only
  split
  · intro s hs
    refine (hoptional.asDead s hs).bind fun _ t ht => ?_
    refine (hthen t (ht.advances.sound hs)).bind fun body' u hu => .pure ?_
    exact ((ht.seq hu).perm List.perm_append_comm |>.imp fun h => h.2).block
  · intro s hs
    refine (hthen.asDead s hs).bind fun _ t ht => ?_
    refine (hoptional t (ht.advances.sound hs)).bind fun elseBody' u hu => ?_
    cases elseBody' with
    | some body' => exact .pure ((ht.seq hu).imp fun h => h.2).block
    | none => exact (ht.seq hu).discard.ends_empty hs tag.span
  · refine Settles.afterCalm (finds_keep hc) fun condition' hcondition => ?_
    refine Settles.afterCalm (Finds.peek (Q := fun _ => True) fun _ => trivial) fun entry _ s hs => ?_
    refine (hthen.inConditional.attempt hs).bind ?_
    rintro _ t ⟨thenBody', rfl, ht⟩
    refine (helse entry t (ht.advances.sound hs)).bind fun elseBody' u hu => ?_
    refine .pure ((ht.seq hu).wrap rfl rfl fun h nodes hnodes => ?_)
    simp only [Stmt.nodes, List.forall_mem_append, List.forall_mem_cons] at hnodes
    exact ⟨hcondition.operand nodes (among_of_nodes hnodes.1.1.2), h.1 nodes hnodes.1.2,
      h.2 nodes hnodes.2⟩

theorem settles_loop (hcfg : cfg.registry = .standard)
    (hbody : SettlesStmts (Node.labelIds (Stmt.nodesOf body)) (analyzeStmts cfg body)) :
    SettlesStmt (Node.labelIds (Stmt.loop tag condition body).nodes) (analyzeStmt cfg (.loop tag condition body)) := by
  rw [analyzeStmt, labelIds_loop]
  refine settles_ifAlive hcfg ?_
  refine Settles.afterCalm (finds_analyze hcfg condition .read) fun c hc => ?_
  split
  · intro s hs
    refine (hbody.asDead.inLoop s hs).bind fun _ t ht => ?_
    exact ht.ends_empty hs tag.span
  · refine Settles.afterCalm (finds_keep hc) fun condition' hcondition s hs => ?_
    refine (hbody.inLoop s hs).bind fun body' t ht => ?_
    refine .pure (ht.wrap rfl rfl fun h nodes hnodes => ?_)
    simp only [Stmt.nodes, List.forall_mem_append, List.forall_mem_cons] at hnodes
    exact ⟨hcondition.operand nodes (among_of_nodes hnodes.1.2), h nodes hnodes.2⟩

theorem settles_tryCatch (hcfg : cfg.registry = .standard)
    (hbody : SettlesStmts (Node.labelIds (Stmt.nodesOf body)) (analyzeStmts cfg body))
    (hcatches : SettlesCatches (Node.labelIds (Stmt.nodesOfCatches catches)) (analyzeCatches cfg catches))
    (hcleanup : SettlesOptional (Node.labelIds (Stmt.nodesOfOptional cleanup)) (analyzeOptional cfg cleanup)) :
    SettlesStmt (Node.labelIds (Stmt.tryCatch tag body catches cleanup).nodes)
      (analyzeStmt cfg (.tryCatch tag body catches cleanup)) := by
  rw [analyzeStmt, labelIds_tryCatch]
  refine settles_ifAlive hcfg fun s hs => ?_
  refine (hbody.inConditional s hs).bind fun body' t ht => ?_
  have hsound := ht.advances.sound hs
  refine (hcatches t hsound).bind fun catches' u hu => ?_
  refine (hcleanup u (hu.advances.sound hsound)).bind fun cleanup' v hv => ?_
  refine .pure ((ht.seq (hu.seq hv)).wrap rfl rfl fun h nodes hnodes => ?_)
  simp only [Stmt.nodes, List.forall_mem_append, List.forall_mem_cons] at hnodes
  exact ⟨h.1 nodes hnodes.1.1.2, h.2.1 nodes hnodes.1.2, h.2.2 nodes hnodes.2⟩

theorem settles_function (hcfg : cfg.registry = .standard) (head : FunctionHead) (dead : Bool)
    (hbody : SettlesStmts (Node.labelIds (Stmt.nodesOf body)) (analyzeStmts cfg body)) :
    SettlesStmt (Node.labelIds (Stmt.function tag head body dead).nodes)
      (analyzeStmt cfg (.function tag head body dead)) := by
  rw [analyzeStmt]
  refine settles_ifAlive hcfg ?_
  refine Settles.afterCalm (Finds.peek (Q := fun _ => True) fun _ => trivial) fun dead' _ s hs => ?_
  refine Ends.bind (Q := fun _ t => t = s.enterRoutine head.byRef) (.update rfl) ?_
  rintro _ _ rfl
  have hleave : Ends ((analyzeStmts cfg body).ensuring State.leaveRoutine) (s.enterRoutine head.byRef)
      (fun body' t => Reworked (Node.labelIds (Stmt.nodesOf body))
        (Stmt.function tag head body' dead').own (Stmt.function tag head body' dead').functions
        (Emittable (Stmt.function tag head body' dead').nodes fun E =>
          (Stmt.function tag head body' dead').Serves E) s t) fun _ => False := by
    refine .ensuring ((hbody _ (hs.enterRoutine _)).mono fun body' t ht => ht.function fun h hnodup nodes hnodes => ?_)
    exact ⟨h nodes (List.forall_mem_cons.mp hnodes).2, hnodup⟩
  exact hleave.bind fun _ _ ht => .pure ht

end

/-! ### All statements -/

mutual

/-- **A statement is analysed without a failure.** -/
theorem settles_analyzeStmt (hcfg : cfg.registry = .standard) :
    ∀ x : Stmt, SettlesStmt (Node.labelIds x.nodes) (analyzeStmt cfg x)
  | .expression tag e => by
    rw [analyzeStmt]
    exact settles_ifAlive hcfg (.of_finds (finds_analyzeExpression hcfg tag e))
  | .echo _ es => settles_echo hcfg es
  | .block tag body => by
    rw [analyzeStmt]
    refine settles_ifAlive hcfg fun s hs => ?_
    exact (settles_analyzeStmts hcfg body s hs).bind fun body' t h => .pure h.block
  | .branch _ _ thenBody elseBody =>
    settles_branch hcfg (settles_analyzeStmts hcfg thenBody) (settles_analyzeOptional hcfg elseBody)
      fun entry => settles_analyzeElse hcfg entry elseBody
  | .loop _ _ body => settles_loop hcfg (settles_analyzeStmts hcfg body)
  | .jump tag kind expr => by
    rw [analyzeStmt]
    exact settles_ifAlive hcfg (settles_analyzeJump hcfg tag kind expr)
  | .goto _ name => settles_goto hcfg name
  | .label _ name => settles_label hcfg name
  | .tryCatch _ body catches cleanup =>
    settles_tryCatch hcfg (settles_analyzeStmts hcfg body) (settles_analyzeCatches hcfg catches)
      (settles_analyzeOptional hcfg cleanup)
  | .throw _ e => settles_throw hcfg e
  | .unset _ targets => settles_unset hcfg targets
  | .constDecl tag name value => by
    rw [analyzeStmt]
    exact settles_ifAlive hcfg (.of_finds (finds_analyzeConstDecl hcfg tag name value))
  | .function _ head body dead => settles_function hcfg head dead (settles_analyzeStmts hcfg body)
  | .empty tag kind => by
    rw [analyzeStmt]
    exact settles_ifAlive hcfg (.of_finds (.pure (leaf_empty tag kind)))
termination_by structural x => x

/-- **Statements are analysed without a failure.** -/
theorem settles_analyzeStmts (hcfg : cfg.registry = .standard) :
    ∀ xs : List Stmt, SettlesStmts (Node.labelIds (Stmt.nodesOf xs)) (analyzeStmts cfg xs)
  | [] => by
    rw [analyzeStmts]
    exact fun s _ => .pure (.of_calm (.refl s) nofun fun _ _ _ => trivial)
  | x :: rest => by
    rw [analyzeStmts, Stmt.nodesOf, Node.labelIds_append]
    intro s hs
    refine (settles_analyzeStmt hcfg x s hs).bind fun x' t ht => ?_
    refine (settles_analyzeStmts hcfg rest t (ht.advances.sound hs)).bind fun rest' u hu => .pure ?_
    refine (ht.seq hu).imp fun h nodes hnodes => ?_
    obtain ⟨hx, hrest⟩ := List.forall_mem_append.mp hnodes
    exact ⟨h.1 nodes hx, h.2 nodes hrest⟩
termination_by structural xs => xs

theorem settles_analyzeOptional (hcfg : cfg.registry = .standard) :
    ∀ body : Option (List Stmt),
      SettlesOptional (Node.labelIds (Stmt.nodesOfOptional body)) (analyzeOptional cfg body)
  | none => by
    rw [analyzeOptional]
    exact fun s _ => .pure (.of_calm (.refl s) nofun fun _ _ _ => trivial)
  | some body => by
    rw [analyzeOptional]
    exact fun s hs => (settles_analyzeStmts hcfg body s hs).bind fun _ _ ht => .pure ht
termination_by structural body => body

theorem settles_analyzeElse (hcfg : cfg.registry = .standard) (entry : Reachability) :
    ∀ body : Option (List Stmt),
      SettlesOptional (Node.labelIds (Stmt.nodesOfOptional body)) (analyzeElse cfg entry body)
  | none => by
    rw [analyzeElse]
    exact fun s _ => .pure (.of_calm (.refl s) nofun fun _ _ _ => trivial)
  | some body => by
    rw [analyzeElse]
    refine Settles.afterCalm (Finds.update fun s => calm_restore _ s) fun _ _ s hs => ?_
    exact ((settles_analyzeStmts hcfg body).inConditional s hs).bind fun _ _ ht => .pure ht
termination_by structural body => body

theorem settles_analyzeCatches (hcfg : cfg.registry = .standard) :
    ∀ catches : List Catch,
      SettlesCatches (Node.labelIds (Stmt.nodesOfCatches catches)) (analyzeCatches cfg catches)
  | [] => by
    rw [analyzeCatches]
    exact fun s _ => .pure (.of_calm (.refl s) nofun fun _ _ _ => trivial)
  | .clause span type var body resolved :: rest => by
    rw [analyzeCatches, Stmt.nodesOfCatches, Node.labelIds_append]
    refine Settles.afterCalm (finds_resolveType type span) fun resolved' _ s hs => ?_
    refine ((settles_analyzeStmts hcfg body).inConditional s hs).bind fun body' t ht => ?_
    refine (settles_analyzeCatches hcfg rest t (ht.advances.sound hs)).bind fun rest' u hu => .pure ?_
    refine (ht.seq hu).imp fun h nodes hnodes => ?_
    obtain ⟨hbody, hrest⟩ := List.forall_mem_append.mp hnodes
    exact ⟨h.1 nodes hbody, h.2 nodes hrest⟩
termination_by structural catches => catches

end

end Analysis
end PhpLowering
