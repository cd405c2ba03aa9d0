import PhpLowering.Proofs.Acceptance
import PhpLowering.Proofs.Analysis.Survival
import PhpLowering.Proofs.Tree.Declared

/-!
# What analysis leaves of statements

Statements are dropped, replaced by empty ones or taken out of those around them, but like in
expressions nothing is made up: every node that stores to something comes from one of the source, with
what it stores to analysed, every call is one of the source with its arguments analysed, and every `goto`
is one of the source (`retains_analyzeStmts`).

The functions that are left are some of those that the source declares, in their order.

What analysis makes of an expression depends on the constants that have been declared before, and
these become more from one statement to the next.  So the origin of a node is a node and a list of
constants that were known when analysis came to it.
-/

namespace PhpLowering

open Analysis (settled BecomesNode)

namespace Node

variable {cfg : Analysis.Setting} {known later : List (String × Literal)} {n m : Node}
  {xs xs' ys ys' : List Node} {e node : Expr} {s s' : Stmt}

variable (cfg known) in
/-- A node that stores to something is the other one with its parts analysed, among some of the
constants that are known in the end. -/
structure Rewritten (n m : Node) : Prop where
  id : m.id = n.id
  kind : m.kind = n.kind
  targets : ∃ declared, declared <:+ known ∧
    List.Forall₂ (Expr.Replaces (settled cfg declared)) n.targets m.targets

variable (cfg known) in
/-- The nodes on the right are what is left of those on the left. -/
structure Remains (before after : List Node) : Prop where
  numbers : (numbers after).Sublist (numbers before)
  writers : ∀ m ∈ after, m.stores = true → ∃ n ∈ before, Rewritten cfg known n m
  gotos : ∀ m ∈ after, m.isGoto = true → m ∈ before
  heads : (heads after).Sublist (heads before)
  calls : ∀ y, .expr y ∈ after → y.kind = .call → ∃ x, .expr x ∈ before ∧ Expr.Requested cfg x y

namespace Remains

theorem nil : Remains cfg known xs [] :=
  ⟨List.nil_sublist _, nofun, nofun, List.nil_sublist _, nofun⟩

theorem append (h : Remains cfg known xs ys) (h' : Remains cfg known xs' ys') :
    Remains cfg known (xs ++ xs') (ys ++ ys') where
  numbers := by
    rw [numbers_append, numbers_append]
    exact h.numbers.append h'.numbers
  writers m hm hw := by
    rcases List.mem_append.mp hm with hm | hm
    · obtain ⟨n, hn, hnm⟩ := h.writers m hm hw
      exact ⟨n, List.mem_append_left _ hn, hnm⟩
    · obtain ⟨n, hn, hnm⟩ := h'.writers m hm hw
      exact ⟨n, List.mem_append_right _ hn, hnm⟩
  gotos := List.forall_mem_append.mpr
    ⟨fun m hm hg => List.mem_append_left _ (h.gotos m hm hg),
      fun m hm hg => List.mem_append_right _ (h'.gotos m hm hg)⟩
  heads := by
    rw [heads_append, heads_append]
    exact h.heads.append h'.heads
  calls y hy hcall := by
    rcases List.mem_append.mp hy with hy | hy
    · obtain ⟨x, hx, hxy⟩ := h.calls y hy hcall
      exact ⟨x, List.mem_append_left _ hx, hxy⟩
    · obtain ⟨x, hx, hxy⟩ := h'.calls y hy hcall
      exact ⟨x, List.mem_append_right _ hx, hxy⟩

/-- Some of the nodes are dropped. -/
theorem drop (h : Remains cfg known xs ys) (hx : xs.Sublist xs') : Remains cfg known xs' ys where
  numbers := h.numbers.trans (hx.filterMap _)
  writers m hm hw := by
    obtain ⟨n, hn, hnm⟩ := h.writers m hm hw
    exact ⟨n, hx.subset hn, hnm⟩
  gotos m hm hg := hx.subset (h.gotos m hm hg)
  heads := h.heads.trans (hx.filterMap _)
  calls y hy hcall := by
    obtain ⟨x, hmem, hxy⟩ := h.calls y hy hcall
    exact ⟨x, hx.subset hmem, hxy⟩

/-- A node in front that is a statement asks for nothing. -/
theorem calls_cons (h : Remains cfg known xs ys) : ∀ y, .expr y ∈ Node.stmt s' :: ys → y.kind = .call →
    ∃ x, .expr x ∈ Node.stmt s :: xs ∧ Expr.Requested cfg x y := by
  intro y hy hcall
  obtain ⟨x, hx, hxy⟩ := h.calls y ((List.mem_cons.mp hy).resolve_left nofun) hcall
  exact ⟨x, List.mem_cons_of_mem _ hx, hxy⟩

/-- A statement around what is left, which stores to nothing itself. -/
theorem stmt (h : Remains cfg known xs ys) (hs : (Node.stmt s').stores = false)
    (hgoto : (Node.stmt s').isGoto = true → s' = s)
    (hhead : (Node.stmt s').head? = (Node.stmt s).head?) :
    Remains cfg known (.stmt s :: xs) (.stmt s' :: ys) where
  numbers := h.numbers
  writers := by
    refine List.forall_mem_cons.mpr ⟨fun hw => absurd (hs.symm.trans hw) nofun, fun m hm hw => ?_⟩
    obtain ⟨n, hn, hnm⟩ := h.writers m hm hw
    exact ⟨n, List.mem_cons_of_mem _ hn, hnm⟩
  gotos := by
    refine List.forall_mem_cons.mpr ⟨fun hg => ?_, fun m hm hg => List.mem_cons_of_mem _ (h.gotos m hm hg)⟩
    rw [hgoto hg]
    exact List.mem_cons_self
  heads := by
    rw [heads_cons, heads_cons, hhead]
    exact h.heads.append_left _
  calls := h.calls_cons

/-- An empty statement in the place of something. -/
theorem empty {tag : StmtTag} {kind : EmptyKind} : Remains cfg known xs (Stmt.empty tag kind).nodes :=
  ⟨List.nil_sublist _, List.forall_mem_singleton.mpr nofun, List.forall_mem_singleton.mpr nofun, List.nil_sublist _,
    fun _ h => nomatch List.mem_singleton.mp h⟩

/-- A literal in the place of something. -/
theorem literal {tag : ExprTag} {v : Literal} : Remains cfg known xs (Expr.literal tag v).nodes where
  numbers := List.nil_sublist _
  writers := List.forall_mem_singleton.mpr nofun
  gotos := List.forall_mem_singleton.mpr nofun
  heads := List.nil_sublist _
  calls y hy hcall := by
    cases List.mem_singleton.mp hy
    exact nomatch hcall

/-- A statement that removes locations. -/
theorem unset {tag : StmtTag} {es es' : List Expr}
    (h : Remains cfg known (es.flatMap Expr.nodes) (es'.flatMap Expr.nodes))
    (htargets : ∃ declared, declared <:+ known ∧
      List.Forall₂ (Expr.Replaces (settled cfg declared)) es es') :
    Remains cfg known (Stmt.unset tag es).nodes (Stmt.unset tag es').nodes where
  numbers := h.numbers
  writers := by
    refine List.forall_mem_cons.mpr ⟨fun _ => ⟨_, List.mem_cons_self, rfl, rfl, htargets⟩, ?_⟩
    intro m hm hw
    obtain ⟨n, hn, hnm⟩ := h.writers m hm hw
    exact ⟨n, List.mem_cons_of_mem _ hn, hnm⟩
  gotos := List.forall_mem_cons.mpr ⟨nofun, fun m hm hg => List.mem_cons_of_mem _ (h.gotos m hm hg)⟩
  heads := h.heads
  calls := h.calls_cons

/-- What is left of an expression. -/
theorem of_leaves {declared : List (String × Literal)} (h : Expr.Leaves (settled cfg declared) e node)
    (hrequests : Expr.Requests cfg e.subexprs node.subexprs) (hknown : declared <:+ known) :
    Remains cfg known e.nodes node.nodes where
  numbers := by
    rw [numbers_nodes, numbers_nodes]
    exact h.remains.numbers
  writers m hm hw := by
    obtain ⟨y, hy, rfl⟩ := List.mem_map.mp hm
    obtain ⟨x, hx, hxy⟩ := h.remains.writers y hy hw
    exact ⟨.expr x, List.mem_map_of_mem hx, hxy.id, congrArg NodeKind.expr hxy.kind, declared, hknown,
      hxy.targets⟩
  gotos m hm hg := by
    obtain ⟨y, -, rfl⟩ := List.mem_map.mp hm
    exact nomatch hg
  heads := by rw [heads_nodes, heads_nodes]
  calls y hy hcall := by
    obtain ⟨y, hy, ⟨⟩⟩ := List.mem_map.mp hy
    obtain ⟨x, hx, hxy⟩ := hrequests y hy hcall
    exact ⟨x, List.mem_map_of_mem hx, hxy⟩

/-- What is left of expressions in a row. -/
theorem of_becomes_all {declared : List (String × Literal)} {es es' : List Expr} {access : Access}
    (h : List.Forall₂ (fun e node => BecomesNode cfg declared e access node) es es')
    (hknown : declared <:+ known) :
    Remains cfg known (es.flatMap Expr.nodes) (es'.flatMap Expr.nodes) := by
  induction h with
  | nil => exact .nil
  | cons hfirst _ ih => exact (of_leaves hfirst.leaves hfirst.requests hknown).append ih

end Remains
end Node

namespace Analysis

open Pass (Ends)
open Node (Remains)

variable {α β : Type} {cfg : Setting} {s t u : State} {x : Analyze α}
  {Q : α → List (String × Literal) → Prop}

/-! ## Steps between which constants may be declared -/

/-- Some constants may have been declared in between. -/
structure Later (s t : State) : Prop where
  table : s.table.Regular → t.table.Regular
  constants : s.constants <:+ t.constants

namespace Later

theorem trans (h : Later s t) (h' : Later t u) : Later s u :=
  ⟨fun hs => h'.table (h.table hs), h.constants.trans h'.constants⟩

theorem of_same (htable : t.table = s.table) (hconstants : t.constants = s.constants) :
    Later s t :=
  ⟨fun hs => htable ▸ hs, hconstants ▸ List.suffix_refl _⟩

theorem reportUnreachable (options : Options) (span : Span) (s : State) :
    Later s (s.reportUnreachable options span) := by
  unfold State.reportUnreachable
  split
  · exact of_same rfl rfl
  · dsimp only
    split <;> exact of_same rfl rfl

theorem enterUnreachable (s : State) : Later s s.enterUnreachable := by
  unfold State.enterUnreachable
  split <;> exact of_same rfl rfl

theorem labelEntry (name : String) (firstGoto : Option Span) (s : State) :
    Later s (s.labelEntry name firstGoto).2 := by
  unfold State.labelEntry
  split <;> exact of_same rfl rfl

theorem gotoLabel (name : String) (span : Span) (s : State) : Later s (s.gotoLabel name span) :=
  (labelEntry name (some span) s).trans (of_same rfl rfl)

theorem defineLabel (name : String) (span : Span) (s : State) : Later s (s.defineLabel name span).2 := by
  refine (labelEntry name none s).trans ?_
  unfold State.defineLabel
  dsimp only
  split <;> exact of_same rfl rfl

theorem checkLevel (level : Option Expr) (span : Span) (s : State) : Later s (checkLevel level span s) := by
  unfold Analysis.checkLevel
  dsimp only
  cases staticLevel? level <;> dsimp only <;> split <;> exact of_same rfl rfl

theorem resolveType (name : String) (span : Span) (s : State) : Later s (s.resolveType cfg name span).2 := by
  unfold State.resolveType
  split <;> exact of_same rfl rfl

theorem reportUndefined (s : State) : Later s s.reportUndefined := by
  unfold State.reportUndefined
  generalize s.scope.labels = labels
  induction labels generalizing s with
  | nil => exact of_same rfl rfl
  | cons entry rest ih =>
    rw [List.foldl_cons]
    refine Later.trans ?_ (ih _)
    dsimp only
    split <;> exact of_same rfl rfl

theorem leaveRoutine (s : State) : Later s s.leaveRoutine := by
  unfold State.leaveRoutine
  split
  · exact of_same rfl rfl
  · exact (reportUndefined s).trans (of_same rfl rfl)

theorem declareConstant (name : String) (v : Literal) (span : Span) (s : State) :
    Later s (s.declareConstant cfg name v span).2 := by
  unfold State.declareConstant
  split
  · exact of_same rfl rfl
  · exact ⟨id, List.suffix_cons _ _⟩

end Later

/-- A computation answers with something that satisfies a predicate, whatever constants are declared
behind it. -/
def Retains (x : Analyze α) (Q : α → List (String × Literal) → Prop) : Prop :=
  ∀ s, s.table.Regular → Ends x s
    (fun a t => Later s t ∧ ∀ later, t.constants <:+ later → Q a later) fun _ => False

namespace Retains

theorem pure {a : α} (h : ∀ later, Q a later) : Retains (Pure.pure a) Q :=
  fun _ _ => .pure ⟨.of_same rfl rfl, fun later _ => h later⟩

theorem bind {f : α → Analyze β} {R : β → List (String × Literal) → Prop} (hx : Retains x Q)
    (hf : ∀ a, Retains (f a) fun b later => Q a later → R b later) : Retains (x >>= f) R := by
  intro s hs
  refine (hx s hs).bind ?_
  rintro a t ⟨hst, ha⟩
  refine (hf a t (hst.table hs)).mono ?_
  rintro b u ⟨htu, hb⟩
  exact ⟨hst.trans htu, fun later hlater => hb later hlater (ha later (htu.constants.trans hlater))⟩

theorem mono {R : α → List (String × Literal) → Prop} (h : Retains x Q)
    (hQ : ∀ a later, Q a later → R a later) : Retains x R :=
  fun s hs => (h s hs).mono fun a _ ht => ⟨ht.1, fun later hlater => hQ a later (ht.2 later hlater)⟩

/-- A computation whose answer does not matter, and another one. -/
theorem andThen {f : α → Analyze β} {R : β → List (String × Literal) → Prop} (hx : Retains x Q)
    (hf : ∀ a, Retains (f a) R) : Retains (x >>= f) R :=
  hx.bind fun a => (hf a).mono fun _ _ h _ => h

theorem peek (f : State → α) : Retains (Pass.peek f) fun _ _ => True :=
  fun _ _ => .peek ⟨.of_same rfl rfl, fun _ _ => trivial⟩

theorem update {f : State → State} (h : ∀ s, Later s (f s)) :
    Retains (Pass.update f) fun _ _ => True :=
  fun s _ => .update ⟨h s, fun _ _ => trivial⟩

theorem transform {f : State → α × State} (h : ∀ s, Later s (f s).2) :
    Retains (Pass.transform f) fun _ _ => True :=
  fun s _ => .transform ⟨h s, fun _ _ => trivial⟩

theorem ensuring {f : State → State} (h : Retains x Q)
    (hf : ∀ s, Later s (f s)) : Retains (x.ensuring f) Q := by
  refine fun s hs => .ensuring ((h s hs).mono fun a t ht => ⟨ht.1.trans (hf t), fun later hlater => ?_⟩)
  exact ht.2 later ((hf t).constants.trans hlater)

/-- Where nothing can fail, catching failures changes nothing. -/
theorem attempt {f : Except Fault α → Analyze β} {R : β → List (String × Literal) → Prop}
    (hx : Retains x Q) (hf : ∀ a, Retains (f (.ok a)) fun b later => Q a later → R b later) :
    Retains (x.attempt >>= f) R := by
  intro s hs
  refine (hx s hs).attempt.bind ?_
  rintro _ t ⟨a, rfl, hst, ha⟩
  refine (hf a t (hst.table hs)).mono ?_
  rintro b u ⟨htu, hb⟩
  exact ⟨hst.trans htu, fun later hlater => hb later hlater (ha later (htu.constants.trans hlater))⟩

theorem inConditional (h : Retains x Q) : Retains (inConditional x) Q :=
  .andThen (.update fun _ => .of_same rfl rfl) fun _ => .ensuring h fun _ => .of_same rfl rfl

theorem inLoop (h : Retains x Q) : Retains (inLoop x) Q :=
  .andThen (.update fun _ => .of_same rfl rfl) fun _ => .ensuring h fun _ => .of_same rfl rfl

theorem asDead (h : Retains x Q) : Retains (asDead x) fun _ _ => True :=
  (peek _).andThen fun _ => .andThen (.update fun _ => .of_same rfl rfl) fun _ =>
    .andThen (.ensuring h fun _ => .of_same rfl rfl) fun _ => .pure fun _ => trivial

/-- A computation that declares no constant. -/
theorem of_keeps {P : List (String × Literal) → α → Prop} (h : ∀ declared, Keeps declared x (P declared))
    (hQ : ∀ declared a later, P declared a → declared <:+ later → Q a later) : Retains x Q := by
  intro s hs
  refine (h s.constants s ⟨hs, rfl⟩).mono ?_
  rintro a t ⟨ht, ha⟩
  refine ⟨⟨fun _ => ht.table, ht.constants ▸ List.suffix_refl _⟩, fun later hlater => ?_⟩
  exact hQ _ a later ha (ht.constants ▸ hlater)

end Retains

/-! ## Expressions in statements -/

section Expressions

variable (hcfg : cfg.registry = .standard)
include hcfg

theorem retains_analyze (e : Expr) (access : Access) :
    Retains (analyze cfg e access) fun ev later => Remains cfg later e.nodes ev.node.nodes :=
  .of_keeps (fun _ => keeps_becomes hcfg e access) fun _ _ _ h hlater => .of_leaves h.leaves h.requests hlater

theorem retains_kept (e : Expr) (access : Access) :
    Retains (kept (analyze cfg e access)) fun node later => Remains cfg later e.nodes node.nodes :=
  .of_keeps (fun _ => (keeps_becomes hcfg e access).becomesNode) fun _ _ _ h hlater =>
    .of_leaves h.leaves h.requests hlater

theorem keeps_becomesAll {declared : List (String × Literal)} (access : Access) (es : List Expr) :
    Keeps declared (analyzeAll cfg access es)
      (List.Forall₂ (fun e node => BecomesNode cfg declared e access node) es) := by
  induction es with
  | nil => exact .pure .nil
  | cons e rest ih =>
    rw [analyzeAll]
    refine (keeps_becomes hcfg e access).becomesNode.bind fun node hnode => ?_
    exact ih.bind fun nodes hnodes => .pure (.cons hnode hnodes)

theorem retains_analyzeAll (access : Access) (es : List Expr) :
    Retains (analyzeAll cfg access es) fun es' later =>
      Remains cfg later (es.flatMap Expr.nodes) (es'.flatMap Expr.nodes) ∧
        ∃ declared, declared <:+ later ∧ List.Forall₂ (Expr.Replaces (settled cfg declared)) es es' :=
  .of_keeps (fun _ => keeps_becomesAll hcfg access es) fun declared _ _ h hlater =>
    ⟨.of_becomes_all h hlater, declared, hlater, h.imp fun _ _ hnode => hnode.leaves.replaces⟩

end Expressions

variable (cfg) in
/-- What is kept of an expression is its node or a literal. -/
theorem retains_keep (before : List Node) (ev : Evaluation) :
    Retains (keep ev) fun node later =>
      Remains cfg later before ev.node.nodes → Remains cfg later before node.nodes := by
  refine fun s _ => .transform ⟨.of_same rfl rfl, fun later _ h => ?_⟩
  cases ev with
  | residual node => exact h
  | value v node =>
    cases node with
    | literal => exact h
    | _ => exact .literal

/-! ## Statements -/

variable (cfg) in
/-- A computation leaves a statement in the place of nodes. -/
def RetainsStmt (before : List Node) (x : Analyze Stmt) : Prop :=
  Retains x fun y later => Remains cfg later before y.nodes

theorem retains_emptyStmt {before : List Node} (span : Span) (kind : EmptyKind) :
    RetainsStmt cfg before (emptyStmt span kind) :=
  fun _ _ => .transform ⟨.of_same rfl rfl, fun _ _ => .empty⟩

section Rules

variable (hcfg : cfg.registry = .standard)
include hcfg

theorem retains_byStmtRule {y : Stmt} {analyzed : Home StmtKind → Analyze Stmt}
    (h : ∀ home, RetainsStmt cfg y.nodes (analyzed home)) :
    RetainsStmt cfg y.nodes (byStmtRule cfg y analyzed) := by
  intro s hs
  have htable : Ends (onTable (RuleTable.stmt cfg.registry y.kind y.id)) s
      (fun handle t => (t.table.Regular ∧ t.constants = s.constants) ∧ handle.rule = y.kind)
      fun _ => False := by
    rw [hcfg]
    refine .intro (fun handle t hrun => ?_) fun f t hrun => ?_
    · obtain ⟨hcalm, rfl⟩ := (ends_onTable hs (RuleTable.ends_stmt s.table y.kind y.id)).of_ok hrun
      refine ⟨⟨hcalm.table hs, ?_⟩, rfl⟩
      exact congrArg (fun r => r.2.constants) hrun.symm
    · exact (ends_onTable hs (RuleTable.ends_stmt s.table y.kind y.id)).of_error hrun
  refine htable.bind ?_
  rintro handle t ⟨⟨htable, hconstants⟩, hrule⟩
  rw [if_pos hrule]
  refine (h handle.home t htable).mono ?_
  rintro z u ⟨htu, hz⟩
  exact ⟨⟨fun _ => htu.table htable, hconstants ▸ htu.constants⟩, hz⟩

/-- A statement is left out, or handled by its rule. -/
theorem retains_ifAlive {y : Stmt} {analyzed : Home StmtKind → Analyze Stmt}
    (h : ∀ home, RetainsStmt cfg y.nodes (analyzed home)) :
    RetainsStmt cfg y.nodes (ifAlive cfg y analyzed) := by
  unfold ifAlive
  split
  · exact Retains.andThen (.update fun _ => .of_same rfl rfl) fun _ => retains_byStmtRule hcfg h
  · refine (Retains.peek _).andThen fun dead => ?_
    split
    · exact (Retains.update (Later.reportUnreachable _ _)).andThen fun _ => retains_emptyStmt _ _
    · exact retains_byStmtRule hcfg h

theorem retains_analyzeJump (tag : StmtTag) (kind : JumpKind) (expr : Option Expr) :
    RetainsStmt cfg (Stmt.jump tag kind expr).nodes (analyzeJump cfg tag kind expr) := by
  refine (Retains.peek _).andThen fun returnsRef => ?_
  have hrest : ∀ expr', Retains (do
      if kind ≠ .return then Pass.update (checkLevel expr' tag.span)
      Pass.update State.enterUnreachable
      return Stmt.jump tag kind expr') fun y _ => y = .jump tag kind expr' := by
    intro expr'
    have hend : Retains (do
        Pass.update State.enterUnreachable
        return Stmt.jump tag kind expr') fun y _ => y = .jump tag kind expr' :=
      (Retains.update Later.enterUnreachable).andThen fun _ => .pure fun _ => rfl
    split
    · exact (Retains.update (Later.checkLevel _ _)).andThen fun _ => hend
    · exact hend
  cases expr with
  | none =>
    refine (hrest none).mono ?_
    rintro _ later rfl
    exact Remains.nil.stmt rfl nofun rfl
  | some e =>
    refine (retains_kept hcfg e _).bind fun node => (hrest (some node)).mono ?_
    rintro _ later rfl h
    exact (h.append .nil).stmt rfl nofun rfl

theorem retains_analyzeExpression (tag : StmtTag) (e : Expr) :
    RetainsStmt cfg (Stmt.expression tag e).nodes (analyzeExpression cfg tag e) := by
  refine (retains_analyze hcfg e .none).bind fun ev => ?_
  cases ev with
  | value v node => exact (retains_emptyStmt _ _).mono fun _ _ h _ => h
  | residual node => exact .pure fun _ h => h.stmt rfl nofun rfl

theorem retains_analyzeConstDecl (tag : StmtTag) (name : String) (value : Expr) :
    RetainsStmt cfg (Stmt.constDecl tag name value).nodes (analyzeConstDecl cfg tag name value) := by
  refine (retains_analyze hcfg value .read).bind fun ev => ?_
  have hrest : Retains (do return Stmt.constDecl tag name (← keep ev)) fun y later =>
      Remains cfg later value.nodes ev.node.nodes →
        Remains cfg later (Stmt.constDecl tag name value).nodes y.nodes :=
    (retains_keep cfg value.nodes ev).bind fun node => .pure fun _ h hev => (h hev).stmt rfl nofun rfl
  split
  · exact (Retains.transform (Later.declareConstant _ _ _)).andThen fun _ => hrest
  · exact hrest

end Rules

theorem retains_analyzeLabel (tag : StmtTag) (name : String) (home : Home StmtKind) :
    RetainsStmt cfg (Stmt.label tag name).nodes (analyzeLabel tag name home) := by
  have hlabel : RetainsStmt cfg (Stmt.label tag name).nodes (Pure.pure (Stmt.label tag name)) :=
    .pure fun _ => Remains.nil.stmt rfl nofun rfl
  refine (Retains.transform (Later.defineLabel name tag.span)).andThen fun cell => ?_
  cases cell with
  | none => exact hlabel
  | some cell => exact Retains.andThen (.update fun _ => .of_same rfl rfl) fun _ => hlabel

/-! ## The induction -/

mutual

/-- What is left of a statement comes from its nodes. -/
theorem retains_analyzeStmt (hcfg : cfg.registry = .standard) :
    ∀ y : Stmt, RetainsStmt cfg y.nodes (analyzeStmt cfg y)
  | .expression tag e => by
    rw [analyzeStmt]
    exact retains_ifAlive hcfg fun _ => retains_analyzeExpression hcfg tag e
  | .echo tag es => by
    rw [analyzeStmt]
    refine retains_ifAlive hcfg fun _ => ?_
    exact (retains_analyzeAll hcfg .read es).bind fun es' => .pure fun _ h => h.1.stmt rfl nofun rfl
  | .block tag body => by
    rw [analyzeStmt]
    refine retains_ifAlive hcfg fun _ => ?_
    exact (retains_analyzeStmts hcfg body).bind fun body' => .pure fun _ h => h.stmt rfl nofun rfl
  | .branch tag condition thenBody elseBody => by
    rw [analyzeStmt]
    have hthen := retains_analyzeStmts hcfg thenBody
    have helse := retains_analyzeOptional hcfg elseBody
    refine retains_ifAlive hcfg fun _ => ?_
    refine (retains_analyze hcfg condition .read).bind fun c => ?_
    dsimp only
    split
    · refine helse.asDead.andThen fun _ => hthen.bind fun body' => .pure fun _ h _ => ?_
      exact (h.drop ((List.sublist_append_right _ _).trans (List.sublist_append_left _ _))).stmt rfl nofun rfl
    · refine hthen.asDead.andThen fun _ => helse.bind fun elseBody' => ?_
      cases elseBody' with
      | some body' => exact .pure fun _ h _ => (h.drop (List.sublist_append_right _ _)).stmt rfl nofun rfl
      | none => exact (retains_emptyStmt _ _).mono fun _ _ h _ _ => h
    · refine (retains_keep cfg condition.nodes c).bind fun condition' => ?_
      refine (Retains.peek _).andThen fun entry => ?_
      refine hthen.inConditional.attempt fun thenBody' => ?_
      refine (retains_analyzeElse hcfg entry elseBody).bind fun elseBody' => ?_
      exact .pure fun _ helse' hthen' hcondition hc =>
        (((hcondition hc).append hthen').append helse').stmt rfl nofun rfl
  | .loop tag condition body => by
    rw [analyzeStmt]
    have hbody := retains_analyzeStmts hcfg body
    refine retains_ifAlive hcfg fun _ => ?_
    refine (retains_analyze hcfg condition .read).bind fun c => ?_
    split
    · exact hbody.asDead.inLoop.andThen fun _ => (retains_emptyStmt _ _).mono fun _ _ h _ => h
    · refine (retains_keep cfg condition.nodes c).bind fun condition' => hbody.inLoop.bind fun body' => ?_
      exact .pure fun _ h hcondition hc => ((hcondition hc).append h).stmt rfl nofun rfl
  | .jump tag kind expr => by
    rw [analyzeStmt]
    exact retains_ifAlive hcfg fun _ => retains_analyzeJump hcfg tag kind expr
  | .goto tag label => by
    rw [analyzeStmt]
    refine retains_ifAlive hcfg fun _ => ?_
    refine (Retains.update (Later.gotoLabel _ _)).andThen fun _ => ?_
    exact (Retains.update Later.enterUnreachable).andThen fun _ =>
      .pure fun _ => Remains.nil.stmt rfl (fun _ => rfl) rfl
  | .label tag name => by
    rw [analyzeStmt]
    exact retains_ifAlive hcfg (retains_analyzeLabel tag name)
  | .tryCatch tag body catches cleanup => by
    rw [analyzeStmt]
    refine retains_ifAlive hcfg fun _ => ?_
    refine (retains_analyzeStmts hcfg body).inConditional.bind fun body' => ?_
    refine (retains_analyzeCatches hcfg catches).bind fun catches' => ?_
    refine (retains_analyzeOptional hcfg cleanup).bind fun cleanup' => ?_
    exact .pure fun _ hcleanup hcatches hbody => ((hbody.append hcatches).append hcleanup).stmt rfl nofun rfl
  | .throw tag e => by
    rw [analyzeStmt]
    refine retains_ifAlive hcfg fun _ => ?_
    refine (retains_kept hcfg e .read).bind fun node => ?_
    exact (Retains.update Later.enterUnreachable).andThen fun _ => .pure fun _ h => h.stmt rfl nofun rfl
  | .unset tag targets => by
    rw [analyzeStmt]
    refine retains_ifAlive hcfg fun _ => ?_
    exact (retains_analyzeAll hcfg .write targets).bind fun es' => .pure fun _ h => h.1.unset h.2
  | .constDecl tag name value => by
    rw [analyzeStmt]
    exact retains_ifAlive hcfg fun _ => retains_analyzeConstDecl hcfg tag name value
  | .function tag head body dead => by
    rw [analyzeStmt]
    refine retains_ifAlive hcfg fun _ => ?_
    refine (Retains.peek _).andThen fun dead' => ?_
    refine Retains.andThen (.update fun _ => .of_same rfl rfl) fun _ => ?_
    refine ((retains_analyzeStmts hcfg body).ensuring Later.leaveRoutine).bind fun body' => ?_
    exact .pure fun _ h => h.stmt rfl nofun rfl
  | .empty tag kind => by
    rw [analyzeStmt]
    exact retains_ifAlive hcfg fun _ => .pure fun _ => .empty
termination_by structural y => y

/-- **What is left of statements comes from their nodes.** -/
theorem retains_analyzeStmts (hcfg : cfg.registry = .standard) :
    ∀ ys : List Stmt, Retains (analyzeStmts cfg ys) fun ys' later =>
      Remains cfg later (Stmt.nodesOf ys) (Stmt.nodesOf ys')
  | [] => by
    rw [analyzeStmts]
    exact .pure fun _ => .nil
  | y :: rest => by
    rw [analyzeStmts]
    refine Retains.bind (retains_analyzeStmt hcfg y) fun y' => ?_
    refine (retains_analyzeStmts hcfg rest).bind fun rest' => ?_
    exact .pure fun _ hrest hy => hy.append hrest
termination_by structural ys => ys

theorem retains_analyzeOptional (hcfg : cfg.registry = .standard) :
    ∀ body : Option (List Stmt), Retains (analyzeOptional cfg body) fun body' later =>
      Remains cfg later (Stmt.nodesOfOptional body) (Stmt.nodesOfOptional body')
  | none => by
    rw [analyzeOptional]
    exact .pure fun _ => .nil
  | some body => by
    rw [analyzeOptional]
    exact (retains_analyzeStmts hcfg body).bind fun body' => .pure fun _ h => h
termination_by structural body => body

theorem retains_analyzeElse (hcfg : cfg.registry = .standard) (entry : Reachability) :
    ∀ body : Option (List Stmt), Retains (analyzeElse cfg entry body) fun body' later =>
      Remains cfg later (Stmt.nodesOfOptional body) (Stmt.nodesOfOptional body')
  | none => by
    rw [analyzeElse]
    exact .pure fun _ => .nil
  | some body => by
    rw [analyzeElse]
    refine Retains.andThen (.update fun _ => .of_same rfl rfl) fun _ => ?_
    exact (retains_analyzeStmts hcfg body).inConditional.bind fun body' => .pure fun _ h => h
termination_by structural body => body

theorem retains_analyzeCatches (hcfg : cfg.registry = .standard) :
    ∀ catches : List Catch, Retains (analyzeCatches cfg catches) fun catches' later =>
      Remains cfg later (Stmt.nodesOfCatches catches) (Stmt.nodesOfCatches catches')
  | [] => by
    rw [analyzeCatches]
    exact .pure fun _ => .nil
  | .clause span type var body resolved :: rest => by
    rw [analyzeCatches]
    refine (Retains.transform (Later.resolveType type span)).andThen fun resolved' => ?_
    refine (retains_analyzeStmts hcfg body).inConditional.bind fun body' => ?_
    refine (retains_analyzeCatches hcfg rest).bind fun rest' => ?_
    exact .pure fun _ hrest hbody => hbody.append hrest
termination_by structural catches => catches

end

end Analysis
end PhpLowering
