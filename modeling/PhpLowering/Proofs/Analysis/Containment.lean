import PhpLowering.Proofs.Analysis.Frame
import PhpLowering.Proofs.Analysis.Labels

/-!
# What the analysis of a statement leaves as it was

The analysis goes into loops, conditionals and routines and leaves them again, also when it fails in
between.  `Contained s t` says that the state `t` can come after `s` in this way: as many loops and
conditionals are around as before, and the same routines with the same labels.  A label cell that is not
among those of the current routine stays as it is.

It holds around the analysis of every statement (`contained_analyzeStmt`), with any registry and from any
state.  A function declaration gets back even what else it found in front of it, as it brackets its body
with a routine of its own (`analyzeStmt_function_eq`, `analyzeStmt_balanced`).
-/

namespace PhpLowering
namespace Analysis

set_option synthInstance.maxSize 100000

variable {α β : Type} {s t : State} {x y : Analyze α}

/-- A cell that belongs to no label of the current routine. -/
def State.Foreign (s : State) (cell : Nat) : Prop :=
  cell < s.memory.referenced.size ∧ ∀ p ∈ s.scope.labels, p.2.cell ≠ cell

/-- What lies around the current place is as it was, and so are the labels of other routines. -/
structure Contained (s t : State) : Prop where
  loops : t.flow.loops = s.flow.loops
  conditionals : t.flow.conditionals = s.flow.conditionals
  enclosing : t.enclosing = s.enclosing
  size : s.memory.referenced.size ≤ t.memory.referenced.size
  labels : ∀ {home : Home StmtKind} {cell : Nat}, s.memory.labels[home]? = some cell →
    t.memory.labels[home]? = some cell
  foreign : ∀ cell, s.Foreign cell →
    t.Foreign cell ∧ t.memory.referenced[cell]? = s.memory.referenced[cell]?

namespace Contained

theorem trans {u : State} (h : Contained s t) (h' : Contained t u) : Contained s u where
  loops := h'.loops.trans h.loops
  conditionals := h'.conditionals.trans h.conditionals
  enclosing := h'.enclosing.trans h.enclosing
  size := Nat.le_trans h.size h'.size
  labels hc := h'.labels (h.labels hc)
  foreign cell hc := by
    obtain ⟨ht, heq⟩ := h.foreign cell hc
    obtain ⟨hu, heq'⟩ := h'.foreign cell ht
    exact ⟨hu, heq'.trans heq⟩

/-- Steps that have nothing to do with labels. -/
theorem of_eq (hloops : t.flow.loops = s.flow.loops) (hconditionals : t.flow.conditionals = s.flow.conditionals)
    (hscope : t.scope = s.scope) (henclosing : t.enclosing = s.enclosing)
    (hlabels : t.memory.labels = s.memory.labels) (hreferenced : t.memory.referenced = s.memory.referenced) :
    Contained s t where
  loops := hloops
  conditionals := hconditionals
  enclosing := henclosing
  size := Nat.le_of_eq (by rw [hreferenced])
  labels hc := by rwa [hlabels]
  foreign cell hc := by
    unfold State.Foreign at hc ⊢
    rw [hscope, hreferenced]
    exact ⟨hc, rfl⟩

end Contained

instance frame_contained : Frame Contained where
  refl _ := .of_eq rfl rfl rfl rfl rfl rfl
  trans _ _ _ := .trans
  alike h := .of_eq (by rw [h.flow]) (by rw [h.flow]) h.scope h.enclosing h.labels h.referenced
  warn _ _ _ _ := .of_eq rfl rfl rfl rfl rfl rfl
  conditional {s t} h :=
    { h with
      conditionals := by
        have hlevel : t.flow.conditionals = s.flow.conditionals + 1 := h.conditionals
        exact Nat.sub_eq_of_eq_add hlevel }

/-! ## Labels -/

theorem mem_putLabel {name : String} {entry : LabelEntry} {labels : List (String × LabelEntry)}
    {p : String × LabelEntry} (h : p ∈ State.putLabel name entry labels) : p = (name, entry) ∨ p ∈ labels := by
  induction labels with
  | nil => exact Or.inl (List.mem_singleton.mp h)
  | cons q rest ih =>
    obtain ⟨n, e⟩ := q
    unfold State.putLabel at h
    split at h
    · rename_i heq
      rcases List.mem_cons.mp h with rfl | h
      · exact Or.inl (by rw [heq])
      · exact Or.inr (List.mem_cons_of_mem _ h)
    · rcases List.mem_cons.mp h with rfl | h
      · exact Or.inr List.mem_cons_self
      · exact (ih h).imp_right (List.mem_cons_of_mem _)

theorem mem_of_lookup {name : String} {entry : LabelEntry} {labels : List (String × LabelEntry)}
    (h : labels.lookup name = some entry) : (name, entry) ∈ labels := by
  obtain ⟨before, after, heq, -⟩ := List.lookup_eq_some_iff.mp h
  rw [heq]
  exact List.mem_append_right _ List.mem_cons_self

theorem mem_putLabel_self (name : String) (entry : LabelEntry) (labels : List (String × LabelEntry)) :
    (name, entry) ∈ State.putLabel name entry labels := by
  induction labels with
  | nil => exact List.mem_singleton_self _
  | cons q rest ih =>
    unfold State.putLabel
    split
    · rename_i heq
      rw [heq]
      exact List.mem_cons_self
    · exact List.mem_cons_of_mem _ ih

/-- An entry is found or made, and a cell that is made is a new one. -/
theorem contained_labelEntry (name : String) (firstGoto : Option Span) (s : State) :
    Contained s (s.labelEntry name firstGoto).2 ∧
      (name, (s.labelEntry name firstGoto).1) ∈ (s.labelEntry name firstGoto).2.scope.labels := by
  unfold State.labelEntry
  split
  · rename_i entry hlookup
    exact ⟨refl_of Contained s, mem_of_lookup hlookup⟩
  · refine ⟨?_, mem_putLabel_self ..⟩
    refine
      { loops := rfl, conditionals := rfl, enclosing := rfl, labels := id
        size := by simp [RuleMemory.newCell], foreign := fun cell hc => ?_ }
    obtain ⟨hsize, hforeign⟩ := hc
    refine ⟨⟨?_, fun p hp => ?_⟩, Array.getElem?_push_lt hsize ▸ (Array.getElem?_eq_getElem hsize).symm⟩
    · exact Nat.lt_of_lt_of_eq (Nat.lt_succ_of_lt hsize) (Array.size_push false).symm
    · rcases mem_putLabel hp with rfl | hp
      · exact Nat.ne_of_gt hsize
      · exact hforeign p hp

/-- A `goto` sets a cell of its own routine. -/
theorem contained_gotoLabel (name : String) (span : Span) (s : State) : Contained s (s.gotoLabel name span) := by
  obtain ⟨hentry, hmem⟩ := contained_labelEntry name (some span) s
  refine hentry.trans
    { loops := rfl, conditionals := rfl, enclosing := rfl, labels := id, size := ?_, foreign := fun cell hc => ?_ }
  · exact Nat.le_of_eq Array.size_setIfInBounds.symm
  · obtain ⟨hsize, hforeign⟩ := hc
    refine ⟨⟨Nat.lt_of_lt_of_eq hsize Array.size_setIfInBounds.symm, hforeign⟩, ?_⟩
    exact Array.getElem?_setIfInBounds_ne (hforeign _ hmem)

/-- The definition of a label keeps its cell. -/
theorem contained_defineLabel (name : String) (span : Span) (s : State) :
    Contained s (s.defineLabel name span).2 := by
  obtain ⟨hentry, hmem⟩ := contained_labelEntry name none s
  unfold State.defineLabel
  dsimp only
  split
  · exact hentry.trans (.of_eq rfl rfl rfl rfl rfl rfl)
  · refine hentry.trans
      { loops := rfl, conditionals := rfl, enclosing := rfl, labels := id, size := Nat.le_refl _
        foreign := fun cell hc => ⟨⟨hc.1, fun p hp => ?_⟩, rfl⟩ }
    rcases mem_putLabel hp with rfl | hp
    · have hcell := hc.2 _ hmem
      exact hcell
    · exact hc.2 p hp

/-- A label rule that has a cell keeps it. -/
theorem contained_setLabel (home : Home StmtKind) (cell : Nat) (s : State) :
    Contained s { s with memory := s.memory.setLabel home cell } where
  loops := rfl
  conditionals := rfl
  enclosing := rfl
  size := Nat.le_refl _
  labels := (RuleMemory.extends_setLabel s.memory home cell).cells
  foreign _ hc := ⟨hc, rfl⟩

/-! ## Routines -/

/-- The end of a routine only brings problems to light. -/
theorem exists_reportUndefined_eq (s : State) :
    ∃ diagnostics, s.reportUndefined = { s with diagnostics } := by
  unfold State.reportUndefined
  generalize s.scope.labels = labels
  induction labels generalizing s with
  | nil => exact ⟨_, rfl⟩
  | cons p rest ih =>
    rw [List.foldl_cons]
    dsimp only
    split
    · exact ih _
    · exact ih s

/-- Where a routine ends the routines around it are those around its beginning. -/
theorem leaveRoutine_of_enclosing {returnsRef : Bool}
    (h : t.enclosing = (s.enterRoutine returnsRef).enclosing) :
    t.leaveRoutine = { t.reportUndefined with scope := s.scope, flow := s.flow, enclosing := s.enclosing } := by
  simp only [State.leaveRoutine, h, State.enterRoutine]

/-- What is around a routine comes back at its end. -/
theorem leaveRoutine_eq {returnsRef : Bool} (h : Contained (s.enterRoutine returnsRef) t) :
    ∃ diagnostics, t.leaveRoutine =
      { t with diagnostics, scope := s.scope, flow := s.flow, enclosing := s.enclosing } := by
  obtain ⟨diagnostics, hreport⟩ := exists_reportUndefined_eq t
  refine ⟨diagnostics, ?_⟩
  rw [leaveRoutine_of_enclosing h.enclosing, hreport]

/-- In front of a routine every cell belongs to another one. -/
theorem getElem?_of_enterRoutine {returnsRef : Bool} (h : Contained (s.enterRoutine returnsRef) t)
    {cell : Nat} (hcell : cell < s.memory.referenced.size) :
    t.memory.referenced[cell]? = s.memory.referenced[cell]? :=
  (h.foreign cell ⟨hcell, fun _ hp => nomatch hp⟩).2

theorem contained_routine {returnsRef : Bool} (h : Contained (s.enterRoutine returnsRef) t) :
    Contained s t.leaveRoutine := by
  obtain ⟨diagnostics, hleave⟩ := leaveRoutine_eq h
  rw [hleave]
  exact
    { loops := rfl, conditionals := rfl, enclosing := rfl, size := h.size, labels := h.labels
      foreign := fun cell hc =>
        ⟨⟨Nat.lt_of_lt_of_le hc.1 h.size, hc.2⟩, getElem?_of_enterRoutine h hc.1⟩ }

/-! ## Statements -/

variable (cfg : Setting)

theorem contained_restore (r : Reachability) (s : State) : Contained s (s.restore r) :=
  .of_eq rfl rfl rfl rfl rfl rfl

instance relates_restore (r : Reachability) : Relates Contained (Pass.update (State.restore r)) :=
  relates_update (contained_restore r)

instance relates_enterUnreachable : Relates Contained (Pass.update State.enterUnreachable) := by
  refine relates_update fun s => ?_
  unfold State.enterUnreachable
  split
  · exact refl_of Contained s
  · exact contained_restore _ s

instance relates_emptyStmt (span : Span) (kind : EmptyKind) : Relates Contained (emptyStmt span kind) :=
  relates_transform fun _ => .of_eq rfl rfl rfl rfl rfl rfl

instance relates_byStmtRule {node : Stmt} {analyzed : Home StmtKind → Analyze Stmt}
    [∀ home, Relates Contained (analyzed home)] : Relates Contained (byStmtRule cfg node analyzed) := by
  unfold byStmtRule
  infer_instance

theorem relates_ifAlive {node : Stmt} {analyzed : Home StmtKind → Analyze Stmt}
    (h : ∀ home, Relates Contained (analyzed home)) : Relates Contained (ifAlive cfg node analyzed) := by
  have hleave : Relates Contained (Pass.update State.leaveUnreachable) :=
    relates_update fun s => contained_restore _ s
  have hreport : Relates Contained (Pass.update (State.reportUnreachable cfg.options node.span)) := by
    refine relates_update fun s => ?_
    unfold State.reportUnreachable
    dsimp only
    split
    · exact refl_of Contained s
    · split <;> exact .of_eq rfl rfl rfl rfl rfl rfl
  unfold ifAlive
  infer_instance

instance relates_asDead [h : Relates Contained x] : Relates Contained (asDead x) := by
  have henter : Relates Contained (Pass.update State.enterDead) :=
    relates_update fun s => contained_restore _ s
  have hrestore (saved) : Relates Contained (x.ensuring (State.restore saved)) :=
    h.ensuring (contained_restore saved)
  unfold asDead
  infer_instance

instance relates_inLoop [h : Relates Contained x] : Relates Contained (inLoop x) := by
  refine h.within fun {s t} h => ?_
  have hloops : t.flow.loops = s.flow.loops + 1 := h.loops
  have hlevel : t.flow.conditionals = s.flow.conditionals + 1 := h.conditionals
  exact { h with loops := Nat.sub_eq_of_eq_add hloops, conditionals := Nat.sub_eq_of_eq_add hlevel }

instance relates_inRoutine (returnsRef : Bool) [h : Relates Contained x] :
    Relates Contained (do Pass.update (State.enterRoutine returnsRef); x.ensuring State.leaveRoutine) :=
  h.within contained_routine

theorem relates_analyzeJump (tag : StmtTag) (kind : JumpKind) (expr : Option Expr) :
    Relates Contained (analyzeJump cfg tag kind expr) := by
  have hcheck (level) : Relates Contained (Pass.update (checkLevel level tag.span)) := by
    refine relates_update fun s => ?_
    unfold checkLevel
    dsimp only
    split <;> split
    all_goals exact .of_eq rfl rfl rfl rfl rfl rfl
  unfold analyzeJump
  refine Relates.bind inferInstance fun returnsRef => ?_
  cases expr with
  | none => infer_instance
  | some e =>
    have he := relates_analyze (R := Contained) cfg e
    dsimp only
    infer_instance

theorem relates_analyzeLabel (tag : StmtTag) (name : String) (home : Home StmtKind) :
    Relates Contained (analyzeLabel tag name home) := by
  have hset (cell) : Relates Contained (Pass.update fun s => { s with memory := s.memory.setLabel home cell }) :=
    relates_update (contained_setLabel home cell)
  unfold analyzeLabel
  refine Relates.bind (relates_transform (contained_defineLabel name tag.span)) fun cell => ?_
  cases cell <;> dsimp only <;> infer_instance

theorem relates_analyzeExpression (tag : StmtTag) (e : Expr) :
    Relates Contained (analyzeExpression cfg tag e) := by
  unfold analyzeExpression
  refine (relates_analyze cfg e .none).bind fun ev => ?_
  cases ev <;> dsimp only <;> infer_instance

theorem relates_analyzeConstDecl (tag : StmtTag) (name : String) (value : Expr) :
    Relates Contained (analyzeConstDecl cfg tag name value) := by
  have hdeclare (v) : Relates Contained (Pass.transform (State.declareConstant cfg name v tag.span)) := by
    refine relates_transform fun s => ?_
    unfold State.declareConstant
    split <;> exact .of_eq rfl rfl rfl rfl rfl rfl
  unfold analyzeConstDecl
  refine (relates_analyze cfg value .read).bind fun ev => ?_
  cases ev.value? <;> dsimp only <;> infer_instance

mutual

/-- **What is around a statement is behind its analysis as it was in front of it.** -/
theorem contained_analyzeStmt : ∀ x : Stmt, Relates Contained (analyzeStmt cfg x)
  | .expression tag e => by
    rw [analyzeStmt]
    exact relates_ifAlive cfg fun _ => relates_analyzeExpression cfg tag e
  | .echo .. | .unset .. | .empty .. => by
    rw [analyzeStmt]
    exact relates_ifAlive cfg fun _ => inferInstance
  | .block tag body => by
    have hbody := contained_analyzeStmts body
    rw [analyzeStmt]
    exact relates_ifAlive cfg fun _ => inferInstance
  | .branch tag condition thenBody elseBody => by
    have hcondition := relates_analyze (R := Contained) cfg condition
    have hthen := contained_analyzeStmts thenBody
    have hoptional := contained_analyzeOptional elseBody
    have helse := fun entry => contained_analyzeElse entry elseBody
    rw [analyzeStmt]
    refine relates_ifAlive cfg fun _ => Relates.bind inferInstance fun c => ?_
    dsimp only
    generalize (if Stmt.anyEntry thenBody || Stmt.optionalEntry elseBody then none else decided? cfg c) = decided
    rcases decided with _ | _ | _ <;> dsimp only
    · infer_instance
    · refine Relates.bind inferInstance fun _ => Relates.bind inferInstance fun out => ?_
      cases out <;> dsimp only <;> infer_instance
    · infer_instance
  | .loop tag condition body => by
    have hcondition := relates_analyze (R := Contained) cfg condition
    have hbody := contained_analyzeStmts body
    rw [analyzeStmt]
    exact relates_ifAlive cfg fun _ => inferInstance
  | .jump tag kind expr => by
    rw [analyzeStmt]
    exact relates_ifAlive cfg fun _ => relates_analyzeJump cfg tag kind expr
  | .goto tag label => by
    have hgoto : Relates Contained (Pass.update (State.gotoLabel label tag.span)) :=
      relates_update (contained_gotoLabel label tag.span)
    rw [analyzeStmt]
    exact relates_ifAlive cfg fun _ => inferInstance
  | .label tag name => by
    rw [analyzeStmt]
    exact relates_ifAlive cfg fun home => relates_analyzeLabel tag name home
  | .tryCatch tag body catches cleanup => by
    have hbody := contained_analyzeStmts body
    have hcatches := contained_analyzeCatches catches
    have hcleanup := contained_analyzeOptional cleanup
    rw [analyzeStmt]
    exact relates_ifAlive cfg fun _ => inferInstance
  | .throw tag e => by
    have he := relates_analyze (R := Contained) cfg e
    rw [analyzeStmt]
    exact relates_ifAlive cfg fun _ => inferInstance
  | .constDecl tag name value => by
    rw [analyzeStmt]
    exact relates_ifAlive cfg fun _ => relates_analyzeConstDecl cfg tag name value
  | .function tag head body dead => by
    have hbody := contained_analyzeStmts body
    rw [analyzeStmt]
    refine relates_ifAlive cfg fun _ => Relates.bind inferInstance fun dead' => ?_
    have hroutine := (relates_inRoutine head.byRef (x := analyzeStmts cfg body)).bind
      fun body' => relates_pure (R := Contained) (Stmt.function tag head body' dead')
    rwa [bind_assoc] at hroutine
termination_by structural x => x

theorem contained_analyzeStmts : ∀ body : List Stmt, Relates Contained (analyzeStmts cfg body)
  | [] => relates_pure []
  | x :: rest => by
    have hx := contained_analyzeStmt x
    have hrest := contained_analyzeStmts rest
    rw [analyzeStmts]
    infer_instance
termination_by structural body => body

theorem contained_analyzeOptional : ∀ part : Option (List Stmt), Relates Contained (analyzeOptional cfg part)
  | none => relates_pure none
  | some body => by
    have hbody := contained_analyzeStmts body
    rw [analyzeOptional]
    infer_instance
termination_by structural part => part

theorem contained_analyzeElse (entry : Reachability) : ∀ part : Option (List Stmt),
    Relates Contained (analyzeElse cfg entry part)
  | none => relates_pure none
  | some body => by
    have hbody := contained_analyzeStmts body
    rw [analyzeElse]
    infer_instance
termination_by structural part => part

theorem contained_analyzeCatches : ∀ catches : List Catch, Relates Contained (analyzeCatches cfg catches)
  | [] => relates_pure []
  | .clause span type var body resolved :: rest => by
    have hresolve : Relates Contained (Pass.transform (State.resolveType cfg type span)) := by
      refine relates_transform fun s => ?_
      unfold State.resolveType
      split <;> exact .of_eq rfl rfl rfl rfl rfl rfl
    have hbody := contained_analyzeStmts body
    have hrest := contained_analyzeCatches rest
    rw [analyzeCatches]
    infer_instance
termination_by structural catches => catches

end

/-! ## Functions -/

/-- Nothing is changed but the numbers given out, the rules, the constants and the problems, and no cell
that was there is touched. -/
structure Aside (s t : State) : Prop extends Contained s t where
  scope : t.scope = s.scope
  flow : t.flow = s.flow
  referenced : ∀ cell < s.memory.referenced.size, t.memory.referenced[cell]? = s.memory.referenced[cell]?

instance : IsPreorder State Aside where
  refl s := { refl_of Contained s with scope := rfl, flow := rfl, referenced := fun _ _ => rfl }
  trans _ _ _ h h' :=
    { h.toContained.trans h'.toContained with
      scope := h'.scope.trans h.scope
      flow := h'.flow.trans h.flow
      referenced := fun cell hcell =>
        (h'.referenced cell (Nat.lt_of_lt_of_le hcell h.size)).trans (h.referenced cell hcell) }

/-- A routine leaves everything around it as it was. -/
theorem aside_routine {returnsRef : Bool} (h : Contained (s.enterRoutine returnsRef) t) :
    Aside s t.leaveRoutine := by
  have hcontained := contained_routine h
  obtain ⟨diagnostics, hleave⟩ := leaveRoutine_eq h
  rw [hleave] at hcontained ⊢
  exact { hcontained with scope := rfl, flow := rfl, referenced := fun _ => getElem?_of_enterRoutine h }

/-- A declaration is never left out. -/
theorem analyzeStmt_function_eq (tag : StmtTag) (head : FunctionHead) (body : List Stmt) (dead : Bool) :
    analyzeStmt cfg (.function tag head body dead) =
      byStmtRule cfg (.function tag head body dead) fun _ => do
        let dead ← Pass.peek State.unreachable
        Pass.update (State.enterRoutine head.byRef)
        let body ← (analyzeStmts cfg body).ensuring State.leaveRoutine
        return .function tag head body dead := by
  funext s
  rw [analyzeStmt]
  simp [ifAlive, Stmt.isLabel, isElidable, Stmt.isDeclaration, Pass.bind_apply]

/-- Around a function declaration everything is as it was, in dead code too. -/
theorem aside_analyzeStmt_function (tag : StmtTag) (head : FunctionHead) (body : List Stmt) (dead : Bool) :
    Relates Aside (analyzeStmt cfg (.function tag head body dead)) := by
  have htable (q : Pass Fault RuleTable (Handle StmtKind)) : Relates Aside (onTable q) :=
    ⟨fun s => { (relates_onTable (R := Contained) q).run s with
      scope := rfl, flow := rfl, referenced := fun _ _ => rfl }⟩
  have hroutine : Relates Aside (do
      Pass.update (State.enterRoutine head.byRef); (analyzeStmts cfg body).ensuring State.leaveRoutine) :=
    ⟨fun s => aside_routine ((contained_analyzeStmts cfg body).run (s.enterRoutine head.byRef))⟩
  have hbody (dead') := hroutine.bind fun body' =>
    relates_pure (R := Aside) (Stmt.function tag head body' dead')
  simp only [bind_assoc] at hbody
  rw [analyzeStmt_function_eq, byStmtRule]
  infer_instance

theorem exists_eq_append {a b : Array Bool} (hsize : a.size ≤ b.size) (h : ∀ i < a.size, b[i]? = a[i]?) :
    ∃ more, b = a ++ more := by
  refine ⟨b.extract a.size, Array.ext_getElem? fun i => ?_⟩
  grind

/-- **The analysis of a statement is balanced.**  Whether it succeeds or fails, as many loops and
conditionals are around behind it as in front of it, and the same routines; and behind a function
declaration the reachability and the labels of all routines around it are what they were, down to the
cells that say which of them a `goto` goes to. -/
theorem analyzeStmt_balanced (s : State) :
    (∀ x : Stmt,
      (analyzeStmt cfg x s).2.flow.loops = s.flow.loops ∧
      (analyzeStmt cfg x s).2.flow.conditionals = s.flow.conditionals ∧
      (analyzeStmt cfg x s).2.enclosing = s.enclosing) ∧
    ∀ (tag : StmtTag) (head : FunctionHead) (body : List Stmt) (dead : Bool),
      ∃ nextId table memory diagnostics constants,
        (analyzeStmt cfg (.function tag head body dead) s).2 =
          { s with nextId, table, memory, diagnostics, constants } ∧
        ∃ more : Array Bool, memory.referenced = s.memory.referenced ++ more := by
  refine ⟨fun x => ?_, fun tag head body dead => ?_⟩
  · have h := (contained_analyzeStmt cfg x).run s
    exact ⟨h.loops, h.conditionals, h.enclosing⟩
  · have h := (aside_analyzeStmt_function cfg tag head body dead).run s
    generalize (analyzeStmt cfg (.function tag head body dead) s).2 = t at h
    refine ⟨t.nextId, t.table, t.memory, t.diagnostics, t.constants, ?_, ?_⟩
    · rw [← h.scope, ← h.flow, ← h.enclosing]
    · exact exists_eq_append h.size h.referenced

end Analysis
end PhpLowering
