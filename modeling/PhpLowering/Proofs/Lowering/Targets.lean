import PhpLowering.Lowering.Stmt
import PhpLowering.Proofs.Lowering.Rounds

/-!
# What is stored to is a location

The emission of a statement starts and ends outside of chains, so nothing is kept and all that the
statement contains is emitted in its first round.  Whatever is stored to or removed in it therefore
has been addressed, and only a location can be (`checks_lowerStmts`).

`Checks es x` says that the step `x` succeeds only if all of `es` are locations.  The steps in
between do not even look at the chains (`KeepsChains`).
-/

namespace PhpLowering
namespace Lowering

open Pass (Ends)

-- The instance for a function is a term with a node for every line of the function.
set_option synthInstance.maxSize 10000

variable {α β : Type} {s t : State Chunk} {cfg : Setting}

/-! ## Steps that leave the chains alone -/

/-- A step that leaves the chains alone. -/
class KeepsChains (x : Emit Chunk α) : Prop where
  ends : ∀ s, Ends x s (fun _ t => t.chains = s.chains) anyFailure

section KeepsChains

variable {x y : Emit Chunk α}

instance (priority := low) keepsChains_of_silent [h : Silent x] : KeepsChains x :=
  ⟨fun s => (h.ends s).mono fun _ _ ht => ht.1⟩

instance keepsChains_bind {f : α → Emit Chunk β} [hx : KeepsChains x] [hf : ∀ a, KeepsChains (f a)] :
    KeepsChains (x >>= f) :=
  ⟨fun s => (hx.ends s).bind fun a t ht => ((hf a).ends t).mono fun _ _ hu => hu.trans ht⟩

instance keepsChains_ite {c : Prop} [Decidable c] [hx : KeepsChains x] [hy : KeepsChains y] :
    KeepsChains (if c then x else y) := by
  split
  · exact hx
  · exact hy

instance keepsChains_toSink (call : Pass SinkError Chunk α) : KeepsChains (toSink call) := by
  refine ⟨fun s => .intro (fun a t hrun => ?_) fun _ _ _ => trivial⟩
  unfold toSink at hrun
  split at hrun
  · obtain rfl := (Prod.mk.inj hrun).2
    rfl
  · exact nomatch hrun

instance keepsChains_emit (i : Instruction) : KeepsChains (emit i : Emit Chunk Unit) :=
  keepsChains_toSink _

instance keepsChains_frame : KeepsChains (frame : Emit Chunk Frame) :=
  ⟨fun _ => .peek rfl⟩

instance keepsChains_updateFrame (f : Frame → Frame) : KeepsChains (updateFrame f : Emit Chunk Unit) :=
  ⟨fun _ => .update rfl⟩

instance keepsChains_jump (l : Label) (n : Nat) : KeepsChains (jump l n : Emit Chunk Unit) := by
  unfold jump
  infer_instance

instance keepsChains_leaveTo (kind : BranchKind) (l : Loop) :
    KeepsChains (leaveTo kind l : Emit Chunk Unit) := by
  unfold leaveTo
  infer_instance

instance keepsChains_staticBranch (kind : BranchKind) (level : Nat) :
    KeepsChains (staticBranch kind level : Emit Chunk Unit) := by
  refine ⟨fun s => .peek_bind ?_⟩
  dsimp only
  split
  · exact (keepsChains_leaveTo kind _).ends s
  · exact .fail trivial

instance keepsChains_tableEntries (kind : BranchKind) : ∀ entries : List (Label × Loop),
    KeepsChains (tableEntries kind entries : Emit Chunk Unit)
  | [] => ⟨fun _ => .pure rfl⟩
  | (label, l) :: rest => by
    have := keepsChains_tableEntries kind rest
    unfold tableEntries
    infer_instance

instance keepsChains_defineLabels : ∀ n : Nat, KeepsChains (defineLabels n : Emit Chunk (List Label))
  | 0 => ⟨fun _ => .pure rfl⟩
  | n + 1 => by
    have := keepsChains_defineLabels n
    unfold defineLabels
    infer_instance

instance keepsChains_returnJump : KeepsChains (returnJump : Emit Chunk Unit) := by
  have hslot : KeepsChains (returnSlot : Emit Chunk Temp) := by
    refine ⟨fun s => .peek_bind ?_⟩
    split
    · exact .pure rfl
    · exact (inferInstance : KeepsChains (do
        let t ← declareTemp
        updateFrame fun f => { f with returnTemp := some t }
        return t)).ends s
  have hlabel : KeepsChains (epilogue : Emit Chunk Label) := by
    refine ⟨fun s => .peek_bind ?_⟩
    split
    · exact .pure rfl
    · exact (inferInstance : KeepsChains (do
        let l ← defineLabel
        updateFrame fun f => { f with epilogue := some l }
        return l)).ends s
  unfold returnJump
  infer_instance

instance keepsChains_routineLabel (name : String) :
    KeepsChains (routineLabel name : Emit Chunk Label) := by
  refine ⟨fun s => .peek_bind ?_⟩
  split
  · exact .pure rfl
  · exact (inferInstance : KeepsChains (do
      let l ← defineLabel
      updateFrame fun f => { f with labels := (name, l) :: f.labels }
      return l)).ends s

instance keepsChains_labelCode (name : String) (home : Home StmtKind) :
    KeepsChains (labelCode name home : Emit Chunk Unit) := by
  unfold labelCode
  infer_instance

instance keepsChains_elseHead (otherwise : Label) : KeepsChains (elseHead otherwise : Emit Chunk Label) := by
  unfold elseHead
  infer_instance

instance keepsChains_routineEnd (returnsRef : Bool) :
    KeepsChains (routineEnd returnsRef : Emit Chunk Unit) := by
  have hreturn : ∀ f : Frame, KeepsChains (match f.epilogue, f.returnTemp with
      | some epilogue, some t => do
        emit (.storeTemp t)
        mark epilogue
        emit (.loadTemp t)
        returnTemp t
        emit .ret
      | _, _ => emit .ret : Emit Chunk Unit) := by
    intro f
    split <;> infer_instance
  unfold routineEnd
  dsimp only
  infer_instance

instance keepsChains_clauseHead (exception : Temp) (type : String) (var : Option String) :
    KeepsChains (clauseHead exception type var : Emit Chunk Label) := by
  unfold clauseHead
  cases var <;> infer_instance

instance keepsChains_handlersHead : KeepsChains (handlersHead : Emit Chunk Temp) := by
  unfold handlersHead
  infer_instance

end KeepsChains

/-! ## Steps that check for locations -/

/-- Outside of chains, a step succeeds only if all of these are locations. -/
def Checks (es : List Expr) (x : Emit Chunk α) : Prop :=
  ∀ s, s.chains = [] →
    Ends x s (fun _ t => t.chains = [] ∧ ∀ e ∈ es, e.isPlace = true) anyFailure

namespace Checks

variable {es es' : List Expr} {x : Emit Chunk α} {f : α → Emit Chunk β}

theorem mono (h : Checks es x) (hsub : es' ⊆ es) : Checks es' x :=
  fun s hs => (h s hs).mono fun _ _ ht => ⟨ht.1, fun e he => ht.2 e (hsub he)⟩

theorem none [h : KeepsChains x] : Checks [] x :=
  fun s hs => (h.ends s).mono fun _ _ ht => ⟨ht.trans hs, nofun⟩

theorem fail (e : CompileError) : Checks es (Pass.fail e : Emit Chunk α) :=
  fun _ _ => .fail trivial

theorem seq (hx : Checks es x) (hf : ∀ a, Checks es' (f a)) : Checks (es ++ es') (x >>= f) := by
  intro s hs
  refine (hx s hs).bind fun a t ht => ?_
  refine (hf a t ht.1).mono fun _ u hu => ⟨hu.1, ?_⟩
  exact List.forall_mem_append.mpr ⟨ht.2, hu.2⟩

theorem before [KeepsChains x] (hf : ∀ a, Checks es (f a)) : Checks es (x >>= f) :=
  Checks.none.seq hf

theorem behind (hx : Checks es x) [∀ a, KeepsChains (f a)] : Checks es (x >>= f) :=
  (hx.seq fun _ => .none).mono (List.subset_append_left _ _)

theorem thenFrame (hx : Checks es x) (g : Frame → Frame) : Checks es (thenFrame x g) :=
  fun s hs => .ensuring ((hx s hs).mono fun _ _ ht => ht)

end Checks

/-! ## Expressions -/

section Expressions

variable {e : Expr}

/-- An expression that is emitted outside of chains. -/
theorem checks_lower (he : e.numbers.Nodup) (use : Use) :
    Checks ((e.account .first).forUse e use).places (lower cfg e use) := by
  intro s hs
  have hkept : s.kept = [] := by
    unfold State.kept
    rw [hs]
  have hallows : ((e.account .first).forUse e use).Allows s := by
    refine ⟨fun i _ => by rw [hkept]; exact List.not_mem_nil, ?_⟩
    cases use <;> exact nofun
  refine (tells_lower cfg e .first he use s hallows).mono fun _ t ht => ⟨?_, ht.places⟩
  exact List.eq_nil_of_length_eq_zero (by rw [ht.depth, hs]; rfl)

theorem checks_value (he : e.numbers.Nodup) : Checks e.written (lower cfg e .value) :=
  checks_lower he .value

theorem checks_boxed (he : e.numbers.Nodup) : Checks e.written (boxed (lower cfg e)) :=
  (checks_value he).behind

theorem checks_converted (he : e.numbers.Nodup) (code : TypeCode) :
    Checks e.written (converted (lower cfg e) code) :=
  (checks_value he).behind

/-- A literal has nothing in it that could be stored to. -/
theorem written_of_value {v : Literal} (h : e.value? = some v) : e.written = [] := by
  cases e with
  | literal => rfl
  | _ => exact nomatch h

theorem checks_echoAll : ∀ {es : List Expr}, (Node.numbers (es.flatMap Expr.nodes)).Nodup →
    Checks (Node.written (es.flatMap Expr.nodes)) (echoAll cfg es)
  | [], _ => .none (x := pure ())
  | e :: rest, h => by
    rw [List.flatMap_cons, Node.numbers_append, Node.numbers_nodes, List.nodup_append'] at h
    rw [List.flatMap_cons, Node.written_append, Node.written_nodes]
    exact (checks_boxed h.1).seq fun _ => .before fun _ => checks_echoAll h.2.1

/-- Removing a location is done in a chain of its own. -/
theorem checks_unset (he : e.numbers.Nodup) :
    Checks (e :: e.written) (do
      beginChain true
      Pass.ensuring (lower cfg e .unset) State.endChain) := by
  intro s hs
  refine .update_bind (.ensuring ?_)
  refine (tells_lower cfg e .first he .unset _ ⟨fun _ _ => List.not_mem_nil (α := Nat), nofun⟩).mono ?_
  intro _ t ht
  refine ⟨?_, ht.places⟩
  obtain ⟨chain, chains, hchains⟩ : ∃ chain chains, t.chains = chain :: chains :=
    List.exists_cons_of_length_pos (by rw [ht.depth]; exact Nat.succ_pos _)
  have houter := ht.outer
  rw [hchains] at houter
  rw [chains_endChain hchains]
  exact houter.trans hs

theorem checks_unsetAll : ∀ {es : List Expr}, (Node.numbers (es.flatMap Expr.nodes)).Nodup →
    Checks (es ++ Node.written (es.flatMap Expr.nodes)) (unsetAll cfg es)
  | [], _ => .none (x := pure ())
  | e :: rest, h => by
    rw [List.flatMap_cons, Node.numbers_append, Node.numbers_nodes, List.nodup_append'] at h
    rw [List.flatMap_cons, Node.written_append, Node.written_nodes, unsetAll, ← bind_assoc]
    refine ((checks_unset h.1).seq fun _ => checks_unsetAll h.2.1).mono fun x hx => ?_
    simp only [List.mem_append, List.mem_cons] at hx ⊢
    tauto

end Expressions

/-! ## Statements -/

section Statements

variable {es es' : List Expr} {x y : Emit Chunk Unit}

theorem Checks.reporting (h : Checks es x) (span : Span) : Checks es (reporting span x) := by
  intro s hs
  refine .intro (fun a t hrun => ?_) fun _ _ _ => trivial
  rcases hx : x s with ⟨result, u⟩
  simp only [Lowering.reporting, hx] at hrun
  cases result with
  | ok b =>
    obtain ⟨-, rfl⟩ := Prod.mk.inj hrun
    exact (h s hs).of_ok hx
  | error e =>
    dsimp only at hrun
    split at hrun <;> exact nomatch hrun

/-- A statement is emitted by the rule made for its kind. -/
theorem Checks.statement (hcfg : cfg.registry = .standard) {kind : StmtKind} {tag : StmtTag}
    {code : Home StmtKind → Emit Chunk Unit} (h : ∀ home, Checks es (code home)) :
    Checks es (statement cfg kind tag code) := by
  have hrule : Checks es (byStmtRule cfg kind tag code) := by
    intro s hs
    have htable : Ends (onTable (RuleTable.stmt cfg.registry kind tag.id)) s
        (fun handle t => handle.rule = kind ∧ t.chains = []) anyFailure := by
      rw [hcfg]
      refine .intro (fun handle t hrun => ?_) fun _ _ _ => trivial
      refine ⟨?_, ((silent_onTable _).ends s).of_ok hrun |>.1.trans hs⟩
      unfold onTable at hrun
      split at hrun
      · rename_i hlookup
        obtain ⟨rfl, -⟩ := (RuleTable.ends_stmt s.table kind tag.id).of_ok hlookup
        obtain rfl := Except.ok.inj (Prod.mk.inj hrun).1
        rfl
      · cases hrun
    refine htable.bind fun handle t ht => ?_
    rw [if_pos ht.1]
    exact h _ t ht.2
  have hreporting := hrule.reporting tag.span
  unfold Lowering.statement
  split
  · exact fun s hs => .update_bind (hreporting _ hs)
  · exact hreporting

theorem checks_returnValue {expr : Option Expr}
    (h : (Node.numbers (expr.toList.flatMap Expr.nodes)).Nodup) :
    Checks (Node.written (expr.toList.flatMap Expr.nodes)) (returnValue cfg expr) := by
  refine .before fun f => ?_
  cases expr with
  | none => exact .none
  | some e =>
    rw [Option.toList_some, List.flatMap_singleton, Node.numbers_nodes] at h
    rw [Option.toList_some, List.flatMap_singleton, Node.written_nodes]
    exact (checks_value h).behind

theorem checks_loopJump (kind : BranchKind) {expr : Option Expr}
    (h : (Node.numbers (expr.toList.flatMap Expr.nodes)).Nodup) :
    Checks (Node.written (expr.toList.flatMap Expr.nodes)) (loopJump cfg kind expr) := by
  cases expr with
  | none => exact .none (x := staticBranch kind 1)
  | some e =>
    rw [Option.toList_some, List.flatMap_singleton, Node.numbers_nodes] at h
    rw [Option.toList_some, List.flatMap_singleton, Node.written_nodes]
    unfold loopJump
    dsimp only
    split
    · rename_i hvalue
      rw [written_of_value hvalue]
      exact .none
    · refine .before fun f => ?_
      split
      · exact .fail _
      · exact (checks_converted h _).behind

theorem checks_jumpCode (kind : JumpKind) {expr : Option Expr}
    (h : (Node.numbers (expr.toList.flatMap Expr.nodes)).Nodup) :
    Checks (Node.written (expr.toList.flatMap Expr.nodes)) (jumpCode cfg kind expr) := by
  cases kind with
  | «return» => exact (checks_returnValue h).behind
  | «break» => exact checks_loopJump .break h
  | «continue» => exact checks_loopJump .continue h

/-- The same for a part that may be missing. -/
def ChecksOptional (es : List Expr) : Option (Emit Chunk Unit) → Prop
  | some x => Checks es x
  | none => es = []

variable {e : Expr}

theorem checks_branchCode {otherwise : Option (Emit Chunk Unit)} (he : e.numbers.Nodup)
    (hx : Checks es x) (hy : ChecksOptional es' otherwise) :
    Checks (e.written ++ es ++ es') (branchCode cfg e x otherwise) := by
  have hhead : Checks e.written (branchHead cfg e) :=
    .before fun _ => (checks_converted he _).behind
  rw [List.append_assoc]
  refine hhead.seq fun l => hx.seq fun _ => ?_
  cases otherwise with
  | some y => exact .before fun _ => Checks.behind hy
  | none =>
    obtain rfl := hy
    exact .none

theorem checks_loopCode (he : e.numbers.Nodup) (hx : Checks es x) :
    Checks (e.written ++ es) (loopCode cfg e x) := by
  have hhead : Checks e.written (loopHead cfg e) := by
    refine .before fun _ => .before fun _ => .before fun _ => ?_
    split
    · exact (checks_converted he _).behind
    · rename_i hvalue
      obtain ⟨v, hv, -⟩ := Option.map_eq_some_iff.mp (not_not.mp hvalue)
      rw [written_of_value hv]
      exact .none
  exact hhead.seq fun _ => (hx.thenFrame _).behind

theorem checks_routineCode (returnsRef : Bool) (hx : Checks es x) :
    Checks es (routineCode returnsRef x) :=
  .before fun _ => .before fun _ => Checks.thenFrame hx.behind _

theorem checks_clauseCode (exception : Temp) (regionEnd : Label) (type : String) (var : Option String)
    (hx : Checks es x) : Checks es (clauseCode exception regionEnd type var x) :=
  .before fun _ => hx.behind

theorem checks_cleanupCode (hasClauses : Bool) {cleanup : Option (Emit Chunk Unit)}
    (h : ChecksOptional es cleanup) : Checks es (cleanupCode hasClauses cleanup) := by
  cases cleanup with
  | some y => exact .before fun _ => h
  | none =>
    obtain rfl := h
    cases hasClauses with
    | true => exact .none (x := pure ())
    | false => exact .none (x := toSink _)

theorem checks_tryCode {clauses : Label → Temp → Emit Chunk Unit} {cleanup : Option (Emit Chunk Unit)}
    {hasClauses : Bool} {es'' : List Expr} (hx : Checks es x)
    (hclauses : ∀ l k, Checks es' (clauses l k)) (hnone : hasClauses = false → es' = [])
    (hcleanup : ChecksOptional es'' cleanup) :
    Checks (es ++ es' ++ es'') (tryCode cfg x hasClauses clauses cleanup) := by
  unfold tryCode
  split
  · rename_i helided
    simp only [Bool.and_eq_true, Bool.not_eq_eq_eq_not, Bool.not_true, Option.isNone_iff_eq_none] at helided
    obtain rfl := hnone helided.1.1
    rw [helided.1.2] at hcleanup
    obtain rfl := hcleanup
    rw [List.append_nil, List.append_nil]
    exact hx
  · refine .before fun _ => Checks.thenFrame ?_ _
    rw [List.append_assoc]
    refine .before fun l => hx.seq fun _ => ?_
    have hend : Checks es'' (do cleanupCode hasClauses cleanup; toSink Sink.endRegion) :=
      (checks_cleanupCode hasClauses hcleanup).behind
    cases hasClauses with
    | true => exact Checks.seq (.before fun k => (hclauses l k).behind) fun _ => hend
    | false =>
      obtain rfl := hnone rfl
      exact hend

mutual

/-- What a statement stores to or removes is a location. -/
theorem checks_lowerStmt (hcfg : cfg.registry = .standard) : ∀ s : Stmt,
    (Node.numbers s.nodes).Nodup → Checks (Node.written s.nodes) (lowerStmt cfg s)
  | .expression _ e, h => by
    rw [Stmt.nodes, Node.numbers_stmt, Node.numbers_nodes] at h
    rw [Stmt.nodes, Node.written_stmt, Node.written_nodes]
    exact .statement hcfg fun _ => (checks_value h).behind
  | .echo _ es, h => .statement hcfg fun _ => checks_echoAll h
  | .block _ body, h => .statement hcfg fun _ => checks_lowerStmts hcfg body h
  | .branch _ condition thenBody elseBody, h => by
    simp only [Stmt.nodes, List.cons_append, Node.numbers_stmt, Node.numbers_append, Node.numbers_nodes,
      List.nodup_append'] at h
    rw [Stmt.nodes, List.cons_append, List.cons_append, Node.written_stmt, Node.written_append,
      Node.written_append, Node.written_nodes]
    exact .statement hcfg fun _ => checks_branchCode h.1.1 (checks_lowerStmts hcfg thenBody h.1.2.1)
      (checks_lowerOptional hcfg elseBody h.2.1)
  | .loop _ condition body, h => by
    simp only [Stmt.nodes, List.cons_append, Node.numbers_stmt, Node.numbers_append, Node.numbers_nodes,
      List.nodup_append'] at h
    rw [Stmt.nodes, List.cons_append, Node.written_stmt, Node.written_append, Node.written_nodes]
    exact .statement hcfg fun _ => checks_loopCode h.1 (checks_lowerStmts hcfg body h.2.1)
  | .jump _ kind _, h => .statement hcfg fun _ => checks_jumpCode kind h
  | .goto _ _, _ => .statement hcfg fun _ => .none
  | .label _ name, _ => .statement hcfg fun home => .none (x := labelCode name home)
  | .tryCatch _ body catches cleanup, h => by
    simp only [Stmt.nodes, List.cons_append, Node.numbers_stmt, Node.numbers_append,
      List.nodup_append'] at h
    rw [Stmt.nodes, List.cons_append, List.cons_append, Node.written_stmt, Node.written_append,
      Node.written_append]
    refine .statement hcfg fun _ => checks_tryCode (checks_lowerStmts hcfg body h.1.1)
      (checks_lowerClauses hcfg catches h.1.2.1) ?_ (checks_lowerOptional hcfg cleanup h.2.1)
    intro hempty
    obtain rfl : catches = [] := by simpa using hempty
    rfl
  | .throw _ e, h => by
    rw [Stmt.nodes, Node.numbers_stmt, Node.numbers_nodes] at h
    rw [Stmt.nodes, Node.written_stmt, Node.written_nodes]
    exact .statement hcfg fun _ => (checks_boxed h).behind
  | .unset _ _, h => .statement hcfg fun _ => checks_unsetAll h
  | .constDecl _ _ e, h => by
    rw [Stmt.nodes, Node.numbers_stmt, Node.numbers_nodes] at h
    rw [Stmt.nodes, Node.written_stmt, Node.written_nodes]
    exact .statement hcfg fun _ => (checks_boxed h).behind
  | .function _ head body _, h => .statement hcfg fun _ =>
    .before fun _ => (checks_routineCode head.byRef (checks_lowerStmts hcfg body h)).behind
  | .empty _ _, _ => .statement hcfg fun _ => .none (x := pure ())
termination_by structural s => s

/-- What statements store to or remove is a location. -/
theorem checks_lowerStmts (hcfg : cfg.registry = .standard) : ∀ ss : List Stmt,
    (Node.numbers (Stmt.nodesOf ss)).Nodup → Checks (Node.written (Stmt.nodesOf ss)) (lowerStmts cfg ss)
  | [], _ => .none (x := pure ())
  | s :: rest, h => by
    rw [Stmt.nodesOf, Node.numbers_append, List.nodup_append'] at h
    rw [Stmt.nodesOf, Node.written_append]
    exact (checks_lowerStmt hcfg s h.1).seq fun _ => checks_lowerStmts hcfg rest h.2.1
termination_by structural ss => ss

theorem checks_lowerOptional (hcfg : cfg.registry = .standard) : ∀ ss : Option (List Stmt),
    (Node.numbers (Stmt.nodesOfOptional ss)).Nodup →
      ChecksOptional (Node.written (Stmt.nodesOfOptional ss)) (lowerOptional cfg ss)
  | none, _ => rfl
  | some body, h => checks_lowerStmts hcfg body h
termination_by structural ss => ss

theorem checks_lowerClauses (hcfg : cfg.registry = .standard) : ∀ cs : List Catch,
    (Node.numbers (Stmt.nodesOfCatches cs)).Nodup →
      ∀ l k, Checks (Node.written (Stmt.nodesOfCatches cs)) (lowerClauses cfg cs l k)
  | [], _, _, _ => .none (x := pure ())
  | .clause _ _ _ body _ :: rest, h, l, k => by
    rw [Stmt.nodesOfCatches, Node.numbers_append, List.nodup_append'] at h
    rw [Stmt.nodesOfCatches, Node.written_append]
    exact (checks_clauseCode k l _ _ (checks_lowerStmts hcfg body h.1)).seq
      fun _ => checks_lowerClauses hcfg rest h.2.1 l k
termination_by structural cs => cs

end

end Statements

end Lowering
end PhpLowering
