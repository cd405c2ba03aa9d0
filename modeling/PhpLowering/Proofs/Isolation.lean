import Mathlib
import PhpLowering.Proofs.Emission
import PhpLowering.Proofs.Identity
import PhpLowering.Proofs.Lowering.Copies
import PhpLowering.Proofs.Lowering.Mirror

/-!
# Routines in isolation

A function is emitted in the middle of the routine that it is declared in, by the same generator and into the
same sink.  **`isolated_of_emit`** says that neither notices the other.

* After an emission no routine is left incomplete, and the functions of the sink are those that are declared in
  the analysed tree, a nested function before the one that it is nested in, each as it was declared.
* What is in the bodies of functions has no influence on the main routine.  Two units that are the same outside
  of them have the same main routine, if the same of its labels are gone to.

That the same labels are gone to does not follow from the trees: the body of a loop that never runs is thrown
away with the `goto` statements behind a label in it, when they have already been recorded.  So there are units
with the same analysed tree and different code, `main_differs_for_skipped_goto`.
-/

namespace PhpLowering

namespace Stmt

mutual

/-- What is in a statement of the routine is in the statement that it belongs to. -/
theorem nodes_of_own : ∀ {x y : Stmt} {n : Node}, y ∈ x.own → n ∈ y.nodes → n ∈ x.nodes
  | .block _ body, y, n, h, hn => by
    rcases List.mem_cons.mp h with rfl | h
    · exact hn
    · simp [nodes, nodesOf_of_ownOf h hn]
  | .branch _ _ thenBody elseBody, y, n, h, hn => by
    rcases List.mem_cons.mp h with rfl | h
    · exact hn
    · rcases List.mem_append.mp h with h | h
      · simp [nodes, nodesOf_of_ownOf h hn]
      · simp [nodes, nodesOfOptional_of_ownOf h hn]
  | .loop _ _ body, y, n, h, hn => by
    rcases List.mem_cons.mp h with rfl | h
    · exact hn
    · simp [nodes, nodesOf_of_ownOf h hn]
  | .tryCatch _ body catches cleanup, y, n, h, hn => by
    rcases List.mem_cons.mp h with rfl | h
    · exact hn
    · rcases List.mem_append.mp h with h | h
      · simp [nodes, nodesOf_of_ownOf h hn]
      · rcases List.mem_append.mp h with h | h
        · simp [nodes, nodesOfCatches_of_ownOf h hn]
        · simp [nodes, nodesOfOptional_of_ownOf h hn]
  | .expression .., _, _, h, hn | .echo .., _, _, h, hn | .jump .., _, _, h, hn | .goto .., _, _, h, hn
  | .label .., _, _, h, hn | .throw .., _, _, h, hn | .unset .., _, _, h, hn | .constDecl .., _, _, h, hn
  | .function .., _, _, h, hn | .empty .., _, _, h, hn => List.mem_singleton.mp h ▸ hn
termination_by structural x => x

theorem nodesOf_of_ownOf : ∀ {xs : List Stmt} {y : Stmt} {n : Node}, y ∈ ownOf xs → n ∈ y.nodes → n ∈ nodesOf xs
  | x :: rest, y, n, h, hn => by
    rw [ownOf, List.mem_append] at h
    rw [nodesOf, List.mem_append]
    exact h.imp (nodes_of_own · hn) (nodesOf_of_ownOf · hn)
  | [], _, _, h, _ => absurd h List.not_mem_nil
termination_by structural xs => xs

theorem nodesOfOptional_of_ownOf : ∀ {part : Option (List Stmt)} {y : Stmt} {n : Node},
    y ∈ ownOfOptional part → n ∈ y.nodes → n ∈ nodesOfOptional part
  | some _, _, _, h, hn => nodesOf_of_ownOf h hn
  | none, _, _, h, _ => nomatch h
termination_by structural part => part

theorem nodesOfCatches_of_ownOf : ∀ {catches : List Catch} {y : Stmt} {n : Node},
    y ∈ ownOfCatches catches → n ∈ y.nodes → n ∈ nodesOfCatches catches
  | .clause _ _ _ body _ :: rest, y, n, h, hn => by
    rw [ownOfCatches, List.mem_append] at h
    rw [nodesOfCatches, List.mem_append]
    exact h.imp (nodesOf_of_ownOf · hn) (nodesOfCatches_of_ownOf · hn)
  | [], _, _, h, _ => nomatch h
termination_by structural catches => catches

end

/-- What an expression of a statement contains is among the nodes of the statement. -/
theorem expr_mem_nodes {y : Stmt} {e e' : Expr} (he : e ∈ y.exprs) (he' : e' ∈ e.subexprs) : .expr e' ∈ y.nodes := by
  have hnode : Node.expr e' ∈ e.nodes := List.mem_map_of_mem he'
  cases y with
  | echo | unset | jump => exact List.mem_cons_of_mem _ (List.mem_flatMap.mpr ⟨e, he, hnode⟩)
  | expression | throw | constDecl | branch | loop =>
    obtain rfl := List.mem_singleton.mp he
    simp [nodes, hnode]
  | block | goto | label | tryCatch | function | empty => exact nomatch he

end Stmt

/-- Which of the label statements of a routine a `goto` goes to, in their order. -/
def Stmt.referencesOf (memory : RuleMemory) (body : List Stmt) : List Bool :=
  (Stmt.ownOf body).filterMap fun
    | .label tag _ => some (memory.labelReferenced (.node tag.id))
    | _ => none

/-- Two trees are the same outside the bodies of functions, but for the numbers of nodes. -/
structure Stmt.SameOutline (f : Nat → Nat) (xs ys : List Stmt) : Prop where
  injective : f.Injective
  copies : Stmt.copyOf { Copying.hollow with node := f } xs = Stmt.copyOf .hollow ys

/-! ## Counterparts -/

section

variable {c c' : Copying} {xs ys : List Stmt}

theorem KeyCount.addAll_copy (n : KeyCount) (es : List ArrayElement) :
    n.addAll (Expr.copyElements c es) = n.addAll es := by
  induction es generalizing n with
  | nil => rfl
  | cons element rest ih =>
    cases element with
    | plain => exact ih _
    | keyed _ key =>
      rw [Expr.copyElements, KeyCount.addAll_cons, KeyCount.addAll_cons, ih]
      simp only [ArrayElement.key?, keyIsInteger, Expr.value?_copy]

/-- The counterpart of an array literal is one, with the same keys. -/
theorem Expr.exists_array_of_copy {e : Expr} {tag : ExprTag} {elements : List ArrayElement}
    (h : e.copy c' = (Expr.array tag elements).copy c) : ∃ tag' elements', e = .array tag' elements' ∧
      c'.node tag'.id = c.node tag.id ∧ KeyCount.addAll {} elements' = KeyCount.addAll {} elements := by
  cases e with
  | array tag' elements' =>
    have helements : Expr.copyElements c' elements' = Expr.copyElements c elements := (Expr.array.inj h).2
    refine ⟨tag', elements', rfl, congrArg Expr.id h, ?_⟩
    rw [← KeyCount.addAll_copy (c := c'), helements, KeyCount.addAll_copy]
  | _ => exact nomatch h

/-- If two trees have a copy in common, an array literal of the one has a counterpart in the other. -/
theorem Stmt.exists_array_of_copies (h : Stmt.copyOf c xs = Stmt.copyOf c' ys) {y : Stmt} {e : Expr} {tag : ExprTag}
    {elements : List ArrayElement} (hy : y ∈ Stmt.ownOf xs) (he : e ∈ y.exprs)
    (harray : .array tag elements ∈ e.subexprs) :
    ∃ tag' elements', .expr (.array tag' elements') ∈ Stmt.nodesOf ys ∧ c'.node tag'.id = c.node tag.id ∧
      KeyCount.addAll {} elements' = KeyCount.addAll {} elements := by
  have hown : (Stmt.ownOf ys).map (Stmt.copy c') = (Stmt.ownOf xs).map (Stmt.copy c) := by
    rw [← Stmt.ownOf_copyOf, ← Stmt.ownOf_copyOf, h]
  obtain ⟨z, hz, hzy⟩ := List.mem_map.mp (hown ▸ List.mem_map_of_mem hy)
  have hexprs : z.exprs.map (Expr.copy c') = y.exprs.map (Expr.copy c) := by
    rw [← Stmt.exprs_copy, ← Stmt.exprs_copy, hzy]
  obtain ⟨e', he', hee⟩ := List.mem_map.mp (hexprs ▸ List.mem_map_of_mem he)
  have hsubexprs : e'.subexprs.map (Expr.copy c') = e.subexprs.map (Expr.copy c) := by
    rw [← Expr.subexprs_copy, ← Expr.subexprs_copy, hee]
  obtain ⟨a, ha, haa⟩ := List.mem_map.mp (hsubexprs ▸ List.mem_map_of_mem harray)
  obtain ⟨tag', elements', rfl, hid, hkeys⟩ := Expr.exists_array_of_copy haa
  exact ⟨tag', elements', Stmt.nodesOf_of_ownOf hz (Stmt.expr_mem_nodes he' ha), hid, hkeys⟩

/-- If two trees have a copy in common and the same labels are gone to, then so are a label and its counterpart. -/
theorem Stmt.labelReferenced_of_copies {memory memory' : RuleMemory}
    (hcopies : Stmt.copyOf c xs = Stmt.copyOf c' ys)
    (hlabels : Stmt.referencesOf memory' ys = Stmt.referencesOf memory xs) (hnode : ∀ i, c'.node i = i)
    {tag : StmtTag} {name : String} (hlabel : .label tag name ∈ Stmt.ownOf xs) :
    memory'.labelReferenced (.node (c.node tag.id)) = memory.labelReferenced (.node tag.id) := by
  have hown : (Stmt.ownOf ys).map (Stmt.copy c') = (Stmt.ownOf xs).map (Stmt.copy c) := by
    rw [← Stmt.ownOf_copyOf, ← Stmt.ownOf_copyOf, hcopies]
  unfold Stmt.referencesOf at hlabels
  generalize Stmt.ownOf xs = own at hown hlabels hlabel
  generalize Stmt.ownOf ys = own' at hown hlabels
  induction own generalizing own' with
  | nil => exact nomatch hlabel
  | cons x rest ih =>
    cases own' with
    | nil => exact nomatch hown
    | cons y rest' =>
      obtain ⟨hxy, hrest⟩ := List.cons.inj hown
      cases x with
      | label tag₁ name₁ =>
        cases y with
        | label tag₂ name₂ =>
          obtain ⟨hhead, htail⟩ := List.cons.inj hlabels
          rcases List.mem_cons.mp hlabel with heq | hlabel
          · cases heq
            rw [← show c'.node tag₂.id = c.node tag.id from congrArg Stmt.id hxy, hnode]
            exact hhead
          · exact ih hlabel rest' hrest htail
        | _ => exact nomatch hxy
      | _ =>
        have hlabel := (List.mem_cons.mp hlabel).resolve_left nofun
        cases y with
        | label => exact nomatch hxy
        | _ => exact ih hlabel rest' hrest hlabels

end

/-! ## Routines side by side -/

/-- On both sides the same tree is emitted. -/
def Lowering.Sides.same (memory : RuleMemory) : Lowering.Sides where
  memory := memory
  memory' := memory
  copying := {}
  injective := Function.injective_id
  order := none
  ordered := nofun
  rest := true

/-- On the right the bodies of functions are left out, and the nodes have other numbers. -/
def Lowering.Sides.hollow (o : Lowering.ReleaseOrder) (memory memory' : RuleMemory) {f : Nat → Nat}
    (hf : f.Injective) : Lowering.Sides where
  memory := memory
  memory' := memory'
  copying := { Copying.hollow with node := f }
  injective := hf
  order := some o
  ordered _ := ⟨o, rfl⟩
  rest := true

/-- Outside of all functions no routine is incomplete. -/
theorem Chunk.pending_of_outside {c : Chunk} (h : c.outside = none) : c.pending = [] := by
  rcases c with ⟨main, functions, _ | _⟩
  · rfl
  · exact nomatch h

namespace Lowering

variable {S : Routine → Routine → Prop} [Routine.Twins S] {p : Sides} {fs : List FunctionHead}

/-- What a routine does at its beginning and at its end is the same on both sides. -/
theorem Follows.routineCode {body body' : Emit Chunk Unit} (h : Follows S p fs body body') (returnsRef : Bool) :
    Follows S p fs (routineCode returnsRef body) (routineCode returnsRef body') := by
  have hended : Follows S p (fs ++ []) (do body; routineEnd returnsRef) (do body'; routineEnd returnsRef) :=
    h.bind fun _ => Paired.follows inferInstance
  rw [List.append_nil] at hended
  have hframe : Follows S p [] (frame (σ := Chunk)) frame := .peek fun s t hst => hst.frame
  refine hframe.bind fun outer => ?_
  have hbegin : Follows S p [] (updateFrame (σ := Chunk) fun _ => { returnsRef }) (updateFrame fun _ => { returnsRef }) :=
    .update (fun s t hst => { hst with frame := rfl }) (fun _ => rfl) fun _ => rfl
  exact hbegin.bind fun _ => hended.thenFrame _

/-- With a regular table a label statement is emitted: it is marked if a `goto` goes to it. -/
theorem exists_lowerStmt_label {cfg : Setting} (hcfg : cfg.registry = .standard) {table : RuleTable}
    (htable : table.Regular) (tag : StmtTag) (name : String) : ∃ table', ∀ s : State Chunk, s.table = table →
      lowerStmt cfg (.label tag name) s =
        reporting tag.span (if s.memory.labelReferenced (.node tag.id) then do mark (← routineLabel name) else pure ())
          { s.withActive (s.active.placed cfg.options.sequencePoints tag.span) with table := table' } := by
  obtain ⟨table', hfound, -⟩ := RuleTable.exists_stmt htable .label tag.id
  refine ⟨table', fun s hs => ?_⟩
  have hrule : (onTable (RuleTable.stmt cfg.registry .label tag.id) : Emit Chunk (Handle StmtKind))
      (s.withActive (s.active.placed cfg.options.sequencePoints tag.span)) = (.ok ⟨.label, .node tag.id⟩,
        { s.withActive (s.active.placed cfg.options.sequencePoints tag.span) with table := table' }) := by
    rw [hcfg]
    exact onTable_ok (hs ▸ hfound)
  have hcode : byStmtRule cfg .label tag (labelCode name)
      (s.withActive (s.active.placed cfg.options.sequencePoints tag.span)) =
        (if s.memory.labelReferenced (.node tag.id) then do mark (← routineLabel name) else pure ())
          { s.withActive (s.active.placed cfg.options.sequencePoints tag.span) with table := table' } := by
    unfold byStmtRule
    rw [Pass.bind_apply, hrule]
    rfl
  rw [lowerStmt, statement_eq, if_pos nofun, Pass.bind_apply]
  show reporting tag.span _ (s.withActive (s.active.placed cfg.options.sequencePoints tag.span)) = _
  unfold reporting
  rw [hcode]

/-- An empty statement has no code. -/
theorem lowerStmt_empty {cfg : Setting} (hcfg : cfg.registry = .standard) (tag : StmtTag) (kind : EmptyKind)
    (s : State Chunk) : lowerStmt cfg (.empty tag kind) s = (.ok (), s) := by
  have hcode : byStmtRule cfg .empty tag (fun _ => return : Home StmtKind → Emit Chunk Unit) s = (.ok (), s) := by
    unfold byStmtRule
    rw [hcfg]
    rfl
  rw [lowerStmt, statement_eq, if_neg (· rfl)]
  show reporting tag.span _ s = _
  unfold reporting
  rw [hcode]

end Lowering

namespace Compiler

open Lowering (Declares Sides)

variable {c : Compiler} {unit unit' : SourceUnit} {analyzed analyzed' : AnalyzedUnit}
  {diagnostics diagnostics' : Array Diagnostic} {name : String} {filePath : Option String} {tempLimit : Option Nat}

/-- What is emitted into an empty chunk if all goes well: the chunk is complete, and if copies of the statements are
emitted into another empty chunk, where the same is remembered of them, the main routines are the same. -/
theorem exists_copy_of_emit (hc : c.registry = .standard) (htable : analyzed.table.Regular)
    (h : (c.emit analyzed diagnostics (Chunk.new name filePath tempLimit)).isEmitted = true) (p : Sides)
    (hp : p.rest = true) (hmemory : p.memory = analyzed.memory)
    (horder : ∀ o, p.order = some o → c.releases = fun _ => o)
    (hagrees : p.AgreesOn (Stmt.ownOf analyzed.statements) (Stmt.functionsOf analyzed.statements)) {table : RuleTable}
    (htable' : table.Regular) :
    (c.emit analyzed diagnostics (Chunk.new name filePath tempLimit)).sink.pending = [] ∧
      List.Forall₂ Declares ((Stmt.functionsOf analyzed.statements).map Prod.fst)
        (c.emit analyzed diagnostics (Chunk.new name filePath tempLimit)).sink.functions.toList ∧
      ∃ t, Lowering.lowerRoutine c.loweringSetting (Stmt.copyOf p.copying analyzed.statements) false
          { sink := Chunk.new name filePath tempLimit, table, memory := p.memory', releases := c.releases } =
            (.ok (), t) ∧
        t.sink.main = (c.emit analyzed diagnostics (Chunk.new name filePath tempLimit)).sink.main := by
  rcases hrun : Lowering.lowerRoutine c.loweringSetting analyzed.statements false
    (c.emissionStart analyzed diagnostics (Chunk.new name filePath tempLimit)) with ⟨result, s⟩
  cases result with
  | error e =>
    simp only [emit, hrun, Outcome.isEmitted] at h
    cases h
  | ok a =>
    have hsink : (c.emit analyzed diagnostics (Chunk.new name filePath tempLimit)).sink = s.sink := by
      simp only [emit, hrun]
    have hcfg : c.loweringSetting.registry = .standard := hc
    have hfollows := (Lowering.follows_lowerStmts (S := Eq) hcfg analyzed.statements p hp hagrees).routineCode false
    have hstart : Lowering.Beside Eq p
        (c.emissionStart analyzed diagnostics (Chunk.new name filePath tempLimit))
        { sink := Chunk.new name filePath tempLimit, table, memory := p.memory', releases := c.releases } :=
      { memory := hmemory.symm, memory' := rfl, table := htable, table' := htable', chains := rfl, releases := rfl
        order := horder, rest := fun _ => rfl, shared := rfl, active := rfl, frame := rfl }
    obtain ⟨t, hrun', htogether⟩ := hfollows.ok _ _ hstart _ _ hrun
    obtain ⟨ds, ds', hds, hds', hdeclares, -⟩ := htogether.completed
    have hmain : s.active = s.sink.main := Chunk.active_of_outside hds.outside
    have hmain' : t.active = t.sink.main := Chunk.active_of_outside hds'.outside
    rw [hsink]
    refine ⟨?_, ?_, t, hrun', ?_⟩
    · exact Chunk.pending_of_outside hds.outside
    · rw [hds.functions]
      exact hdeclares
    · rw [← hmain, ← hmain', htogether.active]

theorem agreesOn_same (memory : RuleMemory) (own : List Stmt) (fs : List (FunctionHead × List Stmt)) :
    (Sides.same memory).AgreesOn own fs :=
  ⟨⟨fun _ _ _ => rfl, fun _ => rfl⟩, fun _ _ _ => ⟨fun _ _ _ => rfl, fun _ => rfl⟩⟩

/-- Nothing else is remembered of a unit when the bodies of its functions are left out. -/
theorem agreesOn_hollow (o : Lowering.ReleaseOrder) (memory : RuleMemory) (own : List Stmt)
    (fs : List (FunctionHead × List Stmt)) :
    (Sides.hollow o memory memory Function.injective_id).AgreesOn own fs :=
  ⟨⟨fun _ _ _ => rfl, fun _ => rfl⟩, nofun⟩

/-- The same is remembered of two units that are the same outside the bodies of functions, if the same labels are gone
to. -/
theorem agreesOn_of_sameOutline (hc : c.registry = .standard) (hnumbered : unit.Numbered) (hnumbered' : unit'.Numbered)
    (hanalyze : c.analyze unit = (.ok analyzed, diagnostics))
    (hanalyze' : c.analyze unit' = (.ok analyzed', diagnostics')) {f : Nat → Nat}
    (houtline : Stmt.SameOutline f analyzed.statements analyzed'.statements)
    (hlabels : Stmt.referencesOf analyzed'.memory analyzed'.statements =
      Stmt.referencesOf analyzed.memory analyzed.statements)
    (o : Lowering.ReleaseOrder) (fs : List (FunctionHead × List Stmt)) :
    (Sides.hollow o analyzed.memory analyzed'.memory houtline.injective).AgreesOn (Stmt.ownOf analyzed.statements)
      fs where
  keys hy he harray := by
    obtain ⟨tag', elements', hmem, hid, hkeys⟩ := Stmt.exists_array_of_copies houtline.copies hy he harray
    have harray' := Stmt.nodesOf_of_ownOf hy (Stmt.expr_mem_nodes he harray)
    have hleft := keyCount_of_analyze hc hnumbered hanalyze harray'
    have hright := keyCount_of_analyze hc hnumbered' hanalyze' hmem
    show analyzed'.memory.keyCount (.node (f _)) = analyzed.memory.keyCount (.node _)
    rw [← show tag'.id = f _ from hid]
    exact hright.trans (hkeys.trans hleft.symm)
  labels hlabel := Stmt.labelReferenced_of_copies houtline.copies hlabels (fun _ => rfl) hlabel
  bodies := nofun

/-- All chains give their slots back in the same order. -/
def ReleasesInOneOrder (c : Compiler) : Prop :=
  ∀ n, c.releases n = c.releases 0

/-- **Routines are emitted completely, and in isolation.**  When a unit has been emitted no routine is incomplete, and
the functions are those that are declared in the analysed tree, each as it was declared and a nested one before the one
that it is nested in.

The main routine does not depend on the bodies of functions.  Take another unit that is the same outside of them, and
in which the same labels are gone to.  If in each of the two units the nodes have different numbers, and all chains
give their slots back in one order, then the two have the same main routine.  Without the condition on the labels
this fails, by `main_differs_for_skipped_goto`. -/
theorem isolated_of_emit (hc : c.registry = .standard) (hanalyze : c.analyze unit = (.ok analyzed, diagnostics))
    (hemit : (c.emit analyzed diagnostics (Chunk.new name filePath tempLimit)).isEmitted = true) :
    (c.emit analyzed diagnostics (Chunk.new name filePath tempLimit)).sink.pending = [] ∧
      List.Forall₂ Declares ((Stmt.functionsOf analyzed.statements).map Prod.fst)
        (c.emit analyzed diagnostics (Chunk.new name filePath tempLimit)).sink.functions.toList ∧
      ∀ {unit' : SourceUnit} {analyzed' : AnalyzedUnit} {diagnostics' : Array Diagnostic} {f : Nat → Nat},
        c.ReleasesInOneOrder → unit.Numbered → unit'.Numbered →
        c.analyze unit' = (.ok analyzed', diagnostics') →
        (c.emit analyzed' diagnostics' (Chunk.new name filePath tempLimit)).isEmitted = true →
        Stmt.SameOutline f analyzed.statements analyzed'.statements →
        Stmt.referencesOf analyzed'.memory analyzed'.statements =
          Stmt.referencesOf analyzed.memory analyzed.statements →
        (c.emit analyzed' diagnostics' (Chunk.new name filePath tempLimit)).sink.main =
          (c.emit analyzed diagnostics (Chunk.new name filePath tempLimit)).sink.main := by
  obtain ⟨hpending, hfunctions, -⟩ := exists_copy_of_emit hc (regular_of_analyze hc hanalyze) hemit _ rfl rfl
    (fun _ (ho : none = some _) => nomatch ho)
    (agreesOn_same analyzed.memory _ _) (regular_of_analyze hc hanalyze)
  refine ⟨hpending, hfunctions, ?_⟩
  intro unit' analyzed' diagnostics' f horder hnumbered hnumbered' hanalyze' hemit' houtline hlabels
  have horder : ∀ o, some (c.releases 0) = some o → c.releases = fun _ => o := by
    rintro _ ⟨⟩
    exact funext horder
  -- Both units are emitted beside the second one without the bodies of its functions.
  have hagrees := agreesOn_of_sameOutline hc hnumbered hnumbered' hanalyze hanalyze' houtline hlabels (c.releases 0)
    (Stmt.functionsOf analyzed.statements)
  obtain ⟨-, -, t, hrun, hmain⟩ := exists_copy_of_emit hc (regular_of_analyze hc hanalyze) hemit _ rfl rfl horder
    hagrees (regular_of_analyze hc hanalyze')
  obtain ⟨-, -, t', hrun', hmain'⟩ := exists_copy_of_emit hc (regular_of_analyze hc hanalyze') hemit' _ rfl rfl horder
    (agreesOn_hollow (c.releases 0) analyzed'.memory _ _) (regular_of_analyze hc hanalyze')
  have hcopies : Stmt.copyOf (Sides.hollow (c.releases 0) analyzed.memory analyzed'.memory houtline.injective).copying
      analyzed.statements = Stmt.copyOf .hollow analyzed'.statements := houtline.copies
  rw [hcopies] at hrun
  obtain rfl := (Prod.mk.inj (hrun.symm.trans hrun')).2
  exact hmain'.symm.trans hmain

/-- The analysed tree of a unit without the bodies of functions, with other numbers for its nodes. -/
def outlineOf (c : Compiler) (f : Nat → Nat) (unit : SourceUnit) : List Stmt :=
  match c.analyze unit with
  | (.ok analyzed, _) => Stmt.copyOf { Copying.hollow with node := f } analyzed.statements
  | (.error _, _) => []

/-- Which of the labels of a unit a `goto` goes to. -/
def referencesOf (c : Compiler) (unit : SourceUnit) : List Bool :=
  match c.analyze unit with
  | (.ok analyzed, _) => Stmt.referencesOf analyzed.memory analyzed.statements
  | (.error _, _) => []

/-- A function, and what is executed behind it, with numbers from `n` on. -/
def functionFirst (n : Nat) (body : List Stmt) : SourceUnit :=
  { name := "unit", nextId := n + 8, span := {}
    statements := [
      .function ⟨n, {}⟩ { name := "f", byRef := true, params := [] } body false,
      .loop ⟨n + 1, {}⟩ (.var ⟨n + 2, {}, .none⟩ "x") [
        .echo ⟨n + 3, {}⟩ [.unary ⟨n + 4, {}, .none⟩ .logicNot (.literal ⟨n + 5, {}, .none⟩ (.bool true))],
        .expression ⟨n + 6, {}⟩ (.var ⟨n + 7, {}, .none⟩ "y")]] }

/-- A function in a function, and a value that is folded. -/
def fullBody : List Stmt :=
  [.function ⟨0, {}⟩ { name := "g", byRef := false, params := [] } [] false,
    .echo ⟨1, {}⟩ [.unary ⟨2, {}, .none⟩ .logicNot (.literal ⟨3, {}, .none⟩ (.bool true))]]

theorem isolated_functionFirst :
    (({} : Compiler).compile (functionFirst 0 []) (Chunk.new "unit" none none)).isEmitted = true ∧
      (({} : Compiler).compile (functionFirst 4 fullBody) (Chunk.new "unit" none none)).isEmitted = true ∧
      (({} : Compiler).compile (functionFirst 4 fullBody) (Chunk.new "unit" none none)).sink.main =
        (({} : Compiler).compile (functionFirst 0 []) (Chunk.new "unit" none none)).sink.main ∧
      (({} : Compiler).compile (functionFirst 4 fullBody) (Chunk.new "unit" none none)).sink.functions.toList.map
        Routine.name = ["g", "f"] := by
  have hemitted : (({} : Compiler).compile (functionFirst 0 []) (Chunk.new "unit" none none)).isEmitted = true := by
    decide +kernel
  have hemitted' :
      (({} : Compiler).compile (functionFirst 4 fullBody) (Chunk.new "unit" none none)).isEmitted = true := by
    decide +kernel
  obtain ⟨analyzed, diagnostics, hanalyze, -, hemit⟩ := emit_of_isEmitted hemitted
  obtain ⟨analyzed', diagnostics', hanalyze', -, hemit'⟩ := emit_of_isEmitted hemitted'
  have hcopies : ({} : Compiler).outlineOf (· + 4) (functionFirst 0 []) =
      ({} : Compiler).outlineOf id (functionFirst 4 fullBody) := by cbv
  have hlabels : ({} : Compiler).referencesOf (functionFirst 4 fullBody) =
      ({} : Compiler).referencesOf (functionFirst 0 []) := by decide +kernel
  have hnumbered : (functionFirst 0 []).Numbered ∧ (functionFirst 4 fullBody).Numbered := by
    unfold SourceUnit.Numbered
    decide +kernel
  simp only [outlineOf, referencesOf, hanalyze, hanalyze'] at hcopies hlabels
  obtain ⟨-, -, hisolated⟩ := isolated_of_emit rfl hanalyze (hemit ▸ hemitted)
  refine ⟨hemitted, hemitted', ?_, by decide +kernel⟩
  rw [hemit, hemit']
  exact hisolated (fun _ => rfl) hnumbered.1 hnumbered.2 hanalyze' (hemit' ▸ hemitted')
    ⟨fun _ _ => Nat.add_right_cancel, hcopies⟩ hlabels

/-! ## A `goto` that is thrown away -/

/-- A loop that never runs, and a label behind it.  In the loop stands another label, and behind that a `goto`. -/
def skippedGoto (target : String) : SourceUnit :=
  { name := "unit", nextId := 5, span := {}
    statements := [
      .loop ⟨0, {}⟩ (.literal ⟨1, {}, .none⟩ (.bool false)) [.label ⟨2, {}⟩ "M", .goto ⟨3, {}⟩ target],
      .label ⟨4, {}⟩ "L"] }

open Analysis (analyzeStmt analyzeStmts) in
/-- The loop is thrown away with the `goto` in it, but what label it goes to has been recorded. -/
theorem analyzeStmts_skippedGoto {target : String} (htarget : target = "L" ∨ target = "M") : ∃ t,
    analyzeStmts (({} : Compiler).analysisSetting []) (skippedGoto target).statements { nextId := 5 } =
        (.ok [.empty ⟨5, {}⟩ .skipped, .label ⟨4, {}⟩ "L"], t) ∧
      t.finish.memory.labelReferenced (.node 4) = (target == "L") ∧ t.finish.diagnostics = #[] := by
  obtain ⟨cfg, hcfg⟩ : ∃ cfg, cfg = ({} : Compiler).analysisSetting [] := ⟨_, rfl⟩
  -- the table is a hash map, which does not compute: what it is asked for is a lemma
  have hstandard : cfg.registry = .standard := hcfg ▸ rfl
  have hinner := Analysis.analyzeStmt_label hstandard ⟨2, {}⟩ "M"
    (s := Analysis.State.enterDead (Analysis.State.enterLoop { nextId := 5 })) Std.HashMap.getElem?_empty
  have hloop : analyzeStmt cfg
      (.loop ⟨0, {}⟩ (.literal ⟨1, {}, .none⟩ (.bool false)) [.label ⟨2, {}⟩ "M", .goto ⟨3, {}⟩ target]) { nextId := 5 } =
      (do
        Analysis.inLoop (Analysis.asDead (analyzeStmts cfg [.label ⟨2, {}⟩ "M", .goto ⟨3, {}⟩ target]))
        Analysis.emptyStmt {} .skipped) { nextId := 5 } := by
    rw [hcfg]
    with_unfolding_all rfl
  obtain ⟨u, hskipped, hstmts, hlabels, hdefine⟩ : ∃ u,
      analyzeStmt cfg (.loop ⟨0, {}⟩ (.literal ⟨1, {}, .none⟩ (.bool false))
        [.label ⟨2, {}⟩ "M", .goto ⟨3, {}⟩ target]) { nextId := 5 } = (.ok (.empty ⟨5, {}⟩ .skipped), u) ∧
      u.table.stmts = ({} : Std.HashMap Nat StmtKind).insert 2 .label ∧
      u.memory.labels = ({} : Std.HashMap (Home StmtKind) Nat).insertIfNew (.node 2) 0 ∧
      ∀ table, ∃ t,
        Analysis.analyzeLabel ⟨4, {}⟩ "L" (.node 4) { u.leaveUnreachable with table } =
          (.ok (.label ⟨4, {}⟩ "L"), t) ∧
        t.finish.memory.labels = u.memory.labels.insertIfNew (.node 4) 1 ∧
        t.finish.memory.isReferenced 1 = (target == "L") ∧ t.finish.diagnostics = #[] := by
    rw [hloop]
    rcases htarget with rfl | rfl
    all_goals
      simp only [Pass.bind_apply, Analysis.inLoop, Analysis.asDead, Pass.update_apply, Pass.ensuring_apply,
        Pass.peek_apply, analyzeStmts, hinner]
      rw [hcfg]
      exact ⟨_, rfl, rfl, rfl, fun _ => ⟨_, rfl, rfl, rfl, rfl⟩⟩
  obtain ⟨t, hlabel, hcells, hreferenced, hreported⟩ := hdefine _
  have houter := (Analysis.analyzeStmt_label hstandard ⟨4, {}⟩ "L" (s := u) (by simp [hstmts])).trans hlabel
  refine ⟨t, ?_, ?_, hreported⟩
  · rw [← hcfg]
    simp only [skippedGoto, analyzeStmts, Pass.bind_apply, hskipped, houter]
    rfl
  · have hcell : (u.memory.labels.insertIfNew (.node 4) 1)[(.node 4 : Home StmtKind)]? = some 1 := by
      rw [Std.HashMap.getElem?_insertIfNew, if_pos]
      simp [hlabels]
    rw [RuleMemory.labelReferenced, hcells, hcell]
    exact hreferenced

/-- What is left of the unit. -/
def labelBehind (table : RuleTable) (memory : RuleMemory) : AnalyzedUnit :=
  { name := "unit", statements := [.empty ⟨5, {}⟩ .skipped, .label ⟨4, {}⟩ "L"], table, memory }

/-- The label is marked in the code if a `goto` goes to it. -/
theorem emit_labelBehind {table : RuleTable} (htable : table.Regular) (memory : RuleMemory) :
    (({} : Compiler).emit (labelBehind table memory) #[] (Chunk.new "unit" none none)).isEmitted = true ∧
      (({} : Compiler).emit (labelBehind table memory) #[] (Chunk.new "unit" none none)).sink.main.labels =
        if memory.labelReferenced (.node 4) then #[some 0] else #[] := by
  have hcfg : ({} : Compiler).loweringSetting.registry = .standard := rfl
  obtain ⟨table', hlabel⟩ := Lowering.exists_lowerStmt_label hcfg htable ⟨4, {}⟩ "L"
  simp only [emit, Lowering.lowerRoutine, Lowering.routineCode, Lowering.thenFrame, Lowering.frame,
    Lowering.updateFrame, emissionStart, labelBehind, Pass.bind_apply, Pass.peek_apply, Pass.update_apply,
    Pass.ensuring_apply, Lowering.lowerStmts, Lowering.lowerStmt_empty hcfg, hlabel]
  cases memory.labelReferenced (.node 4)
  · exact ⟨by with_unfolding_all rfl, by with_unfolding_all rfl⟩
  · exact ⟨by with_unfolding_all rfl, by with_unfolding_all rfl⟩

theorem exists_analyze_skippedGoto {target : String} (htarget : target = "L" ∨ target = "M") : ∃ table memory,
    ({} : Compiler).analyze (skippedGoto target) = (.ok (labelBehind table memory), #[]) ∧ table.Regular ∧
      memory.labelReferenced (.node 4) = (target == "L") := by
  obtain ⟨t, hrun, hreferenced, hreported⟩ := analyzeStmts_skippedGoto htarget
  have hfound : Declarations.collect ({} : Compiler).symbols (skippedGoto target).statements = {} := rfl
  have hanalyze : ({} : Compiler).analyze (skippedGoto target) =
      (.ok (labelBehind t.finish.table t.finish.memory), #[]) := by
    rw [← hreported]
    simp only [analyze, hfound]
    rw [show (skippedGoto target).nextId = 5 from rfl, hrun]
    rfl
  obtain ⟨analyzed, diagnostics, h, hregular, -⟩ := analyze_eq (c := {}) rfl (skippedGoto target)
  cases hanalyze.symm.trans h
  exact ⟨_, _, hanalyze, hregular, hreferenced⟩

/-- **Two units without functions have the same tree after their analysis, and different code.** -/
theorem main_differs_for_skipped_goto : ∃ analyzed analyzed',
    ({} : Compiler).analyze (skippedGoto "L") = (.ok analyzed, #[]) ∧
      ({} : Compiler).analyze (skippedGoto "M") = (.ok analyzed', #[]) ∧
      analyzed.statements = analyzed'.statements ∧
      (({} : Compiler).emit analyzed #[] (Chunk.new "unit" none none)).isEmitted = true ∧
      (({} : Compiler).emit analyzed' #[] (Chunk.new "unit" none none)).isEmitted = true ∧
      (({} : Compiler).emit analyzed #[] (Chunk.new "unit" none none)).sink.main.labels = #[some 0] ∧
      (({} : Compiler).emit analyzed' #[] (Chunk.new "unit" none none)).sink.main.labels = #[] := by
  obtain ⟨table, memory, hanalyze, htable, hreferenced⟩ := exists_analyze_skippedGoto (Or.inl rfl)
  obtain ⟨table', memory', hanalyze', htable', hreferenced'⟩ := exists_analyze_skippedGoto (Or.inr rfl)
  obtain ⟨hemitted, hlabels⟩ := emit_labelBehind htable memory
  obtain ⟨hemitted', hlabels'⟩ := emit_labelBehind htable' memory'
  rw [hreferenced] at hlabels
  rw [hreferenced'] at hlabels'
  exact ⟨_, _, hanalyze, hanalyze', rfl, hemitted, hemitted', hlabels, hlabels'⟩

end Compiler
end PhpLowering
