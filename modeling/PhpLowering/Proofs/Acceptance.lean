import PhpLowering.Proofs.Analysis.Stmt
import PhpLowering.Proofs.Emission

/-!
# Units that the analysis accepts

The two halves of the lowering share a tree and a rule memory, and the second half checks
little of what it finds there.  Here is what it can rely on if the analysis has reported no
error.

* **`emitted_or_refused`**: the unit is emitted, or it is refused for what can be seen in the
  tree.  No other failure occurs.
* **`allMarked_iff_of_emitted`**: every label that the code mentions is marked, if and only if
  every `goto` that is left goes to a label statement that is left in the same routine.

The analysis makes sure that every label which is gone to is defined, but it does so before it
is known what is left.  The body of a loop that never runs is thrown away with the labels in
it, `goto` statements to them are not: `allMarked_fails_for_skipped_loop`.
-/

namespace PhpLowering

/-- The bodies of the routines of a unit: its statements, and those of the functions in it. -/
def Stmt.bodies (statements : List Stmt) : List (List Stmt) :=
  statements :: (Stmt.functionsOf statements).map Prod.snd

/-- The targets of the `goto` statements in the body of a routine. -/
def Stmt.gotosOf (body : List Stmt) : List String :=
  (Stmt.ownOf body).filterMap Stmt.goto?

/-- The names of the label statements in the body of a routine. -/
def Stmt.labelsOf (body : List Stmt) : List String :=
  (Stmt.ownOf body).filterMap Stmt.label?

/-- The names of the label statements that get a mark in the code. -/
def Stmt.marksOf (memory : RuleMemory) (body : List Stmt) : List String :=
  (Stmt.ownOf body).filterMap (Stmt.mark? memory)

/-- The number of a node. -/
def Node.id : Node → Nat
  | .expr e => e.id
  | .stmt s => s.id

/-- Different nodes have different numbers. -/
def SourceUnit.Numbered (unit : SourceUnit) : Prop :=
  ((Stmt.nodesOf unit.statements).map Node.id).Nodup

namespace Analysis

/-- If nodes have different numbers, so have the label statements among them. -/
theorem nodup_labelIds {nodes : List Node} (h : (nodes.map Node.id).Nodup) :
    (Node.labelIds nodes).Nodup := by
  refine h.sublist ?_
  clear h
  induction nodes with
  | nil => exact List.Sublist.refl _
  | cons n rest ih =>
    unfold Node.labelIds at ih ⊢
    cases hid : n.labelId? with
    | none =>
      rw [List.filterMap_cons_none hid]
      exact ih.cons _
    | some i =>
      rw [List.filterMap_cons_some hid]
      have heq : n.id = i := by
        unfold Node.labelId? at hid
        split at hid
        · exact Option.some.inj hid
        · exact nomatch hid
      rw [List.map_cons, heq]
      exact ih.cons_cons i

/-- Where labels are linked, the label statements that are gone to are those that get a mark. -/
theorem Linked.mem_marksOf_iff {memory : RuleMemory} {body : List Stmt} (h : Linked memory body)
    {name : String} (hgoto : name ∈ Stmt.gotosOf body) :
    name ∈ Stmt.marksOf memory body ↔ name ∈ Stmt.labelsOf body := by
  constructor
  · intro hmark
    exact (Stmt.filterMap_mark?_sublist memory _).subset hmark
  · intro hlabel
    obtain ⟨x, hx, heq⟩ := List.mem_filterMap.mp hlabel
    refine List.mem_filterMap.mpr ⟨x, hx, ?_⟩
    cases x with
    | label tag n =>
      obtain rfl := Option.some.inj heq
      simp only [Stmt.mark?, h tag n hx hgoto, if_true]
    | _ => exact nomatch heq

/-- A statement that can be reached is handed to the rule that the table has for it. -/
theorem ifAlive_of_stmt {cfg : Setting} (hc : cfg.registry = .standard) {x : Stmt} {home : Home StmtKind}
    {s : State} (hlabel : x.isLabel = false) (halive : s.unreachable = false)
    (h : RuleTable.stmt .standard x.kind x.id s.table = (.ok ⟨x.kind, home⟩, s.table))
    (analyzed : Home StmtKind → Analyze Stmt) : ifAlive cfg x analyzed s = analyzed home s := by
  have hrule : ifAlive cfg x analyzed s = byStmtRule cfg x analyzed s := by
    rw [ifAlive, if_neg (Bool.eq_false_iff.mp hlabel), Pass.bind_apply, Pass.peek_apply]
    simp only [halive, Bool.false_and, Bool.false_eq_true, if_false]
  rw [hrule, byStmtRule, Pass.bind_apply, onTable, hc, h]
  exact congrFun (if_pos rfl) s

/-- A label statement for which the table has the rule for labels is analysed by it. -/
theorem analyzeStmt_label_of_stmt {cfg : Setting} (hc : cfg.registry = .standard) {tag : StmtTag}
    (name : String) {s : State} {table : RuleTable}
    (h : RuleTable.stmt .standard .label tag.id s.table = (.ok ⟨.label, .node tag.id⟩, table)) :
    analyzeStmt cfg (.label tag name) s =
      analyzeLabel tag name (.node tag.id) { s.leaveUnreachable with table } := by
  have hrule : analyzeStmt cfg (.label tag name) s =
      byStmtRule cfg (.label tag name) (analyzeLabel tag name) s.leaveUnreachable := rfl
  rw [hrule, byStmtRule, Pass.bind_apply, onTable, hc]
  simp only [Stmt.kind, Stmt.id, Stmt.tag, State.leaveUnreachable, State.restore, h]
  rfl

/-- A label statement that no other node shares its number with is analysed on its own. -/
theorem analyzeStmt_label {cfg : Setting} (hc : cfg.registry = .standard) (tag : StmtTag)
    (name : String) {s : State} (h : s.table.stmts[tag.id]? = none) :
    analyzeStmt cfg (.label tag name) s = analyzeLabel tag name (.node tag.id)
      { s.leaveUnreachable with
        table := { s.table with stmts := s.table.stmts.insert tag.id .label } } := by
  refine analyzeStmt_label_of_stmt hc name ?_
  simp only [RuleTable.stmt, RuleTable.lookup, RuleTable.attach, h]
  rfl

end Analysis

namespace Compiler

open Analysis (Linked)

variable {c : Compiler} {unit : SourceUnit}

/-- What is known of an analysed unit that is accepted. -/
structure Accepted (unit : SourceUnit) (analyzed : AnalyzedUnit) : Prop where
  serves : Stmt.ServesAll (Refuses (Stmt.nodesOf analyzed.statements)) analyzed.statements 0
  nodup : (Stmt.labelsOf analyzed.statements).Nodup
  linked : unit.Numbered → ∀ body ∈ Stmt.bodies analyzed.statements, Linked analyzed.memory body

theorem hasErrors_eq_false_iff {diagnostics : Array Diagnostic} :
    hasErrors diagnostics = false ↔ ∀ d ∈ diagnostics, d.isError = false := by
  unfold hasErrors
  rw [Array.any_eq_false']
  simp only [Bool.not_eq_true]

/-- **With the standard registry every unit is analysed.** -/
theorem analyze_eq (hc : c.registry = .standard) (unit : SourceUnit) :
    ∃ analyzed diagnostics, c.analyze unit = (.ok analyzed, diagnostics) ∧ analyzed.table.Regular ∧
      (hasErrors diagnostics = false → Accepted unit analyzed) := by
  obtain ⟨found, hfound⟩ : ∃ found, found = Declarations.collect c.symbols unit.statements := ⟨_, rfl⟩
  obtain ⟨s, hs⟩ : ∃ s : Analysis.State, s =
    { nextId := unit.nextId, diagnostics := found.diagnostics.toArray } := ⟨_, rfl⟩
  have hsound : Analysis.Sound s := by
    rw [hs]
    exact ⟨RuleTable.regular_empty, nofun⟩
  have hcfg : (c.analysisSetting found.functions).registry = .standard := hc
  obtain ⟨statements, t, hrun, h⟩ :=
    (Analysis.settles_analyzeStmts hcfg unit.statements s hsound).exists_ok
  have henclosing : t.enclosing = [] := by
    rw [h.advances.enclosing, hs]
  have hfinish : t.finish = t.reportUndefined := by
    simp only [Analysis.State.finish, henclosing, List.foldl_nil]
  have hcalm : Analysis.Calm t t.finish := hfinish ▸ Analysis.calm_reportUndefined t
  refine ⟨{ name := unit.name, statements, table := t.finish.table, memory := t.finish.memory },
    t.finish.diagnostics, ?_, hcalm.table (h.advances.sound hsound).table, fun herrors => ?_⟩
  · simp only [analyze, ← hfound, ← hs, hrun]
  have hclean : t.Clean := hcalm.advances.clean (hasErrors_eq_false_iff.mp herrors)
  refine ⟨?_, h.nodup hclean, fun hnumbered => ?_⟩
  · have hserves := h.serves hclean (Stmt.nodesOf statements) fun _ hn => hn
    rw [hs] at hserves
    exact hserves
  · have hfresh : Analysis.FreshIds (Node.labelIds (Stmt.nodesOf unit.statements)) s := by
      refine ⟨Analysis.nodup_labelIds hnumbered, fun i _ => ?_⟩
      rw [hs]
      exact Std.HashMap.getElem?_empty
    refine List.forall_mem_cons.mpr ⟨(h.linked_body hclean hfresh).extend hcalm.extends, ?_⟩
    intro body hbody
    obtain ⟨p, hp, rfl⟩ := List.mem_map.mp hbody
    exact (h.linked hclean hfresh p hp).extend hcalm.extends

theorem regular_of_analyze (hc : c.registry = .standard) {analyzed : AnalyzedUnit} {diagnostics : Array Diagnostic}
    (h : c.analyze unit = (.ok analyzed, diagnostics)) : analyzed.table.Regular := by
  obtain ⟨analyzed', diagnostics', h', hregular, -⟩ := analyze_eq hc unit
  cases h.symm.trans h'
  exact hregular

/-- The failures that are accepted for a tree. -/
theorem tolerates_refuses (nodes : List Node) : Lowering.Tolerates (Refuses nodes) :=
  ⟨.resource, fun _ _ h => h⟩

/-- **An accepted unit is emitted, or refused for what can be seen in its tree.** -/
theorem emitted_or_refused (hc : c.registry = .standard) (h : hasErrors (c.analyze unit).2 = false)
    (name : String) (filePath : Option String) (tempLimit : Option Nat) :
    ∃ analyzed, (c.analyze unit).1 = .ok analyzed ∧
      ((c.compile unit (Chunk.new name filePath tempLimit)).isEmitted = true ∨
        ∃ e, (c.compile unit (Chunk.new name filePath tempLimit)).result = .error e ∧
          Refusal (Stmt.nodesOf analyzed.statements) e.root) := by
  obtain ⟨analyzed, diagnostics, hanalyze, hregular, haccepted⟩ := analyze_eq hc unit
  rw [hanalyze] at h ⊢
  have haccepted := haccepted h
  refine ⟨analyzed, rfl, ?_⟩
  have hcompile : c.compile unit (Chunk.new name filePath tempLimit) =
      c.emit analyzed diagnostics (Chunk.new name filePath tempLimit) := by
    have hclean : ¬ hasErrors diagnostics = true := by
      rw [h]
      nofun
    simp only [compile, hanalyze, if_neg hclean]
  have hends := Lowering.ends_lowerRoutine (tolerates_refuses (Stmt.nodesOf analyzed.statements))
    (show c.loweringSetting.registry = .standard from hc) analyzed.statements name filePath tempLimit
    analyzed.table analyzed.memory diagnostics c.releases (.mk hregular) (.mk ⟨haccepted.serves, haccepted.nodup⟩)
  rw [hcompile]
  rcases hrun : Lowering.lowerRoutine c.loweringSetting analyzed.statements false
    (c.emissionStart analyzed diagnostics (Chunk.new name filePath tempLimit)) with ⟨result, t⟩
  cases result with
  | ok a =>
    left
    simp only [emit, hrun, Outcome.isEmitted, AnalyzedUnit.compiled]
  | error e =>
    right
    simp only [emit, hrun]
    exact ⟨e, rfl, hends.of_error hrun⟩

/-- The location past the end of an array is read. -/
def readAppend : SourceUnit :=
  { name := "unit", nextId := 3, span := {}
    statements := [.echo ⟨0, {}⟩ [.append ⟨1, {}, .none⟩ (.var ⟨2, {}, .none⟩ "a")]] }

theorem emitted_or_refused_readAppend :
    hasErrors (({} : Compiler).analyze readAppend).2 = false ∧
      ∃ analyzed, (({} : Compiler).analyze readAppend).1 = .ok analyzed ∧
        ((({} : Compiler).compile readAppend (Chunk.new "unit" none none)).isEmitted = true ∨
          ∃ e, (({} : Compiler).compile readAppend (Chunk.new "unit" none none)).result = .error e ∧
            Refusal (Stmt.nodesOf analyzed.statements) e.root) := by
  have h : hasErrors (({} : Compiler).analyze readAppend).2 = false := by
    decide +kernel
  exact ⟨h, emitted_or_refused rfl h "unit" none none⟩

example : (({} : Compiler).compile readAppend (Chunk.new "unit" none none)).isEmitted = false := by
  decide +kernel

/-! ## Marks -/

/-- Something holds of all functions if and only if what it comes down to holds of their bodies. -/
theorem forall_functions_iff {A : Routine → Prop} {B : List Stmt → Prop}
    {ps : List (FunctionHead × List Stmt)} {fs : List Routine}
    (h : List.Forall₂ (fun p f => A f ↔ B p.2) ps fs) :
    (∀ f ∈ fs, A f) ↔ ∀ body ∈ ps.map Prod.snd, B body := by
  induction h with
  | nil => exact ⟨nofun, nofun⟩
  | cons hfirst _ ih =>
    rw [List.map_cons, List.forall_mem_cons, List.forall_mem_cons, hfirst, ih]

/-- **The labels in emitted code are marked, if and only if the labels that are gone to are left.** -/
theorem allMarked_iff_of_emitted (hc : c.registry = .standard) (name : String)
    (filePath : Option String) (tempLimit : Option Nat)
    (h : (c.compile unit (Chunk.new name filePath tempLimit)).isEmitted = true) :
    ∃ analyzed, (c.analyze unit).1 = .ok analyzed ∧
      ((∀ r ∈ (c.compile unit (Chunk.new name filePath tempLimit)).sink.routines, r.AllMarked) ↔
        ∀ body ∈ Stmt.bodies analyzed.statements, ∀ target ∈ Stmt.gotosOf body,
          target ∈ Stmt.marksOf analyzed.memory body) ∧
      (unit.Numbered → ∀ body ∈ Stmt.bodies analyzed.statements, ∀ target ∈ Stmt.gotosOf body,
        (target ∈ Stmt.marksOf analyzed.memory body ↔ target ∈ Stmt.labelsOf body)) := by
  obtain ⟨analyzed, diagnostics, hanalyze, herrors, heq⟩ := emit_of_isEmitted h
  obtain ⟨analyzed', diagnostics', hanalyze', -, haccepted⟩ := analyze_eq hc unit
  obtain ⟨hok, rfl⟩ := Prod.mk.inj (hanalyze.symm.trans hanalyze')
  obtain rfl := Except.ok.inj hok
  refine ⟨analyzed, by rw [hanalyze], ?_, fun hnumbered body hbody target hgoto => ?_⟩
  · rw [heq] at h ⊢
    have hcode := codeOf_of_emit hc h
    have hfunctions := forall_functions_iff (A := Routine.AllMarked) (B := fun body =>
      ∀ target ∈ Stmt.gotosOf body, target ∈ Stmt.marksOf analyzed.memory body)
      (hcode.functions.imp fun _ _ hf => hf.allMarked_iff)
    unfold Chunk.routines Stmt.bodies
    rw [List.forall_mem_cons, List.forall_mem_cons, hcode.main.allMarked_iff, hfunctions]
    rfl
  · exact ((haccepted herrors).linked hnumbered body hbody).mem_marksOf_iff hgoto

/-- A `goto` to a label in a loop that never runs. -/
def skippedLoop : SourceUnit :=
  { name := "unit", nextId := 4, span := {}
    statements := [
      .loop ⟨0, {}⟩ (.literal ⟨1, {}, .none⟩ (.bool false)) [.label ⟨2, {}⟩ "L"],
      .goto ⟨3, {}⟩ "L"] }

/-- The label is met by the analysis, and gone with the loop. -/
theorem analyzeStmts_skippedLoop : ∃ t,
    Analysis.analyzeStmts (({} : Compiler).analysisSetting []) skippedLoop.statements { nextId := 4 } =
      (.ok [.empty ⟨4, {}⟩ .skipped, .goto ⟨3, {}⟩ "L"], t) ∧ t.finish.diagnostics = #[] := by
  obtain ⟨cfg, hcfg⟩ : ∃ cfg, cfg = ({} : Compiler).analysisSetting [] := ⟨_, rfl⟩
  -- the table is a hash map, which does not compute: what it is asked for is a lemma
  have hstandard : cfg.registry = .standard := hcfg ▸ rfl
  have hlabel := Analysis.analyzeStmt_label hstandard ⟨2, {}⟩ "L"
    (s := Analysis.State.enterDead (Analysis.State.enterLoop { nextId := 4 }))
    Std.HashMap.getElem?_empty
  have hloop : Analysis.analyzeStmt cfg
      (.loop ⟨0, {}⟩ (.literal ⟨1, {}, .none⟩ (.bool false)) [.label ⟨2, {}⟩ "L"]) { nextId := 4 } =
      (do
        Analysis.inLoop (Analysis.asDead (Analysis.analyzeStmts cfg [.label ⟨2, {}⟩ "L"]))
        Analysis.emptyStmt {} .skipped) { nextId := 4 } := by
    rw [hcfg]
    with_unfolding_all rfl
  rw [← hcfg]
  simp only [skippedLoop, Analysis.analyzeStmts, Pass.bind_apply, hloop, Analysis.inLoop,
    Analysis.asDead, Pass.update_apply, Pass.ensuring_apply, Pass.peek_apply, hlabel]
  rw [hcfg]
  exact ⟨_, rfl, rfl⟩

/-- The code of the unit is a branch to a label that has no position. -/
theorem compile_skippedLoop :
    (({} : Compiler).compile skippedLoop (Chunk.new "unit" none none)).isEmitted = true ∧
      (({} : Compiler).compile skippedLoop (Chunk.new "unit" none none)).sink.main.code[0]? =
        some (.branch ⟨0⟩) ∧
      (({} : Compiler).compile skippedLoop (Chunk.new "unit" none none)).sink.main.labelPosition? ⟨0⟩ =
        none := by
  obtain ⟨t, hrun, hreported⟩ := analyzeStmts_skippedLoop
  have hfound : Declarations.collect ({} : Compiler).symbols skippedLoop.statements = {} := rfl
  have hanalyze : ({} : Compiler).analyze skippedLoop =
      (.ok { name := "unit", statements := [.empty ⟨4, {}⟩ .skipped, .goto ⟨3, {}⟩ "L"],
             table := t.finish.table, memory := t.finish.memory }, #[]) := by
    rw [← hreported]
    simp only [analyze, hfound]
    rw [show skippedLoop.nextId = 4 from rfl, hrun]
    rfl
  rw [compile, hanalyze]
  exact ⟨by with_unfolding_all rfl, by with_unfolding_all rfl, by with_unfolding_all rfl⟩

theorem allMarked_iff_skippedLoop :
    (({} : Compiler).compile skippedLoop (Chunk.new "unit" none none)).isEmitted = true ∧
      ∃ analyzed, (({} : Compiler).analyze skippedLoop).1 = .ok analyzed ∧
        ((∀ r ∈ (({} : Compiler).compile skippedLoop (Chunk.new "unit" none none)).sink.routines,
            r.AllMarked) ↔
          ∀ body ∈ Stmt.bodies analyzed.statements, ∀ target ∈ Stmt.gotosOf body,
            target ∈ Stmt.marksOf analyzed.memory body) ∧
        (skippedLoop.Numbered →
          ∀ body ∈ Stmt.bodies analyzed.statements, ∀ target ∈ Stmt.gotosOf body,
            (target ∈ Stmt.marksOf analyzed.memory body ↔ target ∈ Stmt.labelsOf body)) :=
  ⟨compile_skippedLoop.1, allMarked_iff_of_emitted rfl "unit" none none compile_skippedLoop.1⟩

/-- The unit is accepted and emitted, and not all of its labels are marked. -/
theorem allMarked_fails_for_skipped_loop :
    (({} : Compiler).compile skippedLoop (Chunk.new "unit" none none)).isEmitted = true ∧
      ¬ ∀ r ∈ (({} : Compiler).compile skippedLoop (Chunk.new "unit" none none)).sink.routines,
        r.AllMarked := by
  obtain ⟨hemitted, hcode, hlabel⟩ := compile_skippedLoop
  refine ⟨hemitted, fun hall => ?_⟩
  obtain ⟨p, hp, -⟩ := hall _ List.mem_cons_self hcode List.mem_cons_self
  exact nomatch hlabel.symm.trans hp

end Compiler
end PhpLowering
