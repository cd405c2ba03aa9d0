import Mathlib
import PhpLowering.Proofs.Analysis.Origins
import PhpLowering.Proofs.Constants
import PhpLowering.Proofs.Lowering.Targets

/-!
# What emitted code stores to

Whether something can be stored to is checked when it is addressed, which is after the analysis.  So
what is checked is what analysis has left of the target, not the target itself.

* `designates_of_emitted`: whatever an emitted unit stores to or removes was a location in the source,
  or a conditional that becomes one because the constants known by then decide its condition.  Without
  folding it was a location.
* `stored_to_conditional`: with folding it need not have been one.
-/

namespace PhpLowering

namespace Node

theorem sublist_numbers (nodes : List Node) : (numbers nodes).Sublist (nodes.map Node.id) := by
  induction nodes with
  | nil => exact List.Sublist.refl _
  | cons n rest ih =>
    cases n with
    | stmt => exact ih.cons _
    | expr e =>
      cases e with
      | literal => exact ih.cons _
      | _ => exact ih.cons_cons _

end Node

namespace Expr

variable {decided : Expr → Option Bool}

/-- What becomes locations designates locations. -/
theorem designates_of_replaces {ts ts' : List Expr} (h : List.Forall₂ (Replaces decided) ts ts')
    (hplaces : ∀ t ∈ ts', t.isPlace = true) : ∀ t ∈ ts, Designates decided t := by
  induction h with
  | nil => exact nofun
  | cons hfirst _ ih =>
    obtain ⟨hplace, hrest⟩ := List.forall_mem_cons.mp hplaces
    exact List.forall_mem_cons.mpr ⟨hfirst hplace, ih hrest⟩

/-- If nothing is decided, only a location designates one. -/
theorem Designates.isPlace {e : Expr} (h : Designates decided e) (hnone : ∀ c, decided c = none) :
    e.isPlace = true := by
  cases h with
  | place h => exact h
  | ifTrue h | ifFalse h | otherwise h => exact nomatch (hnone _).symm.trans h

end Expr

namespace Analysis

variable {cfg : Setting} {body : List Stmt} {s t : State} {name : String} {v : Literal}

variable (cfg body s) in
/-- All constants that are known have been declared. -/
def Sourced (t : State) : Prop :=
  ∀ p ∈ t.constants, ∃ d, Declares cfg body s d p.1 p.2

instance : Stable (Sourced cfg body s) where
  alike h _ hconstants p hp := h p (hconstants ▸ hp)
  report _ _ _ h := h

theorem sourced_declareConstant {tag : StmtTag} {value : Expr} {ev : Evaluation} {u : State}
    (hcomes : Comes cfg body s (.constDecl tag name value) t)
    (hvalue : analyze cfg value .read t = (.ok ev, u)) (hv : ev.value? = some v)
    (hu : Sourced cfg body s u) : Sourced cfg body s (u.declareConstant cfg name v tag.span).2 := by
  unfold State.declareConstant
  split
  · exact Stable.report _ nofun hu
  · rename_i hunknown
    refine List.forall_mem_cons.mpr ⟨⟨_, tag, value, t, ev, u, rfl, hcomes, ?_, hvalue, hv⟩, hu⟩
    rw [← constants_analyze hvalue]
    unfold State.constant? at hunknown
    cases hlookup : u.constants.lookup name with
    | none => rfl
    | some w => simp [hlookup] at hunknown

theorem harmless_sourced : Harmless cfg (Sourced cfg body s) body s := by
  intro tag name value t hcomes
  refine KeepsAt.bind (preserves_analyze cfg value .read).keepsAt fun ev u hvalue => ?_
  cases hv : ev.value? with
  | none => exact Preserves.keepsAt inferInstance
  | some v =>
    have hdeclare : KeepsAt (Sourced cfg body s)
        (Pass.transform (State.declareConstant cfg name v tag.span)) u :=
      sourced_declareConstant hcomes hvalue hv
    exact hdeclare.thenPreserves fun _ => inferInstance

end Analysis

namespace Compiler

open Analysis (Declares settled)

variable {c : Compiler} {unit : SourceUnit}

/-- What is left of a unit comes from its nodes, and the constants known in the end from its
declarations. -/
theorem remains_of_analyze (hc : c.registry = .standard) {analyzed : AnalyzedUnit}
    {diagnostics : Array Diagnostic} (h : c.analyze unit = (.ok analyzed, diagnostics)) :
    ∃ known, (∀ p ∈ known, ∃ d,
        Declares (c.unitSetting unit) unit.statements (c.analysisStart unit) d p.1 p.2) ∧
      Node.Remains (c.unitSetting unit) known (Stmt.nodesOf unit.statements)
        (Stmt.nodesOf analyzed.statements) := by
  have hcfg : (c.unitSetting unit).registry = .standard := hc
  obtain ⟨statements, t, hrun, -, hremains⟩ :=
    (Analysis.retains_analyzeStmts hcfg unit.statements (c.analysisStart unit)
      RuleTable.regular_empty).exists_ok
  have hsourced : Analysis.Sourced (c.unitSetting unit) unit.statements (c.analysisStart unit) t :=
    (Analysis.carries_analyzeStmts _ _ Analysis.harmless_sourced).of_run (fun _ hp => nomatch hp) hrun
  rw [statements_of_analyze h hrun]
  exact ⟨t.constants, hsourced, hremains _ (List.suffix_refl _)⟩

/-- An emission that went well has found locations wherever it stored to something. -/
theorem places_of_emit (hc : c.registry = .standard) {analyzed : AnalyzedUnit}
    {diagnostics : Array Diagnostic} {chunk : Chunk}
    (hnumbers : (Node.numbers (Stmt.nodesOf analyzed.statements)).Nodup)
    (h : (c.emit analyzed diagnostics chunk).isEmitted = true) :
    ∀ n ∈ Stmt.nodesOf analyzed.statements, ∀ t ∈ n.targets, t.isPlace = true := by
  have hcfg : c.loweringSetting.registry = .standard := hc
  have hchecks := Lowering.checks_routineCode false
    (Lowering.checks_lowerStmts hcfg analyzed.statements hnumbers)
  rcases hrun : Lowering.lowerRoutine c.loweringSetting analyzed.statements false
    (c.emissionStart analyzed diagnostics chunk) with ⟨result, t⟩
  cases result with
  | error e =>
    simp only [emit, hrun, Outcome.isEmitted] at h
    cases h
  | ok a =>
    intro n hn target htarget
    exact ((hchecks _ rfl).of_ok hrun).2 target (List.mem_flatMap.mpr ⟨n, hn, htarget⟩)

/-- **Whatever an emitted unit stores to or removes designated a location in the source**, if the
conditions that constants of the unit decide are taken for granted.  Every assignment, increment,
destructuring and removal that analysis leaves is one of the source with the same number and as many
targets.  If constants are not folded, all of these were locations. -/
theorem designates_of_emitted (hc : c.registry = .standard) (hnumbered : unit.Numbered) (chunk : Chunk)
    (h : (c.compile unit chunk).isEmitted = true) :
    ∃ compiled, (c.compile unit chunk).result = .ok compiled ∧
      ∀ m ∈ Stmt.nodesOf compiled.statements, m.stores = true →
        (∀ t ∈ m.targets, t.isPlace = true) ∧
        ∃ n ∈ Stmt.nodesOf unit.statements, n.id = m.id ∧ n.kind = m.kind ∧
          n.targets.length = m.targets.length ∧
          (∃ known, (∀ p ∈ known, ∃ d,
              Declares (c.unitSetting unit) unit.statements (c.analysisStart unit) d p.1 p.2) ∧
            ∀ t ∈ n.targets, t.Designates (settled (c.unitSetting unit) known)) ∧
          (c.options.foldConstants = false → ∀ t ∈ n.targets, t.isPlace = true) := by
  obtain ⟨analyzed, diagnostics, hanalyze, -, heq⟩ := emit_of_isEmitted h
  obtain ⟨known, hknown, hremains⟩ := remains_of_analyze hc hanalyze
  rw [heq] at h ⊢
  have hplaces := places_of_emit hc
    ((hnumbered.sublist (Node.sublist_numbers _)).sublist hremains.numbers) h
  refine ⟨analyzed.compiled true, ?_, fun m hm hstores => ⟨hplaces m hm, ?_⟩⟩
  · unfold emit at h ⊢
    split at h
    · rfl
    · exact nomatch h
  · obtain ⟨n, hn, hnm⟩ := hremains.writers m hm hstores
    obtain ⟨declared, hdeclared, hreplaces⟩ := hnm.targets
    have hdesignates := Expr.designates_of_replaces hreplaces (hplaces m hm)
    refine ⟨n, hn, hnm.id.symm, hnm.kind.symm, hreplaces.length_eq,
      ⟨declared, fun p hp => hknown p (hdeclared.subset hp), hdesignates⟩, fun hfold t ht => ?_⟩
    exact (hdesignates t ht).isPlace fun _ => if_neg (by rw [unitSetting, analysisSetting, hfold]; nofun)

/-- The constant `N` is zero, and then this is stored to and removed:
`(N ? $a : $b[1]) = 2; list($x, , list($y[3])) = $c; $d++; unset($e[4])`. -/
def guardedStores : SourceUnit :=
  { name := "unit", nextId := 25, span := {}
    statements := [
      .constDecl ⟨0, {}⟩ "N" (.literal ⟨1, {}, .none⟩ (.int 0)),
      .expression ⟨2, {}⟩ (.assign ⟨3, {}, .none⟩
        (.conditional ⟨4, {}, .none⟩ (.constant ⟨5, {}, .none⟩ "N") (.var ⟨6, {}, .none⟩ "a")
          (.item ⟨7, {}, .none⟩ (.var ⟨8, {}, .none⟩ "b") (.literal ⟨9, {}, .none⟩ (.int 1))))
        (.literal ⟨10, {}, .none⟩ (.int 2))),
      .expression ⟨11, {}⟩ (.list ⟨12, {}, .none⟩
        [.leaf (.var ⟨13, {}, .none⟩ "x"), .skip,
          .nested [.leaf (.item ⟨14, {}, .none⟩ (.var ⟨15, {}, .none⟩ "y")
            (.literal ⟨16, {}, .none⟩ (.int 3)))]]
        (.var ⟨17, {}, .none⟩ "c")),
      .expression ⟨18, {}⟩ (.incDec ⟨19, {}, .none⟩ true true (.var ⟨20, {}, .none⟩ "d")),
      .unset ⟨21, {}⟩ [.item ⟨22, {}, .none⟩ (.var ⟨23, {}, .none⟩ "e")
        (.literal ⟨24, {}, .none⟩ (.int 4))]] }

theorem designates_guardedStores :
    (({} : Compiler).compile guardedStores (Chunk.new "unit" none none)).isEmitted = true ∧
      ∃ compiled, (({} : Compiler).compile guardedStores (Chunk.new "unit" none none)).result =
          .ok compiled ∧
        ∀ m ∈ Stmt.nodesOf compiled.statements, m.stores = true →
          ∃ n ∈ Stmt.nodesOf guardedStores.statements, n.id = m.id ∧
            ∃ known, ∀ t ∈ n.targets,
              t.Designates (settled (({} : Compiler).unitSetting guardedStores) known) := by
  have h : (({} : Compiler).compile guardedStores (Chunk.new "unit" none none)).isEmitted = true := by cbv
  have hnumbered : guardedStores.Numbered := by
    unfold SourceUnit.Numbered
    decide
  obtain ⟨compiled, hresult, hstores⟩ := designates_of_emitted rfl hnumbered _ h
  refine ⟨h, compiled, hresult, fun m hm hm' => ?_⟩
  obtain ⟨-, n, hn, hid, -, -, ⟨known, -, hdesignates⟩, -⟩ := hstores m hm hm'
  exact ⟨n, hn, hid, known, hdesignates⟩

/-- `(true ? $a : $b) = 1` -/
def storedConditional : SourceUnit :=
  { name := "unit", nextId := 7, span := {}
    statements := [.expression ⟨0, {}⟩ (.assign ⟨1, {}, .none⟩
      (.conditional ⟨2, {}, .none⟩ (.literal ⟨3, {}, .none⟩ (.bool true)) (.var ⟨4, {}, .none⟩ "a")
        (.var ⟨5, {}, .none⟩ "b"))
      (.literal ⟨6, {}, .none⟩ (.int 1)))] }

/-- What is stored to among nodes: the number of each node that stores, and the kinds of its targets. -/
def storedKinds (statements : List Stmt) : List (Nat × List ExprKind) :=
  ((Stmt.nodesOf statements).filter Node.stores).map fun n => (n.id, n.targets.map Expr.kind)

/-- **A conditional with a known condition is stored to**, if constants are folded, and refused
otherwise. -/
theorem stored_to_conditional :
    (({} : Compiler).compile storedConditional (Chunk.new "unit" none none)).isEmitted = true ∧
      (match (({} : Compiler).compile storedConditional (Chunk.new "unit" none none)).result with
        | .ok compiled => storedKinds compiled.statements
        | .error _ => []) = [(1, [.variable])] ∧
      storedKinds storedConditional.statements = [(1, [.conditional])] ∧
      (({ options := { foldConstants := false } } : Compiler).compile storedConditional
        (Chunk.new "unit" none none)).isEmitted = false := by
  decide +kernel

end Compiler
end PhpLowering
