import PhpLowering.Proofs.Analysis.Numbering
import PhpLowering.Proofs.Constants

/-!
# The identity of nodes

What rules remember about a node, and what the emission keeps for it, is kept under the node's number.
`numbered_of_analyze` says that numbers go on to stand for single nodes: if the nodes of a unit have
different numbers, all below the next one to be given out, then so have those of the analysed tree,
whatever the analysis has folded, replaced or left out.  This holds with every registry, as long as the
numbering does not come round; `analyzedIds_worn` shows what happens when it does.

Nothing has to be asked of the next number where only the nodes of the unit count: new nodes are never array
literals, so the keys of a literal are always counted under a number of its own (`keyCount_of_analyze`).
-/

namespace PhpLowering
namespace Compiler

open Analysis (analyzeStmts Ledger)

variable {c : Compiler} {unit : SourceUnit}

/-- A unit that is analysed has been analysed statement by statement. -/
theorem exists_run_of_analyze {analyzed : AnalyzedUnit} {diagnostics : Array Diagnostic}
    (h : c.analyze unit = (.ok analyzed, diagnostics)) :
    ∃ s, analyzeStmts (c.unitSetting unit) unit.statements (c.analysisStart unit) = (.ok analyzed.statements, s) ∧
      analyzed.table = s.finish.table ∧ analyzed.memory = s.finish.memory ∧ diagnostics = s.finish.diagnostics := by
  unfold analyze at h
  dsimp only at h
  split at h
  · exact nomatch h
  · rename_i statements s hrun
    cases h
    exact ⟨s, hrun, rfl, rfl, rfl⟩

/-- Where the analysis of a unit starts. -/
def ledger (c : Compiler) (unit : SourceUnit) : Ledger :=
  ⟨c.unitSetting unit, (Stmt.nodesOf unit.statements).map Node.id, unit.nextId⟩

/-- The tokens of an analysed tree are true of the state that the analysis has come to. -/
theorem balance_of_analyze (hnumbered : unit.Numbered) {statements : List Stmt} {s : Analysis.State}
    (h : analyzeStmts (c.unitSetting unit) unit.statements (c.analysisStart unit) = (.ok statements, s)) :
    (c.ledger unit).Balance (Stmt.taggedAll Expr.keys statements) s.finish.nextId s.finish.memory := by
  have hids := Stmt.map_fst_taggedAll Expr.noKeys unit.statements
  have hid : ∀ token ∈ Stmt.taggedAll Expr.noKeys unit.statements,
      token.1 ∈ (Stmt.nodesOf unit.statements).map Node.id :=
    fun token htoken => hids ▸ List.mem_map_of_mem htoken
  have hnodup : ((Stmt.taggedAll Expr.noKeys unit.statements).map Prod.fst).Nodup := hids ▸ hnumbered
  have hstart : (c.ledger unit).Balance (Stmt.taggedAll Expr.noKeys unit.statements ++ [])
      (c.analysisStart unit).nextId (c.analysisStart unit).memory := by
    rw [List.append_nil]
    exact
      { given := fun token htoken => Or.inl (hid token htoken)
        le := Nat.le_refl _
        nodup := fun _ => hnodup
        below := fun hsteady token htoken => hsteady.1 _ (hid token htoken)
        arrays := fun _ => hnodup.sublist (List.filter_sublist.map Prod.fst)
        counted := fun _ i k htoken => by
          obtain ⟨n, -, htoken⟩ := List.mem_map.mp htoken
          obtain rfl : k = {} := Node.eq_of_token_noKeys htoken
          exact RuleMemory.keyCount_empty _ }
  have hend := (Analysis.numbers_analyzeStmts (L := c.ledger unit) unit.statements [] _ hstart).of_ok h
  rw [List.append_nil] at hend
  obtain ⟨hnext, hkeys⟩ := Analysis.silent_finish s
  exact hnext ▸ hend.of_keys hkeys

/-- **What is remembered of an array literal are the keys of its own elements**, each counted once, whatever number
comes next. -/
theorem keyCount_of_analyze (hc : c.registry = .standard) (hnumbered : unit.Numbered) {analyzed : AnalyzedUnit}
    {diagnostics : Array Diagnostic} (h : c.analyze unit = (.ok analyzed, diagnostics)) {tag : ExprTag}
    {elements : List ArrayElement} (hmem : .expr (.array tag elements) ∈ Stmt.nodesOf analyzed.statements) :
    analyzed.memory.keyCount (.node tag.id) = KeyCount.addAll {} elements := by
  obtain ⟨s, hrun, -, hmemory, -⟩ := exists_run_of_analyze h
  rw [hmemory]
  exact (balance_of_analyze hnumbered hrun).counted hc _ _ (List.mem_map_of_mem (f := Node.token Expr.keys) hmem)

/-- The numbers in the analysed tree of a unit. -/
def analyzedIds (c : Compiler) (unit : SourceUnit) : List Nat :=
  match c.analyze unit with
  | (.ok analyzed, _) => (Stmt.nodesOf analyzed.statements).map Node.id
  | (.error _, _) => []

/-- Two statements with a value to be folded, of which the second gets the first number again. -/
def worn : SourceUnit :=
  { name := "unit", nextId := UInt32.size - 1, span := {}
    statements := [
      .echo ⟨0, {}⟩ [.unary ⟨1, {}, .none⟩ .logicNot (.literal ⟨2, {}, .none⟩ (.bool true))],
      .echo ⟨3, {}⟩ [.unary ⟨4, {}, .none⟩ .logicNot (.literal ⟨5, {}, .none⟩ (.bool true))]] }

/-- Where the numbering comes round, a new node may get the number of another one. -/
theorem analyzedIds_worn :
    worn.Numbered ∧ (∀ n ∈ Stmt.nodesOf worn.statements, n.id < nodeId worn.nextId) ∧
      ({} : Compiler).analyzedIds worn = [0, 4294967295, 3, 0] := by
  refine ⟨?_, ?_, ?_⟩
  · unfold SourceUnit.Numbered
    decide +kernel
  · decide +kernel
  · decide +kernel

end Compiler
end PhpLowering
