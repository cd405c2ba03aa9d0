import PhpLowering.Proofs.Lowering.Tries
import PhpLowering.Proofs.Stores

/-!
# The exception regions of a unit

What a chunk says about exceptions after the emission of a unit.

* **`regions_of_emitted`**: every routine has one region for each `try` in it that is not elided.  The
  regions are recorded in the order in which the statements end, they are nested as the statements are,
  and each has the handlers of its statement.
* **`branches_of_emitted`**: without `goto` a branch never leaves a block of a region, and gets into a
  region at its start only.  A jump that goes out of a block is a `leave`.

In front of the handler that runs the clauses stands one for the exception by which a dying program
unwinds.  It does nothing but let the exception go on, so that no clause ever sees it.
-/

namespace PhpLowering

open Pass (Ends)

/-- The routines of a chunk are those of statements, with the regions of their `try` statements. -/
structure Chunk.Arranged (cfg : Lowering.Setting) (statements : List Stmt) (c : Chunk) : Prop where
  main : c.main.Arranged cfg statements
  functions : List.Forall₂ (fun p f => Routine.Arranged cfg p.2 f) (Stmt.functionsOf statements)
    c.functions.toList

/-- A unit that is emitted into an empty chunk. -/
theorem Lowering.arranged_lowerRoutine {cfg : Lowering.Setting} (hcfg : cfg.registry = .standard)
    (body : List Stmt) (name : String) (filePath : Option String) (tempLimit : Option Nat)
    (table : RuleTable) (memory : RuleMemory) (diagnostics : Array Diagnostic) (releases : Nat → ReleaseOrder) :
    Ends (Lowering.lowerRoutine cfg body false)
      { sink := Chunk.new name filePath tempLimit, table, memory, diagnostics, releases }
      (fun _ t => t.sink.Arranged cfg body) anyFailure := by
  have hbody : Writes cfg (HasGoto body) ((Stmt.triesOf body).filter (isRegion cfg))
      (Stmt.functionsOf body) (lowerStmts cfg body) :=
    writes_lowerStmts hcfg body _ fun n hn hgoto => ⟨n, hn, hgoto⟩
  have hempty : IsEmpty (Chunk.new name filePath tempLimit).active := ⟨rfl, rfl, rfl, rfl⟩
  have hslots : (Chunk.new name filePath tempLimit).active.SlotsInOrder := ⟨List.nodup_nil, nofun⟩
  refine Ends.mono (arranged_routineCode
    (s := { sink := Chunk.new name filePath tempLimit, table, memory, diagnostics, releases }) hbody hempty hslots) ?_
  rintro _ t ⟨-, houtside, ⟨Fs, hFs, hfunctions⟩, harranged⟩
  have hmain : t.active = t.sink.main := Chunk.active_of_outside houtside
  rw [hmain] at harranged
  refine ⟨harranged, ?_⟩
  rw [hFs]
  exact hfunctions

/-! ## Regions and `try` statements -/

/-- A routine has the regions of the `try` statements of a body. -/
structure Routine.HasRegionsOf (cfg : Lowering.Setting) (body : List Stmt) (r : Routine) : Prop where
  each : List.Forall₂ r.IsRegionOf ((Stmt.triesOf body).filter (Lowering.isRegion cfg)) r.regions.toList
  nested : r.Mirrors cfg ((Stmt.triesOf body).filter (Lowering.isRegion cfg)) r.regions.toList

theorem Routine.Arranged.hasRegionsOf {cfg : Lowering.Setting} {body : List Stmt} {r : Routine}
    (h : r.Arranged cfg body) : r.HasRegionsOf cfg body :=
  ⟨h.regions.forall₂, h.regions⟩

namespace Compiler

variable {c : Compiler} {unit : SourceUnit}

/-- What an emission that went well leaves in an empty chunk. -/
theorem arranged_of_emit {analyzed : AnalyzedUnit} {diagnostics : Array Diagnostic} {name : String}
    {filePath : Option String} {tempLimit : Option Nat} (hc : c.registry = .standard)
    (h : (c.emit analyzed diagnostics (Chunk.new name filePath tempLimit)).isEmitted = true) :
    (c.emit analyzed diagnostics (Chunk.new name filePath tempLimit)).sink.Arranged c.loweringSetting
      analyzed.statements := by
  have hends := Lowering.arranged_lowerRoutine (show c.loweringSetting.registry = .standard from hc)
    analyzed.statements name filePath tempLimit analyzed.table analyzed.memory diagnostics c.releases
  rcases hrun : Lowering.lowerRoutine c.loweringSetting analyzed.statements false
    (c.emissionStart analyzed diagnostics (Chunk.new name filePath tempLimit)) with ⟨result, t⟩
  cases result with
  | ok a =>
    simp only [emit, hrun]
    exact hends.of_ok hrun
  | error e =>
    simp only [emit, hrun, Outcome.isEmitted] at h
    cases h

/-- **The exception regions of a unit mirror its `try` statements.** -/
theorem regions_of_emitted (hc : c.registry = .standard) (name : String) (filePath : Option String)
    (tempLimit : Option Nat)
    (h : (c.compile unit (Chunk.new name filePath tempLimit)).isEmitted = true) :
    ∃ analyzed diagnostics, c.analyze unit = (.ok analyzed, diagnostics) ∧
      (c.compile unit (Chunk.new name filePath tempLimit)).sink.main.HasRegionsOf c.loweringSetting
        analyzed.statements ∧
      List.Forall₂ (fun p f => Routine.HasRegionsOf c.loweringSetting p.2 f)
        (Stmt.functionsOf analyzed.statements)
        (c.compile unit (Chunk.new name filePath tempLimit)).sink.functions.toList := by
  obtain ⟨analyzed, diagnostics, hanalyze, -, heq⟩ := emit_of_isEmitted h
  rw [heq] at h ⊢
  have harranged := arranged_of_emit hc h
  exact ⟨analyzed, diagnostics, hanalyze, harranged.main.hasRegionsOf,
    harranged.functions.imp fun _ _ hf => hf.hasRegionsOf⟩

/-- Loops and `try` statements in each other, and a `try` in a function. -/
def nestedTries : SourceUnit :=
  { name := "unit", nextId := 13, span := {}
    statements := [
      .loop ⟨0, {}⟩ (.var ⟨1, {}, .none⟩ "x") [
        .tryCatch ⟨2, {}⟩ [
          .tryCatch ⟨3, {}⟩ [.jump ⟨4, {}⟩ .break none] []
            (some [.echo ⟨5, {}⟩ [.literal ⟨6, {}, .none⟩ (.string "f")]])]
          [.clause {} "E" (some "e") [.jump ⟨7, {}⟩ .continue none] none] none],
      .function ⟨8, {}⟩ ⟨"f", false, []⟩ [
        .tryCatch ⟨9, {}⟩ [.jump ⟨10, {}⟩ .return none]
          [.clause {} "E" none [.echo ⟨11, {}⟩ [.literal ⟨12, {}, .none⟩ (.string "c")]] none]
          (some [])] false] }

theorem isEmitted_nestedTries :
    (({} : Compiler).compile nestedTries (Chunk.new "unit" none none)).isEmitted = true := by
  decide +kernel

theorem regions_nestedTries :
    (({} : Compiler).compile nestedTries (Chunk.new "unit" none none)).isEmitted = true ∧
      ∃ analyzed diagnostics, ({} : Compiler).analyze nestedTries = (.ok analyzed, diagnostics) ∧
        (({} : Compiler).compile nestedTries (Chunk.new "unit" none none)).sink.main.HasRegionsOf
          ({} : Compiler).loweringSetting analyzed.statements ∧
        List.Forall₂ (fun p f => Routine.HasRegionsOf ({} : Compiler).loweringSetting p.2 f)
          (Stmt.functionsOf analyzed.statements)
          (({} : Compiler).compile nestedTries (Chunk.new "unit" none none)).sink.functions.toList :=
  ⟨isEmitted_nestedTries, regions_of_emitted rfl "unit" none none isEmitted_nestedTries⟩

end Compiler

/-! ## Branches -/

/-- Every branch of a routine goes to a label that is marked, and respects the regions. -/
def Routine.RespectsRegions (r : Routine) : Prop :=
  ∀ (pc : Nat) (i : Instruction) (l : Label), r.code[pc]? = some i → l ∈ i.branchTargets →
    ∃ q, r.labelPosition? l = some q ∧ ∀ R ∈ r.regions, R.Respects pc q

theorem Routine.Arranged.respectsRegions {cfg : Lowering.Setting} {body : List Stmt} {r : Routine}
    (h : r.Arranged cfg body) (hfree : ∀ n ∈ Stmt.nodesOf body, n.isGoto = false) : r.RespectsRegions := by
  intro pc i l hi hl
  have hpc : pc < r.position := (Array.getElem?_eq_some_iff.mp hi).1
  cases (h.branches hfree).branches (Nat.zero_le pc) hpc hi hl with
  | out hl => exact hl.elim
  | inside hl _ _ hRs => exact ⟨_, hl, fun R hR => hRs R (Array.mem_toList_iff.mpr hR)⟩

/-- There is no `goto` in a unit, nor in its functions. -/
def SourceUnit.GotoFree (unit : SourceUnit) : Prop :=
  ∀ n ∈ Stmt.nodesOf unit.statements, n.isGoto = false

instance (unit : SourceUnit) : Decidable unit.GotoFree :=
  inferInstanceAs (Decidable (∀ n ∈ Stmt.nodesOf unit.statements, n.isGoto = false))

namespace Compiler

variable {c : Compiler} {unit : SourceUnit}

/-- Analysis makes no `goto`. -/
theorem gotoFree_of_analyze (hc : c.registry = .standard) {analyzed : AnalyzedUnit}
    {diagnostics : Array Diagnostic} (h : c.analyze unit = (.ok analyzed, diagnostics))
    (hfree : unit.GotoFree) : ∀ n ∈ Stmt.nodesOf analyzed.statements, n.isGoto = false := by
  obtain ⟨known, -, hremains⟩ := remains_of_analyze hc h
  intro n hn
  by_contra hgoto
  rw [Bool.not_eq_false] at hgoto
  exact absurd (hgoto.symm.trans (hfree n (hremains.gotos n hn hgoto))) nofun

/-- **In a unit without `goto` the branches respect the exception regions.** -/
theorem branches_of_emitted (hc : c.registry = .standard) (name : String) (filePath : Option String)
    (tempLimit : Option Nat) (hfree : unit.GotoFree)
    (h : (c.compile unit (Chunk.new name filePath tempLimit)).isEmitted = true) :
    ∀ r ∈ (c.compile unit (Chunk.new name filePath tempLimit)).sink.routines, r.RespectsRegions := by
  obtain ⟨analyzed, diagnostics, hanalyze, -, heq⟩ := emit_of_isEmitted h
  rw [heq] at h ⊢
  have hnodes := gotoFree_of_analyze hc hanalyze hfree
  have harranged := arranged_of_emit hc h
  intro r hr
  rcases List.mem_cons.mp hr with rfl | hr
  · exact harranged.main.respectsRegions hnodes
  · obtain ⟨n, hn, rfl⟩ := List.mem_iff_getElem.mp hr
    have hlength := harranged.functions.length_eq
    have hbody := harranged.functions.get (hlength ▸ hn) hn
    refine hbody.respectsRegions fun m hm => hnodes m ?_
    exact Stmt.nodesOf_of_functionsOf (List.getElem_mem (hlength ▸ hn)) hm

theorem branches_nestedTries : nestedTries.GotoFree ∧
    (({} : Compiler).compile nestedTries (Chunk.new "unit" none none)).isEmitted = true ∧
      ∀ r ∈ (({} : Compiler).compile nestedTries (Chunk.new "unit" none none)).sink.routines,
        r.RespectsRegions := by
  have hfree : nestedTries.GotoFree := by decide
  exact ⟨hfree, isEmitted_nestedTries, branches_of_emitted rfl "unit" none none hfree isEmitted_nestedTries⟩

end Compiler
end PhpLowering
