import Mathlib
import PhpLowering.Proofs.Acceptance
import PhpLowering.Proofs.Analysis.Levels
import PhpLowering.Proofs.Constants
import PhpLowering.Proofs.Exits
import PhpLowering.Proofs.Reporting

/-!
# Levels of breaks and continues

The loops that a `break` or `continue` counts are seen three times, and nobody passes them on: the analysis
has a counter, the emission has a stack of loops with the number of regions around each, and the text has
the loops themselves.  **`levels_resolved`** says that the three agree.

* What the analysis reports of levels is a complaint about each jump that it comes to and whose level is
  not that of a loop around it in the text, and nothing else.
* A unit that is emitted has no such jump left.  The code of a jump whose level `n` is known is a single
  instruction, to a label of the `n`-th loop around it in its routine: a `leave` if a region lies between
  the two, and a `branch` otherwise.

A `try` that is not emitted as a region does not count, and the loops around a function do not count in it.
-/

namespace PhpLowering
namespace Lowering

variable {cfg : Setting} {s t : State Chunk} {v w : Visit} {around : List Visit} {kind : BranchKind}
  {j : RoutineVisit} {k : Chunk}

/-- The jump that goes one of these ways out of a loop. -/
def BranchKind.jumpKind : BranchKind → JumpKind
  | .break => .break
  | .continue => .continue

/-- Where in the code the ways out of a loop are: the exit is at its end, and the test at its start. -/
def Visit.wayOut (cfg : Setting) (w : Visit) : BranchKind → Nat
  | .break => (w.after cfg).active.position
  | .continue => w.start.active.position

/-- The jump to a label from inside of some statements, of which the regions have to be left. -/
def jumpAcross (cfg : Setting) (crossed : List Visit) (l : Label) : Instruction :=
  if crossed.any fun w => isRegion cfg w.stmt then .leave l else .branch l

/-- A jump goes to a loop around it, from inside of the statements in between.  It is a single instruction,
which is still there in the routine that comes out, and its label is a way out of the loop. -/
structure GoesTo (cfg : Setting) (r : Routine) (kind : BranchKind) (v : Visit) (crossed : List Visit)
    (w : Visit) (loop : Loop) : Prop where
  around : w.loop? cfg = some loop
  code : (v.after cfg).active.code = v.start.active.code.push (jumpAcross cfg crossed (loop.target kind))
  instruction : r.code[v.start.active.position]? = some (jumpAcross cfg crossed (loop.target kind))
  position : r.labelPosition? (loop.target kind) = some (w.wayOut cfg kind)

/-- Every `break` and `continue` of a routine whose level is known goes to the loop of that level: the loops
between the two are one less than the level says. -/
def RoutineVisit.ResolvesLevels (cfg : Setting) (j : RoutineVisit) : Prop :=
  ∀ v ∈ j.visits cfg, ∀ (tag : StmtTag) (kind : BranchKind) (level : Option Expr) (n : Int64),
    v.stmt = .jump tag kind.jumpKind level → Analysis.staticLevel? level = some n →
      (∃ around, Lies cfg j.body j.start around v) ∧
        ∀ around, Lies cfg j.body j.start around v →
          ∃ crossed w outer loop, around = crossed ++ w :: outer ∧
            n.toInt = crossed.countP (fun x => x.stmt.isLoop) + 1 ∧
              GoesTo cfg (j.routine cfg) kind v crossed w loop

/-! ## Routines -/

/-- Nothing is around the statements of a routine. -/
theorem RoutineVisit.Emits.frame {main : RoutineVisit} (hj : Emits cfg main j)
    (h : main.start.frame = { returnsRef := main.returnsRef }) :
    j.start.frame = { returnsRef := j.returnsRef } := by
  cases hj with
  | main => exact h
  | function _ _ hfunction => exact (function_of_function? hfunction).2

/-- The breaks and continues of a routine are among those of the routine that it is emitted along with. -/
theorem RoutineVisit.Emits.loopJumps_subset {main : RoutineVisit} (hj : Emits cfg main j) :
    Stmt.loopJumpsOf j.body 0 ⊆ Stmt.loopJumpsOf main.body 0 := by
  induction hj with
  | main => exact List.Subset.refl _
  | function _ hv hfunction ih =>
    obtain ⟨around, hlies⟩ := exists_lies hv
    obtain ⟨⟨tag, head, dead, hstmt, -⟩, -⟩ := function_of_function? hfunction
    have hsubset := hlies.loopJumps_subset 0
    rw [hstmt] at hsubset
    exact List.Subset.trans hsubset ih

theorem RoutineVisit.Within.amid (h : j.Within cfg k) (hframe : j.start.frame = { returnsRef := j.returnsRef }) :
    Amid [] 0 j.start := by
  obtain ⟨u, hready⟩ := h.ready
  refine ⟨⟨_, hready⟩, ?_, ?_⟩ <;> rw [hframe]

/-! ## Jumps -/

/-- The code of a jump with a level that is known. -/
theorem Visited.jump {loops : List Loop} {nesting : Nat} (h : Visited cfg loops nesting s t v)
    (hcfg : cfg.registry = .standard) {tag : StmtTag} {level : Option Expr} {n : Int64}
    (hstmt : v.stmt = .jump tag kind.jumpKind level) (hlevel : Analysis.staticLevel? level = some n) :
    ∃ loop, v.start.frame.loops[max n.toInt.toNat 1 - 1]? = some loop ∧
      (v.after cfg).active.code = v.start.active.code.push
        (jumpInstruction v.start.frame.exceptionNesting loop.exceptionLevel (loop.target kind)) := by
  obtain ⟨c, hc, -⟩ := h.ready
  have hrun := h.run
  rw [hstmt, lowerStmt] at hrun
  obtain ⟨u, -, hu, hcode, hrun⟩ := hc.statement_ok hcfg hrun
  have hjump : (jumpCode cfg kind.jumpKind level : Emit Chunk Unit) = staticBranch kind n.toInt.toNat := by
    refine Eq.trans ?_ (loopJump_of_static hlevel kind : loopJump cfg kind level = _)
    cases kind <;> rfl
  rw [hjump] at hrun
  obtain ⟨-, loop, hloop, hafter⟩ := (hu.staticBranch kind .any).of_ok hrun
  rw [hc.1.loops, hc.1.nesting]
  refine ⟨loop, hloop, ?_⟩
  rw [hafter, State.active_withActive, ← hcode]
  rfl

/-- A jump that is there at the end of its emission is there in whatever comes of it. -/
theorem code_of_grows {r r' : Routine} {i : Instruction} {code : Array Instruction}
    (h : r.Grows r') (hcode : r.code = code.push i) : r'.code[code.size]? = some i := by
  refine h.code ?_
  rw [hcode]
  exact Array.getElem?_push_size

/-- Whether a region is between a loop and a statement in it can be seen from the numbers of regions around
the two. -/
theorem jumpInstruction_eq_jumpAcross {crossed outer : List Visit} (hw : w.stmt.isLoop = true) (l : Label) :
    jumpInstruction (0 + (crossed ++ w :: outer).countP fun x => isRegion cfg x.stmt)
      (0 + outer.countP fun x => isRegion cfg x.stmt) l = jumpAcross cfg crossed l := by
  have hnot : isRegion cfg w.stmt = false := by
    cases hstmt : w.stmt with
    | tryCatch => rw [hstmt] at hw; exact nomatch hw
    | _ => rfl
  have hpositive : (crossed.any fun x => isRegion cfg x.stmt) = true ↔
      0 < crossed.countP fun x => isRegion cfg x.stmt := by
    rw [List.any_eq_true, List.countP_pos_iff]
  rw [List.countP_append, List.countP_cons_of_neg (by rw [hnot]; exact Bool.false_ne_true)]
  unfold jumpInstruction jumpAcross
  by_cases hany : (crossed.any fun x => isRegion cfg x.stmt) = true
  · rw [if_pos hany, if_neg]
    have := hpositive.mp hany
    omega
  · rw [if_neg hany, if_pos]
    have := mt hpositive.mpr hany
    omega

/-- **A jump with a known level goes to the loop of that level.** -/
theorem RoutineVisit.Within.goesTo (h : j.Within cfg k) (hcfg : cfg.registry = .standard)
    (hframe : j.start.frame = { returnsRef := j.returnsRef }) (hlies : Lies cfg j.body j.start around v)
    {tag : StmtTag} {level : Option Expr} {n : Int64} (hstmt : v.stmt = .jump tag kind.jumpKind level)
    (hlevel : Analysis.staticLevel? level = some n) :
    ∃ crossed w outer loop, around = crossed ++ w :: outer ∧
      crossed.countP (fun x => x.stmt.isLoop) = max n.toInt.toNat 1 - 1 ∧
        GoesTo cfg (j.routine cfg) kind v crossed w loop := by
  obtain ⟨t, -, hvisits, hgrows, -⟩ := h.body hcfg
  have hstart := h.amid hframe
  have hv := hvisits v hlies.mem_visitsOf
  obtain ⟨loop, hloop, hcode⟩ := hv.jump hcfg hstmt hlevel
  have hamid := hlies.amid hcfg hstart
  rw [hamid.loops, List.append_nil] at hloop
  obtain ⟨crossed, w, outer, rfl, hw, hcount⟩ := exists_split hloop
  have hwlies := hlies.outward rfl
  have hwvisited := hvisits w hwlies.mem_visitsOf
  have hwloop := isLoop_of_loop? hw
  obtain ⟨loop', hloop', hregions, htest, hexit⟩ := hwvisited.loop hcfg hwloop
  obtain rfl : loop' = loop := Option.some.inj (hloop'.symm.trans hw)
  rw [hamid.nesting, hregions, (hwlies.amid hcfg hstart).nesting, jumpInstruction_eq_jumpAcross hwloop] at hcode
  have hwgrows := hwvisited.behind.grows.trans hgrows
  refine ⟨crossed, w, outer, loop', rfl, ?_, hw, hcode, code_of_grows (hv.behind.grows.trans hgrows) hcode, ?_⟩
  · -- The loops in between are those that the emission has a label for.
    rw [← hcount]
    refine List.countP_congr fun x hx => ⟨fun hxloop => ?_, fun hsome => ?_⟩
    · obtain ⟨inner, between, rfl⟩ := List.append_of_mem hx
      have hxlies : Lies cfg j.body j.start (between ++ w :: outer) x :=
        hlies.outward (List.append_assoc ..)
      obtain ⟨loop, hxsome, -⟩ := (hvisits x hxlies.mem_visitsOf).loop hcfg hxloop
      rw [hxsome]
      rfl
    · obtain ⟨loop, hxsome⟩ := Option.isSome_iff_exists.mp hsome
      exact isLoop_of_loop? hxsome
  · rw [Routine.labelPosition?_eq]
    cases kind with
    | «break» => exact congrArg Option.join (hwgrows.marked hexit)
    | «continue» => exact congrArg Option.join (hwgrows.marked htest)

/-- Where the levels are in order, all of them are resolved. -/
theorem RoutineVisit.Within.resolvesLevels (h : j.Within cfg k) (hcfg : cfg.registry = .standard)
    (hframe : j.start.frame = { returnsRef := j.returnsRef })
    (hvalid : ∀ x ∈ Stmt.loopJumpsOf j.body 0, x.Valid) : j.ResolvesLevels cfg := by
  intro v hv tag kind level n hstmt hlevel
  refine ⟨exists_lies hv, fun around hlies => ?_⟩
  obtain ⟨crossed, w, outer, loop, heq, hcount, hgoes⟩ := h.goesTo hcfg hframe hlies hstmt hlevel
  refine ⟨crossed, w, outer, loop, heq, ?_, hgoes⟩
  have hmem : (⟨tag, kind.jumpKind, level, 0 + around.countP fun x => x.stmt.isLoop⟩ : LoopJump) ∈
      Stmt.loopJumpsOf j.body 0 := by
    refine hlies.loopJumps_subset 0 ?_
    rw [hstmt, Stmt.loopJumps, LoopJump.ofJump, if_neg (by cases kind <;> rintro ⟨⟩)]
    exact List.mem_singleton_self _
  have hle := ((LoopJump.valid_of_static hlevel).mp (hvalid _ hmem)).1
  rw [hcount]
  omega

end Lowering

namespace Compiler

open Lowering (RoutineVisit Visit)

variable {c : Compiler} {unit : SourceUnit}

/-- The breaks and continues that the analysis of a unit comes to. -/
def checkedJumps (c : Compiler) (unit : SourceUnit) : List LoopJump :=
  Analysis.checkedJumpsOf (c.unitSetting unit) unit.statements 0 (c.analysisStart unit)

/-- **The analysis of a unit checks every level once.** -/
theorem checks_analyze {analyzed : AnalyzedUnit} {diagnostics : Array Diagnostic} (hc : c.registry = .standard)
    (h : c.analyze unit = (.ok analyzed, diagnostics)) :
    diagnostics.toList.filter Diagnostic.isBreakLevel = LoopJump.complaints (c.checkedJumps unit) ∧
      (Stmt.loopJumpsOf analyzed.statements 0).Sublist (c.checkedJumps unit) := by
  unfold analyze at h
  rcases hrun : Analysis.analyzeStmts (c.unitSetting unit) unit.statements (c.analysisStart unit) with
    ⟨_ | statements, t⟩
  · simp only [unitSetting, analysisStart] at hrun
    simp only [hrun] at h
    exact nomatch h
  have hchecks := (Analysis.checking_analyzeStmts hc unit.statements 0).checks (s := c.analysisStart unit) rfl hrun
  have hfinish : t.finish = t.reportUndefined := by
    simp only [Analysis.State.finish, Analysis.enclosing_analyzeStmts unit.statements hrun, analysisStart,
      List.foldl_nil]
  have hmute : Analysis.Mute t t.finish := hfinish ▸ Analysis.mute_reportUndefined t
  have hstart : (c.analysisStart unit).levelReports = [] := by
    refine List.filter_eq_nil_iff.mpr fun d hd => ?_
    obtain ⟨name, hname⟩ := Declarations.proper_collect c.symbols unit.statements d hd
    simp only [Diagnostic.isBreakLevel, hname, Bool.false_eq_true, not_false_eq_true]
  simp only [unitSetting, analysisStart] at hrun
  simp only [hrun] at h
  cases h
  have hreports : t.finish.levelReports = LoopJump.complaints (c.checkedJumps unit) := by
    rw [hmute.reported, hchecks.reported, hstart, List.nil_append]
    rfl
  exact ⟨hreports, hchecks.left⟩

/-- **The levels of a unit are checked by the analysis and resolved by the emission.**

All that is reported of levels is what there is to complain about the breaks and continues that the analysis
comes to.  These are breaks and continues of the text, each at most once and with as many loops around as
in the text, and they include those of the tree that comes out.  If the unit is emitted, the known levels
in all of its routines are resolved. -/
theorem levels_resolved (hc : c.registry = .standard) (unit : SourceUnit) :
    ∃ analyzed diagnostics, c.analyze unit = (.ok analyzed, diagnostics) ∧
      diagnostics.toList.filter Diagnostic.isBreakLevel = LoopJump.complaints (c.checkedJumps unit) ∧
      ((c.checkedJumps unit).map LoopJump.place).Subperm
        ((Stmt.loopJumpsOf unit.statements 0).map LoopJump.place) ∧
      (Stmt.loopJumpsOf analyzed.statements 0).Sublist (c.checkedJumps unit) ∧
      ∀ (name : String) (filePath : Option String) (tempLimit : Option Nat),
        (c.compile unit (Chunk.new name filePath tempLimit)).isEmitted = true →
          ∀ j, RoutineVisit.Emits c.loweringSetting
              (c.mainVisit analyzed diagnostics (Chunk.new name filePath tempLimit)) j →
            j.routine c.loweringSetting ∈ (c.compile unit (Chunk.new name filePath tempLimit)).sink.routines ∧
              (j.visits c.loweringSetting).map Visit.stmt = Stmt.ownOf j.body ∧
                j.ResolvesLevels c.loweringSetting := by
  have hcfg : c.loweringSetting.registry = .standard := hc
  obtain ⟨analyzed, diagnostics, hanalyze, -⟩ := analyze_eq hc unit
  obtain ⟨hreports, hleft⟩ := checks_analyze hc hanalyze
  refine ⟨analyzed, diagnostics, hanalyze, hreports, Analysis.among_checkedJumpsOf _ _ _, hleft, ?_⟩
  intro name filePath tempLimit h j hj
  obtain ⟨analyzed', diagnostics', hanalyze', herrors, heq⟩ := emit_of_isEmitted h
  obtain ⟨⟨⟩, rfl⟩ := Prod.mk.inj (hanalyze.symm.trans hanalyze')
  rw [heq] at h ⊢
  have hwithin := (within_mainVisit hc h).of_emits hcfg hj
  obtain ⟨t, hown, -⟩ := hwithin.body hcfg
  refine ⟨hwithin.routine, hown, hwithin.resolvesLevels hcfg (hj.frame rfl) fun x hx => ?_⟩
  -- A level that is out of order is an error, and a unit with errors is not emitted.
  have hnone : LoopJump.complaints (c.checkedJumps unit) = [] := by
    rw [← hreports]
    refine List.filter_eq_nil_iff.mpr fun d hd hlevel => ?_
    have herror := hasErrors_eq_false_iff.mp herrors d (Array.mem_toList_iff.mp hd)
    exact Bool.false_ne_true (herror.symm.trans (Diagnostic.isError_of_isBreakLevel hlevel))
  exact LoopJump.valid_of_complaints_eq_nil hnone x (hleft.subset (hj.loopJumps_subset hx))

/-- A `break 2` out of a loop in a `try` in a loop, and a function with a loop of its own in the outer loop. -/
def loopInTry : SourceUnit :=
  { name := "unit", nextId := 13, span := {}
    statements := [
      .loop ⟨0, {}⟩ (.var ⟨1, {}, .none⟩ "a") [
        .tryCatch ⟨2, {}⟩ [
          .loop ⟨3, {}⟩ (.var ⟨4, {}, .none⟩ "b") [
            .jump ⟨5, {}⟩ .break (some (.literal ⟨6, {}, .none⟩ (.int 2)))]] []
          (some [.echo ⟨7, {}⟩ [.literal ⟨8, {}, .none⟩ (.string "f")]]),
        .function ⟨9, {}⟩ ⟨"f", false, []⟩ [
          .loop ⟨10, {}⟩ (.var ⟨11, {}, .none⟩ "c") [.jump ⟨12, {}⟩ .continue none]] false]] }

/-- Whether a statement is a `break 2`. -/
def isBreakTwo : Stmt → Bool
  | .jump _ .break level => Analysis.staticLevel? level == some 2
  | _ => false

/-- The unit is emitted, and the `break 2` goes to the loop with one loop in between. -/
theorem levels_resolved_loopInTry :
    (({} : Compiler).compile loopInTry (Chunk.new "unit" none none)).isEmitted = true ∧
      ∃ analyzed diagnostics, ({} : Compiler).analyze loopInTry = (.ok analyzed, diagnostics) ∧
        ∃ v ∈ (({} : Compiler).mainVisit analyzed diagnostics (Chunk.new "unit" none none)).visits
            ({} : Compiler).loweringSetting, isBreakTwo v.stmt = true ∧
          ∃ around crossed w outer loop, Lowering.Lies ({} : Compiler).loweringSetting analyzed.statements
              (({} : Compiler).mainVisit analyzed diagnostics (Chunk.new "unit" none none)).start around v ∧
            around = crossed ++ w :: outer ∧ crossed.countP (fun x => x.stmt.isLoop) = 1 ∧
              Lowering.GoesTo ({} : Compiler).loweringSetting
                ((({} : Compiler).mainVisit analyzed diagnostics (Chunk.new "unit" none none)).routine
                  ({} : Compiler).loweringSetting) .break v crossed w loop := by
  have h : (({} : Compiler).compile loopInTry (Chunk.new "unit" none none)).isEmitted = true := by cbv
  have hfound : (({} : Compiler).analyze loopInTry).1.toOption.any (fun analyzed =>
      ((({} : Compiler).mainVisit analyzed (({} : Compiler).analyze loopInTry).2 (Chunk.new "unit" none none)).visits
        ({} : Compiler).loweringSetting).any fun v => isBreakTwo v.stmt) = true := by
    cbv
  obtain ⟨analyzed, diagnostics, hanalyze, -, -, -, hall⟩ := levels_resolved (c := {}) rfl loopInTry
  simp only [hanalyze, Except.toOption, Option.any_some, List.any_eq_true] at hfound
  obtain ⟨v, hv, hbreak⟩ := hfound
  refine ⟨h, analyzed, diagnostics, hanalyze, v, hv, hbreak, ?_⟩
  unfold isBreakTwo at hbreak
  split at hbreak
  · rename_i tag level hstmt
    obtain ⟨-, -, hresolves⟩ := hall "unit" none none h _ .main
    obtain ⟨⟨around, hlies⟩, hjump⟩ := hresolves v hv tag .break level 2 hstmt (eq_of_beq hbreak)
    obtain ⟨crossed, w, outer, loop, heq, hcount, hgoes⟩ := hjump around hlies
    have htwo : (2 : Int64).toInt = 2 := by decide
    exact ⟨around, crossed, w, outer, loop, hlies, heq, by omega, hgoes⟩
  · cases hbreak

end Compiler
end PhpLowering
