import PhpLowering.Proofs.Emission
import PhpLowering.Proofs.Lowering.Nesting

/-!
# Ways out of a `try`

A jump out of a `try` is a `leave`, and whoever runs the code is to find out from the position
of its label that the region of the `try` is left.  Where the labels are:

* the exit of a loop around the `try` is marked behind the loop, so behind the region;
* the code that returns is at the end of the routine, behind all regions;
* the test of a loop around the `try` is marked before the region begins, but nothing keeps it
  from being marked at the very position where the region begins.

**`leaves_iff_of_emitted`** says this of every jump in every `try` of a unit that is emitted.
A position in a region is one at or behind its start, so the label of a `continue` is covered
by the region that is left if there is no instruction between the test of the loop and the
`try`: `leaves_fails_for_continue`.
-/

namespace PhpLowering
namespace Lowering

variable {c : Scene} {s t : State Chunk} {cfg : Setting} {l : Label} {v : Visit}

/-! ## The emission of single routines -/

/-- The emission of one routine, given by the state in which the emission of its body starts. -/
structure RoutineVisit where
  body : List Stmt
  returnsRef : Bool
  start : State Chunk

namespace RoutineVisit

variable (cfg : Setting) (j : RoutineVisit)

/-- What is emitted into the routine. -/
def code : Emit Chunk Unit := do
  lowerStmts cfg j.body
  routineEnd j.returnsRef

/-- The state after the emission. -/
def after : State Chunk :=
  (j.code cfg j.start).2

/-- The routine that comes out. -/
def routine : Routine :=
  (j.after cfg).active

/-- The statements of the routine. -/
def visits : List Visit :=
  visitsOf cfg j.body j.start

end RoutineVisit

/-- The emission of the function that a statement declares. -/
def Visit.function? (cfg : Setting) (v : Visit) : Option RoutineVisit :=
  match v.stmt with
  | .function tag head body _ =>
    match (do entry cfg .function tag; toSink (Sink.beginFunction head)) v.start with
    | (.ok _, t) => some ⟨body, head.byRef, { t with frame := { returnsRef := head.byRef } }⟩
    | (.error _, _) => none
  | _ => none

/-- The routines that are emitted along with a routine: itself, the functions declared in it, those
declared in these, and so on. -/
inductive RoutineVisit.Emits (cfg : Setting) (main : RoutineVisit) : RoutineVisit → Prop
  | main : Emits cfg main main
  | function {j j' : RoutineVisit} {v : Visit} (hj : Emits cfg main j) (hv : v ∈ j.visits cfg)
      (hfunction : v.function? cfg = some j') : Emits cfg main j'

theorem function_of_function? {j : RoutineVisit} (h : v.function? cfg = some j) :
    (∃ tag head dead, v.stmt = .function tag head j.body dead ∧ j.returnsRef = head.byRef) ∧
      j.start.frame = { returnsRef := j.returnsRef } := by
  unfold Visit.function? at h
  split at h
  · rename_i hstmt
    split at h
    · obtain rfl := Option.some.inj h
      exact ⟨⟨_, _, _, hstmt, rfl⟩, rfl⟩
    · exact nomatch h
  · exact nomatch h

/-- A routine is the one that others are emitted along with, or one of the functions declared in it. -/
theorem RoutineVisit.Emits.function_mem {main j : RoutineVisit} (hj : Emits cfg main j) :
    Stmt.functionsOf j.body ⊆ Stmt.functionsOf main.body ∧ (j = main ∨
      ∃ head : FunctionHead, (head, j.body) ∈ Stmt.functionsOf main.body ∧ j.returnsRef = head.byRef) := by
  induction hj with
  | main => exact ⟨List.Subset.refl _, .inl rfl⟩
  | @function j j' v _ hv hfunction ih =>
    obtain ⟨around, hlies⟩ := exists_lies hv
    obtain ⟨⟨tag, head, dead, hstmt, hbyRef⟩, -⟩ := function_of_function? hfunction
    have hdeclares := hlies.functions_subset
    rw [hstmt, Stmt.functions] at hdeclares
    have hsubset := List.Subset.trans hdeclares ih.1
    obtain ⟨hinner, hself⟩ := List.append_subset.mp hsubset
    exact ⟨hinner, .inr ⟨head, hself List.mem_cons_self, hbyRef⟩⟩

/-- The emission of a routine is a part of an emission that ends with a chunk. -/
structure RoutineVisit.Within (cfg : Setting) (k : Chunk) (j : RoutineVisit) : Prop where
  ready : ∃ u : Surroundings, Ready anyFailure (u.start j.start.active) [] j.start
  run : j.code cfg j.start = (.ok (), j.after cfg)
  routine : j.routine cfg ∈ k.routines
  functions : ∀ f ∈ (j.after cfg).sink.functions.toList, f ∈ k.routines

/-- The end of a routine comes behind its statements. -/
theorem RoutineVisit.exists_body {j : RoutineVisit} {u : Surroundings}
    (hcfg : cfg.registry = .standard) (hstart : Ready anyFailure (u.start j.start.active) [] j.start)
    (hrun : j.code cfg j.start = (.ok (), j.after cfg)) :
    ∃ t, lowerStmts cfg j.body j.start = (.ok (), t) ∧ t.active.Grows (j.routine cfg) ∧
      t.sink.functions.toList <+: (j.after cfg).sink.functions.toList ∧
        (j.after cfg).sink.outside = u.outside := by
  obtain ⟨_, t, hbody, hend⟩ := bind_ok hrun
  obtain ⟨ht, -⟩ := (records_lowerStmts tolerates_anyFailure hcfg j.body).leads hstart hbody
  obtain ⟨hgrows, f, haround, -⟩ := (ht.since.routineEnd tolerates_anyFailure ⟨rfl, rfl, rfl⟩
    j.returnsRef).of_ok hend
  exact ⟨t, hbody, hgrows, haround.earlier, haround.outside⟩

/-- The statements of a routine, between its start and its end. -/
theorem RoutineVisit.Within.body {k : Chunk} {j : RoutineVisit} (h : j.Within cfg k)
    (hcfg : cfg.registry = .standard) :
    ∃ t, (j.visits cfg).map Visit.stmt = Stmt.ownOf j.body ∧
      (∀ v ∈ j.visits cfg, Visited cfg [] 0 j.start t v) ∧ t.active.Grows (j.routine cfg) ∧
        t.sink.functions.toList <+: (j.after cfg).sink.functions.toList := by
  obtain ⟨u, hstart⟩ := h.ready
  obtain ⟨t, hbody, hgrows, hfunctions, -⟩ := RoutineVisit.exists_body hcfg hstart h.run
  obtain ⟨hown, hvisits⟩ := tracks_lowerStmts hcfg j.body _ j.start t hstart hbody
  refine ⟨t, hown, fun v hv => ?_, hgrows, hfunctions⟩
  exact (hvisits v hv).widen List.nil_suffix (Nat.zero_le _) (.refl _) (.refl _)

/-- A function that is ended is one of the complete ones. -/
theorem functions_endFunction (h : toSink Sink.endFunction s = (.ok (), t)) :
    t.sink.functions.toList = s.sink.functions.toList ++ [s.active] := by
  rcases s with ⟨⟨main, functions, _ | ⟨r, outer⟩⟩, _⟩
  · cases h
  · simp only [toSink, Sink.endFunction, Chunk.endFunction] at h
    split at h
    · rename_i hends
      split at hends
      · obtain ⟨-, rfl⟩ := Prod.mk.inj hends
        obtain ⟨-, rfl⟩ := Prod.mk.inj h
        exact Array.toList_push
      · cases hends
    · cases h

/-- The emission of a function is a part of whatever the routine around it is a part of. -/
theorem RoutineVisit.Within.function {k : Chunk} {j j' : RoutineVisit} (h : j.Within cfg k)
    (hcfg : cfg.registry = .standard) (hv : v ∈ j.visits cfg) (hfunction : v.function? cfg = some j') :
    j'.Within cfg k := by
  obtain ⟨t, -, hvisits, -, hfunctions⟩ := h.body hcfg
  have hvisited := hvisits v hv
  obtain ⟨c, hc, -⟩ := hvisited.ready
  cases hstmt : v.stmt with
  | function tag head body dead =>
    have hrun := hvisited.run
    rw [hstmt, lowerStmt] at hrun
    obtain ⟨u, hentry, hu, -, hrun⟩ := hc.statement_ok hcfg hrun
    obtain ⟨_, w, hbegin, hrun⟩ := bind_ok hrun
    obtain ⟨_, x, hcode, hend⟩ := bind_ok hrun
    have hframe : thenFrame (do lowerStmts cfg body; routineEnd head.byRef) (fun _ => w.frame)
        { w with frame := { returnsRef := head.byRef } } = (.ok (), x) := hcode
    obtain ⟨y, hroutine, rfl⟩ := thenFrame_ok hframe
    have hstart : (do entry cfg .function tag; toSink (Sink.beginFunction head)) v.start = (.ok (), w) :=
      (Pass.bind_eq_ok_iff ..).mpr ⟨(), u, hentry, hbegin⟩
    simp only [Visit.function?, hstmt, hstart] at hfunction
    obtain rfl := Option.some.inj hfunction
    have hafter : RoutineVisit.after cfg
        ⟨body, head.byRef, { w with frame := { returnsRef := head.byRef } }⟩ = y :=
      congrArg Prod.snd hroutine
    obtain ⟨hempty, -, haround⟩ := (hu.beginFunction head).of_ok hbegin
    have hall : ∀ f ∈ y.sink.functions.toList ++ [y.active], f ∈ k.routines := by
      intro f hf
      have hdone := functions_endFunction hend
      rw [show y.sink.functions.toList ++ [y.active] = _ from hdone.symm] at hf
      exact h.functions f (hfunctions.subset (hvisited.behind.functions.subset hf))
    obtain ⟨hfirst, hlast⟩ := List.forall_mem_append.mp hall
    refine ⟨⟨_, haround, _, hempty.holds rfl rfl rfl⟩, hafter.symm ▸ hroutine, ?_, hafter.symm ▸ hfirst⟩
    unfold RoutineVisit.routine
    rw [hafter]
    exact hlast y.active List.mem_cons_self
  | _ =>
    simp only [Visit.function?, hstmt] at hfunction
    exact nomatch hfunction

/-- All routines that are emitted along with a routine are parts of the same emission. -/
theorem RoutineVisit.Within.of_emits {k : Chunk} {main j : RoutineVisit} (h : main.Within cfg k)
    (hcfg : cfg.registry = .standard) (hj : Emits cfg main j) : j.Within cfg k := by
  induction hj with
  | main => exact h
  | function _ hv hfunction ih => exact ih.function hcfg hv hfunction

/-! ## Jumps -/

/-- The loops that a `break` or `continue` may concern: one if its level is known, and any
otherwise. -/
def loopsAt (level : Option Expr) (loops : List Loop) : List Loop :=
  match Analysis.staticLevel? level with
  | some n => loops[max n.toInt.toNat 1 - 1]?.toList
  | none => loops

/-- The loops around a statement that a `break` or `continue` in it may concern. -/
def Visit.loopsLeft (outer v : Visit) (level : Option Expr) : List Loop :=
  (loopsAt level v.start.frame.loops).filter (· ∈ outer.start.frame.loops)

/-- The labels outside of a statement that a jump in it goes to. -/
def Visit.exits (cfg : Setting) (outer v : Visit) : List Label :=
  match v.stmt with
  | .jump _ .return _ => (v.after cfg).frame.epilogue.toList
  | .jump _ .break level => (outer.loopsLeft v level).map Loop.breakLabel
  | .jump _ .continue level => (outer.loopsLeft v level).map Loop.continueLabel
  | _ => []

/-- Whether a statement is a `continue`. -/
def isContinue : Stmt → Bool
  | .jump _ .continue _ => true
  | _ => false

/-- Whether it is known where a jump goes. -/
def isDirect : Stmt → Bool
  | .jump _ .return _ => true
  | .jump _ _ level => (Analysis.staticLevel? level).isSome
  | _ => false

theorem loopJump_of_static {level : Option Expr} {n : Int64}
    (h : Analysis.staticLevel? level = some n) (kind : BranchKind) :
    (loopJump cfg kind level : Emit Chunk Unit) = staticBranch kind n.toInt.toNat := by
  unfold loopJump
  cases level with
  | none =>
    obtain rfl := Option.some.inj h
    rfl
  | some e =>
    obtain ⟨v, hv, rfl⟩ := Option.map_eq_some_iff.mp h
    simp only [hv]

theorem loopJump_of_computed (cfg : Setting) {level : Option Expr}
    (h : Analysis.staticLevel? level = none) (kind : BranchKind) :
    ∃ e, (loopJump cfg kind level : Emit Chunk Unit) = runtimeBranch kind (lower cfg e) := by
  unfold loopJump
  cases level with
  | none => exact nomatch h
  | some e =>
    have hv : e.value? = none := Option.map_eq_none_iff.mp h
    exact ⟨e, by simp only [hv]⟩

/-- A jump from inside of more regions than are around its label leaves regions. -/
theorem jumpInstruction_of_lt {nesting level : Nat} (h : level < nesting) :
    jumpInstruction nesting level l = .leave l :=
  if_neg (Nat.ne_of_gt h)

/-- The code of a jump has a `leave`, which is all there is behind the value if it is known where the
jump goes. -/
def HasLeave (l : Label) (direct : Bool) (s t : State Chunk) : Prop :=
  ∃ pc, s.active.position ≤ pc ∧ t.active.code[pc]? = some (.leave l) ∧
    (direct = true → pc + 1 = t.active.position)

theorem hasLeave_loopJump (hs : Ready anyFailure c [] s) (hcfg : cfg.registry = .standard)
    {kind : BranchKind} {level : Option Expr} (hrun : loopJump cfg kind level s = (.ok (), t))
    {loop : Loop} (hloop : loop ∈ loopsAt level c.loops) (hlevel : loop.exceptionLevel < c.nesting) :
    HasLeave (loop.target kind) (Analysis.staticLevel? level).isSome s t := by
  unfold loopsAt at hloop
  cases hstatic : Analysis.staticLevel? level with
  | some n =>
    simp only [hstatic, Option.mem_toList] at hloop
    rw [loopJump_of_static hstatic] at hrun
    obtain ⟨-, loop', hloop', rfl⟩ := (hs.staticBranch kind .any).of_ok hrun
    obtain rfl : loop' = loop := Option.some.inj (hloop'.symm.trans hloop)
    rw [jumpInstruction_of_lt hlevel]
    refine ⟨s.active.position, Nat.le_refl _, ?_, fun _ => ?_⟩
    · rw [State.active_withActive]
      exact Routine.code_push_self _
    · rw [State.active_withActive]
      exact (Routine.position_push _).symm
  | none =>
    simp only [hstatic] at hloop
    obtain ⟨e, he⟩ := loopJump_of_computed cfg hstatic kind
    rw [he] at hrun
    obtain ⟨-, hjumps⟩ := (hs.since.runtimeBranch tolerates_anyFailure kind
      ((fulfils_lower tolerates_anyFailure hcfg e).operand .any) .any).of_ok hrun
    obtain ⟨pc, hpc, hcode⟩ := hjumps loop hloop
    rw [jumpInstruction_of_lt (show loop.exceptionLevel < (c.since s).nesting from hlevel)] at hcode
    exact ⟨pc, hpc, hcode, nofun⟩

theorem hasLeave_return (hs : Ready anyFailure c [] s) (hcfg : cfg.registry = .standard)
    {expr : Option Expr} (hrun : jumpCode cfg .return expr s = (.ok (), t))
    (hl : t.frame.epilogue = some l) (hnesting : 0 < c.nesting) : HasLeave l true s t := by
  obtain ⟨_, u, hvalue, hrun⟩ := bind_ok hrun
  have hu := ((moves_returnValue tolerates_anyFailure hcfg .any).ends hs.since).of_ok hvalue
  obtain ⟨-, r, l', hgrows, hactive, hl'⟩ := (hu.returnJump tolerates_anyFailure).of_ok hrun
  obtain rfl : l' = l := Option.some.inj (hl'.symm.trans hl)
  rw [jumpInstruction_of_lt (show 0 < (c.since s).nesting from hnesting)] at hactive
  refine ⟨r.position, hgrows.position, ?_, fun _ => ?_⟩
  · rw [hactive]
    exact Routine.code_push_self _
  · rw [hactive]
    exact (Routine.position_push _).symm

/-- A loop around a statement that a jump in it concerns. -/
theorem mem_loopsLeft {outer : Visit} {level : Option Expr} {loop : Loop}
    (h : loop ∈ outer.loopsLeft v level) :
    loop ∈ loopsAt level v.start.frame.loops ∧ loop ∈ outer.start.frame.loops := by
  simpa only [Visit.loopsLeft, List.mem_filter, decide_eq_true_eq] using h

/-- **A jump out of a statement with a region of its own is a `leave`.** -/
theorem Visited.hasLeave {outer : Visit} {n : Nat}
    (h : Visited cfg outer.start.frame.loops (n + 1) s t v) (hcfg : cfg.registry = .standard)
    (hlevels : ∀ loop ∈ outer.start.frame.loops, loop.exceptionLevel ≤ n)
    (hl : l ∈ outer.exits cfg v) : HasLeave l (isDirect v.stmt) v.start (v.after cfg) := by
  obtain ⟨c, hc, hloops, hnesting⟩ := h.ready
  have hrun := h.run
  unfold Visit.exits at hl
  cases hstmt : v.stmt with
  | jump tag kind expr =>
    rw [hstmt, lowerStmt] at hrun
    rw [hstmt] at hl
    obtain ⟨u, -, hu, hcode, hrun⟩ := hc.statement_ok hcfg hrun
    have hposition : u.active.position = v.start.active.position := congrArg Array.size hcode
    have hleft : ∀ loop ∈ outer.loopsLeft v expr,
        loop ∈ loopsAt expr c.loops ∧ loop.exceptionLevel < c.nesting := by
      intro loop hloop
      obtain ⟨hat, hmem⟩ := mem_loopsLeft hloop
      rw [hc.1.loops] at hat
      exact ⟨hat, Nat.lt_of_le_of_lt (hlevels loop hmem) hnesting⟩
    unfold HasLeave
    rw [← hposition]
    cases kind with
    | «return» => exact hasLeave_return hu hcfg hrun (Option.mem_toList.mp hl) (by omega)
    | «break» =>
      obtain ⟨loop, hloop, rfl⟩ := List.mem_map.mp hl
      obtain ⟨hat, hlevel⟩ := hleft loop hloop
      exact hasLeave_loopJump hu hcfg hrun hat hlevel
    | «continue» =>
      obtain ⟨loop, hloop, rfl⟩ := List.mem_map.mp hl
      obtain ⟨hat, hlevel⟩ := hleft loop hloop
      exact hasLeave_loopJump hu hcfg hrun hat hlevel
  | _ =>
    rw [hstmt] at hl
    exact nomatch hl

/-! ## Positions of labels -/

/-- Where a jump out of a statement goes. -/
theorem exits_cases {outer : Visit} (hl : l ∈ outer.exits cfg v) :
    isContinue v.stmt = true ∧ (∃ loop ∈ outer.start.frame.loops, l = loop.continueLabel) ∨
      isContinue v.stmt = false ∧ ((v.after cfg).frame.epilogue = some l ∨
        ∃ loop ∈ outer.start.frame.loops, l = loop.breakLabel) := by
  unfold Visit.exits at hl
  split at hl
  · rename_i hstmt
    rw [hstmt]
    exact Or.inr ⟨rfl, Or.inl (Option.mem_toList.mp hl)⟩
  · rename_i hstmt
    obtain ⟨loop, hloop, rfl⟩ := List.mem_map.mp hl
    rw [hstmt]
    exact Or.inr ⟨rfl, Or.inr ⟨loop, (mem_loopsLeft hloop).2, rfl⟩⟩
  · rename_i hstmt
    obtain ⟨loop, hloop, rfl⟩ := List.mem_map.mp hl
    rw [hstmt]
    exact Or.inl ⟨rfl, loop, (mem_loopsLeft hloop).2, rfl⟩
  · exact nomatch hl

/-- A label that is not marked yet gets a position behind the code at hand. -/
theorem position_le_of_unmarked {r r' : Routine} {p : Nat} (h : r.Grows r')
    (hl : r.mark? l = some none) (hp : r'.labelPosition? l = some p) : r.position ≤ p := by
  rw [Routine.labelPosition?_eq, Option.join_eq_some_iff] at hp
  rcases h.unmarked hl with hnone | ⟨p', hle, hsome⟩
  · exact nomatch hnone.symm.trans hp
  · rw [hsome] at hp
    exact Option.some.inj (Option.some.inj hp) ▸ hle

/-- A label that is marked keeps its position. -/
theorem position_eq_of_marked {r r' : Routine} {p p' : Nat} (h : r.Grows r')
    (hl : r.mark? l = some (some p)) (hp : r'.labelPosition? l = some p') : p' = p := by
  rw [Routine.labelPosition?_eq, h.marked hl] at hp
  exact (Option.some.inj hp).symm

/-- The exits of the loops around, and the code that returns, are still to come. -/
theorem Ready.unmarked (hs : Ready anyFailure c [] s)
    (hl : s.frame.epilogue = some l ∨ ∃ loop ∈ s.frame.loops, l = loop.breakLabel) :
    s.active.mark? l = some none := by
  obtain ⟨ha, m, hm⟩ := hs
  rcases hl with hl | ⟨loop, hloop, rfl⟩
  · exact (hm.labelled.epilogue l hl).1
  · rw [ha.loops] at hloop
    exact hm.labelled.pending _ (hm.loops loop hloop).breakPending

/-- The tests of the loops around are at or before the position at hand. -/
theorem Ready.test_le (hs : Ready anyFailure c [] s) {loop : Loop} (hloop : loop ∈ s.frame.loops) :
    ∃ p, s.active.mark? loop.continueLabel = some (some p) ∧ p ≤ s.active.position := by
  obtain ⟨ha, m, hm⟩ := hs
  rw [ha.loops] at hloop
  obtain ⟨p, hp⟩ := (hm.loops loop hloop).continueMarked
  exact ⟨p, hp, (hm.fits.marks hp).1⟩

/-! ## Regions -/

/-- The region of a `try`, and the statements in it. -/
theorem Visited.region {loops : List Loop} {n : Nat} (h : Visited cfg loops n s t v)
    (hcfg : cfg.registry = .standard) (hregion : isRegion cfg v.stmt = true) :
    (∃ region, (v.after cfg).active.regions.back? = some region ∧
      region.tryStart = v.start.active.position ∧ region.stop = (v.after cfg).active.position) ∧
      ∀ w ∈ Lowering.visits cfg v.stmt v.start, w.stmt = v.stmt ∨
        Visited cfg v.start.frame.loops (v.start.frame.exceptionNesting + 1) v.start (v.after cfg) w := by
  obtain ⟨c, hc, -⟩ := h.ready
  have hrun := h.run
  cases hstmt : v.stmt with
  | tryCatch tag body catches cleanup =>
    rw [hstmt, isRegion, ← isSome_lowerOptional cfg cleanup] at hregion
    rw [hstmt, lowerStmt] at hrun
    obtain ⟨u, hentry, hu, hcode, hrun⟩ := hc.since.statement_ok hcfg hrun
    have hbody := records_lowerStmts tolerates_anyFailure hcfg body
    have hclauses := (records_lowerClauses tolerates_anyFailure hcfg catches).unlessEmpty
    have hcleanup := records_lowerOptional tolerates_anyFailure hcfg cleanup
    constructor
    · obtain ⟨w, hregioncode, hafter⟩ := tryCode_ok hregion hrun
      obtain ⟨-, region, hback, hstart, hstop⟩ := (hu.enterException.regionCode tolerates_anyFailure
        hbody hclauses hcleanup .any .any).of_ok hregioncode
      rw [hafter]
      exact ⟨region, hback, hstart.trans (congrArg Array.size hcode), hstop⟩
    · obtain ⟨-, hvisits⟩ := visited_tryCode hregion hu hbody (tracks_lowerStmts hcfg body) hclauses
        (tracks_lowerClauses hcfg catches) hcleanup (tracks_lowerOptional hcfg cleanup) hrun
      intro w hw
      rw [Lowering.visits, visit, show (Stmt.tryCatch tag body catches cleanup).kind = .tryCatch from rfl,
        show (Stmt.tryCatch tag body catches cleanup).tag = tag from rfl, following_eq hentry,
        ← isSome_lowerOptional cfg] at hw
      rcases List.mem_cons.mp hw with rfl | hw
      · exact Or.inl rfl
      · right
        rw [hc.1.loops, hc.1.nesting]
        exact (hvisits w hw).widen List.suffix_rfl (Nat.le_refl _) (hu.leads rfl rfl rfl) (.refl _)
  | _ =>
    rw [hstmt] at hregion
    cases hregion

/-- What is known of a jump out of a region, in the routine that comes out. -/
structure Leaves (cfg : Setting) (r : Routine) (region : Region) (v : Visit) (l : Label) : Prop where
  leave : ∃ pc, v.start.active.position ≤ pc ∧ pc < (v.after cfg).active.position ∧
    r.code[pc]? = some (.leave l) ∧ (isDirect v.stmt = true → pc + 1 = (v.after cfg).active.position)
  covers_iff : ∀ p, r.labelPosition? l = some p →
    (region.covers p = true ↔ isContinue v.stmt = true ∧ p = region.tryStart)

/-- **The ways out of the regions of a routine.**  The region of a `try` is recorded with the positions
at which its code begins and ends, and the jumps in it leave it. -/
def RoutineVisit.LeavesRegions (cfg : Setting) (j : RoutineVisit) : Prop :=
  ∀ outer ∈ j.visits cfg, isRegion cfg outer.stmt = true →
    ∃ region ∈ (j.routine cfg).regions, (outer.after cfg).active.regions.back? = some region ∧
      region.tryStart = outer.start.active.position ∧
      region.stop = (outer.after cfg).active.position ∧
      ∀ v ∈ Lowering.visits cfg outer.stmt outer.start, ∀ l ∈ outer.exits cfg v,
        Leaves cfg (j.routine cfg) region v l

theorem Visited.leaves {outer : Visit} {loops : List Loop} {n : Nat} {r : Routine}
    (h : Visited cfg loops n s t outer) (hcfg : cfg.registry = .standard)
    (hregion : isRegion cfg outer.stmt = true) (hgrows : t.active.Grows r) :
    ∃ region ∈ r.regions, (outer.after cfg).active.regions.back? = some region ∧
      region.tryStart = outer.start.active.position ∧
      region.stop = (outer.after cfg).active.position ∧
      ∀ v ∈ Lowering.visits cfg outer.stmt outer.start, ∀ l ∈ outer.exits cfg v,
        Leaves cfg r region v l := by
  obtain ⟨c, hc, -⟩ := h.ready
  obtain ⟨hafter, hlead⟩ := (records_lowerStmt tolerates_anyFailure hcfg outer.stmt).leads hc h.run
  have hsame : (outer.after cfg).frame.loops = outer.start.frame.loops :=
    hafter.1.loops.trans hc.1.loops.symm
  obtain ⟨⟨region, hback, hstart, hstop⟩, hvisits⟩ := h.region hcfg hregion
  have hgrows' : (outer.after cfg).active.Grows r := h.behind.grows.trans hgrows
  have hmem : region ∈ r.regions := by
    rw [Array.back?_eq_getElem?] at hback
    exact Array.mem_of_getElem? (hgrows'.regions hback)
  refine ⟨region, hmem, hback, hstart, hstop, fun v hv l hl => ?_⟩
  have hinner : Visited cfg outer.start.frame.loops (outer.start.frame.exceptionNesting + 1)
      outer.start (outer.after cfg) v := by
    refine (hvisits v hv).resolve_left fun hself => ?_
    -- A `try` is not a jump.
    unfold Visit.exits at hl
    rw [hself] at hl
    cases hstmt : outer.stmt with
    | tryCatch => rw [hstmt] at hl; exact nomatch hl
    | _ => rw [hstmt] at hregion; exact nomatch hregion
  have hlevels : ∀ loop ∈ outer.start.frame.loops,
      loop.exceptionLevel ≤ outer.start.frame.exceptionNesting := by
    rw [hc.1.loops, hc.1.nesting]
    exact hc.level_le
  obtain ⟨pc, hpc, hcode, hdirect⟩ := hinner.hasLeave hcfg hlevels hl
  have hlt : pc < (v.after cfg).active.position := (Array.getElem?_eq_some_iff.mp hcode).1
  refine ⟨⟨pc, hpc, hlt, hgrows'.code (hinner.behind.grows.code hcode), hdirect⟩, fun p hp => ?_⟩
  have hbefore : outer.start.active.position ≤ v.start.active.position := hinner.before.grows.position
  have hbehind : (v.after cfg).active.position ≤ (outer.after cfg).active.position :=
    hinner.behind.grows.position
  simp only [Region.covers, Bool.and_eq_true, decide_eq_true_eq, hstart, hstop]
  rcases exits_cases hl with ⟨hcontinue, loop, hloop, rfl⟩ | ⟨hnot, hexit⟩
  · -- The test was marked before, so the only position in question is the start of the region.
    obtain ⟨p', hp', hle⟩ := hc.test_le hloop
    obtain rfl := position_eq_of_marked (hlead.grows.trans hgrows') hp' hp
    simp only [hcontinue, true_and]
    omega
  · have hexit' : (outer.after cfg).frame.epilogue = some l ∨
        ∃ loop ∈ (outer.after cfg).frame.loops, l = loop.breakLabel := by
      rw [hsame]
      exact hexit.imp_left hinner.behind.epilogue
    have hle := position_le_of_unmarked hgrows' (hafter.unmarked hexit') hp
    simp only [hnot, Bool.false_eq_true, false_and, iff_false]
    omega

end Lowering

namespace Compiler

open Lowering (RoutineVisit Visit Leaves)

variable {c : Compiler} {unit : SourceUnit}

/-- The emission of the statements of a unit into a chunk. -/
def mainVisit (c : Compiler) (analyzed : AnalyzedUnit) (diagnostics : Array Diagnostic) (sink : Chunk) : RoutineVisit where
  body := analyzed.statements
  returnsRef := false
  start := c.emissionStart analyzed diagnostics sink

/-- The emission of the statements of a unit is all of its emission. -/
theorem within_mainVisit {analyzed : AnalyzedUnit} {diagnostics : Array Diagnostic} {name : String}
    {filePath : Option String} {tempLimit : Option Nat} (hc : c.registry = .standard)
    (h : (c.emit analyzed diagnostics (Chunk.new name filePath tempLimit)).isEmitted = true) :
    (c.mainVisit analyzed diagnostics (Chunk.new name filePath tempLimit)).Within c.loweringSetting
      (c.emit analyzed diagnostics (Chunk.new name filePath tempLimit)).sink := by
  obtain ⟨j, hj⟩ : ∃ j, j = c.mainVisit analyzed diagnostics (Chunk.new name filePath tempLimit) := ⟨_, rfl⟩
  have hcfg : c.loweringSetting.registry = .standard := hc
  rcases hrun : Lowering.lowerRoutine c.loweringSetting analyzed.statements false
    (c.emissionStart analyzed diagnostics (Chunk.new name filePath tempLimit)) with ⟨result, t⟩
  cases result with
  | error e =>
    simp only [emit, hrun, Outcome.isEmitted] at h
    cases h
  | ok a =>
    have hframe : Lowering.thenFrame (j.code c.loweringSetting) (fun _ => {}) j.start = (.ok (), t) := by
      rw [hj]
      exact hrun
    obtain ⟨y, hcode, rfl⟩ := Lowering.thenFrame_ok hframe
    have hafter : j.after c.loweringSetting = y := congrArg Prod.snd hcode
    have hready : Lowering.Ready Lowering.anyFailure
        (Lowering.Surroundings.start { outside := none, finished := [], earlier := [], loops := []
                                       memory := analyzed.memory, nesting := 0, returnsRef := false }
          j.start.active) [] j.start := by
      rw [hj]
      refine ⟨?_, _, Lowering.IsEmpty.holds ⟨rfl, rfl, rfl, rfl⟩ rfl rfl rfl⟩
      exact
        { outside := rfl, finished := .nil, earlier := List.nil_prefix, memory := rfl, loops := rfl
          nesting := rfl, returnsRef := rfl, table := .any }
    have hsink : (c.emit analyzed diagnostics (Chunk.new name filePath tempLimit)).sink = y.sink := by
      simp only [emit, hrun]
    have hrun' : j.code c.loweringSetting j.start = (.ok (), j.after c.loweringSetting) :=
      hafter.symm ▸ hcode
    obtain ⟨-, -, -, -, houtside⟩ := RoutineVisit.exists_body hcfg hready hrun'
    rw [hafter] at houtside
    rw [hsink, ← hj]
    refine ⟨⟨_, hready⟩, hrun', ?_, ?_⟩
    · unfold RoutineVisit.routine
      have hmain : y.active = y.sink.main := Chunk.active_of_outside houtside
      rw [hafter, hmain]
      exact List.mem_cons_self
    · rw [hafter]
      exact fun f hf => List.mem_cons_of_mem _ hf

/-- **The ways out of every `try` in a unit that is emitted.**  A jump out of a `try` is a `leave`,
and its label is covered by the region of the `try` if and only if it is the test of a loop, at the
position where the region begins. -/
theorem leaves_iff_of_emitted (hc : c.registry = .standard) (name : String) (filePath : Option String)
    (tempLimit : Option Nat)
    (h : (c.compile unit (Chunk.new name filePath tempLimit)).isEmitted = true) :
    ∃ analyzed diagnostics, c.analyze unit = (.ok analyzed, diagnostics) ∧
      ∀ j, RoutineVisit.Emits c.loweringSetting
          (c.mainVisit analyzed diagnostics (Chunk.new name filePath tempLimit)) j →
        j.routine c.loweringSetting ∈ (c.compile unit (Chunk.new name filePath tempLimit)).sink.routines ∧
          (j.visits c.loweringSetting).map Visit.stmt = Stmt.ownOf j.body ∧
            j.LeavesRegions c.loweringSetting := by
  obtain ⟨analyzed, diagnostics, hanalyze, -, heq⟩ := emit_of_isEmitted h
  have hcfg : c.loweringSetting.registry = .standard := hc
  refine ⟨analyzed, diagnostics, hanalyze, fun j hj => ?_⟩
  rw [heq] at h ⊢
  have hwithin := (within_mainVisit hc h).of_emits hcfg hj
  obtain ⟨t, hown, hvisits, hgrows, -⟩ := hwithin.body hcfg
  refine ⟨hwithin.routine, hown, fun outer houter hregion => ?_⟩
  exact (hvisits outer houter).leaves hcfg hregion hgrows

/-- A `continue` in a `try` that is the whole body of a loop without a test. -/
def continueInTry : SourceUnit :=
  { name := "unit", nextId := 6, span := {}
    statements := [
      .loop ⟨0, {}⟩ (.literal ⟨1, {}, .none⟩ (.bool true)) [
        .tryCatch ⟨2, {}⟩ [.jump ⟨3, {}⟩ .continue none] []
          (some [.echo ⟨4, {}⟩ [.literal ⟨5, {}, .none⟩ (.string "f")]])]] }

theorem leaves_iff_continueInTry :
    (({} : Compiler).compile continueInTry (Chunk.new "unit" none none)).isEmitted = true ∧
      ∃ analyzed diagnostics, ({} : Compiler).analyze continueInTry = (.ok analyzed, diagnostics) ∧
        ∀ j, RoutineVisit.Emits ({} : Compiler).loweringSetting
            (({} : Compiler).mainVisit analyzed diagnostics (Chunk.new "unit" none none)) j →
          j.routine ({} : Compiler).loweringSetting ∈
              (({} : Compiler).compile continueInTry (Chunk.new "unit" none none)).sink.routines ∧
            (j.visits ({} : Compiler).loweringSetting).map Visit.stmt = Stmt.ownOf j.body ∧
              j.LeavesRegions ({} : Compiler).loweringSetting := by
  have h : (({} : Compiler).compile continueInTry (Chunk.new "unit" none none)).isEmitted = true := by
    decide +kernel
  exact ⟨h, leaves_iff_of_emitted rfl "unit" none none h⟩

/-- The label of the `continue` is covered by the region that it leaves. -/
theorem leaves_fails_for_continue :
    ∃ analyzed diagnostics, ({} : Compiler).analyze continueInTry = (.ok analyzed, diagnostics) ∧
      ∃ outer ∈ (({} : Compiler).mainVisit analyzed diagnostics (Chunk.new "unit" none none)).visits
          ({} : Compiler).loweringSetting,
        Lowering.isRegion ({} : Compiler).loweringSetting outer.stmt = true ∧
        ∃ v ∈ Lowering.visits ({} : Compiler).loweringSetting outer.stmt outer.start,
          ∃ l ∈ outer.exits ({} : Compiler).loweringSetting v,
            ∃ region, (outer.after ({} : Compiler).loweringSetting).active.regions.back? = some region ∧
              ∃ p, (({} : Compiler).compile continueInTry
                  (Chunk.new "unit" none none)).sink.main.labelPosition? l = some p ∧
                region.covers p = true := by
  have hfound : (({} : Compiler).analyze continueInTry).1.toOption.any (fun analyzed =>
      ((({} : Compiler).mainVisit analyzed (({} : Compiler).analyze continueInTry).2 (Chunk.new "unit" none none)).visits
          ({} : Compiler).loweringSetting).any fun outer =>
        Lowering.isRegion ({} : Compiler).loweringSetting outer.stmt &&
          (Lowering.visits ({} : Compiler).loweringSetting outer.stmt outer.start).any fun v =>
            (outer.exits ({} : Compiler).loweringSetting v).any fun l =>
              (outer.after ({} : Compiler).loweringSetting).active.regions.back?.any fun region =>
                ((({} : Compiler).compile continueInTry
                  (Chunk.new "unit" none none)).sink.main.labelPosition? l).any region.covers) = true := by
    decide +kernel
  rcases hanalyze : ({} : Compiler).analyze continueInTry with ⟨_ | analyzed, diagnostics⟩
  · rw [hanalyze] at hfound
    exact absurd hfound Bool.false_ne_true
  · simp only [hanalyze, Except.toOption, Option.any_some, List.any_eq_true, Bool.and_eq_true, Option.any_eq_true] at hfound
    obtain ⟨outer, houter, hregion, v, hv, l, hl, region, hback, p, hp, hcovers⟩ := hfound
    exact ⟨analyzed, diagnostics, rfl, outer, houter, hregion, v, hv, l, hl, region, hback, p, hp, hcovers⟩

end Compiler
end PhpLowering
