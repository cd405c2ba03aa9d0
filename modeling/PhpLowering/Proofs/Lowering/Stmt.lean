import PhpLowering.Proofs.Lowering.Records

/-!
# The code of statements and of routines

**`records_lowerStmts`**: the code of statements does what the statements say.  The induction
follows the recursion of `lowerStmt`.

A function is emitted into a routine of its own while the routine around it waits.  It starts
in a scene in which nothing is known, and when it is done the scene around is what it was,
with one more function that is finished.
-/

namespace PhpLowering
namespace Lowering

open Pass (Ends)

variable {E : CompileError → Prop} {c : Scene} {s : State Chunk} {cfg : Setting} {f : Frame}
  {r : Routine} {own : List Stmt} {fs : List (FunctionHead × List Stmt)} {x : Emit Chunk Unit}

/-! ## Routines from start to end -/

/-- The scene at the start of a routine. -/
def Surroundings.start (u : Surroundings) (r : Routine) : Scene :=
  { u with
    base := r, typed := [], pending := [], opened := [], marked := [], gone := [], called := []
    returnLabel := none }

/-- Nothing has been done to a routine. -/
structure IsEmpty (r : Routine) : Prop where
  code : r.code = #[]
  labels : r.labels = #[]
  regions : r.regions = #[]
  openRegions : r.openRegions = []

theorem IsEmpty.mark? (h : IsEmpty r) (l : Label) : r.mark? l = none := by
  unfold Routine.mark?
  rw [h.labels]
  rfl

/-- At the start there is nothing that could be wrong. -/
theorem IsEmpty.holds (h : IsEmpty r) {u : Surroundings} (hloops : u.loops = [])
    (hlabels : f.labels = []) (hepilogue : f.epilogue = none) :
    Holds ⟨fun _ => [], fun _ => []⟩ (u.start r) [] f r where
  fits :=
    { code := fun hi => by rw [h.code] at hi; exact nomatch hi
      marks := fun hl => by rw [h.mark?] at hl; exact nomatch hl
      regions := fun region hr => by rw [h.regions] at hr; exact nomatch hr
      opened := fun o ho => by rw [h.openRegions] at ho; exact nomatch ho }
  start := rfl
  top := rfl
  grows := .refl r
  opened := h.openRegions
  typed := nofun
  loops l hl := by
    have hnil : (u.start r).loops = [] := hloops
    rw [hnil] at hl
    exact nomatch hl
  labelled :=
    { pending := nofun, nodup := List.nodup_nil
      epilogue := fun l hl => by rw [hepilogue] at hl; exact nomatch hl
      named := fun name l hl => by rw [hlabels] at hl; exact nomatch hl
      named_inj := fun name name' l hl => by rw [hlabels] at hl; exact nomatch hl
      marked := nofun, gone := nofun
      unmarked := fun l hl => by rw [h.mark?] at hl; exact nomatch hl
      returnLabel := nofun }

/-- The scene around a routine with no loops and regions. -/
def Surroundings.ofRoutine (u : Surroundings) (returnsRef : Bool) : Surroundings :=
  { u with loops := [], nesting := 0, returnsRef }

/-- **A routine around the code of its body.** -/
theorem ends_routineCode {P : Nat → Prop} (hE : Tolerates E) {u : Surroundings} {returnsRef : Bool}
    (hx : Records E own fs P x) (hP : Granted E (P 0))
    (hfresh : Granted E (own.filterMap Stmt.label?).Nodup) (hempty : IsEmpty s.active)
    (ha : Around E (u.ofRoutine returnsRef) { s with frame := { returnsRef } }) :
    Ends (routineCode returnsRef x) s (fun _ t => t.frame = s.frame ∧ (∃ f,
      Around E ({ u with finished := u.finished ++ fs }.ofRoutine returnsRef) { t with frame := f }) ∧
        Finished (own.filterMap (Stmt.mark? u.memory)) (own.filterMap Stmt.goto?) t.active) E := by
  have hstart : Ready E ((u.ofRoutine returnsRef).start s.active) []
      { s with frame := { returnsRef } } :=
    ⟨ha, _, hempty.holds rfl rfl rfl⟩
  refine ends_frame ?_
  refine Ends.bind (Q := fun _ t => Ready E ((u.ofRoutine returnsRef).start s.active) [] t)
    (.update hstart) fun _ t ht => ?_
  refine .ensuring ?_
  have hnodup : Granted E (((u.ofRoutine returnsRef).start s.active).Fresh own) :=
    hfresh.imp fun h => h.sublist (Stmt.filterMap_mark?_sublist u.memory own)
  refine (hx ((u.ofRoutine returnsRef).start s.active) t hP hnodup ht).bind fun _ v hv => ?_
  refine (hv.routineEnd hE ⟨rfl, rfl, rfl⟩ returnsRef).mono ?_
  rintro _ w ⟨-, f, haround, hfinished⟩
  exact ⟨rfl, ⟨f, haround⟩, hfinished⟩

/-! ## Functions -/

/-- What a routine that is finished is the code of. -/
theorem Finished.codeOf {memory : RuleMemory} {body : List Stmt}
    (h : Finished ((Stmt.ownOf body).filterMap (Stmt.mark? memory))
      ((Stmt.ownOf body).filterMap Stmt.goto?) r) : r.CodeOf memory body :=
  ⟨h.stackSafe, h.allMarked_iff⟩

/-- The scene does not depend on the functions that are finished. -/
theorem Ready.withFinished {t : State Chunk} {finished : List (FunctionHead × List Stmt)} {S : List Slot}
    (hs : Ready E c S s) (ha : Around E { c.toSurroundings with finished } t)
    (hactive : t.active = s.active) (hframe : t.frame = s.frame) :
    Ready E { c with finished } S t := by
  obtain ⟨-, m, hm⟩ := hs
  refine ⟨ha, m, ?_⟩
  rw [hactive, hframe]
  exact hm.change rfl rfl (fun _ h => h) (fun l hl => { hm.loops l hl with })
    { hm.labelled with named := fun n l hl => { hm.labelled.named n l hl with } }

/-- A function starts with an empty routine, and the routine around it waits. -/
theorem Ready.beginFunction {S : List Slot} (hs : Ready E c S s) (head : FunctionHead) :
    Ends (toSink (Sink.beginFunction head)) s (fun _ t => IsEmpty t.active ∧ t.frame = s.frame ∧
      Around E ({ c.toSurroundings with
        outside := some (s.sink.main, s.sink.pending) }.ofRoutine head.byRef)
          { t with frame := { returnsRef := head.byRef } }) E := by
  have ha := hs.1
  refine .of_eq rfl ⟨⟨rfl, rfl, rfl, rfl⟩, rfl, ?_⟩
  exact
    { outside := rfl, finished := ha.finished, earlier := ha.earlier, memory := ha.memory
      loops := rfl, nesting := rfl, returnsRef := rfl, table := ha.table }

/-- A function that is begun, emitted and ended. -/
theorem records_function (hE : Tolerates E) (head : FunctionHead) {body : List Stmt}
    (hx : Records E (Stmt.ownOf body) (Stmt.functionsOf body) (Stmt.ServesAll E body) x) :
    Records E [] (Stmt.functionsOf body ++ [(head, body)])
      (fun _ => Stmt.ServesAll E body 0 ∧ ((Stmt.ownOf body).filterMap Stmt.label?).Nodup) (do
        toSink (Sink.beginFunction head)
        routineCode head.byRef x
        toSink Sink.endFunction) := by
  intro c s hP _ hs
  have ha := hs.1
  refine (hs.beginFunction head).bind ?_
  rintro _ t ⟨hempty, hbegin, haround⟩
  refine (ends_routineCode hE hx (hP.imp fun h => h.1) (hP.imp fun h => h.2) hempty haround).bind ?_
  rintro _ v ⟨hframe, ⟨f, hv⟩, hfinished⟩
  have hframe' : v.frame = s.frame := hframe.trans hbegin
  -- The routine around is where it was left, below the function.
  have hsink : v.sink = ⟨s.sink.main, v.sink.functions, v.active :: s.sink.pending⟩ :=
    Chunk.eq_of_outside hv.outside
  have hend : toSink Sink.endFunction v =
      (.ok (), { v with sink := ⟨s.sink.main, v.sink.functions.push v.active, s.sink.pending⟩ }) := by
    have hcall : Chunk.endFunction v.sink =
        (.ok (), ⟨s.sink.main, v.sink.functions.push v.active, s.sink.pending⟩) := by
      rw [hsink]
      simp only [Chunk.endFunction, hfinished.balanced, List.isEmpty_nil, if_true]
    show toSink Chunk.endFunction v = _
    simp only [toSink, hcall]
  refine .of_eq hend ?_
  have hrecord : c.record [] (Stmt.functionsOf body ++ [(head, body)]) =
      { c with finished := c.finished ++ (Stmt.functionsOf body ++ [(head, body)]) } := by
    unfold Scene.record
    rw [List.filterMap_nil, List.filterMap_nil, List.append_nil, List.append_nil]
  rw [hrecord]
  refine hs.withFinished ?_ rfl hframe'
  refine
    { outside := ?_, finished := ?_, earlier := ?_, memory := hv.memory, loops := ?_, nesting := ?_
      returnsRef := ?_, table := hv.table }
  · rw [← ha.outside]
    rcases s.sink with ⟨_, _, _ | _⟩ <;> rfl
  · rw [← List.append_assoc, Array.toList_push]
    exact List.rel_append hv.finished (.cons hfinished.codeOf .nil)
  · rw [Array.toList_push]
    exact hv.earlier.trans (List.prefix_append _ _)
  · exact (congrArg Frame.loops hframe').trans ha.loops
  · exact (congrArg Frame.exceptionNesting hframe').trans ha.nesting
  · exact (congrArg Frame.returnsRef hframe').trans ha.returnsRef

/-- There may be no clauses, which then have nothing to do. -/
theorem RecordsClauses.unlessEmpty {catches : List Catch} {P : Nat → Prop}
    {clauses : Label → Temp → Emit Chunk Unit}
    (h : RecordsClauses E (Stmt.ownOfCatches catches) (Stmt.functionsOfCatches catches) P clauses) :
    if !catches.isEmpty then
      RecordsClauses E (Stmt.ownOfCatches catches) (Stmt.functionsOfCatches catches) P clauses
    else Stmt.ownOfCatches catches = [] ∧ Stmt.functionsOfCatches catches = [] := by
  cases catches with
  | nil => exact ⟨rfl, rfl⟩
  | cons => exact h

/-! ## Statements -/

/-- A statement without parts that leaves nothing to be recorded. -/
theorem records_leaf (hE : Tolerates E) (hcfg : cfg.registry = .standard) {kind : StmtKind}
    {tag : StmtTag} {node : Stmt} {P : Nat → Prop} (hgoto : node.goto? = none)
    (hlabel : ∀ memory, node.mark? memory = none) (h : Records E [] [] P x) :
    Records E [node] [] P (statement cfg kind tag fun _ => x) :=
  .statement hE hcfg hgoto hlabel fun _ => h

mutual

/-- **The code of a statement does what the statement says.** -/
theorem records_lowerStmt (hE : Tolerates E) (hcfg : cfg.registry = .standard) :
    ∀ x : Stmt, Records E x.own x.functions (x.Serves E) (lowerStmt cfg x)
  | .expression tag e => by
    rw [lowerStmt]
    exact records_leaf hE hcfg rfl (fun _ => rfl) (records_expression hE hcfg e)
  | .echo tag es => by
    rw [lowerStmt]
    refine records_leaf hE hcfg rfl (fun _ => rfl) (.nothing fun c s hP hs => ?_)
    exact (moves_echoAll hE hcfg hP).ends hs
  | .block tag body => by
    rw [lowerStmt]
    exact .statement hE hcfg rfl (fun _ => rfl) fun _ => records_lowerStmts hE hcfg body
  | .branch tag condition thenBody elseBody => by
    rw [lowerStmt]
    exact .statement hE hcfg rfl (fun _ => rfl) fun _ =>
      .branch hE hcfg (records_lowerStmts hE hcfg thenBody) (records_lowerOptional hE hcfg elseBody)
  | .loop tag condition body => by
    rw [lowerStmt]
    exact .statement hE hcfg rfl (fun _ => rfl) fun _ =>
      .loop hE hcfg (records_lowerStmts hE hcfg body)
  | .jump tag kind expr => by
    rw [lowerStmt]
    exact records_leaf hE hcfg rfl (fun _ => rfl) (records_jump hE hcfg kind expr)
  | .goto tag name => by
    rw [lowerStmt]
    intro c s _ _ hs
    have hrecord : c.record [.goto tag name] [] = { c with gone := c.gone ++ [name] } := by
      simp [Scene.record, Stmt.mark?, Stmt.goto?]
    rw [Stmt.own, Stmt.functions, hrecord]
    exact hs.statement hE hcfg fun t ht => ht.goto name
  | .label tag name => by
    rw [lowerStmt]
    intro c s _ hfresh hs
    exact hs.statement hE hcfg fun t ht => records_label tag name c t (.mk trivial) hfresh ht
  | .tryCatch tag body catches cleanup => by
    rw [lowerStmt]
    exact .statement hE hcfg rfl (fun _ => rfl) fun _ =>
      .tryCode hE (records_lowerStmts hE hcfg body) (records_lowerClauses hE hcfg catches).unlessEmpty
        (records_lowerOptional hE hcfg cleanup)
  | .throw tag e => by
    rw [lowerStmt]
    refine records_leaf hE hcfg rfl (fun _ => rfl) (records_boxed hE hcfg e fun c s hs => ?_)
    exact (hs.emit .throw [] [] Instruction.eq_boxed_of_mem rfl nofun nofun nofun).mono
      fun _ _ ht => ht.1
  | .unset tag targets => by
    rw [lowerStmt]
    refine records_leaf hE hcfg rfl (fun _ => rfl) (.nothing fun c s hP hs => ?_)
    exact (moves_unsetAll hE hcfg hP).ends hs
  | .constDecl tag name value => by
    rw [lowerStmt]
    refine records_leaf hE hcfg rfl (fun _ => rfl) (records_boxed hE hcfg value fun c s hs => ?_)
    exact (moves_take (.defineConstant name) [] rfl Instruction.eq_boxed_of_mem (fun _ => rfl) rfl
      nofun).ends hs
  | .function tag head body dead => by
    rw [lowerStmt]
    exact .statement hE hcfg rfl (fun _ => rfl) fun _ =>
      records_function hE head (records_lowerStmts hE hcfg body)
  | .empty tag kind => by
    rw [lowerStmt]
    exact records_leaf hE hcfg rfl (fun _ => rfl) (.nothing fun c s _ hs => .pure hs)
termination_by structural x => x

/-- **The code of statements does what the statements say.** -/
theorem records_lowerStmts (hE : Tolerates E) (hcfg : cfg.registry = .standard) :
    ∀ xs : List Stmt, Records E (Stmt.ownOf xs) (Stmt.functionsOf xs) (Stmt.ServesAll E xs)
      (lowerStmts cfg xs)
  | [] => by
    rw [lowerStmts]
    exact .nothing fun c s _ hs => .pure hs
  | x :: rest => by
    rw [lowerStmts]
    exact (records_lowerStmt hE hcfg x).seq (records_lowerStmts hE hcfg rest)
termination_by structural xs => xs

theorem records_lowerOptional (hE : Tolerates E) (hcfg : cfg.registry = .standard) :
    ∀ body : Option (List Stmt), RecordsOptional E (Stmt.ownOfOptional body)
      (Stmt.functionsOfOptional body) (Stmt.ServesOptional E body) (lowerOptional cfg body)
  | none => ⟨rfl, rfl⟩
  | some body => records_lowerStmts hE hcfg body
termination_by structural body => body

theorem records_lowerClauses (hE : Tolerates E) (hcfg : cfg.registry = .standard) :
    ∀ catches : List Catch, RecordsClauses E (Stmt.ownOfCatches catches)
      (Stmt.functionsOfCatches catches) (Stmt.ServesCatches E catches) (lowerClauses cfg catches)
  | [] => by
    intro regionEnd k c s _ _ _ hs
    rw [Stmt.ownOfCatches, Stmt.functionsOfCatches, c.record_nil, lowerClauses]
    exact .pure hs
  | .clause _ type var body resolved :: rest =>
    .clause (records_lowerStmts hE hcfg body) (records_lowerClauses hE hcfg rest)
termination_by structural catches => catches

end

end Lowering
end PhpLowering
