import PhpLowering.Proofs.Lowering.Routine

/-!
# What the code of a statement leaves behind

The code of a statement starts and ends on an empty stack.  What it adds to the scene is what
the statement says: the targets it marks, those it goes to, and the functions it declares.
`Records` is that property of a piece of code, and the lemmas follow the ways in which
statements are put together.
-/

namespace PhpLowering
namespace Lowering

open Pass (Ends)

variable {E : CompileError → Prop} {c : Scene} {s : State Chunk} {cfg : Setting}
  {own own' : List Stmt} {fs fs' : List (FunctionHead × List Stmt)} {P P' : Nat → Prop}
  {x y : Emit Chunk Unit}

/-- The scene after statements of its routine, and functions declared in them. -/
def Scene.record (c : Scene) (own : List Stmt) (fs : List (FunctionHead × List Stmt)) : Scene :=
  { c with
    marked := c.marked ++ own.filterMap (Stmt.mark? c.memory)
    gone := c.gone ++ own.filterMap Stmt.goto?
    finished := c.finished ++ fs }

theorem Scene.record_nil (c : Scene) : c.record [] [] = c := by
  unfold record
  rw [List.filterMap_nil, List.filterMap_nil, List.append_nil, List.append_nil, List.append_nil]

theorem Scene.record_record (c : Scene) :
    (c.record own fs).record own' fs' = c.record (own ++ own') (fs ++ fs') := by
  unfold record
  rw [List.filterMap_append, List.filterMap_append, ← List.append_assoc, ← List.append_assoc,
    ← List.append_assoc]

/-- A statement that is neither a label nor a `goto` adds nothing itself. -/
theorem Scene.record_cons (c : Scene) {x : Stmt} (hgoto : x.goto? = none)
    (hlabel : x.mark? c.memory = none) : c.record (x :: own) fs = c.record own fs := by
  unfold record
  rw [List.filterMap_cons_none hgoto, List.filterMap_cons_none hlabel]

/-- The targets that statements mark are new ones. -/
def Scene.Fresh (c : Scene) (own : List Stmt) : Prop :=
  (c.marked ++ own.filterMap (Stmt.mark? c.memory)).Nodup

theorem Scene.Fresh.left (h : c.Fresh (own ++ own')) : c.Fresh own := by
  unfold Fresh at h ⊢
  rw [List.filterMap_append, ← List.append_assoc] at h
  exact (List.nodup_append.mp h).1

theorem Scene.Fresh.right (h : c.Fresh (own ++ own')) : (c.record own fs).Fresh own' := by
  unfold Fresh at h
  rw [List.filterMap_append, ← List.append_assoc] at h
  exact h

theorem Scene.Fresh.of_cons {x : Stmt} (h : c.Fresh (x :: own))
    (hlabel : x.mark? c.memory = none) : c.Fresh own := by
  unfold Fresh at h
  rwa [List.filterMap_cons_none hlabel] at h

/-- A piece of code does what statements say, if they can be emitted among so many loops. -/
def Records (E : CompileError → Prop) (own : List Stmt) (fs : List (FunctionHead × List Stmt))
    (P : Nat → Prop) (x : Emit Chunk Unit) : Prop :=
  ∀ (c : Scene) (s : State Chunk), Granted E (P c.loops.length) → Granted E (c.Fresh own) →
    Ready E c [] s → Ends x s (fun _ t => Ready E (c.record own fs) [] t) E

/-- A part that may be missing does what statements say. -/
def RecordsOptional (E : CompileError → Prop) (own : List Stmt)
    (fs : List (FunctionHead × List Stmt)) (P : Nat → Prop) : Option (Emit Chunk Unit) → Prop
  | some x => Records E own fs P x
  | none => own = [] ∧ fs = []

namespace Records

theorem nothing (h : ∀ c s, Granted E (P c.loops.length) → Ready E c [] s →
    Ends x s (fun _ t => Ready E c [] t) E) : Records E [] [] P x := by
  intro c s hP _ hs
  rw [c.record_nil]
  exact h c s hP hs

theorem seq (hx : Records E own fs P x) (hy : Records E own' fs' P' y) :
    Records E (own ++ own') (fs ++ fs') (fun depth => P depth ∧ P' depth) (do x; y) := by
  intro c s hP hfresh hs
  refine (hx c s (hP.imp fun h => h.1) (hfresh.imp fun h => h.left) hs).bind fun _ t ht => ?_
  rw [← c.record_record]
  exact hy _ t (hP.imp fun h => h.2) (hfresh.imp fun h => h.right) ht

/-- A statement that is neither a label nor a `goto` does what its parts say. -/
theorem statement (hE : Tolerates E) (hcfg : cfg.registry = .standard) {kind : StmtKind}
    {tag : StmtTag} {node : Stmt} {code : Home StmtKind → Emit Chunk Unit}
    (hgoto : node.goto? = none) (hlabel : ∀ memory, node.mark? memory = none)
    (h : ∀ home, Records E own fs P (code home)) :
    Records E (node :: own) fs P (Lowering.statement cfg kind tag code) := by
  intro c s hP hfresh hs
  rw [c.record_cons hgoto (hlabel _)]
  exact hs.statement hE hcfg fun t ht => h _ c t hP (hfresh.imp fun h => h.of_cons (hlabel _)) ht

theorem branch (hE : Tolerates E) (hcfg : cfg.registry = .standard) {condition : Expr}
    {otherwise : Option (Emit Chunk Unit)} (hx : Records E own fs P x)
    (hy : RecordsOptional E own' fs' P' otherwise) :
    Records E (own ++ own') (fs ++ fs')
      (fun depth => condition.Serves E .operand ∧ P depth ∧ P' depth)
      (branchCode cfg condition x otherwise) := by
  intro c s hP hfresh hs
  have hin := hs.loopsIn
  refine (hs.branchHead hE hcfg (hP.imp fun h => h.1)).bind fun l s hs => ?_
  refine (hx (c.addLabel l []) s (hP.imp fun h => h.2.1) (hfresh.imp fun h => h.left) hs).bind
    fun _ s hs => ?_
  have hs' : Ready E ((c.record own fs).addLabel l []) [] s := hs
  cases otherwise with
  | none =>
    obtain ⟨rfl, rfl⟩ := hy
    rw [List.append_nil, List.append_nil]
    exact hs'.markLast hin
  | some y =>
    refine (hs'.elseHead hin).bind fun done s hs => ?_
    refine (hy ((c.record own fs).addLabel done []) s (hP.imp fun h => h.2.2)
      (hfresh.imp fun h => h.right) hs).bind fun _ s hs => ?_
    rw [← c.record_record]
    have hs' : Ready E (((c.record own fs).record own' fs').addLabel done []) [] s := hs
    exact hs'.markLast hin

theorem loop (hE : Tolerates E) (hcfg : cfg.registry = .standard) {condition : Expr}
    (hx : Records E own fs P x) :
    Records E own fs (fun depth => condition.Serves E .operand ∧ P (depth + 1))
      (loopCode cfg condition x) := by
  intro c s hP hfresh hs
  have hin := hs.loopsIn
  refine (hs.loopHead hE hcfg (hP.imp fun h => h.1)).bind ?_
  rintro loop s ⟨hs, -⟩
  have hbody : Ends x s (fun _ t => Ready E ((c.record own fs).inLoop loop) [] t) E :=
    hx (c.inLoop loop) s (hP.imp fun h => h.2) hfresh hs
  have hleave : Ends (thenFrame x Frame.leaveLoop) s
      (fun _ t => Ready E ((c.record own fs).behindLoop loop) [] t) E :=
    .ensuring (hbody.mono fun _ t ht => ht.leaveLoop rfl)
  exact hleave.bind fun _ s hs => (hs.loopEnd hin).mono fun _ _ ht => ht.1

end Records

/-! ## Exception regions -/

/-- The code of clauses does what statements say, in a region whose end is known. -/
def RecordsClauses (E : CompileError → Prop) (own : List Stmt)
    (fs : List (FunctionHead × List Stmt)) (P : Nat → Prop)
    (clauses : Label → Temp → Emit Chunk Unit) : Prop :=
  ∀ (regionEnd : Label) (k : Temp) (c : Scene) (s : State Chunk), (regionEnd, []) ∈ c.typed →
    Granted E (P c.loops.length) → Granted E (c.Fresh own) → Ready E c [] s →
      Ends (clauses regionEnd k) s (fun _ t => Ready E (c.record own fs) [] t) E

theorem RecordsClauses.clause {clauses : Label → Temp → Emit Chunk Unit} {type : String}
    {var : Option String} (hx : Records E own fs P x)
    (hrest : RecordsClauses E own' fs' P' clauses) :
    RecordsClauses E (own ++ own') (fs ++ fs') (fun depth => P depth ∧ P' depth)
      (fun regionEnd k => do
        clauseCode k regionEnd type var x
        clauses regionEnd k) := by
  intro regionEnd k c s hend hP hfresh hs
  have hin := hs.loopsIn
  have hclause : Ends (clauseCode k regionEnd type var x) s
      (fun _ t => Ready E (c.record own fs) [] t) E := by
    refine (hs.clauseHead k type var).bind fun next s hs => ?_
    refine (hx (c.addLabel next []) s (hP.imp fun h => h.1) (hfresh.imp fun h => h.left) hs).bind
      fun _ s hs => ?_
    have hs' : Ready E ((c.record own fs).addLabel next []) [] s := hs
    exact hs'.clauseEnd hend hin
  refine hclause.bind fun _ s hs => ?_
  rw [← c.record_record]
  exact hrest regionEnd k _ s hend (hP.imp fun h => h.2) (hfresh.imp fun h => h.right) hs

/-- After the clauses of a region, an exception that none of them is for goes on. -/
theorem Ready.handlersCode {o : OpenRegion} (hs : Ready E (c.inRegion o) [] s) (hE : Tolerates E)
    (hblock : o.block = .guarded) {clauses : Label → Temp → Emit Chunk Unit}
    (hclauses : RecordsClauses E own fs P clauses) (hP : Granted E (P c.loops.length))
    (hfresh : Granted E (c.Fresh own)) :
    Ends (Lowering.handlersCode (clauses o.endLabel)) s (fun _ t => ∃ o' : OpenRegion,
      o'.endLabel = o.endLabel ∧ o'.tryStart = o.tryStart ∧
        o'.block = .handler (.catching hostType) ∧ Ready E ((c.record own fs).inRegion o') [] t) E := by
  refine (hs.handlersHead hE hblock).bind ?_
  rintro k s ⟨o', hend, hstart, hblock', hs⟩
  have hmem : (o.endLabel, []) ∈ (c.inRegion o').typed := by
    rw [← hend]
    exact List.mem_cons_self
  refine (hclauses o.endLabel k (c.inRegion o') s hmem hP hfresh hs).bind fun _ s hs => ?_
  refine (hs.rethrow []).bind fun _ s hs => ?_
  exact (hs.returnTemp k).mono fun _ t ht => ⟨o', hend, hstart, hblock', ht⟩

/-- Before a region ends, there is a handler. -/
theorem Ready.cleanupCode {o : OpenRegion} (hs : Ready E (c.inRegion o) [] s) {hasClauses : Bool}
    (hblock : o.block = if hasClauses then .handler (.catching hostType) else .guarded)
    {cleanup : Option (Emit Chunk Unit)} (hcleanup : RecordsOptional E own fs P cleanup)
    (hP : Granted E (P c.loops.length)) (hfresh : Granted E (c.Fresh own)) :
    Ends (Lowering.cleanupCode hasClauses cleanup) s (fun _ t => ∃ (o' : OpenRegion) (kind : HandlerKind),
      o'.endLabel = o.endLabel ∧ o'.tryStart = o.tryStart ∧ o'.block = .handler kind ∧
        Ready E ((c.record own fs).inRegion o') [] t) E := by
  have hnot : o.block ≠ .handler .cleanup := by
    rw [hblock]
    cases hasClauses <;> nofun
  cases cleanup with
  | some x =>
    refine (hs.beginHandler .cleanup hnot).bind ?_
    rintro _ s ⟨o', hend, hstart, hblock', hs, -⟩
    refine (hcleanup (c.inRegion o') s hP hfresh hs).mono fun _ t ht => ?_
    exact ⟨o', .cleanup, hend, hstart, hblock', ht⟩
  | none =>
    obtain ⟨rfl, rfl⟩ := hcleanup
    rw [c.record_nil]
    cases hasClauses with
    | true => exact .pure ⟨o, .catching hostType, rfl, rfl, hblock, hs⟩
    | false =>
      refine (hs.beginHandler .cleanup hnot).mono ?_
      rintro _ t ⟨o', hend, hstart, hblock', ht, -⟩
      exact ⟨o', .cleanup, hend, hstart, hblock', ht⟩

/-- **An exception region.**  It is recorded with the positions at which it starts and ends. -/
theorem Ready.regionCode {own₁ own₂ own₃ : List Stmt} {fs₁ fs₂ fs₃ : List (FunctionHead × List Stmt)}
    {P₁ P₂ P₃ : Nat → Prop} (hs : Ready E c [] s) (hE : Tolerates E) {body : Emit Chunk Unit}
    {hasClauses : Bool} {clauses : Label → Temp → Emit Chunk Unit}
    {cleanup : Option (Emit Chunk Unit)} (hbody : Records E own₁ fs₁ P₁ body)
    (hclauses : if hasClauses then RecordsClauses E own₂ fs₂ P₂ clauses else own₂ = [] ∧ fs₂ = [])
    (hcleanup : RecordsOptional E own₃ fs₃ P₃ cleanup)
    (hP : Granted E (P₁ c.loops.length ∧ P₂ c.loops.length ∧ P₃ c.loops.length))
    (hfresh : Granted E (c.Fresh (own₁ ++ (own₂ ++ own₃)))) :
    Ends (Lowering.regionCode body hasClauses clauses cleanup) s (fun _ t =>
      Ready E (c.record (own₁ ++ (own₂ ++ own₃)) (fs₁ ++ (fs₂ ++ fs₃))) [] t ∧
        ∃ region, t.active.regions.back? = some region ∧ region.tryStart = s.active.position ∧
          region.stop = t.active.position) E := by
  have hin := hs.loopsIn
  have hfresh₂ : Granted E ((c.record own₁ fs₁).Fresh (own₂ ++ own₃)) :=
    hfresh.imp fun h => h.right
  refine hs.beginTry.bind ?_
  rintro l t ⟨ht, -⟩
  refine (hbody (c.inRegion _) t (hP.imp fun h => h.1) (hfresh.imp fun h => h.left) ht).bind
    fun _ u hu => ?_
  have hu' : Ready E ((c.record own₁ fs₁).inRegion (.begin s.active.position l)) [] u := hu
  have hrest : ∀ v, (∃ o : OpenRegion, o.tryStart = s.active.position ∧
      o.block = (if hasClauses then .handler (.catching hostType) else .guarded) ∧
      Ready E (((c.record own₁ fs₁).record own₂ fs₂).inRegion o) [] v) →
      Ends (do
        Lowering.cleanupCode hasClauses cleanup
        toSink Sink.endRegion) v (fun _ t =>
          Ready E (c.record (own₁ ++ (own₂ ++ own₃)) (fs₁ ++ (fs₂ ++ fs₃))) [] t ∧
            ∃ region, t.active.regions.back? = some region ∧ region.tryStart = s.active.position ∧
              region.stop = t.active.position) E := by
    rintro v ⟨o, hstart, hblock, hv⟩
    refine (hv.cleanupCode hblock hcleanup (hP.imp fun h => h.2.2)
      (hfresh₂.imp fun h => h.right)).bind ?_
    rintro _ w ⟨o', kind, -, hstart', hblock', hw⟩
    refine (hw.endRegion hblock' hin).mono ?_
    rintro _ t ⟨ht, -, region, hregions, htry, hstop⟩
    rw [Scene.record_record, Scene.record_record] at ht
    refine ⟨ht, region, ?_, htry.trans (hstart'.trans hstart), hstop⟩
    rw [hregions]
    exact Array.back?_push
  cases hasClauses with
  | true =>
    refine (hu'.handlersCode hE rfl hclauses (hP.imp fun h => h.2.1)
      (hfresh₂.imp fun h => h.left)).bind ?_
    rintro _ v ⟨o, -, hstart, hblock, hv⟩
    exact hrest v ⟨o, hstart, hblock, hv⟩
  | false =>
    obtain ⟨rfl, rfl⟩ := hclauses
    refine hrest u ⟨.begin s.active.position l, rfl, rfl, ?_⟩
    rw [Scene.record_nil]
    exact hu'

theorem Records.tryCode {own₁ own₂ own₃ : List Stmt} {fs₁ fs₂ fs₃ : List (FunctionHead × List Stmt)}
    {P₁ P₂ P₃ : Nat → Prop} (hE : Tolerates E) {body : Emit Chunk Unit} {hasClauses : Bool}
    {clauses : Label → Temp → Emit Chunk Unit} {cleanup : Option (Emit Chunk Unit)}
    (hbody : Records E own₁ fs₁ P₁ body)
    (hclauses : if hasClauses then RecordsClauses E own₂ fs₂ P₂ clauses else own₂ = [] ∧ fs₂ = [])
    (hcleanup : RecordsOptional E own₃ fs₃ P₃ cleanup) :
    Records E (own₁ ++ (own₂ ++ own₃)) (fs₁ ++ (fs₂ ++ fs₃))
      (fun depth => P₁ depth ∧ P₂ depth ∧ P₃ depth)
      (Lowering.tryCode cfg body hasClauses clauses cleanup) := by
  intro c s hP hfresh hs
  have hlevel := hs.level_le
  unfold Lowering.tryCode
  split
  · rename_i helided
    -- A `try` that is elided has no clauses and no cleanup, so its body is all there is.
    simp only [Bool.and_eq_true, Bool.not_eq_true', Option.isNone_iff_eq_none] at helided
    obtain ⟨⟨rfl, rfl⟩, -⟩ := helided
    obtain ⟨rfl, rfl⟩ := hclauses
    obtain ⟨rfl, rfl⟩ := hcleanup
    simp only [List.append_nil] at hfresh ⊢
    exact hbody c s (hP.imp fun h => h.1) hfresh hs
  · refine Ends.bind (Q := fun _ t => Ready E { c with nesting := c.nesting + 1 } [] t)
      (.update hs.enterException) fun _ t ht => ?_
    refine .ensuring ((ht.regionCode hE hbody hclauses hcleanup hP hfresh).mono ?_)
    rintro _ u ⟨hu, -⟩
    exact hu.leaveException rfl hlevel

/-! ## Statements without parts -/

theorem records_expression (hE : Tolerates E) (hcfg : cfg.registry = .standard) (e : Expr) :
    Records E [] [] (fun _ => e.Serves E .value) (do
      let _ ← discard (← lower cfg e .value)) := by
  refine .nothing fun c s hP hs => ?_
  refine ((fulfils_lower hE hcfg e).value hP [] c s hs).bind ?_
  rintro a s ⟨_, ⟨rfl, -⟩, hs⟩
  refine ((moves_discard a []) c s hs).bind ?_
  rintro _ t ⟨_, ⟨-, rfl⟩, ht⟩
  exact .pure ht

/-- The value of an expression and what becomes of it. -/
theorem records_boxed (hE : Tolerates E) (hcfg : cfg.registry = .standard) (e : Expr)
    (hx : ∀ c s, Ready E c [.boxed] s → Ends x s (fun _ t => Ready E c [] t) E) :
    Records E [] [] (fun _ => e.Serves E .operand) (do
      let _ ← boxed (lower cfg e)
      x) := by
  refine .nothing fun c s hP hs => ?_
  refine ((fulfils_lower hE hcfg e).boxes hP [] c s hs).bind ?_
  rintro _ s ⟨_, ⟨rfl, -⟩, hs⟩
  exact hx c s hs

theorem moves_echoAll (hE : Tolerates E) (hcfg : cfg.registry = .standard) {es : List Expr}
    (h : Granted E (∀ e ∈ es, e.Serves E .operand)) :
    Moves E [] (echoAll cfg es) fun _ S' => S' = [] := by
  induction es with
  | nil => exact .pure rfl
  | cons e rest ih =>
    refine ((fulfils_lower hE hcfg e).boxes (h.imp fun h => h e List.mem_cons_self) []).bind ?_
    rintro _ _ ⟨rfl, -⟩
    refine (moves_call .echo []).andThen fun _ => ?_
    exact ih (h.imp fun h x hx => h x (List.mem_cons_of_mem e hx))

theorem moves_unsetAll (hE : Tolerates E) (hcfg : cfg.registry = .standard) {es : List Expr}
    (h : Granted E (∀ e ∈ es, e.Serves E .removed)) :
    Moves E [] (unsetAll cfg es) fun _ S' => S' = [] := by
  induction es with
  | nil => exact .pure rfl
  | cons e rest ih =>
    have hunset : Moves E [] (Pass.ensuring (lower cfg e .unset) State.endChain)
        fun _ S' => S' = [] := by
      intro c s hs
      have he := (fulfils_lower hE hcfg e).removed (h.imp fun h => h e List.mem_cons_self)
      exact .ensuring (((he []).ends hs).mono fun _ t ht => ⟨[], rfl, ht.endChain⟩)
    refine (moves_beginChain true []).andThen fun _ => ?_
    refine hunset.andThen fun _ => ?_
    exact ih (h.imp fun h x hx => h x (List.mem_cons_of_mem e hx))

/-- Whatever a routine returns, one value is on the stack. -/
theorem moves_returnValue (hE : Tolerates E) (hcfg : cfg.registry = .standard) {expr : Option Expr}
    (h : Granted E (∀ e, expr = some e → e.Serves E .operand)) :
    Moves E [] (returnValue cfg expr) fun _ S' => S' = [.boxed] := by
  refine Moves.andThen (T := []) (.peek fun _ => rfl) fun f => ?_
  cases expr with
  | none =>
    cases f.returnsRef with
    | true => exact moves_call .newReferenceEmpty []
    | false =>
      refine (moves_pushLiteral hE .null []).bind ?_
      rintro _ _ ⟨rfl, rfl⟩
      exact .pure rfl
  | some e =>
    refine ((fulfils_lower hE hcfg e).operand (h.imp fun h => h e rfl) []).bind ?_
    rintro a _ ⟨rfl, ha⟩
    have hbox := moves_box (ha.imp fun ha => ha trivial) []
    have hreference : a = .referenceCell → a.push [] = [.boxed] := by
      rintro rfl
      rfl
    cases f.returnsRef with
    | true =>
      simp only [if_true]
      split
      · refine hbox.bind ?_
        rintro _ _ ⟨rfl, -⟩
        exact moves_call .newReference []
      · rename_i href
        exact .pure (hreference (not_not.mp href))
    | false =>
      simp only [Bool.false_eq_true, if_false]
      split
      · rename_i href
        rw [hreference href]
        exact moves_call .dereference []
      · split
        · rename_i harray
          rw [harray]
          refine (moves_dup .boxed []).andThen fun _ => ?_
          exact moves_call .markInplaceCopyOnReturn [.boxed]
        · refine hbox.bind ?_
          rintro _ _ ⟨rfl, -⟩
          exact .pure rfl

theorem records_loopJump (hE : Tolerates E) (hcfg : cfg.registry = .standard) (kind : BranchKind)
    (level : Option Expr) : Records E [] [] (Stmt.LevelServes E level) (loopJump cfg kind level) := by
  refine .nothing fun c s hP hs => ?_
  unfold loopJump
  cases level with
  | none => exact (hs.staticBranch kind hP).mono fun _ _ ht => ht.1
  | some e =>
    simp only [Stmt.LevelServes] at hP
    cases hvalue : e.value? with
    | some v =>
      simp only [hvalue] at hP ⊢
      exact (hs.staticBranch kind hP).mono fun _ _ ht => ht.1
    | none =>
      simp only [hvalue] at hP ⊢
      have he := (fulfils_lower hE hcfg e).operand (hP.imp fun h => h.1)
      refine (hs.runtimeBranch hE kind he (hP.imp fun h => ?_)).mono fun _ _ ht => ht.1
      exact List.ne_nil_of_length_pos h.2

theorem records_jump (hE : Tolerates E) (hcfg : cfg.registry = .standard) (kind : JumpKind)
    (expr : Option Expr) :
    Records E [] [] (Stmt.JumpServes E kind expr) (jumpCode cfg kind expr) := by
  cases kind with
  | «break» => exact records_loopJump hE hcfg .break expr
  | «continue» => exact records_loopJump hE hcfg .continue expr
  | «return» =>
    refine .nothing fun c s hP hs => ?_
    refine ((moves_returnValue hE hcfg hP).ends hs).bind fun _ s hs => ?_
    exact (hs.returnJump hE).mono fun _ _ ht => ht.1

/-- A label is marked if some `goto` goes to it. -/
theorem records_label (tag : StmtTag) (name : String) :
    Records E [.label tag name] [] (fun _ => True) (labelCode name (.node tag.id)) := by
  intro c s _ hfresh hs
  have hmemory : s.memory = c.memory := hs.1.memory
  refine Ends.bind (Q := fun b t => b = c.memory.labelReferenced (.node tag.id) ∧ t = s)
    (.peek ⟨by rw [hmemory], rfl⟩) ?_
  rintro _ t ⟨rfl, rfl⟩
  unfold Scene.Fresh at hfresh
  unfold Scene.record
  cases hmark : c.memory.labelReferenced (.node tag.id) with
  | false =>
    simp only [hmark, List.filterMap_cons, List.filterMap_nil, Stmt.mark?, Stmt.goto?,
      Bool.false_eq_true, if_false, List.append_nil]
    exact .pure hs
  | true =>
    simp only [hmark, List.filterMap_cons, List.filterMap_nil, Stmt.mark?, Stmt.goto?, if_true,
      List.append_nil] at hfresh ⊢
    refine (hs.routineLabel name).bind ?_
    rintro l t ⟨ht, hl⟩
    have hnew : Granted E (name ∉ c.marked) := hfresh.imp fun h hmem =>
      (List.nodup_append.mp h).2.2 name hmem name List.mem_cons_self rfl
    exact ht.markNamed hl hnew rfl

end Lowering
end PhpLowering
