import PhpLowering.Proofs.Lowering.Stmt

/-!
# The emission of single statements

`lowerStmt` emits a statement with everything in it.  To speak of the code of one statement in
the middle of a routine, one has to know the state in which its emission starts.  `visits`
lists the statements of a routine together with these states.  It takes the same way through a
statement as the emission does, and looks at the parts as it comes by.

Two things are proved of it at once, by induction along that way (`tracks_lowerStmts`).  No
statement is left out: without the states, the list is `Stmt.own`.  And every visit is a piece
of the whole emission (`Visited`): it starts in a scene with the loops and regions around it,
it goes well, and what it leaves behind is there at the end.
-/

namespace PhpLowering
namespace Lowering

open Pass (Ends)

variable {c : Scene} {S : List Slot} {s t u : State Chunk} {cfg : Setting} {α β : Type}

/-- The emission of one statement, given by the state in which it starts. -/
structure Visit where
  stmt : Stmt
  start : State Chunk

/-- The state after the emission of a statement. -/
def Visit.after (cfg : Setting) (v : Visit) : State Chunk :=
  (lowerStmt cfg v.stmt v.start).2

/-- What is found behind a step, unless the step fails. -/
def following (x : Emit Chunk α) (s : State Chunk) (found : α → State Chunk → List β) : List β :=
  match x s with
  | (.ok a, t) => found a t
  | (.error _, _) => []

theorem following_eq {x : Emit Chunk α} {a : α} (h : x s = (.ok a, t))
    (found : α → State Chunk → List β) : following x s found = found a t := by
  unfold following
  rw [h]

/-! ## The way through a statement -/

section Way

variable (cfg : Setting)

/-- What comes before the code of a statement. -/
def entry (kind : StmtKind) (tag : StmtTag) : Emit Chunk Unit :=
  statement cfg kind tag fun _ => return

/-- A statement, and what is found in it. -/
def visit (x : Stmt) (inner : State Chunk → List Visit) (s : State Chunk) : List Visit :=
  ⟨x, s⟩ :: following (entry cfg x.kind x.tag) s fun _ t => inner t

/-- The way through a branch. -/
def branchVisits (condition : Expr) (thenCode : Emit Chunk Unit)
    (thenVisits elseVisits : State Chunk → List Visit) (s : State Chunk) : List Visit :=
  following (branchHead cfg condition) s fun otherwise t =>
    thenVisits t ++ following (do thenCode; elseHead otherwise) t fun _ u => elseVisits u

/-- The way through a loop. -/
def loopVisits (condition : Expr) (bodyVisits : State Chunk → List Visit) (s : State Chunk) :
    List Visit :=
  following (loopHead cfg condition) s fun _ t => bodyVisits t

/-- The way through a clause and those behind it. -/
def clauseVisits (exception : Temp) (regionEnd : Label) (type : String) (var : Option String)
    (body : Emit Chunk Unit) (bodyVisits restVisits : State Chunk → List Visit) (s : State Chunk) :
    List Visit :=
  following (clauseHead exception type var) s (fun _ t => bodyVisits t) ++
    following (clauseCode exception regionEnd type var body) s fun _ t => restVisits t

/-- The way through the handlers of a region. -/
def handlersVisits (hasClauses : Bool) (clausesVisits : Temp → State Chunk → List Visit)
    (s : State Chunk) : List Visit :=
  if hasClauses then following handlersHead s clausesVisits else []

/-- The way through an exception region. -/
def regionVisits (body : Emit Chunk Unit) (hasClauses : Bool) (clauses : Label → Temp → Emit Chunk Unit)
    (bodyVisits : State Chunk → List Visit) (clausesVisits : Label → Temp → State Chunk → List Visit)
    (cleanupVisits : State Chunk → List Visit) (s : State Chunk) : List Visit :=
  following (toSink Sink.beginTry) s fun regionEnd t =>
    bodyVisits t ++ following body t fun _ u =>
      handlersVisits hasClauses (clausesVisits regionEnd) u ++
        following (if hasClauses then handlersCode (clauses regionEnd) else return) u fun _ v =>
          following (toSink Sink.beginFinally) v fun _ w => cleanupVisits w

/-- Whether a `try` is emitted as a region: it has a clause or a cleanup, or nothing is elided. -/
def isGuarded (hasClauses hasCleanup : Bool) : Bool :=
  hasClauses || hasCleanup || !cfg.options.elideEmptyTry

/-- Whether a statement is a `try` that is emitted as a region. -/
def isRegion : Stmt → Bool
  | .tryCatch _ _ catches cleanup => isGuarded cfg (!catches.isEmpty) cleanup.isSome
  | _ => false

/-- The way through a `try`. -/
def tryVisits (body : Emit Chunk Unit) (hasClauses hasCleanup : Bool)
    (clauses : Label → Temp → Emit Chunk Unit) (bodyVisits : State Chunk → List Visit)
    (clausesVisits : Label → Temp → State Chunk → List Visit)
    (cleanupVisits : State Chunk → List Visit) (s : State Chunk) : List Visit :=
  if isGuarded cfg hasClauses hasCleanup then
    regionVisits body hasClauses clauses bodyVisits clausesVisits cleanupVisits
      { s with frame := s.frame.enterException }
  else bodyVisits s

mutual

/-- A statement and the statements in it that belong to the same routine, with the states in which
their emission starts. -/
def visits : Stmt → State Chunk → List Visit
  | x@(.block _ body) => visit cfg x (visitsOf body)
  | x@(.branch _ condition thenBody elseBody) =>
    visit cfg x (branchVisits cfg condition (lowerStmts cfg thenBody) (visitsOf thenBody)
      (visitsOfOptional elseBody))
  | x@(.loop _ condition body) => visit cfg x (loopVisits cfg condition (visitsOf body))
  | x@(.tryCatch _ body catches cleanup) =>
    visit cfg x (tryVisits cfg (lowerStmts cfg body) (!catches.isEmpty) cleanup.isSome
      (lowerClauses cfg catches) (visitsOf body) (visitsOfClauses catches) (visitsOfOptional cleanup))
  | x@(.expression ..) | x@(.echo ..) | x@(.jump ..) | x@(.goto ..) | x@(.label ..) | x@(.throw ..)
  | x@(.unset ..) | x@(.constDecl ..) | x@(.function ..) | x@(.empty ..) => fun s => [⟨x, s⟩]
termination_by structural x => x

/-- Statements in order, with the states in which their emission starts. -/
def visitsOf : List Stmt → State Chunk → List Visit
  | [] => fun _ => []
  | x :: rest => fun s => visits x s ++ following (lowerStmt cfg x) s fun _ t => visitsOf rest t
termination_by structural xs => xs

/-- The visits in a part that may be missing. -/
def visitsOfOptional : Option (List Stmt) → State Chunk → List Visit
  | none => fun _ => []
  | some body => visitsOf body
termination_by structural body => body

/-- The visits in the clauses of a `try`. -/
def visitsOfClauses : List Catch → Label → Temp → State Chunk → List Visit
  | [] => fun _ _ _ => []
  | .clause _ type var body resolved :: rest => fun regionEnd exception =>
    clauseVisits exception regionEnd (resolved.getD type) var (lowerStmts cfg body) (visitsOf body)
      (visitsOfClauses rest regionEnd exception)
termination_by structural catches => catches

end

end Way

/-! ## What stays -/

/-- What there is in one state is still there in another one. -/
structure Leads (s t : State Chunk) : Prop where
  grows : s.active.Grows t.active
  epilogue : ∀ {l : Label}, s.frame.epilogue = some l → t.frame.epilogue = some l
  functions : s.sink.functions.toList <+: t.sink.functions.toList

theorem Leads.refl (s : State Chunk) : Leads s s :=
  ⟨.refl _, id, List.prefix_rfl⟩

theorem Leads.trans (h : Leads s t) (h' : Leads t u) : Leads s u :=
  ⟨h.grows.trans h'.grows, fun hl => h'.epilogue (h.epilogue hl), h.functions.trans h'.functions⟩

/-- A change of the frame that leaves the label of the code that returns. -/
theorem Leads.of_frame {f : Frame} (h : f.epilogue = s.frame.epilogue) : Leads s { s with frame := f } :=
  ⟨.refl _, fun hl => h.trans hl, List.prefix_rfl⟩

/-- The scene, with the state at hand as the point to look back to. -/
def Scene.since (c : Scene) (s : State Chunk) : Scene :=
  { c with
    base := s.active, earlier := s.sink.functions.toList, returnLabel := s.frame.epilogue }

variable {E : CompileError → Prop}

theorem Ready.since (hs : Ready E c S s) : Ready E (c.since s) S s := by
  obtain ⟨ha, m, hm⟩ := hs
  refine ⟨{ ha with earlier := List.prefix_rfl }, m, { hm with
    grows := .refl _
    loops := fun l hl => { hm.loops l hl with }
    labelled := ?_ }⟩
  exact { hm.labelled with
    named := fun n l hl => { hm.labelled.named n l hl with }
    returnLabel := fun _ hl => hl }

/-- A state in a scene that looks back to another state. -/
theorem Ready.leads (ht : Ready E c S t) (hbase : c.base = s.active) (hearlier : c.earlier = s.sink.functions.toList)
    (hreturn : c.returnLabel = s.frame.epilogue) : Leads s t := by
  obtain ⟨ha, m, hm⟩ := ht
  exact ⟨hbase ▸ hm.grows, fun hl => hm.labelled.returnLabel _ (hreturn.trans hl), hearlier ▸ ha.earlier⟩

/-- What code that does what statements say leaves behind. -/
theorem Records.leads {own : List Stmt} {fs : List (FunctionHead × List Stmt)} {P : Nat → Prop}
    {x : Emit Chunk Unit} (hx : Records anyFailure own fs P x) (hs : Ready anyFailure c [] s)
    (hrun : x s = (.ok (), t)) :
    Ready anyFailure ((c.since s).record own fs) [] t ∧ Leads s t := by
  have ht := (hx (c.since s) s .any .any hs.since).of_ok hrun
  exact ⟨ht, ht.leads rfl rfl rfl⟩

/-! ## Visits as pieces of an emission -/

/-- A visit is a piece of an emission that goes from one state to another, with at least these loops
and so many regions around it. -/
structure Visited (cfg : Setting) (loops : List Loop) (nesting : Nat) (s t : State Chunk) (v : Visit) :
    Prop where
  ready : ∃ c : Scene, Ready anyFailure c [] v.start ∧ loops <:+ c.loops ∧ nesting ≤ c.nesting
  run : lowerStmt cfg v.stmt v.start = (.ok (), v.after cfg)
  before : Leads s v.start
  behind : Leads (v.after cfg) t

/-- A piece of a piece. -/
theorem Visited.widen {loops loops' : List Loop} {n n' : Nat} {s' t' : State Chunk} {v : Visit}
    (h : Visited cfg loops' n' s' t' v) (hloops : loops <:+ loops') (hn : n ≤ n') (hs : Leads s s')
    (ht : Leads t' t) : Visited cfg loops n s t v := by
  obtain ⟨c, hc, hsuffix, hle⟩ := h.ready
  exact
    { ready := ⟨c, hc, hloops.trans hsuffix, Nat.le_trans hn hle⟩, run := h.run
      before := hs.trans h.before, behind := h.behind.trans ht }

/-- The visits in a piece of code are pieces of its emission, and they are visits of all of these
statements. -/
def Tracks (cfg : Setting) (own : List Stmt) (x : Emit Chunk Unit)
    (vs : State Chunk → List Visit) : Prop :=
  ∀ (c : Scene) (s t : State Chunk), Ready anyFailure c [] s → x s = (.ok (), t) →
    (vs s).map Visit.stmt = own ∧ ∀ v ∈ vs s, Visited cfg c.loops c.nesting s t v

/-- The same for a part that may be missing. -/
def TracksOptional (cfg : Setting) (own : List Stmt) (x : Option (Emit Chunk Unit))
    (vs : State Chunk → List Visit) : Prop :=
  match x with
  | some x => Tracks cfg own x vs
  | none => own = [] ∧ ∀ s, vs s = []

/-! ## One lemma for every construct -/

section Constructs

variable {own own' : List Stmt} {fs fs' : List (FunctionHead × List Stmt)} {P P' : Nat → Prop}
  {x y : Emit Chunk Unit} {vs ws : State Chunk → List Visit}

/-- A step that went well in two parts. -/
theorem bind_ok {x : Emit Chunk α} {f : α → Emit Chunk β} {b : β} (h : (x >>= f) s = (.ok b, t)) :
    ∃ a u, x s = (.ok a, u) ∧ f a u = (.ok b, t) :=
  (Pass.bind_eq_ok_iff x f s t b).mp h

theorem thenFrame_ok {x : Emit Chunk α} {f : Frame → Frame} {a : α}
    (h : thenFrame x f s = (.ok a, t)) :
    ∃ u, x s = (.ok a, u) ∧ t = { u with frame := f u.frame } := by
  obtain ⟨hok, rfl⟩ := Prod.mk.inj h
  exact ⟨(x s).2, Prod.ext hok rfl, rfl⟩

theorem reporting_ok {x : Emit Chunk Unit} {span : Span} (h : reporting span x s = (.ok (), t)) :
    x s = (.ok (), t) := by
  rcases hx : x s with ⟨result, u⟩
  cases result with
  | ok a =>
    simp only [reporting, hx] at h
    exact h
  | error e =>
    simp only [reporting, hx] at h
    split at h <;> cases h

theorem code_sequencePoint (span : Span) (k : Chunk) :
    (Sink.sequencePoint span k).active.code = k.active.code := by
  rcases k with ⟨_, _, _ | _⟩ <;> rfl

/-- A statement that is emitted is entered, and its code is that of the rule made for its kind. -/
theorem Ready.statement_ok (hs : Ready E c S s) (hcfg : cfg.registry = .standard) {kind : StmtKind}
    {tag : StmtTag} {code : Home StmtKind → Emit Chunk Unit}
    (hrun : Lowering.statement cfg kind tag code s = (.ok (), t)) :
    ∃ u, entry cfg kind tag s = (.ok (), u) ∧ Ready E c S u ∧ u.active.code = s.active.code ∧
      code (RuleTable.stmtHome kind tag.id) u = (.ok (), t) := by
  have hrule : ∀ v, Ready E c S v → v.active.code = s.active.code →
      Lowering.reporting tag.span (byStmtRule cfg kind tag code) v = (.ok (), t) →
      ∃ u, Lowering.reporting tag.span (byStmtRule cfg kind tag fun _ => return) v = (.ok (), u) ∧
        Ready E c S u ∧ u.active.code = s.active.code ∧
        code (RuleTable.stmtHome kind tag.id) u = (.ok (), t) := by
    intro v hv hcode hrun
    obtain ⟨handle, u, htable, hrest⟩ := bind_ok (reporting_ok hrun)
    rw [hcfg] at htable
    obtain ⟨rfl, hu⟩ := (hv.onTable (RuleTable.ends_stmt v.table kind tag.id)).of_ok htable
    have hsink : u.sink = v.sink := by
      unfold Lowering.onTable at htable
      split at htable
      · exact ((Prod.mk.inj htable).2 ▸ rfl)
      · exact nomatch htable
    refine ⟨u, ?_, hu, ?_, ?_⟩
    · simp only [Lowering.reporting, byStmtRule, Pass.bind_apply, hcfg, htable, if_true, Pass.pure_apply]
    · rw [← hcode]
      unfold State.active
      rw [hsink]
    · simpa only [if_true] using hrest
  unfold entry
  unfold Lowering.statement at hrun ⊢
  split at hrun
  · rename_i hpoint
    rw [if_pos hpoint]
    exact hrule _ (hs.withPoint tag.span) (code_sequencePoint tag.span s.sink) hrun
  · rename_i hpoint
    rw [if_neg hpoint]
    exact hrule s hs rfl hrun

/-- A statement is a piece of its own emission. -/
theorem visited_self {node : Stmt} (hs : Ready anyFailure c [] s)
    (hrun : lowerStmt cfg node s = (.ok (), t)) :
    Visited cfg c.loops c.nesting s t ⟨node, s⟩ := by
  have hafter : (⟨node, s⟩ : Visit).after cfg = t := congrArg Prod.snd hrun
  exact
    { ready := ⟨c, hs, List.suffix_rfl, Nat.le_refl _⟩, run := hafter.symm ▸ hrun
      before := .refl s, behind := hafter.symm ▸ .refl t }

/-- Visits in one piece of code and in one behind it. -/
theorem visited_append {loops : List Loop} {n : Nat} {vs ws : List Visit} 
    (hvs : vs.map Visit.stmt = own ∧ ∀ v ∈ vs, Visited cfg loops n s t v)
    (hws : ws.map Visit.stmt = own' ∧ ∀ v ∈ ws, Visited cfg loops n s t v) :
    (vs ++ ws).map Visit.stmt = own ++ own' ∧ ∀ v ∈ vs ++ ws, Visited cfg loops n s t v := by
  refine ⟨?_, List.forall_mem_append.mpr ⟨hvs.2, hws.2⟩⟩
  rw [List.map_append, hvs.1, hws.1]

theorem tracks_leaf (node : Stmt) : Tracks cfg [node] (lowerStmt cfg node) fun s => [⟨node, s⟩] := by
  intro c s t hs hrun
  exact ⟨rfl, List.forall_mem_singleton.mpr (visited_self hs hrun)⟩

namespace Tracks

theorem seq (hx : Records anyFailure own fs P x) (hvs : Tracks cfg own x vs)
    (hy : Records anyFailure own' fs' P' y) (hws : Tracks cfg own' y ws) :
    Tracks cfg (own ++ own') (do x; y) (fun s => vs s ++ following x s fun _ t => ws t) := by
  intro c s t hs hrun
  obtain ⟨_, u, hfirst, hsecond⟩ := bind_ok hrun
  obtain ⟨hu, hlead⟩ := hx.leads hs hfirst
  obtain ⟨-, hlead'⟩ := hy.leads hu hsecond
  simp only [following_eq hfirst]
  obtain ⟨hown, hvisits⟩ := hvs c s u hs hfirst
  obtain ⟨hown', hvisits'⟩ := hws _ u t hu hsecond
  refine visited_append ⟨hown, fun v hv => ?_⟩ ⟨hown', fun v hv => ?_⟩
  · exact (hvisits v hv).widen List.suffix_rfl (Nat.le_refl _) (.refl s) hlead'
  · exact (hvisits' v hv).widen List.suffix_rfl (Nat.le_refl _) hlead (.refl t)

theorem statement (hcfg : cfg.registry = .standard) {node : Stmt}
    {code : Home StmtKind → Emit Chunk Unit}
    (hcode : lowerStmt cfg node = Lowering.statement cfg node.kind node.tag code)
    (h : ∀ home, Tracks cfg own (code home) vs) :
    Tracks cfg (node :: own) (lowerStmt cfg node) (visit cfg node vs) := by
  intro c s t hs hrun
  obtain ⟨u, hentry, hu, -, hrest⟩ := hs.since.statement_ok hcfg (hcode ▸ hrun)
  obtain ⟨hown, hvisits⟩ := h _ _ u t hu hrest
  unfold visit
  rw [following_eq hentry]
  refine visited_append (tracks_leaf node c s t hs hrun) ⟨hown, fun v hv => ?_⟩
  exact (hvisits v hv).widen List.suffix_rfl (Nat.le_refl _) (hu.leads rfl rfl rfl) (.refl t)

theorem branch (hcfg : cfg.registry = .standard) {condition : Expr}
    {otherwise : Option (Emit Chunk Unit)} (hx : Records anyFailure own fs P x)
    (hvs : Tracks cfg own x vs) (hy : RecordsOptional anyFailure own' fs' P' otherwise)
    (hws : TracksOptional cfg own' otherwise ws) :
    Tracks cfg (own ++ own') (branchCode cfg condition x otherwise)
      (branchVisits cfg condition x vs ws) := by
  intro c s t hs hrun
  have hin := hs.loopsIn
  obtain ⟨l, s₁, hhead, hrun⟩ := bind_ok hrun
  obtain ⟨_, s₂, hthen, hrun⟩ := bind_ok hrun
  have hs₁ := (hs.since.branchHead tolerates_anyFailure hcfg .any).of_ok hhead
  obtain ⟨hown, hvisits⟩ := hvs _ s₁ s₂ hs₁ hthen
  obtain ⟨hs₂, -⟩ := hx.leads hs₁ hthen
  have hs₂ : Ready anyFailure (((c.record own fs).since s₂).addLabel l []) [] s₂ := hs₂.since
  unfold branchVisits
  rw [following_eq hhead]
  cases otherwise with
  | none =>
    obtain ⟨rfl, hnone⟩ := hws
    have ht := (hs₂.markLast hin).of_ok hrun
    have hempty : (following (do x; Lowering.elseHead l) s₁ fun _ u => ws u) = [] := by
      unfold following
      split
      · exact hnone _
      · rfl
    rw [hempty, List.append_nil, List.append_nil]
    refine ⟨hown, fun v hv => ?_⟩
    exact (hvisits v hv).widen List.suffix_rfl (Nat.le_refl _) (hs₁.leads rfl rfl rfl) (ht.leads rfl rfl rfl)
  | some y =>
    obtain ⟨done, s₃, helse, hrun⟩ := bind_ok hrun
    obtain ⟨_, s₄, hsecond, hrun⟩ := bind_ok hrun
    have hs₃ := (hs₂.elseHead hin).of_ok helse
    obtain ⟨hown', hvisits'⟩ := hws _ s₃ s₄ hs₃ hsecond
    obtain ⟨hs₄, hlead⟩ := Records.leads hy hs₃ hsecond
    have hs₄ : Ready anyFailure
        ((((c.record own fs).record own' fs').since s₄).addLabel done []) [] s₄ := hs₄.since
    have ht := (hs₄.markLast hin).of_ok hrun
    have hmiddle : (do x; Lowering.elseHead l) s₁ = (.ok done, s₃) :=
      (Pass.bind_eq_ok_iff ..).mpr ⟨(), s₂, hthen, helse⟩
    rw [following_eq hmiddle]
    refine visited_append ⟨hown, fun v hv => ?_⟩ ⟨hown', fun v hv => ?_⟩
    · exact (hvisits v hv).widen List.suffix_rfl (Nat.le_refl _) (hs₁.leads rfl rfl rfl)
        (((hs₃.leads rfl rfl rfl).trans hlead).trans (ht.leads rfl rfl rfl))
    · have hbefore : Leads s s₃ := ((hs₁.leads rfl rfl rfl).trans (hx.leads hs₁ hthen).2).trans (hs₃.leads rfl rfl rfl)
      exact (hvisits' v hv).widen List.suffix_rfl (Nat.le_refl _) hbefore (ht.leads rfl rfl rfl)

theorem loop (hcfg : cfg.registry = .standard) {condition : Expr}
    (hx : Records anyFailure own fs P x) (hvs : Tracks cfg own x vs) :
    Tracks cfg own (loopCode cfg condition x) (loopVisits cfg condition vs) := by
  intro c s t hs hrun
  have hin := hs.loopsIn
  obtain ⟨loop, s₁, hhead, hrun⟩ := bind_ok hrun
  obtain ⟨_, s₂, hframe, hrun⟩ := bind_ok hrun
  obtain ⟨s₃, hbody, rfl⟩ := thenFrame_ok hframe
  obtain ⟨hs₁, -⟩ := (hs.since.loopHead tolerates_anyFailure hcfg .any).of_ok hhead
  obtain ⟨hown, hvisits⟩ := hvs _ s₁ s₃ hs₁ hbody
  obtain ⟨hs₃, -⟩ := hx.leads hs₁ hbody
  have hs₃ : Ready anyFailure (((c.record own fs).since s₃).inLoop loop) [] s₃ := hs₃.since
  obtain ⟨ht, -⟩ := (Ready.loopEnd (c := (c.record own fs).since s₃) (hs₃.leaveLoop rfl) hin).of_ok hrun
  unfold loopVisits
  rw [following_eq hhead]
  refine ⟨hown, fun v hv => ?_⟩
  exact (hvisits v hv).widen (List.suffix_cons loop c.loops) (Nat.le_refl _) (hs₁.leads rfl rfl rfl) (ht.leads rfl rfl rfl)

end Tracks

/-- The visits in clauses are pieces of their emission. -/
def TracksClauses (cfg : Setting) (own : List Stmt) (clauses : Label → Temp → Emit Chunk Unit)
    (vs : Label → Temp → State Chunk → List Visit) : Prop :=
  ∀ (regionEnd : Label) (k : Temp) (c : Scene) (s t : State Chunk), (regionEnd, []) ∈ c.typed →
    Ready anyFailure c [] s → clauses regionEnd k s = (.ok (), t) →
      (vs regionEnd k s).map Visit.stmt = own ∧
        ∀ v ∈ vs regionEnd k s, Visited cfg c.loops c.nesting s t v

variable {clauses : Label → Temp → Emit Chunk Unit} {cs : Label → Temp → State Chunk → List Visit}
  {o : OpenRegion} {cleanup : Option (Emit Chunk Unit)}

theorem RecordsClauses.leads (hx : RecordsClauses anyFailure own fs P clauses) {regionEnd : Label}
    {k : Temp} (hend : (regionEnd, []) ∈ c.typed) (hs : Ready anyFailure c [] s)
    (hrun : clauses regionEnd k s = (.ok (), t)) :
    Ready anyFailure ((c.since s).record own fs) [] t ∧ Leads s t := by
  have ht := (hx regionEnd k (c.since s) s hend .any .any hs.since).of_ok hrun
  exact ⟨ht, ht.leads rfl rfl rfl⟩

theorem TracksClauses.clause {type : String} {var : Option String}
    (hx : Records anyFailure own fs P x) (hvs : Tracks cfg own x vs)
    (hrest : RecordsClauses anyFailure own' fs' P' clauses) (hcs : TracksClauses cfg own' clauses cs) :
    TracksClauses cfg (own ++ own')
      (fun regionEnd k => do
        clauseCode k regionEnd type var x
        clauses regionEnd k)
      (fun regionEnd k => clauseVisits k regionEnd type var x vs (cs regionEnd k)) := by
  intro regionEnd k c s t hend hs hrun
  have hin := hs.loopsIn
  obtain ⟨_, s₃, hclause, hrun⟩ := bind_ok hrun
  obtain ⟨next, s₁, hhead, hend₁⟩ := bind_ok hclause
  obtain ⟨_, s₂, hbody, hend₂⟩ := bind_ok hend₁
  have hs₁ := (hs.since.clauseHead k type var).of_ok hhead
  obtain ⟨hown, hvisits⟩ := hvs _ s₁ s₂ hs₁ hbody
  obtain ⟨hs₂, hlead₂⟩ := hx.leads hs₁ hbody
  have hs₂ : Ready anyFailure (((c.record own fs).since s₂).addLabel next []) [] s₂ := hs₂.since
  have hs₃ := (hs₂.clauseEnd hend hin).of_ok hend₂
  have hend₃ : (regionEnd, []) ∈ ((c.record own fs).since s₂).typed := hend
  obtain ⟨hown', hvisits'⟩ := hcs regionEnd k _ s₃ t hend₃ hs₃ hrun
  obtain ⟨-, hlead₃⟩ := hrest.leads hend₃ hs₃ hrun
  simp only [clauseVisits, following_eq hhead, following_eq hclause]
  refine visited_append ⟨hown, fun v hv => ?_⟩ ⟨hown', fun v hv => ?_⟩
  · exact (hvisits v hv).widen List.suffix_rfl (Nat.le_refl _) (hs₁.leads rfl rfl rfl) ((hs₃.leads rfl rfl rfl).trans hlead₃)
  · exact (hvisits' v hv).widen List.suffix_rfl (Nat.le_refl _)
      (((hs₁.leads rfl rfl rfl).trans hlead₂).trans (hs₃.leads rfl rfl rfl)) (.refl t)

/-- The visits in the handlers of a region. -/
theorem visited_handlers (hs : Ready anyFailure (c.inRegion o) [] s) (hblock : o.block = .guarded)
    (hx : RecordsClauses anyFailure own fs P clauses) (hcs : TracksClauses cfg own clauses cs)
    (hrun : handlersCode (clauses o.endLabel) s = (.ok (), t)) :
    (handlersVisits true (cs o.endLabel) s).map Visit.stmt = own ∧
      ∀ v ∈ handlersVisits true (cs o.endLabel) s, Visited cfg c.loops c.nesting s t v := by
  obtain ⟨k, s₁, hhead, hrun⟩ := bind_ok hrun
  obtain ⟨_, s₂, hclauses, hrun⟩ := bind_ok hrun
  obtain ⟨_, s₃, hrethrow, hreturn⟩ := bind_ok hrun
  obtain ⟨o', hend, -, -, hs₁⟩ := (Ready.handlersHead (c := c.since s) hs.since tolerates_anyFailure
    hblock).of_ok hhead
  have hmem : (o.endLabel, []) ∈ ((c.since s).inRegion o').typed := by
    rw [← hend]
    exact List.mem_cons_self
  obtain ⟨hown, hvisits⟩ := hcs o.endLabel k _ s₁ s₂ hmem hs₁ hclauses
  obtain ⟨hs₂, -⟩ := hx.leads hmem hs₁ hclauses
  have hs₃ := (hs₂.since.rethrow []).of_ok hrethrow
  have ht := (hs₃.returnTemp k).of_ok hreturn
  unfold handlersVisits
  rw [if_pos rfl, following_eq hhead]
  refine ⟨hown, fun v hv => ?_⟩
  exact (hvisits v hv).widen List.suffix_rfl (Nat.le_refl _) (hs₁.leads rfl rfl rfl) (ht.leads rfl rfl rfl)

/-- The visits in the cleanup of a region. -/
theorem visited_cleanup {hasClauses : Bool} (hs : Ready anyFailure (c.inRegion o) [] s)
    (hblock : o.block ≠ .handler .cleanup) (hws : TracksOptional cfg own cleanup ws)
    (hrun : cleanupCode hasClauses cleanup s = (.ok (), t)) :
    (following (toSink Sink.beginFinally) s fun _ u => ws u).map Visit.stmt = own ∧
      ∀ v ∈ following (toSink Sink.beginFinally) s (fun _ u => ws u),
        Visited cfg c.loops c.nesting s t v := by
  cases cleanup with
  | none =>
    obtain ⟨rfl, hnone⟩ := hws
    have hempty : (following (toSink Sink.beginFinally) s fun _ u => ws u) = [] := by
      unfold following
      split
      · exact hnone _
      · rfl
    rw [hempty]
    exact ⟨rfl, List.forall_mem_nil _⟩
  | some y =>
    obtain ⟨_, s₁, hbegin, hrun⟩ := bind_ok hrun
    obtain ⟨o', -, -, -, hs₁, -⟩ := (Ready.beginHandler (c := c.since s) hs.since .cleanup hblock).of_ok
      hbegin
    obtain ⟨hown, hvisits⟩ := hws _ s₁ t hs₁ hrun
    rw [following_eq hbegin]
    refine ⟨hown, fun v hv => ?_⟩
    exact (hvisits v hv).widen List.suffix_rfl (Nat.le_refl _) (hs₁.leads rfl rfl rfl) (.refl t)

/-- The visits in an exception region. -/
theorem visited_region {own₁ own₂ own₃ : List Stmt} {fs₁ fs₂ fs₃ : List (FunctionHead × List Stmt)}
    {P₁ P₂ P₃ : Nat → Prop} {hasClauses : Bool} (hs : Ready anyFailure c [] s)
    (hx : Records anyFailure own₁ fs₁ P₁ x) (hvs : Tracks cfg own₁ x vs)
    (hclauses : if hasClauses then RecordsClauses anyFailure own₂ fs₂ P₂ clauses
      else own₂ = [] ∧ fs₂ = []) (hcs : TracksClauses cfg own₂ clauses cs)
    (hcleanup : RecordsOptional anyFailure own₃ fs₃ P₃ cleanup) (hws : TracksOptional cfg own₃ cleanup ws)
    (hrun : regionCode x hasClauses clauses cleanup s = (.ok (), t)) :
    (regionVisits x hasClauses clauses vs cs ws s).map Visit.stmt = own₁ ++ (own₂ ++ own₃) ∧
      ∀ v ∈ regionVisits x hasClauses clauses vs cs ws s, Visited cfg c.loops c.nesting s t v := by
  have hin := hs.loopsIn
  obtain ⟨l, s₁, hbegin, hrun⟩ := bind_ok hrun
  obtain ⟨_, s₂, hbody, hrun⟩ := bind_ok hrun
  obtain ⟨hs₁, -⟩ := hs.since.beginTry.of_ok hbegin
  obtain ⟨hs₂, hlead₂⟩ := hx.leads hs₁ hbody
  have hs₂ : Ready anyFailure (((c.record own₁ fs₁).since s₂).inRegion (.begin s.active.position l)) []
      s₂ := hs₂.since
  -- The handlers are passed over if there are none.
  obtain ⟨s₃, o, hhandlers, hrun, hblock, hs₃, hfound⟩ : ∃ (s₃ : State Chunk) (o : OpenRegion),
      (if hasClauses then handlersCode (clauses l) else return : Emit Chunk Unit) s₂ = (.ok (), s₃) ∧
      (do cleanupCode hasClauses cleanup; toSink Sink.endRegion : Emit Chunk Unit) s₃ = (.ok (), t) ∧
      o.block = (if hasClauses then .handler (.catching hostType) else .guarded) ∧
      Ready anyFailure ((((c.record own₁ fs₁).record own₂ fs₂).since s₂).inRegion o) [] s₃ ∧
      (handlersVisits hasClauses (cs l) s₂).map Visit.stmt = own₂ ∧
        ∀ v ∈ handlersVisits hasClauses (cs l) s₂, Visited cfg c.loops c.nesting s₂ s₃ v := by
    cases hasClauses with
    | true =>
      obtain ⟨_, s₃, hhandlers, hrun⟩ := bind_ok hrun
      obtain ⟨o, -, -, hblock, hs₃⟩ := (hs₂.handlersCode tolerates_anyFailure rfl hclauses .any
        .any).of_ok hhandlers
      exact ⟨s₃, o, hhandlers, hrun, hblock, hs₃, visited_handlers hs₂ rfl hclauses hcs hhandlers⟩
    | false =>
      obtain ⟨rfl, rfl⟩ := hclauses
      refine ⟨s₂, .begin s.active.position l, rfl, hrun, rfl, ?_, rfl, List.forall_mem_nil _⟩
      rw [Scene.record_nil]
      exact hs₂
  obtain ⟨_, s₄, hcleanuprun, hend⟩ := bind_ok hrun
  have hnot : o.block ≠ .handler .cleanup := by
    rw [hblock]
    cases hasClauses <;> nofun
  have hs₃' : Ready anyFailure ((((c.record own₁ fs₁).record own₂ fs₂).since s₃).inRegion o) [] s₃ :=
    hs₃.since
  obtain ⟨o', kind, -, -, hblock', hs₄⟩ := (hs₃'.cleanupCode hblock hcleanup .any .any).of_ok hcleanuprun
  have hs₄' : Ready anyFailure
      (((((c.record own₁ fs₁).record own₂ fs₂).record own₃ fs₃).since s₄).inRegion o') [] s₄ := hs₄.since
  obtain ⟨ht, -⟩ := (hs₄'.endRegion hblock' hin).of_ok hend
  obtain ⟨hown₁, hvisits₁⟩ := hvs _ s₁ s₂ hs₁ hbody
  obtain ⟨hown₃, hvisits₃⟩ := visited_cleanup hs₃ hnot hws hcleanuprun
  unfold regionVisits
  rw [following_eq hbegin, following_eq hbody, following_eq hhandlers]
  have hbefore : Leads s s₂ := (hs₁.leads rfl rfl rfl).trans hlead₂
  have hbehind : Leads s₃ t := (hs₄.leads rfl rfl rfl).trans (ht.leads rfl rfl rfl)
  refine visited_append ⟨hown₁, fun v hv => ?_⟩ (visited_append ⟨hfound.1, fun v hv => ?_⟩
    ⟨hown₃, fun v hv => ?_⟩)
  · exact (hvisits₁ v hv).widen List.suffix_rfl (Nat.le_refl _) (hs₁.leads rfl rfl rfl) ((hs₃.leads rfl rfl rfl).trans hbehind)
  · exact (hfound.2 v hv).widen List.suffix_rfl (Nat.le_refl _) hbefore hbehind
  · exact (hvisits₃ v hv).widen List.suffix_rfl (Nat.le_refl _) (hbefore.trans (hs₃.leads rfl rfl rfl)) (ht.leads rfl rfl rfl)

theorem tryCode_eq (hasClauses : Bool) :
    tryCode cfg x hasClauses clauses cleanup =
      if isGuarded cfg hasClauses cleanup.isSome then do
        updateFrame Frame.enterException
        thenFrame (regionCode x hasClauses clauses cleanup) Frame.leaveException
      else x := by
  unfold tryCode isGuarded
  cases hasClauses <;> cases cleanup <;> cases cfg.options.elideEmptyTry <;> rfl

/-- A `try` that is emitted as a region. -/
theorem tryCode_ok {hasClauses : Bool} (hguarded : isGuarded cfg hasClauses cleanup.isSome = true)
    (hrun : tryCode cfg x hasClauses clauses cleanup s = (.ok (), t)) :
    ∃ u, regionCode x hasClauses clauses cleanup { s with frame := s.frame.enterException } =
      (.ok (), u) ∧ t = { u with frame := u.frame.leaveException } := by
  rw [tryCode_eq, if_pos hguarded] at hrun
  obtain ⟨_, s₁, henter, hrun⟩ := bind_ok hrun
  obtain ⟨-, rfl⟩ := Prod.mk.inj henter
  exact thenFrame_ok hrun

/-- The visits in a `try` that is emitted as a region have one more region around them. -/
theorem visited_tryCode {own₁ own₂ own₃ : List Stmt} {fs₁ fs₂ fs₃ : List (FunctionHead × List Stmt)}
    {P₁ P₂ P₃ : Nat → Prop} {hasClauses : Bool}
    (hguarded : isGuarded cfg hasClauses cleanup.isSome = true) (hs : Ready anyFailure c [] s)
    (hx : Records anyFailure own₁ fs₁ P₁ x) (hvs : Tracks cfg own₁ x vs)
    (hclauses : if hasClauses then RecordsClauses anyFailure own₂ fs₂ P₂ clauses
      else own₂ = [] ∧ fs₂ = []) (hcs : TracksClauses cfg own₂ clauses cs)
    (hcleanup : RecordsOptional anyFailure own₃ fs₃ P₃ cleanup) (hws : TracksOptional cfg own₃ cleanup ws)
    (hrun : tryCode cfg x hasClauses clauses cleanup s = (.ok (), t)) :
    (tryVisits cfg x hasClauses cleanup.isSome clauses vs cs ws s).map Visit.stmt =
        own₁ ++ (own₂ ++ own₃) ∧
      ∀ v ∈ tryVisits cfg x hasClauses cleanup.isSome clauses vs cs ws s,
        Visited cfg c.loops (c.nesting + 1) s t v := by
  obtain ⟨u, hregion, rfl⟩ := tryCode_ok hguarded hrun
  obtain ⟨hown, hvisits⟩ := visited_region hs.enterException hx hvs hclauses hcs hcleanup hws hregion
  unfold tryVisits
  rw [if_pos hguarded]
  refine ⟨hown, fun v hv => ?_⟩
  exact (hvisits v hv).widen List.suffix_rfl (Nat.le_refl _) (.of_frame rfl) (.of_frame rfl)

theorem Tracks.tryCode {own₁ own₂ own₃ : List Stmt} {fs₁ fs₂ fs₃ : List (FunctionHead × List Stmt)}
    {P₁ P₂ P₃ : Nat → Prop} {hasClauses : Bool} (hx : Records anyFailure own₁ fs₁ P₁ x)
    (hvs : Tracks cfg own₁ x vs)
    (hclauses : if hasClauses then RecordsClauses anyFailure own₂ fs₂ P₂ clauses
      else own₂ = [] ∧ fs₂ = []) (hcs : TracksClauses cfg own₂ clauses cs)
    (hcleanup : RecordsOptional anyFailure own₃ fs₃ P₃ cleanup)
    (hws : TracksOptional cfg own₃ cleanup ws) :
    Tracks cfg (own₁ ++ (own₂ ++ own₃)) (Lowering.tryCode cfg x hasClauses clauses cleanup)
      (tryVisits cfg x hasClauses cleanup.isSome clauses vs cs ws) := by
  intro c s t hs hrun
  by_cases hguarded : isGuarded cfg hasClauses cleanup.isSome = true
  · obtain ⟨hown, hvisits⟩ := visited_tryCode hguarded hs hx hvs hclauses hcs hcleanup hws hrun
    refine ⟨hown, fun v hv => ?_⟩
    exact (hvisits v hv).widen List.suffix_rfl (Nat.le_succ _) (.refl s) (.refl t)
  · -- Nothing but the body is there.
    rw [tryCode_eq, if_neg hguarded] at hrun
    unfold tryVisits
    rw [if_neg hguarded]
    simp only [isGuarded, Bool.or_eq_true, Bool.not_eq_true', not_or, Bool.not_eq_true,
      Option.isSome_eq_false_iff, Option.isNone_iff_eq_none] at hguarded
    obtain ⟨⟨rfl, rfl⟩, -⟩ := hguarded
    obtain ⟨rfl, -⟩ := hclauses
    obtain ⟨rfl, -⟩ := hws
    rw [List.append_nil, List.append_nil]
    exact hvs c s t hs hrun

end Constructs

/-! ## Statements -/

theorem isSome_lowerOptional (cfg : Setting) (body : Option (List Stmt)) :
    (lowerOptional cfg body : Option (Emit Chunk Unit)).isSome = body.isSome := by
  cases body <;> rfl

mutual

/-- **The visits in a statement are visits of all statements in it, and pieces of its emission.** -/
theorem tracks_lowerStmt (hcfg : cfg.registry = .standard) :
    ∀ x : Stmt, Tracks cfg x.own (lowerStmt cfg x) (visits cfg x)
  | .block tag body => by
    rw [visits, Stmt.own]
    exact .statement hcfg (by rw [lowerStmt]; rfl) fun _ => tracks_lowerStmts hcfg body
  | .branch tag condition thenBody elseBody => by
    rw [visits, Stmt.own]
    exact .statement hcfg (by rw [lowerStmt]; rfl) fun _ => .branch hcfg
      (records_lowerStmts tolerates_anyFailure hcfg thenBody) (tracks_lowerStmts hcfg thenBody)
      (records_lowerOptional tolerates_anyFailure hcfg elseBody) (tracks_lowerOptional hcfg elseBody)
  | .loop tag condition body => by
    rw [visits, Stmt.own]
    exact .statement hcfg (by rw [lowerStmt]; rfl) fun _ => .loop hcfg
      (records_lowerStmts tolerates_anyFailure hcfg body) (tracks_lowerStmts hcfg body)
  | .tryCatch tag body catches cleanup => by
    rw [visits, Stmt.own, ← isSome_lowerOptional cfg]
    exact .statement hcfg (by rw [lowerStmt]; rfl) fun _ => .tryCode
      (records_lowerStmts tolerates_anyFailure hcfg body) (tracks_lowerStmts hcfg body)
      (records_lowerClauses tolerates_anyFailure hcfg catches).unlessEmpty (tracks_lowerClauses hcfg catches)
      (records_lowerOptional tolerates_anyFailure hcfg cleanup) (tracks_lowerOptional hcfg cleanup)
  | .expression tag e => tracks_leaf (.expression tag e)
  | .echo tag es => tracks_leaf (.echo tag es)
  | .jump tag kind expr => tracks_leaf (.jump tag kind expr)
  | .goto tag name => tracks_leaf (.goto tag name)
  | .label tag name => tracks_leaf (.label tag name)
  | .throw tag e => tracks_leaf (.throw tag e)
  | .unset tag targets => tracks_leaf (.unset tag targets)
  | .constDecl tag name value => tracks_leaf (.constDecl tag name value)
  | .function tag head body dead => tracks_leaf (.function tag head body dead)
  | .empty tag kind => tracks_leaf (.empty tag kind)
termination_by structural x => x

/-- **The visits in statements are visits of all statements in them, and pieces of their emission.** -/
theorem tracks_lowerStmts (hcfg : cfg.registry = .standard) :
    ∀ xs : List Stmt, Tracks cfg (Stmt.ownOf xs) (lowerStmts cfg xs) (visitsOf cfg xs)
  | [] => fun _ _ _ _ _ => ⟨rfl, List.forall_mem_nil _⟩
  | x :: rest => by
    rw [lowerStmts, visitsOf, Stmt.ownOf]
    exact .seq (records_lowerStmt tolerates_anyFailure hcfg x) (tracks_lowerStmt hcfg x)
      (records_lowerStmts tolerates_anyFailure hcfg rest) (tracks_lowerStmts hcfg rest)
termination_by structural xs => xs

theorem tracks_lowerOptional (hcfg : cfg.registry = .standard) :
    ∀ body : Option (List Stmt), TracksOptional cfg (Stmt.ownOfOptional body) (lowerOptional cfg body)
      (visitsOfOptional cfg body)
  | none => ⟨rfl, fun _ => rfl⟩
  | some body => tracks_lowerStmts hcfg body
termination_by structural body => body

theorem tracks_lowerClauses (hcfg : cfg.registry = .standard) :
    ∀ catches : List Catch, TracksClauses cfg (Stmt.ownOfCatches catches) (lowerClauses cfg catches)
      (visitsOfClauses cfg catches)
  | [] => fun _ _ _ _ _ _ _ _ => ⟨rfl, List.forall_mem_nil _⟩
  | .clause _ _ _ body _ :: rest =>
    .clause (records_lowerStmts tolerates_anyFailure hcfg body) (tracks_lowerStmts hcfg body)
      (records_lowerClauses tolerates_anyFailure hcfg rest) (tracks_lowerClauses hcfg rest)
termination_by structural catches => catches

end

end Lowering
end PhpLowering
