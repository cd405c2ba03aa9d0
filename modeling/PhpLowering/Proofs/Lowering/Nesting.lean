import PhpLowering.Proofs.Lowering.Visits
import PhpLowering.Proofs.Tree.LoopJumps

/-!
# What is around a statement

The emission of a statement only sees the frame: the loops it is in, each with the number of regions
around it, and the number of regions it is in itself.  To say what these stand for one has to know the
statements around it.  `Part cfg x s body t` says that statements are a part of another statement, and
`Lies cfg body s around v` that a visit lies in statements, with these visits around it in the same
routine, of which the first is the innermost.  Every visit lies in the statements it is a visit of
(`mem_visitsOf_iff`).

The frame follows: `Part.ready` says what one step inwards adds to it, and `Lies.ready` that it consists
of the loops and the regions among what is around.  By `Lies.outward` the same holds of each visit around,
so a loop has as many regions around it as there are among the visits behind it.
-/

namespace PhpLowering
namespace Lowering

variable {cfg : Setting} {c : Scene} {s t u v w : State Chunk} {x : Stmt} {body part : List Stmt}
  {around : List Visit} {α β : Type}

/-- The loop that a statement is emitted as. -/
def Visit.loop? (cfg : Setting) (v : Visit) : Option Loop :=
  match v.stmt with
  | .loop tag condition _ =>
    match (do entry cfg .loop tag; loopHead cfg condition) v.start with
    | (.ok loop, _) => some loop
    | (.error _, _) => none
  | _ => none

/-! ## Parts of statements -/

/-- A body among clauses, with the states in which the emission of the clauses and that of the body
start. -/
inductive ClausePart (cfg : Setting) (regionEnd : Label) (exception : Temp) :
    List Catch → State Chunk → List Stmt → State Chunk → Prop
  | here {span : Span} {type : String} {var resolved : Option String} {body : List Stmt}
      {rest : List Catch} {s t : State Chunk} {next : Label}
      (hhead : clauseHead exception (resolved.getD type) var s = (.ok next, t)) :
      ClausePart cfg regionEnd exception (.clause span type var body resolved :: rest) s body t
  | later {span : Span} {type : String} {var resolved : Option String} {body part : List Stmt}
      {rest : List Catch} {s t u : State Chunk}
      (hrun : clauseCode exception regionEnd (resolved.getD type) var (lowerStmts cfg body) s = (.ok (), t))
      (hpart : ClausePart cfg regionEnd exception rest t part u) :
      ClausePart cfg regionEnd exception (.clause span type var body resolved :: rest) s part u

/-- A part of a statement, with the states in which the emission of its own code and that of the part
start. -/
inductive Part (cfg : Setting) : Stmt → State Chunk → List Stmt → State Chunk → Prop
  | block {tag : StmtTag} {body : List Stmt} {s : State Chunk} : Part cfg (.block tag body) s body s
  | thenPart {tag : StmtTag} {condition : Expr} {thenBody : List Stmt} {elseBody : Option (List Stmt)}
      {s t : State Chunk} {l : Label} (hhead : branchHead cfg condition s = (.ok l, t)) :
      Part cfg (.branch tag condition thenBody elseBody) s thenBody t
  | elsePart {tag : StmtTag} {condition : Expr} {thenBody elseBody : List Stmt} {s t u : State Chunk}
      {l done : Label} (hhead : branchHead cfg condition s = (.ok l, t))
      (hmiddle : (do lowerStmts cfg thenBody; elseHead l) t = (.ok done, u)) :
      Part cfg (.branch tag condition thenBody (some elseBody)) s elseBody u
  | loopBody {tag : StmtTag} {condition : Expr} {body : List Stmt} {s t : State Chunk} {loop : Loop}
      (hhead : loopHead cfg condition s = (.ok loop, t)) : Part cfg (.loop tag condition body) s body t
  | bareBody {tag : StmtTag} {body : List Stmt} {catches : List Catch} {cleanup : Option (List Stmt)}
      {s : State Chunk} (hbare : isRegion cfg (.tryCatch tag body catches cleanup) = false) :
      Part cfg (.tryCatch tag body catches cleanup) s body s
  | tryBody {tag : StmtTag} {body : List Stmt} {catches : List Catch} {cleanup : Option (List Stmt)}
      {s t : State Chunk} {regionEnd : Label} (hregion : isRegion cfg (.tryCatch tag body catches cleanup) = true)
      (hbegin : toSink Sink.beginTry { s with frame := s.frame.enterException } = (.ok regionEnd, t)) :
      Part cfg (.tryCatch tag body catches cleanup) s body t
  | clause {tag : StmtTag} {body part : List Stmt} {catches : List Catch} {cleanup : Option (List Stmt)}
      {s t u v w : State Chunk} {regionEnd : Label} {exception : Temp}
      (hregion : isRegion cfg (.tryCatch tag body catches cleanup) = true)
      (hbegin : toSink Sink.beginTry { s with frame := s.frame.enterException } = (.ok regionEnd, t))
      (hbody : lowerStmts cfg body t = (.ok (), u)) (hhead : handlersHead u = (.ok exception, v))
      (hclause : ClausePart cfg regionEnd exception catches v part w) :
      Part cfg (.tryCatch tag body catches cleanup) s part w
  | cleanup {tag : StmtTag} {body cleanup : List Stmt} {catches : List Catch} {s t u v w : State Chunk}
      {regionEnd : Label} (hregion : isRegion cfg (.tryCatch tag body catches (some cleanup)) = true)
      (hbegin : toSink Sink.beginTry { s with frame := s.frame.enterException } = (.ok regionEnd, t))
      (hbody : lowerStmts cfg body t = (.ok (), u))
      (hhandlers : (if !catches.isEmpty then handlersCode (lowerClauses cfg catches regionEnd)
        else return : Emit Chunk Unit) u = (.ok (), v))
      (hfinally : toSink Sink.beginFinally v = (.ok (), w)) :
      Part cfg (.tryCatch tag body catches (some cleanup)) s cleanup w

/-- A visit of a statement among others, with the visits of the statements around it, innermost first. -/
inductive Lies (cfg : Setting) : List Stmt → State Chunk → List Visit → Visit → Prop
  | here {x : Stmt} {rest : List Stmt} {s : State Chunk} : Lies cfg (x :: rest) s [] ⟨x, s⟩
  | later {x : Stmt} {rest : List Stmt} {s t : State Chunk} {around : List Visit} {v : Visit}
      (hrun : lowerStmt cfg x s = (.ok (), t)) (h : Lies cfg rest t around v) :
      Lies cfg (x :: rest) s around v
  | within {x : Stmt} {body rest : List Stmt} {s t u : State Chunk} {around : List Visit} {v : Visit}
      (hentry : entry cfg x.kind x.tag s = (.ok (), t)) (hpart : Part cfg x t body u)
      (h : Lies cfg body u around v) : Lies cfg (x :: rest) s (around ++ [⟨x, s⟩]) v

/-! ## All visits -/

theorem mem_following {x : Emit Chunk α} {found : α → State Chunk → List β} {b : β} :
    b ∈ following x s found ↔ ∃ a t, x s = (.ok a, t) ∧ b ∈ found a t := by
  rcases hx : x s with ⟨e | a, t⟩
  · constructor
    · intro h
      rw [following, hx] at h
      exact nomatch h
    · rintro ⟨a, t, heq, -⟩
      exact nomatch heq
  · rw [following_eq hx]
    constructor
    · exact fun h => ⟨a, t, rfl, h⟩
    · rintro ⟨a', t', heq, h⟩
      obtain ⟨⟨⟩, rfl⟩ := Prod.mk.inj heq
      exact h

theorem mem_visitsOfClauses_iff {regionEnd : Label} {exception : Temp} {p : Visit} :
    ∀ {catches : List Catch} {s : State Chunk}, p ∈ visitsOfClauses cfg catches regionEnd exception s ↔
      ∃ part t, ClausePart cfg regionEnd exception catches s part t ∧ p ∈ visitsOf cfg part t
  | [], s => by
    constructor
    · exact fun h => nomatch h
    · rintro ⟨part, t, ⟨⟩, -⟩
  | .clause span type var body resolved :: rest, s => by
    simp only [visitsOfClauses, clauseVisits, List.mem_append, mem_following]
    constructor
    · rintro (⟨next, t, hhead, hp⟩ | ⟨_, t, hrun, hp⟩)
      · exact ⟨body, t, .here hhead, hp⟩
      · obtain ⟨part, u, hpart, hp⟩ := mem_visitsOfClauses_iff.mp hp
        exact ⟨part, u, .later hrun hpart, hp⟩
    · rintro ⟨part, u, hpart, hp⟩
      cases hpart with
      | here hhead => exact Or.inl ⟨_, _, hhead, hp⟩
      | later hrun hpart => exact Or.inr ⟨_, _, hrun, mem_visitsOfClauses_iff.mpr ⟨part, u, hpart, hp⟩⟩

theorem mem_branchVisits_iff {tag : StmtTag} {condition : Expr} {thenBody : List Stmt}
    {elseBody : Option (List Stmt)} {p : Visit} :
    p ∈ branchVisits cfg condition (lowerStmts cfg thenBody) (visitsOf cfg thenBody)
        (visitsOfOptional cfg elseBody) s ↔
      ∃ part t, Part cfg (.branch tag condition thenBody elseBody) s part t ∧ p ∈ visitsOf cfg part t := by
  unfold branchVisits
  constructor
  · intro hp
    obtain ⟨l, t, hhead, hp⟩ := mem_following.mp hp
    rcases List.mem_append.mp hp with hp | hp
    · exact ⟨thenBody, t, .thenPart hhead, hp⟩
    obtain ⟨done, u, hmiddle, hp⟩ := mem_following.mp hp
    cases elseBody with
    | none => exact nomatch hp
    | some elseBody => exact ⟨elseBody, u, .elsePart hhead hmiddle, hp⟩
  · rintro ⟨part, u, hpart, hp⟩
    cases hpart with
    | thenPart hhead => exact mem_following.mpr ⟨_, _, hhead, List.mem_append_left _ hp⟩
    | elsePart hhead hmiddle =>
      refine mem_following.mpr ⟨_, _, hhead, List.mem_append_right _ ?_⟩
      exact mem_following.mpr ⟨_, _, hmiddle, hp⟩

theorem mem_handlersVisits_iff {regionEnd : Label} {catches : List Catch} {p : Visit} :
    p ∈ handlersVisits (!catches.isEmpty) (visitsOfClauses cfg catches regionEnd) s ↔
      ∃ exception t part u, handlersHead s = (.ok exception, t) ∧
        ClausePart cfg regionEnd exception catches t part u ∧ p ∈ visitsOf cfg part u := by
  unfold handlersVisits
  cases catches with
  | nil =>
    constructor
    · exact fun hp => nomatch hp
    · rintro ⟨_, _, _, _, _, ⟨⟩, _⟩
  | cons clause rest =>
    refine mem_following.trans ⟨?_, ?_⟩
    · rintro ⟨exception, t, hhead, hp⟩
      obtain ⟨part, u, hclause, hp⟩ := mem_visitsOfClauses_iff.mp hp
      exact ⟨exception, t, part, u, hhead, hclause, hp⟩
    · rintro ⟨exception, t, part, u, hhead, hclause, hp⟩
      exact ⟨exception, t, hhead, mem_visitsOfClauses_iff.mpr ⟨part, u, hclause, hp⟩⟩

theorem mem_tryVisits_iff {tag : StmtTag} {body : List Stmt} {catches : List Catch}
    {cleanup : Option (List Stmt)} {p : Visit} :
    p ∈ tryVisits cfg (lowerStmts cfg body) (!catches.isEmpty) cleanup.isSome (lowerClauses cfg catches)
        (visitsOf cfg body) (visitsOfClauses cfg catches) (visitsOfOptional cfg cleanup) s ↔
      ∃ part t, Part cfg (.tryCatch tag body catches cleanup) s part t ∧ p ∈ visitsOf cfg part t := by
  unfold tryVisits
  split
  · rename_i hregion
    constructor
    · intro hp
      obtain ⟨regionEnd, t, hbegin, hp⟩ := mem_following.mp hp
      rcases List.mem_append.mp hp with hp | hp
      · exact ⟨body, t, .tryBody hregion hbegin, hp⟩
      obtain ⟨_, u, hbody, hp⟩ := mem_following.mp hp
      rcases List.mem_append.mp hp with hp | hp
      · obtain ⟨exception, v, part, w, hhead, hclause, hp⟩ := mem_handlersVisits_iff.mp hp
        exact ⟨part, w, .clause hregion hbegin hbody hhead hclause, hp⟩
      obtain ⟨_, v, hhandlers, hp⟩ := mem_following.mp hp
      obtain ⟨_, w, hfinally, hp⟩ := mem_following.mp hp
      cases cleanup with
      | none => exact nomatch hp
      | some cleanup => exact ⟨cleanup, w, .cleanup hregion hbegin hbody hhandlers hfinally, hp⟩
    · rintro ⟨part, t, hpart, hp⟩
      cases hpart with
      | bareBody hbare => exact absurd hregion (Bool.eq_false_iff.mp hbare)
      | tryBody _ hbegin => exact mem_following.mpr ⟨_, _, hbegin, List.mem_append_left _ hp⟩
      | clause _ hbegin hbody hhead hclause =>
        refine mem_following.mpr ⟨_, _, hbegin, List.mem_append_right _ ?_⟩
        refine mem_following.mpr ⟨_, _, hbody, List.mem_append_left _ ?_⟩
        exact mem_handlersVisits_iff.mpr ⟨_, _, _, _, hhead, hclause, hp⟩
      | cleanup _ hbegin hbody hhandlers hfinally =>
        refine mem_following.mpr ⟨_, _, hbegin, List.mem_append_right _ ?_⟩
        refine mem_following.mpr ⟨_, _, hbody, List.mem_append_right _ ?_⟩
        exact mem_following.mpr ⟨_, _, hhandlers, mem_following.mpr ⟨_, _, hfinally, hp⟩⟩
  · rename_i hbare
    constructor
    · exact fun hp => ⟨body, s, .bareBody (Bool.eq_false_iff.mpr hbare), hp⟩
    · rintro ⟨part, t, hpart, hp⟩
      cases hpart with
      | bareBody => exact hp
      | tryBody hregion => exact absurd hregion hbare
      | clause hregion => exact absurd hregion hbare
      | cleanup hregion => exact absurd hregion hbare

/-- A statement with parts, in which the visits are those in its parts. -/
theorem mem_visit_iff {inner : State Chunk → List Visit} {p : Visit}
    (h : ∀ t, p ∈ inner t ↔ ∃ part u, Part cfg x t part u ∧ p ∈ visitsOf cfg part u) :
    p ∈ visit cfg x inner s ↔ p = ⟨x, s⟩ ∨ ∃ t part u, entry cfg x.kind x.tag s = (.ok (), t) ∧
      Part cfg x t part u ∧ p ∈ visitsOf cfg part u := by
  rw [visit, List.mem_cons, mem_following]
  constructor
  · rintro (rfl | ⟨_, t, hentry, hp⟩)
    · exact Or.inl rfl
    · obtain ⟨part, u, hpart, hp⟩ := (h t).mp hp
      exact Or.inr ⟨t, part, u, hentry, hpart, hp⟩
  · rintro (rfl | ⟨t, part, u, hentry, hpart, hp⟩)
    · exact Or.inl rfl
    · exact Or.inr ⟨(), t, hentry, (h t).mpr ⟨part, u, hpart, hp⟩⟩

/-- The visits in a statement are itself and those in its parts. -/
theorem mem_visits_iff {p : Visit} : p ∈ visits cfg x s ↔ p = ⟨x, s⟩ ∨
    ∃ t part u, entry cfg x.kind x.tag s = (.ok (), t) ∧ Part cfg x t part u ∧ p ∈ visitsOf cfg part u := by
  cases x with
  | block tag body =>
    rw [visits]
    refine mem_visit_iff fun t => ⟨fun hp => ⟨body, t, .block, hp⟩, ?_⟩
    rintro ⟨part, u, ⟨⟩, hp⟩
    exact hp
  | branch tag condition thenBody elseBody =>
    rw [visits]
    exact mem_visit_iff fun t => mem_branchVisits_iff
  | loop tag condition body =>
    rw [visits]
    refine mem_visit_iff fun t => ⟨fun hp => ?_, ?_⟩
    · obtain ⟨loop, u, hhead, hp⟩ := mem_following.mp hp
      exact ⟨body, u, .loopBody hhead, hp⟩
    · rintro ⟨part, u, hpart, hp⟩
      cases hpart with
      | loopBody hhead => exact mem_following.mpr ⟨_, _, hhead, hp⟩
  | tryCatch tag body catches cleanup =>
    rw [visits]
    exact mem_visit_iff fun t => mem_tryVisits_iff
  | _ =>
    rw [visits, List.mem_singleton]
    refine ⟨Or.inl, ?_⟩
    rintro (rfl | ⟨_, _, _, _, ⟨⟩, _⟩)
    rfl

theorem ClausePart.sizeOf_lt {regionEnd : Label} {exception : Temp} {catches : List Catch}
    (h : ClausePart cfg regionEnd exception catches s part t) : sizeOf part < sizeOf catches := by
  induction h with
  | here => simp only [List.cons.sizeOf_spec, Catch.clause.sizeOf_spec]; omega
  | later _ _ ih => simp only [List.cons.sizeOf_spec]; omega

/-- A part is smaller than the statement. -/
theorem Part.sizeOf_lt (h : Part cfg x s part t) : sizeOf part < sizeOf x := by
  cases h with
  | clause _ _ _ _ hclause =>
    have hlt := hclause.sizeOf_lt
    simp only [Stmt.tryCatch.sizeOf_spec]
    omega
  | _ => simp +arith

theorem Lies.mem_visitsOf {p : Visit} (h : Lies cfg body s around p) : p ∈ visitsOf cfg body s := by
  induction h with
  | here => exact List.mem_append_left _ (mem_visits_iff.mpr (Or.inl rfl))
  | later hrun _ ih => exact List.mem_append_right _ (mem_following.mpr ⟨(), _, hrun, ih⟩)
  | within hentry hpart _ ih =>
    exact List.mem_append_left _ (mem_visits_iff.mpr (Or.inr ⟨_, _, _, hentry, hpart, ih⟩))

theorem exists_lies {p : Visit} : ∀ {body : List Stmt} {s : State Chunk}, p ∈ visitsOf cfg body s →
    ∃ around, Lies cfg body s around p
  | [], s, hp => nomatch hp
  | x :: rest, s, hp => by
    simp only [visitsOf, List.mem_append, mem_following, mem_visits_iff] at hp
    obtain (rfl | ⟨t, part, u, hentry, hpart, hp⟩) | ⟨_, t, hrun, hp⟩ := hp
    · exact ⟨[], .here⟩
    · have hlt := hpart.sizeOf_lt
      obtain ⟨around, h⟩ := exists_lies hp
      exact ⟨around ++ [⟨x, s⟩], .within hentry hpart h⟩
    · obtain ⟨around, h⟩ := exists_lies hp
      exact ⟨around, .later hrun h⟩
termination_by body => sizeOf body
decreasing_by all_goals simp only [List.cons.sizeOf_spec]; omega

/-- **Every visit lies in the statements that it is a visit of.** -/
theorem mem_visitsOf_iff {p : Visit} : p ∈ visitsOf cfg body s ↔ ∃ around, Lies cfg body s around p :=
  ⟨exists_lies, fun ⟨_, h⟩ => h.mem_visitsOf⟩

/-! ## The frame -/

/-- The emission of a statement starts in these loops and so many regions. -/
structure Amid (loops : List Loop) (nesting : Nat) (s : State Chunk) : Prop where
  ready : ∃ c : Scene, Ready anyFailure c [] s
  loops : s.frame.loops = loops
  nesting : s.frame.exceptionNesting = nesting

theorem Ready.amid (h : Ready anyFailure c [] s) : Amid c.loops c.nesting s :=
  ⟨⟨c, h⟩, h.1.loops, h.1.nesting⟩

/-- In front of its own code a statement emits nothing. -/
theorem Ready.entry_ok {E : CompileError → Prop} {S : List Slot} (hs : Ready E c S s)
    (hcfg : cfg.registry = .standard) {kind : StmtKind} {tag : StmtTag}
    (h : entry cfg kind tag s = (.ok (), t)) : Ready E c S t ∧ t.active.code = s.active.code := by
  obtain ⟨u, -, hu, hcode, hreturn⟩ := hs.statement_ok hcfg h
  obtain rfl : u = t := congrArg Prod.snd hreturn
  exact ⟨hu, hcode⟩

theorem ClausePart.amid (hcfg : cfg.registry = .standard) {regionEnd : Label} {exception : Temp}
    {catches : List Catch} (h : ClausePart cfg regionEnd exception catches s part t)
    (hend : (regionEnd, []) ∈ c.typed) (hs : Ready anyFailure c [] s) : Amid c.loops c.nesting t := by
  induction h generalizing c with
  | here hhead => exact ((hs.clauseHead ..).of_ok hhead).amid
  | @later span type var resolved body _ _ s t _ hrun _ ih =>
    have hsingle : lowerClauses cfg [.clause span type var body resolved] regionEnd exception s = (.ok (), t) :=
      (Pass.bind_eq_ok_iff ..).mpr ⟨(), t, hrun, rfl⟩
    obtain ⟨ht, -⟩ := (records_lowerClauses tolerates_anyFailure hcfg _).leads hend hs hsingle
    exact ih (c := (c.since s).record _ _) hend ht

section Region

variable {o : OpenRegion} {catches : List Catch} (hcfg : cfg.registry = .standard)
  (hs : Ready anyFailure (c.inRegion o) [] s) (hblock : o.block = .guarded)

include hcfg hs hblock

theorem amid_clause {exception : Temp} (hhead : handlersHead s = (.ok exception, t))
    (h : ClausePart cfg o.endLabel exception catches t part u) : Amid c.loops c.nesting u := by
  obtain ⟨o', hend, -, -, ht⟩ := (hs.handlersHead tolerates_anyFailure hblock).of_ok hhead
  have hmem : (o.endLabel, []) ∈ (c.inRegion o').typed := by
    rw [← hend]
    exact List.mem_cons_self
  exact h.amid (c := c.inRegion o') hcfg hmem ht

theorem amid_cleanup (hhandlers : (if !catches.isEmpty then handlersCode (lowerClauses cfg catches o.endLabel)
      else return : Emit Chunk Unit) s = (.ok (), t)) (hfinally : toSink Sink.beginFinally t = (.ok (), u)) :
    Amid c.loops c.nesting u := by
  obtain ⟨d, o', hblock', ht, hloops, hnesting⟩ : ∃ (d : Scene) (o' : OpenRegion),
      o'.block ≠ .handler .cleanup ∧ Ready anyFailure (d.inRegion o') [] t ∧ d.loops = c.loops ∧
        d.nesting = c.nesting := by
    split at hhandlers
    · obtain ⟨o', -, -, hblock', ht⟩ := (hs.handlersCode tolerates_anyFailure hblock
        (records_lowerClauses tolerates_anyFailure hcfg catches) .any .any).of_ok hhandlers
      exact ⟨c.record _ _, o', by rw [hblock']; nofun, ht, rfl, rfl⟩
    · obtain rfl : s = t := congrArg Prod.snd hhandlers
      exact ⟨c, o, by rw [hblock]; nofun, hs, rfl, rfl⟩
  obtain ⟨o'', -, -, -, hu, -⟩ := (ht.beginHandler .cleanup hblock').of_ok hfinally
  rw [← hloops, ← hnesting]
  exact hu.amid

end Region

/-- One step inwards: a loop is around, or a region, or nothing more than before. -/
theorem Part.amid (hcfg : cfg.registry = .standard) (h : Part cfg x t part u) (hs : Ready anyFailure c [] s)
    (hentry : entry cfg x.kind x.tag s = (.ok (), t)) :
    Amid ((Visit.loop? cfg ⟨x, s⟩).toList ++ c.loops) (c.nesting + if isRegion cfg x then 1 else 0) u := by
  have hin := hs.loopsIn
  obtain ⟨ht, -⟩ := hs.entry_ok hcfg hentry
  have hlowered := records_lowerStmts (E := anyFailure) tolerates_anyFailure hcfg
  cases h with
  | block => exact ht.amid
  | thenPart hhead => exact ((ht.branchHead tolerates_anyFailure hcfg .any).of_ok hhead).amid
  | elsePart hhead hmiddle =>
    obtain ⟨_, v, hthen, helse⟩ := bind_ok hmiddle
    have hv := (ht.branchHead tolerates_anyFailure hcfg .any).of_ok hhead
    obtain ⟨hv, -⟩ := (hlowered _).leads hv hthen
    exact (Ready.elseHead (c := (c.record _ _).since v) hv.since hin |>.of_ok helse).amid
  | @loopBody tag condition _ _ _ loop hhead =>
    have hloop : Visit.loop? cfg ⟨.loop tag condition part, s⟩ = some loop := by
      have hrun : (do entry cfg .loop tag; loopHead cfg condition) s = (.ok loop, u) :=
        (Pass.bind_eq_ok_iff ..).mpr ⟨(), t, hentry, hhead⟩
      simp only [Visit.loop?, hrun]
    rw [hloop]
    exact ((ht.loopHead tolerates_anyFailure hcfg .any).of_ok hhead).1.amid
  | bareBody hbare =>
    rw [if_neg (Bool.eq_false_iff.mp hbare)]
    exact ht.amid
  | tryBody hregion hbegin =>
    rw [if_pos hregion]
    exact ((ht.enterException.beginTry).of_ok hbegin).1.amid
  | @clause _ body _ _ _ _ _ v _ _ regionEnd _ hregion hbegin hbody hhead hclause =>
    rw [if_pos hregion]
    have hv := ((ht.enterException.beginTry).of_ok hbegin).1
    obtain ⟨hw, -⟩ := (hlowered body).leads hv hbody
    exact amid_clause (c := (Scene.record { c with nesting := c.nesting + 1 } _ _).since v)
      (o := .begin t.active.position regionEnd) hcfg hw.since rfl hhead hclause
  | @cleanup _ body _ catches _ _ v _ _ regionEnd hregion hbegin hbody hhandlers hfinally =>
    rw [if_pos hregion]
    have hv := ((ht.enterException.beginTry).of_ok hbegin).1
    obtain ⟨hw, -⟩ := (hlowered body).leads hv hbody
    exact amid_cleanup (c := (Scene.record { c with nesting := c.nesting + 1 } _ _).since v)
      (o := .begin t.active.position regionEnd) hcfg hw.since rfl hhandlers hfinally

/-- **What is around a visit.**  Its emission starts in the loops around it, the innermost first, and in
as many regions as are around it. -/
theorem Lies.amid {p : Visit} (hcfg : cfg.registry = .standard) (h : Lies cfg body s around p)
    {loops : List Loop} {nesting : Nat} (hs : Amid loops nesting s) :
    Amid (around.filterMap (Visit.loop? cfg) ++ loops)
      (nesting + around.countP fun w => isRegion cfg w.stmt) p.start := by
  induction h generalizing loops nesting with
  | here => exact hs
  | later hrun _ ih =>
    obtain ⟨⟨c, hc⟩, rfl, rfl⟩ := hs
    obtain ⟨ht, -⟩ := (records_lowerStmt tolerates_anyFailure hcfg _).leads hc hrun
    rw [hc.1.loops, hc.1.nesting]
    exact ih ht.amid
  | @within x _ _ s _ _ around _ hentry hpart _ ih =>
    obtain ⟨⟨c, hc⟩, rfl, rfl⟩ := hs
    rw [hc.1.loops, hc.1.nesting]
    have hp := ih (hpart.amid hcfg hc hentry)
    have hloop : [⟨x, s⟩].filterMap (Visit.loop? cfg) = (Visit.loop? cfg ⟨x, s⟩).toList := by
      rw [List.filterMap_cons]
      cases Visit.loop? cfg ⟨x, s⟩ <;> rfl
    rwa [List.filterMap_append, hloop, List.append_assoc, List.countP_append, List.countP_singleton,
      Nat.add_comm (around.countP _), ← Nat.add_assoc]

/-! ## From the inside to the outside -/

/-- What is around a visit around is what comes behind it. -/
theorem Lies.outward {p q : Visit} (h : Lies cfg body s around p) : ∀ {inner outer : List Visit},
    around = inner ++ q :: outer → Lies cfg body s outer q := by
  induction h with
  | here => exact fun heq => absurd heq.symm (List.append_ne_nil_of_right_ne_nil _ (List.cons_ne_nil _ _))
  | later hrun _ ih => exact fun heq => .later hrun (ih heq)
  | @within x _ _ s _ _ around _ hentry hpart _ ih =>
    intro inner outer heq
    rcases List.eq_nil_or_concat outer with rfl | ⟨outer, z, rfl⟩
    · obtain ⟨-, rfl⟩ := List.append_singleton_inj.mp heq
      exact .here
    · rw [List.concat_eq_append, ← List.cons_append, ← List.append_assoc] at heq
      rw [List.concat_eq_append]
      obtain ⟨hrest, rfl⟩ := List.append_singleton_inj.mp heq
      exact .within hentry hpart (ih hrest)

/-- The loop of a level: as many loops are further in as the level says. -/
theorem exists_split {f : α → Option β} {b : β} : ∀ {l : List α} {k : Nat}, (l.filterMap f)[k]? = some b →
    ∃ inner a outer, l = inner ++ a :: outer ∧ f a = some b ∧ inner.countP (fun a => (f a).isSome) = k
  | a :: l, k, h => by
    cases hf : f a with
    | none =>
      rw [List.filterMap_cons_none hf] at h
      obtain ⟨inner, a', outer, rfl, ha', hcount⟩ := exists_split h
      refine ⟨a :: inner, a', outer, rfl, ha', ?_⟩
      rw [List.countP_cons_of_neg (by rw [hf]; exact Bool.false_ne_true), hcount]
    | some b' =>
      rw [List.filterMap_cons_some hf] at h
      cases k with
      | zero => exact ⟨[], a, l, rfl, hf.trans h, rfl⟩
      | succ k =>
        obtain ⟨inner, a', outer, rfl, ha', hcount⟩ := exists_split (k := k) h
        refine ⟨a :: inner, a', outer, rfl, ha', ?_⟩
        rw [List.countP_cons_of_pos (by rw [hf]; rfl), hcount]

/-- The loop that a visit around is emitted as: the regions around the loop are those around the visit, the
test is where the visit starts and the exit is where it ends. -/
theorem Visited.loop {loops : List Loop} {nesting : Nat} {p : Visit} (h : Visited cfg loops nesting s t p)
    (hcfg : cfg.registry = .standard) (hloop : p.stmt.isLoop = true) :
    ∃ loop, p.loop? cfg = some loop ∧ loop.exceptionLevel = p.start.frame.exceptionNesting ∧
      (p.after cfg).active.mark? loop.continueLabel = some (some p.start.active.position) ∧
        (p.after cfg).active.mark? loop.breakLabel = some (some (p.after cfg).active.position) := by
  obtain ⟨c, hc, -⟩ := h.ready
  have hrun := h.run
  cases hstmt : p.stmt with
  | loop tag condition body =>
    rw [hstmt, lowerStmt] at hrun
    obtain ⟨u, hentry, hu, hcode, hrun⟩ := hc.statement_ok hcfg hrun
    have hin := hu.loopsIn
    obtain ⟨loop, v, hhead, hrun⟩ := bind_ok hrun
    obtain ⟨_, w, hframe, hrun⟩ := bind_ok hrun
    obtain ⟨w, hbody, rfl⟩ := thenFrame_ok hframe
    obtain ⟨hv, hlevel, htest⟩ := (hu.loopHead tolerates_anyFailure hcfg .any).of_ok hhead
    obtain ⟨hw, hlead⟩ := (records_lowerStmts tolerates_anyFailure hcfg body).leads hv hbody
    have hw : Ready anyFailure (((c.record _ _).since w).inLoop loop) [] w := hw.since
    obtain ⟨ht, hexit⟩ := (Ready.loopEnd (c := (c.record _ _).since w) (hw.leaveLoop rfl) hin).of_ok hrun
    have hstart : (do entry cfg .loop tag; loopHead cfg condition) p.start = (.ok loop, v) :=
      (Pass.bind_eq_ok_iff ..).mpr ⟨(), u, hentry, hhead⟩
    have hposition : u.active.position = p.start.active.position := congrArg Array.size hcode
    refine ⟨loop, by simp only [Visit.loop?, hstmt, hstart], hlevel.trans hc.1.nesting.symm, ?_, hexit⟩
    rw [← hposition]
    exact (ht.leads rfl rfl rfl).grows.marked (hlead.grows.marked htest)
  | _ =>
    rw [hstmt] at hloop
    exact nomatch hloop

theorem isLoop_of_loop? {p : Visit} {loop : Loop} (h : p.loop? cfg = some loop) : p.stmt.isLoop = true := by
  unfold Visit.loop? at h
  split at h
  · rename_i hstmt
    rw [hstmt]
    rfl
  · exact nomatch h

/-! ## Breaks and continues -/

theorem ClausePart.loopJumps_subset {regionEnd : Label} {exception : Temp} {catches : List Catch}
    (h : ClausePart cfg regionEnd exception catches s part t) (depth : Nat) :
    Stmt.loopJumpsOf part depth ⊆ Stmt.loopJumpsOfCatches catches depth := by
  induction h with
  | here => exact List.subset_append_left _ _
  | later _ _ ih => exact List.Subset.trans ih (List.subset_append_right _ _)

/-- In a part there are only jumps of the statement, and in the body of a loop one more loop is around
them. -/
theorem Part.loopJumps_subset (h : Part cfg x s part t) (depth : Nat) :
    Stmt.loopJumpsOf part (depth + if x.isLoop then 1 else 0) ⊆ x.loopJumps depth := by
  cases h with
  | block => exact List.Subset.refl _
  | thenPart => exact List.subset_append_left _ _
  | elsePart => exact List.subset_append_right _ _
  | loopBody => exact List.Subset.refl _
  | bareBody => exact List.subset_append_left _ _
  | tryBody => exact List.subset_append_left _ _
  | clause _ _ _ _ hclause =>
    refine List.Subset.trans (hclause.loopJumps_subset depth) ?_
    exact List.Subset.trans (List.subset_append_left _ _) (List.subset_append_right _ _)
  | cleanup => exact List.Subset.trans (List.subset_append_right _ _) (List.subset_append_right _ _)

/-- The jumps of a visit have the loops around it around them. -/
theorem Lies.loopJumps_subset {p : Visit} (h : Lies cfg body s around p) (depth : Nat) :
    p.stmt.loopJumps (depth + around.countP fun w => w.stmt.isLoop) ⊆ Stmt.loopJumpsOf body depth := by
  induction h generalizing depth with
  | here => exact List.subset_append_left _ _
  | later _ _ ih => exact List.Subset.trans (ih depth) (List.subset_append_right _ _)
  | @within x _ _ s _ _ around _ _ hpart _ ih =>
    rw [List.countP_append, List.countP_singleton, Nat.add_comm (around.countP _), ← Nat.add_assoc]
    refine List.Subset.trans (ih _) (List.Subset.trans (hpart.loopJumps_subset depth) ?_)
    exact List.subset_append_left _ _

/-! ## Functions -/

theorem ClausePart.functions_subset {regionEnd : Label} {exception : Temp} {catches : List Catch}
    (h : ClausePart cfg regionEnd exception catches s part t) :
    Stmt.functionsOf part ⊆ Stmt.functionsOfCatches catches := by
  induction h with
  | here => exact List.subset_append_left _ _
  | later _ _ ih => exact List.Subset.trans ih (List.subset_append_right _ _)

/-- In a part there are only functions of the statement. -/
theorem Part.functions_subset (h : Part cfg x s part t) : Stmt.functionsOf part ⊆ x.functions := by
  cases h with
  | block => exact List.Subset.refl _
  | thenPart => exact List.subset_append_left _ _
  | elsePart => exact List.subset_append_right _ _
  | loopBody => exact List.Subset.refl _
  | bareBody => exact List.subset_append_left _ _
  | tryBody => exact List.subset_append_left _ _
  | clause _ _ _ _ hclause =>
    refine List.Subset.trans hclause.functions_subset ?_
    exact List.Subset.trans (List.subset_append_left _ _) (List.subset_append_right _ _)
  | cleanup => exact List.Subset.trans (List.subset_append_right _ _) (List.subset_append_right _ _)

/-- What a visit declares is declared in the statements that it lies in. -/
theorem Lies.functions_subset {p : Visit} (h : Lies cfg body s around p) :
    p.stmt.functions ⊆ Stmt.functionsOf body := by
  induction h with
  | here => exact List.subset_append_left _ _
  | later _ _ ih => exact List.Subset.trans ih (List.subset_append_right _ _)
  | within _ hpart _ ih =>
    exact List.Subset.trans ih (List.Subset.trans hpart.functions_subset (List.subset_append_left _ _))

end Lowering
end PhpLowering
