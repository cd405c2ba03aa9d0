import Mathlib.Data.List.Perm.Subperm
import PhpLowering.Proofs.Analysis.Turns
import PhpLowering.Proofs.Rule.Standard
import PhpLowering.Proofs.Tree.LoopJumps

/-!
# How levels are checked

The analysis counts the loops around a statement and reports every `break` and `continue` whose level
is not that of a loop.  `checkedJumps` follows the analysis like `Comes` does and lists the breaks and
continues it comes to, with the levels that it finds and the number of loops that the text has around
them: this number goes up at a loop, also at one that never runs, and starts again in a function.

`Checks s t js left` says of a piece of the analysis that it has checked the jumps `js` in their order and
that the jumps `left` are left of them: the counter is back where it was, and what has been reported of
levels is what there is to complain about `js`, each jump once (`checks_analyzeStmts`).
-/

namespace PhpLowering
namespace Analysis

open LoopJump (complaints)
open Pass (bind_eq_ok_iff)

variable {α β : Type} {s t u v : State} {js js' left left' : List LoopJump}

/-! ## Where the analysis comes to jumps -/

/-- What is found behind a step, unless the step fails. -/
def following (x : Analyze α) (s : State) (found : α → State → List β) : List β :=
  match x s with
  | (.ok a, t) => found a t
  | (.error _, _) => []

theorem following_eq {x : Analyze α} {a : α} (h : x s = (.ok a, t)) (found : α → State → List β) :
    following x s found = found a t := by
  unfold following
  rw [h]

section Way

variable (cfg : Setting)

/-- What is found in a statement, if it is handed to the rule made for it. -/
def handed (x : Stmt) (found : State → List β) (s : State) : List β :=
  if s.unreachable && isElidable x then []
  else
    following (onTable (RuleTable.stmt cfg.registry x.kind x.id)) s fun handle t =>
      if handle.rule = x.kind then found t else []

/-- A jump with the level that the analysis finds. -/
def checkedJump (tag : StmtTag) (kind : JumpKind) (expr : Option Expr) (depth : Nat) (s : State) :
    List LoopJump :=
  match expr with
  | none => LoopJump.ofJump tag kind none depth
  | some e =>
    following (kept (analyze cfg e (jumpAccess kind s.scope.returnsRef e))) s fun level _ =>
      LoopJump.ofJump tag kind (some level) depth

/-- The jumps in a branch, of which one part may be dead. -/
def branchJumps (condition : Expr) (thenBody : List Stmt) (elseBody : Option (List Stmt))
    (thenJumps elseJumps : State → List LoopJump) (s : State) : List LoopJump :=
  following (analyze cfg condition .read) s fun c t =>
    match decision cfg c thenBody elseBody with
    | some true =>
      elseJumps t.enterDead ++ following (asDead (analyzeOptional cfg elseBody)) t fun _ u => thenJumps u
    | some false =>
      thenJumps t.enterDead ++ following (asDead (analyzeStmts cfg thenBody)) t fun _ u => elseJumps u
    | none =>
      following (keep c) t fun _ u =>
        thenJumps u.enterConditional ++ following (inConditional (analyzeStmts cfg thenBody)) u fun _ v =>
          elseJumps (v.restore u.reachability).enterConditional

/-- The jumps in a loop, whose body may be dead. -/
def loopBodyJumps (condition : Expr) (bodyJumps : State → List LoopJump) (s : State) : List LoopJump :=
  following (analyze cfg condition .read) s fun c t =>
    if decided? cfg c = some false then bodyJumps t.enterLoop.enterDead
    else following (keep c) t fun _ u => bodyJumps u.enterLoop

/-- The jumps in a `try`. -/
def tryJumps (body : List Stmt) (catches : List Catch)
    (bodyJumps catchesJumps cleanupJumps : State → List LoopJump) (s : State) : List LoopJump :=
  bodyJumps s.enterConditional ++ following (inConditional (analyzeStmts cfg body)) s fun _ t =>
    catchesJumps t ++ following (analyzeCatches cfg catches) t fun _ u => cleanupJumps u

/-- The jumps in a clause and those behind it. -/
def clauseJumps (span : Span) (type : String) (handler : List Stmt)
    (handlerJumps restJumps : State → List LoopJump) (s : State) : List LoopJump :=
  following (Pass.transform (State.resolveType cfg type span)) s fun _ t =>
    handlerJumps t.enterConditional ++ following (inConditional (analyzeStmts cfg handler)) t fun _ u =>
      restJumps u

mutual

/-- The breaks and continues that the analysis of a statement comes to, with so many loops around. -/
def checkedJumps : Stmt → Nat → State → List LoopJump
  | x@(.block _ body), depth => handed cfg x (checkedJumpsOf body depth)
  | x@(.branch _ condition thenBody elseBody), depth =>
    handed cfg x (branchJumps cfg condition thenBody elseBody (checkedJumpsOf thenBody depth)
      (checkedJumpsOfOptional elseBody depth))
  | x@(.loop _ condition body), depth =>
    handed cfg x (loopBodyJumps cfg condition (checkedJumpsOf body (depth + 1)))
  | x@(.jump tag kind expr), depth => handed cfg x (checkedJump cfg tag kind expr depth)
  | x@(.tryCatch _ body catches cleanup), depth =>
    handed cfg x (tryJumps cfg body catches (checkedJumpsOf body depth) (checkedJumpsOfCatches catches depth)
      (checkedJumpsOfOptional cleanup depth))
  | x@(.function _ head body _), _ =>
    handed cfg x fun s => checkedJumpsOf body 0 (s.enterRoutine head.byRef)
  | .expression .., _ | .echo .., _ | .goto .., _ | .label .., _ | .throw .., _ | .unset .., _
  | .constDecl .., _ | .empty .., _ => fun _ => []
termination_by structural x => x

/-- The breaks and continues that the analysis of statements comes to. -/
def checkedJumpsOf : List Stmt → Nat → State → List LoopJump
  | [], _ => fun _ => []
  | x :: rest, depth => fun s =>
    checkedJumps x depth s ++ following (analyzeStmt cfg x) s fun _ t => checkedJumpsOf rest depth t
termination_by structural xs => xs

/-- The breaks and continues in a part that may be missing. -/
def checkedJumpsOfOptional : Option (List Stmt) → Nat → State → List LoopJump
  | none, _ => fun _ => []
  | some body, depth => checkedJumpsOf body depth
termination_by structural body => body

/-- The breaks and continues in the clauses of a `try`. -/
def checkedJumpsOfCatches : List Catch → Nat → State → List LoopJump
  | [], _ => fun _ => []
  | .clause span type _ handler _ :: rest, depth =>
    clauseJumps cfg span type handler (checkedJumpsOf handler depth) (checkedJumpsOfCatches rest depth)
termination_by structural catches => catches

end

end Way

variable {cfg : Setting}

/-! ## The jumps of the text -/

/-- Jumps of the text, each at most once. -/
def Among (js text : List LoopJump) : Prop :=
  (js.map LoopJump.place).Subperm (text.map LoopJump.place)

namespace Among

variable {text text' : List LoopJump}

theorem nil : Among [] text :=
  List.nil_subperm

theorem append (h : Among js text) (h' : Among js' text') : Among (js ++ js') (text ++ text') := by
  unfold Among
  rw [List.map_append, List.map_append]
  exact List.Subperm.append h h'

/-- The parts can be come to in another order. -/
theorem append_comm (h : Among js text) (h' : Among js' text') : Among (js' ++ js) (text ++ text') := by
  unfold Among
  rw [(List.perm_append_comm.map LoopJump.place).subperm_right]
  exact h.append h'

theorem following {x : Analyze α} {found : α → State → List LoopJump} (h : ∀ a t, Among (found a t) text) :
    Among (following x s found) text := by
  unfold Analysis.following
  split
  · exact h _ _
  · exact nil

theorem handed {x : Stmt} {found : State → List LoopJump} (h : ∀ t, Among (found t) text) :
    Among (handed cfg x found s) text := by
  unfold Analysis.handed
  split
  · exact nil
  · refine following fun handle t => ?_
    split
    · exact h t
    · exact nil

end Among

mutual

/-- What the analysis of a statement comes to are jumps in it, with as many loops around as in the text. -/
theorem among_checkedJumps : ∀ (x : Stmt) (depth : Nat) (s : State),
    Among (checkedJumps cfg x depth s) (x.loopJumps depth)
  | .block tag body, depth, s => .handed fun t => among_checkedJumpsOf body depth t
  | .branch tag condition thenBody elseBody, depth, s => .handed fun t => .following fun c u => by
    split
    · exact .append_comm (.following fun _ v => among_checkedJumpsOf thenBody depth v)
        (among_checkedJumpsOfOptional elseBody depth _)
    · exact .append (among_checkedJumpsOf thenBody depth _)
        (.following fun _ v => among_checkedJumpsOfOptional elseBody depth v)
    · exact .following fun _ v => .append (among_checkedJumpsOf thenBody depth _)
        (.following fun _ w => among_checkedJumpsOfOptional elseBody depth _)
  | .loop tag condition body, depth, s => .handed fun t => .following fun c u => by
    split
    · exact among_checkedJumpsOf body (depth + 1) _
    · exact .following fun _ v => among_checkedJumpsOf body (depth + 1) _
  | .jump tag kind expr, depth, s => .handed fun t => by
    have hplace (level : Option Expr) : Among (LoopJump.ofJump tag kind level depth)
        (LoopJump.ofJump tag kind expr depth) := by
      unfold Among
      rw [LoopJump.place_ofJump tag kind level expr]
    cases expr with
    | none => exact hplace none
    | some e => exact .following fun level _ => hplace (some level)
  | .tryCatch tag body catches cleanup, depth, s => .handed fun t =>
    .append (among_checkedJumpsOf body depth _) (.following fun _ u =>
      .append (among_checkedJumpsOfCatches catches depth u)
        (.following fun _ v => among_checkedJumpsOfOptional cleanup depth v))
  | .function tag head body dead, depth, s => .handed fun t => among_checkedJumpsOf body 0 _
  | .expression .., _, _ | .echo .., _, _ | .goto .., _, _ | .label .., _, _ | .throw .., _, _
  | .unset .., _, _ | .constDecl .., _, _ | .empty .., _, _ => .nil
termination_by structural x => x

/-- **What the analysis of statements comes to are jumps in them, with as many loops around as in the
text.** -/
theorem among_checkedJumpsOf : ∀ (body : List Stmt) (depth : Nat) (s : State),
    Among (checkedJumpsOf cfg body depth s) (Stmt.loopJumpsOf body depth)
  | [], _, _ => .nil
  | x :: rest, depth, s =>
    .append (among_checkedJumps x depth s) (.following fun _ t => among_checkedJumpsOf rest depth t)
termination_by structural body => body

theorem among_checkedJumpsOfOptional : ∀ (part : Option (List Stmt)) (depth : Nat) (s : State),
    Among (checkedJumpsOfOptional cfg part depth s) (Stmt.loopJumpsOfOptional part depth)
  | none, _, _ => .nil
  | some body, depth, s => among_checkedJumpsOf body depth s
termination_by structural part => part

theorem among_checkedJumpsOfCatches : ∀ (catches : List Catch) (depth : Nat) (s : State),
    Among (checkedJumpsOfCatches cfg catches depth s) (Stmt.loopJumpsOfCatches catches depth)
  | [], _, _ => .nil
  | .clause span type var handler resolved :: rest, depth, s => by
    rw [checkedJumpsOfCatches]
    exact .following fun _ t => .append (among_checkedJumpsOf handler depth _)
      (.following fun _ u => among_checkedJumpsOfCatches rest depth u)
termination_by structural catches => catches

end

/-! ## Steps that check no level -/

/-- What has been reported of levels. -/
def State.levelReports (s : State) : List Diagnostic :=
  s.diagnostics.toList.filter Diagnostic.isBreakLevel

theorem levelReports_report (p : Problem) (span : Span) (s : State) :
    (s.report p span).levelReports =
      s.levelReports ++ if (⟨p, span⟩ : Diagnostic).isBreakLevel then [⟨p, span⟩] else [] := by
  simp only [State.levelReports, State.report, Array.toList_push, List.filter_append, List.filter_cons,
    List.filter_nil]

/-- Something else is reported. -/
theorem levelReports_of_other {p : Problem} {span : Span} (h : (⟨p, span⟩ : Diagnostic).isBreakLevel = false) :
    (s.report p span).levelReports = s.levelReports := by
  rw [levelReports_report, h, if_neg Bool.false_ne_true, List.append_nil]

/-- No level is checked, and as many loops are around. -/
structure Mute (s t : State) : Prop where
  loops : t.flow.loops = s.flow.loops
  reported : t.levelReports = s.levelReports

namespace Mute

theorem refl (s : State) : Mute s s :=
  ⟨rfl, rfl⟩

theorem trans (h : Mute s t) (h' : Mute t u) : Mute s u :=
  ⟨h'.loops.trans h.loops, h'.reported.trans h.reported⟩

theorem report {p : Problem} {span : Span} (h : (⟨p, span⟩ : Diagnostic).isBreakLevel = false) (s : State) :
    Mute s (s.report p span) :=
  ⟨rfl, levelReports_of_other h⟩

end Mute

instance robust_mute (s : State) : Robust (Mute s) where
  alike h hflow _ _ hdiagnostics _ :=
    h.trans ⟨congrArg Flow.loops hflow, by rw [State.levelReports, hdiagnostics]; rfl⟩
  enter h := h.trans ⟨rfl, rfl⟩
  leave h := h.trans ⟨rfl, rfl⟩
  warn {p} span _ hp h := h.trans (.report (by cases p <;> first | rfl | exact nomatch hp) _)

theorem Preserves.mute {x : Analyze α} {a : α} (h : Preserves (Mute s) x) (hrun : x s = (.ok a, t)) :
    Mute s t := by
  have ht := h.keep s (.refl s)
  rwa [hrun] at ht

theorem mute_analyze {e : Expr} {access : Access} {c : Evaluation} (h : analyze cfg e access s = (.ok c, t)) :
    Mute s t :=
  (preserves_analyze cfg e access).mute h

theorem mute_keep {c : Evaluation} {e : Expr} (h : keep c s = (.ok e, t)) : Mute s t :=
  (preserves_keep c).mute h

theorem mute_kept {e : Expr} {access : Access} {node : Expr} (h : kept (analyze cfg e access) s = (.ok node, t)) :
    Mute s t := by
  have he := preserves_analyze (P := Mute s) cfg e access
  exact (preserves_kept (x := analyze cfg e access)).mute h

theorem mute_analyzeAll {access : Access} {es es' : List Expr} (h : analyzeAll cfg access es s = (.ok es', t)) :
    Mute s t :=
  (preserves_analyzeAll cfg access es).mute h

theorem mute_resolveType (type : String) (span : Span) (s : State) :
    Mute s (s.resolveType cfg type span).2 := by
  unfold State.resolveType
  split
  · exact .refl s
  · exact .report rfl s

theorem mute_enterUnreachable (s : State) : Mute s s.enterUnreachable := by
  unfold State.enterUnreachable
  split
  · exact .refl s
  · exact ⟨rfl, rfl⟩

theorem mute_reportUnreachable (options : Options) (span : Span) (s : State) :
    Mute s (s.reportUnreachable options span) := by
  unfold State.reportUnreachable
  dsimp only
  split
  · exact .refl s
  · split
    · exact Mute.trans (t := s.restore { s.reachability with reported := true }) ⟨rfl, rfl⟩ (.report rfl _)
    · exact ⟨rfl, rfl⟩

theorem mute_labelEntry (name : String) (firstGoto : Option Span) (s : State) :
    Mute s (s.labelEntry name firstGoto).2 := by
  unfold State.labelEntry
  split
  · exact .refl s
  · exact ⟨rfl, rfl⟩

theorem mute_gotoLabel (name : String) (span : Span) (s : State) : Mute s (s.gotoLabel name span) :=
  (mute_labelEntry name (some span) s).trans ⟨rfl, rfl⟩

theorem mute_defineLabel (name : String) (span : Span) (s : State) : Mute s (s.defineLabel name span).2 := by
  have hentry := mute_labelEntry name none s
  unfold State.defineLabel
  dsimp only
  split
  · exact hentry.trans (.trans (.report rfl _) (.report rfl _))
  · exact hentry.trans ⟨rfl, rfl⟩

theorem mute_reportUndefined (s : State) : Mute s s.reportUndefined := by
  unfold State.reportUndefined
  generalize s.scope.labels = labels
  induction labels generalizing s with
  | nil => exact .refl s
  | cons entry rest ih =>
    rw [List.foldl_cons]
    refine Mute.trans ?_ (ih _)
    dsimp only
    split
    · exact .report rfl s
    · exact .refl s

theorem mute_analyzeLabel {tag : StmtTag} {name : String} {home : Home StmtKind} {y : Stmt}
    (h : analyzeLabel tag name home s = (.ok y, t)) : Mute s t ∧ y = .label tag name := by
  obtain ⟨cell, u, hdefine, h⟩ := (bind_eq_ok_iff ..).mp h
  have hu : Mute s u := by
    rw [show u = (s.defineLabel name tag.span).2 from (congrArg Prod.snd hdefine).symm]
    exact mute_defineLabel name tag.span s
  cases cell <;> cases h
  · exact ⟨hu, rfl⟩
  · exact ⟨hu.trans ⟨rfl, rfl⟩, rfl⟩

theorem mute_analyzeExpression {tag : StmtTag} {e : Expr} {y : Stmt}
    (h : analyzeExpression cfg tag e s = (.ok y, t)) : Mute s t ∧ ∀ depth, y.loopJumps depth = [] := by
  obtain ⟨ev, u, hanalyze, h⟩ := (bind_eq_ok_iff ..).mp h
  have hu := mute_analyze hanalyze
  cases ev <;> cases h
  · exact ⟨hu.trans ⟨rfl, rfl⟩, fun _ => rfl⟩
  · exact ⟨hu, fun _ => rfl⟩

theorem mute_analyzeConstDecl {tag : StmtTag} {name : String} {value : Expr} {y : Stmt}
    (h : analyzeConstDecl cfg tag name value s = (.ok y, t)) :
    Mute s t ∧ ∀ depth, y.loopJumps depth = [] := by
  obtain ⟨e, u, hvalue, h⟩ := (bind_eq_ok_iff ..).mp h
  have hu := mute_analyze hvalue
  have hend {w : State} (hw : Mute s w) (hrest : (do return .constDecl tag name (← keep e) : Analyze Stmt) w =
      (.ok y, t)) : Mute s t ∧ ∀ depth, y.loopJumps depth = [] := by
    obtain ⟨node, v, hkeep, hrest⟩ := (bind_eq_ok_iff ..).mp hrest
    cases hrest
    exact ⟨hw.trans (mute_keep hkeep), fun _ => rfl⟩
  cases hv : e.value? with
  | none =>
    rw [hv] at h
    exact hend hu h
  | some v =>
    rw [hv] at h
    obtain ⟨fresh, w, hdeclare, h⟩ := (bind_eq_ok_iff ..).mp h
    refine hend (hu.trans ?_) h
    rw [show w = (u.declareConstant cfg name v tag.span).2 from (congrArg Prod.snd hdeclare).symm]
    unfold State.declareConstant
    split
    · exact .report rfl u
    · exact ⟨rfl, rfl⟩

/-! ## Checking -/

/-- A piece of the analysis has checked some jumps, of which some are left. -/
structure Checks (s t : State) (js left : List LoopJump) : Prop where
  loops : t.flow.loops = s.flow.loops
  reported : t.levelReports = s.levelReports ++ complaints js
  left : left.Sublist js

namespace Checks

theorem of_mute (h : Mute s t) : Checks s t [] [] :=
  ⟨h.loops, h.reported.trans (List.append_nil _).symm, .slnil⟩

theorem trans (h : Checks s t js left) (h' : Checks t u js' left') :
    Checks s u (js ++ js') (left ++ left') where
  loops := h'.loops.trans h.loops
  reported := by rw [h'.reported, h.reported, LoopJump.complaints_append, List.append_assoc]
  left := h.left.append h'.left

theorem before (h : Mute s t) (h' : Checks t u js left) : Checks s u js left :=
  (of_mute h).trans h'

theorem behind (h : Checks s t js left) (h' : Mute t u) : Checks s u js left := by
  have hall := h.trans (of_mute h')
  rwa [List.append_nil, List.append_nil] at hall

end Checks

/-- The level of a jump is in order, or there is a complaint. -/
theorem checkLevel_eq (tag : StmtTag) (kind : JumpKind) (level : Option Expr) (s : State) :
    checkLevel level tag.span s =
      if (⟨tag, kind, level, s.flow.loops⟩ : LoopJump).Valid then s
      else s.report (.invalidBreakLevel ((staticLevel? level).getD 1)) tag.span := by
  cases hstatic : staticLevel? level with
  | none =>
    have hvalid : (⟨tag, kind, level, s.flow.loops⟩ : LoopJump).Valid ↔ 0 < s.flow.loops := by
      rw [LoopJump.Valid, hstatic]
    simp only [checkLevel, hstatic, hvalid, beq_iff_eq]
    by_cases hdepth : s.flow.loops = 0
    · rw [if_pos hdepth, if_neg (by omega)]
    · rw [if_neg hdepth, if_pos (by omega)]
  | some n =>
    have hvalid := LoopJump.valid_of_static (j := ⟨tag, kind, level, s.flow.loops⟩) hstatic
    simp only [checkLevel, hstatic, hvalid, Bool.or_eq_true, decide_eq_true_eq, Int.ofNat_eq_natCast]
    by_cases hin : 1 ≤ n.toInt ∧ n.toInt ≤ s.flow.loops
    · rw [if_pos hin, if_neg (by omega)]
    · rw [if_neg hin, if_pos (by omega)]

/-- The level of a jump is checked against the number of loops around it. -/
theorem checks_checkLevel {kind : JumpKind} (hkind : kind ≠ .return) (level : Option Expr) (tag : StmtTag)
    (s : State) :
    Checks s (checkLevel level tag.span s) (LoopJump.ofJump tag kind level s.flow.loops)
      (LoopJump.ofJump tag kind level s.flow.loops) := by
  rw [LoopJump.ofJump, if_neg hkind, checkLevel_eq tag kind level s]
  split
  · rename_i hvalid
    refine ⟨rfl, ?_, .refl _⟩
    simp [complaints, hvalid]
  · rename_i hvalid
    refine ⟨rfl, ?_, .refl _⟩
    rw [levelReports_report]
    simp [complaints, hvalid, LoopJump.complaint, Diagnostic.isBreakLevel]

/-! ## Steps -/

/-- A step that is taken with so many loops around checks the jumps that are found in it. -/
structure Checking (depth : Nat) (x : Analyze α) (found : State → List LoopJump)
    (left : α → List LoopJump) : Prop where
  checks : ∀ {s a t}, s.flow.loops = depth → x s = (.ok a, t) → Checks s t (found s) (left a)

section Steps

variable {depth : Nat} {x : Analyze α} {found : State → List LoopJump} {leaves : α → List LoopJump}

theorem Checking.inConditional (hx : Checking depth x found leaves) :
    Checking depth (inConditional x) (fun s => found s.enterConditional) leaves := by
  refine ⟨fun {s a t} hs h => ?_⟩
  obtain ⟨u, hrun, rfl⟩ := inConditional_eq_ok h
  have hu : Checks s.enterConditional u (found s.enterConditional) (leaves a) := hx.checks hs hrun
  exact ⟨hu.loops, hu.reported, hu.left⟩

theorem Checking.inLoop (hx : Checking (depth + 1) x found leaves) :
    Checking depth (inLoop x) (fun s => found s.enterLoop) leaves := by
  refine ⟨fun {s a t} hs h => ?_⟩
  obtain ⟨u, hrun, rfl⟩ := inLoop_eq_ok h
  have hu : Checks s.enterLoop u (found s.enterLoop) (leaves a) :=
    hx.checks (congrArg (· + 1) hs) hrun
  exact ⟨congrArg (· - 1) hu.loops, hu.reported, hu.left⟩

theorem Checking.asDead (hx : Checking depth x found leaves) :
    Checking depth (asDead x) (fun s => found s.enterDead) fun _ => [] := by
  refine ⟨fun {s _ t} hs h => ?_⟩
  obtain ⟨a, u, hrun, rfl⟩ := asDead_eq_ok h
  have hu : Checks s.enterDead u (found s.enterDead) (leaves a) := hx.checks hs hrun
  exact ⟨hu.loops, hu.reported, List.nil_sublist _⟩

/-- With the standard registry a rule that is handed a statement is the one made for it. -/
theorem byStmtRule_ok {x y : Stmt} {analyzed : Home StmtKind → Analyze Stmt} (hcfg : cfg.registry = .standard)
    (h : byStmtRule cfg x analyzed s = (.ok y, t)) :
    ∃ handle u, onTable (RuleTable.stmt cfg.registry x.kind x.id) s = (.ok handle, u) ∧ Mute s u ∧
      handle.rule = x.kind ∧ analyzed handle.home u = (.ok y, t) := by
  obtain ⟨handle, u, htable, h⟩ := (bind_eq_ok_iff ..).mp h
  obtain ⟨hhandle, hu⟩ := Prod.mk.inj htable
  have hrule : handle.rule = x.kind := by
    rw [hcfg] at hhandle
    obtain ⟨rfl, -⟩ := (RuleTable.ends_stmt s.table x.kind x.id).of_ok (Prod.ext hhandle rfl)
    rfl
  rw [if_pos hrule] at h
  refine ⟨handle, u, htable, ?_, hrule, h⟩
  rw [← hu]
  exact ⟨rfl, rfl⟩

/-- A statement is left out, or handed to its rule. -/
theorem Checking.ifAlive {x : Stmt} {analyzed : Home StmtKind → Analyze Stmt}
    (hcfg : cfg.registry = .standard) (hlabel : x.isLabel = false)
    (hrule : ∀ home, Checking depth (analyzed home) found fun y => y.loopJumps depth) :
    Checking depth (ifAlive cfg x analyzed) (handed cfg x found) fun y => y.loopJumps depth := by
  refine ⟨fun {s y t} hs h => ?_⟩
  rw [Analysis.ifAlive, if_neg (by rw [hlabel]; exact Bool.false_ne_true)] at h
  obtain ⟨dead, _, hpeek, h⟩ := (bind_eq_ok_iff ..).mp h
  cases hpeek
  unfold handed
  split at h
  · rename_i hdead
    rw [if_pos hdead]
    cases h
    exact .of_mute ((mute_reportUnreachable _ _ _).trans ⟨rfl, rfl⟩)
  · rename_i hdead
    obtain ⟨handle, u, htable, hu, hown, hrun⟩ := byStmtRule_ok hcfg h
    rw [if_neg hdead, following_eq htable, if_pos hown]
    exact .before hu ((hrule handle.home).checks (hu.loops.trans hs) hrun)

/-- A statement in which there is no jump. -/
theorem checking_mute {x : Stmt} {analyzed : Home StmtKind → Analyze Stmt} (hcfg : cfg.registry = .standard)
    (hrule : ∀ home u y t, analyzed home u = (.ok y, t) → Mute u t ∧ ∀ depth, y.loopJumps depth = []) :
    Checking depth (ifAlive cfg x analyzed) (fun _ => []) fun y => y.loopJumps depth := by
  refine ⟨fun {s y t} _ h => ?_⟩
  have hchecks {u : State} (hu : Mute s u) (hrun : byStmtRule cfg x analyzed u = (.ok y, t)) :
      Checks s t [] (y.loopJumps depth) := by
    obtain ⟨handle, v, -, hv, -, hrun⟩ := byStmtRule_ok hcfg hrun
    obtain ⟨ht, hy⟩ := hrule handle.home v y t hrun
    rw [hy]
    exact .of_mute (hu.trans (hv.trans ht))
  unfold Analysis.ifAlive at h
  split at h
  · obtain ⟨_, _, hleave, h⟩ := (bind_eq_ok_iff ..).mp h
    cases hleave
    exact hchecks (u := s.leaveUnreachable) ⟨rfl, rfl⟩ h
  · obtain ⟨dead, _, hpeek, h⟩ := (bind_eq_ok_iff ..).mp h
    cases hpeek
    split at h
    · cases h
      exact .of_mute ((mute_reportUnreachable _ _ _).trans ⟨rfl, rfl⟩)
    · exact hchecks (.refl s) h

end Steps

/-! ## Statements and their rules -/

section Constructs

variable {depth : Nat} {tag : StmtTag} {condition : Expr} {thenBody body : List Stmt}
  {elseBody cleanup : Option (List Stmt)} {catches : List Catch}
  {bodyJumps catchesJumps elseJumps : State → List LoopJump}

theorem checking_analyzeJump (tag : StmtTag) (kind : JumpKind) (expr : Option Expr) :
    Checking depth (analyzeJump cfg tag kind expr) (checkedJump cfg tag kind expr depth)
      fun y => y.loopJumps depth := by
  refine ⟨fun {s y t} hs h => ?_⟩
  subst hs
  have hend {level : Option Expr} {u : State} (hu : Mute s u) (hrest : (do
        if kind ≠ .return then Pass.update (checkLevel level tag.span)
        Pass.update State.enterUnreachable
        return .jump tag kind level : Analyze Stmt) u = (.ok y, t)) :
      Checks s t (LoopJump.ofJump tag kind level s.flow.loops) (y.loopJumps s.flow.loops) := by
    rw [← hu.loops]
    split at hrest
    · rename_i hkind
      cases hrest
      exact .before hu ((checks_checkLevel hkind level tag u).behind (mute_enterUnreachable _))
    · rename_i hkind
      cases hrest
      have hnone : LoopJump.ofJump tag kind level u.flow.loops = [] := if_pos (Classical.not_not.mp hkind)
      rw [Stmt.loopJumps, hnone]
      exact .of_mute (hu.trans (mute_enterUnreachable u))
  cases expr with
  | none => exact hend (.refl s) h
  | some e =>
    obtain ⟨returnsRef, _, hpeek, h⟩ := (bind_eq_ok_iff ..).mp h
    cases hpeek
    obtain ⟨node, v, hkept, h⟩ := (bind_eq_ok_iff ..).mp h
    rw [checkedJump, following_eq hkept]
    exact hend (mute_kept hkept) h

theorem checking_block (hcfg : cfg.registry = .standard)
    (hbody : Checking depth (analyzeStmts cfg body) bodyJumps fun b => Stmt.loopJumpsOf b depth) :
    Checking depth (analyzeStmt cfg (.block tag body)) (handed cfg (.block tag body) bodyJumps)
      fun y => y.loopJumps depth := by
  rw [analyzeStmt]
  refine .ifAlive hcfg rfl fun home => ⟨fun {s y t} hs h => ?_⟩
  obtain ⟨out, v, hrun, h⟩ := (bind_eq_ok_iff ..).mp h
  cases h
  exact hbody.checks hs hrun

theorem checking_branch (hcfg : cfg.registry = .standard)
    (hthen : Checking depth (analyzeStmts cfg thenBody) bodyJumps fun b => Stmt.loopJumpsOf b depth)
    (hoptional : Checking depth (analyzeOptional cfg elseBody) elseJumps
      fun b => Stmt.loopJumpsOfOptional b depth)
    (helse : ∀ entry, Checking depth (analyzeElse cfg entry elseBody)
      (fun s => elseJumps (s.restore entry).enterConditional) fun b => Stmt.loopJumpsOfOptional b depth) :
    Checking depth (analyzeStmt cfg (.branch tag condition thenBody elseBody))
      (handed cfg (.branch tag condition thenBody elseBody)
        (branchJumps cfg condition thenBody elseBody bodyJumps elseJumps)) fun y => y.loopJumps depth := by
  rw [analyzeStmt]
  refine .ifAlive hcfg rfl fun home => ⟨fun {s y t} hs h => ?_⟩
  obtain ⟨c, u, hcondition, h⟩ := (bind_eq_ok_iff ..).mp h
  have hu := mute_analyze hcondition
  refine .before hu ?_
  replace hu := hu.loops.trans hs
  rw [branchJumps, following_eq hcondition]
  change (match decision cfg c thenBody elseBody with
    | some true => _
    | some false => _
    | none => _ : Analyze Stmt) u = _ at h
  generalize decision cfg c thenBody elseBody = decided at h ⊢
  rcases decided with _ | _ | _
  · obtain ⟨e, v, hkeep, h⟩ := (bind_eq_ok_iff ..).mp h
    obtain ⟨entry, _, hpeek, h⟩ := (bind_eq_ok_iff ..).mp h
    cases hpeek
    obtain ⟨r, w, hattempt, h⟩ := (bind_eq_ok_iff ..).mp h
    obtain ⟨b, v', hrest, h⟩ := (bind_eq_ok_iff ..).mp h
    obtain ⟨a, _, hr, h⟩ := (bind_eq_ok_iff ..).mp h
    cases r with
    | error f => exact nomatch hr
    | ok a' =>
      cases hr
      cases h
      rw [Pass.attempt_apply] at hattempt
      obtain ⟨ha, hw⟩ := Prod.mk.inj hattempt
      have hfirst : inConditional (analyzeStmts cfg thenBody) v = (.ok a, w) :=
        Prod.ext (Except.ok.inj ha) hw
      have hv := (mute_keep hkeep).loops.trans hu
      have hchecks := hthen.inConditional.checks hv hfirst
      simp only [following_eq hkeep, following_eq hfirst]
      exact .before (mute_keep hkeep) (hchecks.trans ((helse _).checks (hchecks.loops.trans hv) hrest))
  · obtain ⟨_, v, hdead, h⟩ := (bind_eq_ok_iff ..).mp h
    obtain ⟨r, w, hrest, h⟩ := (bind_eq_ok_iff ..).mp h
    have hchecks := hthen.asDead.checks hu hdead
    have hboth := hchecks.trans (hoptional.checks (hchecks.loops.trans hu) hrest)
    simp only [following_eq hdead]
    cases r with
    | none =>
      cases h
      exact hboth.behind ⟨rfl, rfl⟩
    | some out =>
      cases h
      exact hboth
  · obtain ⟨_, v, hdead, h⟩ := (bind_eq_ok_iff ..).mp h
    obtain ⟨out, w, hfirst, h⟩ := (bind_eq_ok_iff ..).mp h
    cases h
    have hchecks := hoptional.asDead.checks hu hdead
    simp only [following_eq hdead]
    exact hchecks.trans (hthen.checks (hchecks.loops.trans hu) hfirst)

theorem checking_loop (hcfg : cfg.registry = .standard)
    (hbody : Checking (depth + 1) (analyzeStmts cfg body) bodyJumps
      fun b => Stmt.loopJumpsOf b (depth + 1)) :
    Checking depth (analyzeStmt cfg (.loop tag condition body))
      (handed cfg (.loop tag condition body) (loopBodyJumps cfg condition bodyJumps))
      fun y => y.loopJumps depth := by
  rw [analyzeStmt]
  refine .ifAlive hcfg rfl fun home => ⟨fun {s y t} hs h => ?_⟩
  obtain ⟨c, u, hcondition, h⟩ := (bind_eq_ok_iff ..).mp h
  have hu := mute_analyze hcondition
  refine .before hu ?_
  replace hu := hu.loops.trans hs
  rw [loopBodyJumps, following_eq hcondition]
  split at h
  · rename_i hdecided
    obtain ⟨_, v, hdead, h⟩ := (bind_eq_ok_iff ..).mp h
    cases h
    rw [if_pos hdecided]
    exact (hbody.asDead.inLoop.checks hu hdead).behind ⟨rfl, rfl⟩
  · rename_i hdecided
    obtain ⟨e, v, hkeep, h⟩ := (bind_eq_ok_iff ..).mp h
    obtain ⟨out, w, hloop, h⟩ := (bind_eq_ok_iff ..).mp h
    cases h
    rw [if_neg hdecided, following_eq hkeep]
    exact .before (mute_keep hkeep) (hbody.inLoop.checks ((mute_keep hkeep).loops.trans hu) hloop)

theorem checking_tryCatch (hcfg : cfg.registry = .standard)
    (hbody : Checking depth (analyzeStmts cfg body) bodyJumps fun b => Stmt.loopJumpsOf b depth)
    (hcatches : Checking depth (analyzeCatches cfg catches) catchesJumps
      fun cs => Stmt.loopJumpsOfCatches cs depth)
    (hcleanup : Checking depth (analyzeOptional cfg cleanup) elseJumps
      fun b => Stmt.loopJumpsOfOptional b depth) :
    Checking depth (analyzeStmt cfg (.tryCatch tag body catches cleanup))
      (handed cfg (.tryCatch tag body catches cleanup)
        (tryJumps cfg body catches bodyJumps catchesJumps elseJumps)) fun y => y.loopJumps depth := by
  rw [analyzeStmt]
  refine .ifAlive hcfg rfl fun home => ⟨fun {s y t} hs h => ?_⟩
  obtain ⟨b, u, hfirst, h⟩ := (bind_eq_ok_iff ..).mp h
  obtain ⟨es, v, hsecond, h⟩ := (bind_eq_ok_iff ..).mp h
  obtain ⟨c, w, hthird, h⟩ := (bind_eq_ok_iff ..).mp h
  cases h
  have hu := hbody.inConditional.checks hs hfirst
  have hv := hcatches.checks (hu.loops.trans hs) hsecond
  simp only [tryJumps, following_eq hfirst, following_eq hsecond]
  exact hu.trans (hv.trans (hcleanup.checks (hv.loops.trans (hu.loops.trans hs)) hthird))

theorem checking_clause {span : Span} {type : String} {var : Option String} {resolved : Option String}
    (hbody : Checking depth (analyzeStmts cfg body) bodyJumps fun b => Stmt.loopJumpsOf b depth)
    (hrest : Checking depth (analyzeCatches cfg catches) catchesJumps
      fun cs => Stmt.loopJumpsOfCatches cs depth) :
    Checking depth (analyzeCatches cfg (.clause span type var body resolved :: catches))
      (clauseJumps cfg span type body bodyJumps catchesJumps) fun cs => Stmt.loopJumpsOfCatches cs depth := by
  refine ⟨fun {s cs t} hs h => ?_⟩
  rw [analyzeCatches] at h
  obtain ⟨type', u, hresolve, h⟩ := (bind_eq_ok_iff ..).mp h
  obtain ⟨b, v, hhandler, h⟩ := (bind_eq_ok_iff ..).mp h
  obtain ⟨es, w, hothers, h⟩ := (bind_eq_ok_iff ..).mp h
  cases h
  have hmute : Mute s u := by
    rw [show u = (s.resolveType cfg type span).2 from (congrArg Prod.snd hresolve).symm]
    exact mute_resolveType type span s
  have hu := hmute.loops.trans hs
  have hv := hbody.inConditional.checks hu hhandler
  simp only [clauseJumps, following_eq hresolve, following_eq hhandler]
  exact .before hmute (hv.trans (hrest.checks (hv.loops.trans hu) hothers))

/-- The loops around a function do not count in it, and are there again behind it. -/
theorem checking_function {head : FunctionHead} {dead : Bool} (hcfg : cfg.registry = .standard)
    (hbody : Checking 0 (analyzeStmts cfg body) bodyJumps fun b => Stmt.loopJumpsOf b 0) :
    Checking depth (analyzeStmt cfg (.function tag head body dead))
      (handed cfg (.function tag head body dead) fun s => bodyJumps (s.enterRoutine head.byRef))
      fun y => y.loopJumps depth := by
  rw [analyzeStmt]
  refine .ifAlive hcfg rfl fun home => ⟨fun {s y t} hs h => ?_⟩
  obtain ⟨dead', _, hpeek, h⟩ := (bind_eq_ok_iff ..).mp h
  cases hpeek
  obtain ⟨_, _, henter, h⟩ := (bind_eq_ok_iff ..).mp h
  cases henter
  obtain ⟨out, v, hensuring, h⟩ := (bind_eq_ok_iff ..).mp h
  obtain ⟨hout, rfl⟩ := Prod.mk.inj hensuring
  cases h
  obtain ⟨w, hw⟩ : ∃ w, w = (analyzeStmts cfg body (s.enterRoutine head.byRef)).2 := ⟨_, rfl⟩
  have hrun : analyzeStmts cfg body (s.enterRoutine head.byRef) = (.ok out, w) := Prod.ext hout hw.symm
  have hchecks := hbody.checks (s := s.enterRoutine head.byRef) rfl hrun
  rw [← hw, leaveRoutine_of_enclosing (enclosing_analyzeStmts body hrun)]
  exact ⟨rfl, (mute_reportUndefined w).reported.trans hchecks.reported, hchecks.left⟩

end Constructs

/-! ## All statements -/

mutual

/-- **The analysis of a statement checks the level of every jump that it comes to, once.** -/
theorem checking_analyzeStmt (hcfg : cfg.registry = .standard) : ∀ (x : Stmt) (depth : Nat),
    Checking depth (analyzeStmt cfg x) (checkedJumps cfg x depth) fun y => y.loopJumps depth
  | .block tag body, depth => by
    rw [checkedJumps]
    exact checking_block hcfg (checking_analyzeStmts hcfg body depth)
  | .branch tag condition thenBody elseBody, depth => by
    rw [checkedJumps]
    exact checking_branch hcfg (checking_analyzeStmts hcfg thenBody depth)
      (checking_analyzeOptional hcfg elseBody depth)
      fun entry => checking_analyzeElse hcfg entry elseBody depth
  | .loop tag condition body, depth => by
    rw [checkedJumps]
    exact checking_loop hcfg (checking_analyzeStmts hcfg body (depth + 1))
  | .jump tag kind expr, depth => by
    rw [analyzeStmt, checkedJumps]
    exact .ifAlive hcfg rfl fun _ => checking_analyzeJump tag kind expr
  | .tryCatch tag body catches cleanup, depth => by
    rw [checkedJumps]
    exact checking_tryCatch hcfg (checking_analyzeStmts hcfg body depth)
      (checking_analyzeCatches hcfg catches depth) (checking_analyzeOptional hcfg cleanup depth)
  | .function tag head body dead, depth => by
    rw [checkedJumps]
    exact checking_function hcfg (checking_analyzeStmts hcfg body 0)
  | .label tag name, depth => by
    rw [analyzeStmt, checkedJumps]
    refine checking_mute hcfg fun home u y t hrun => ?_
    obtain ⟨ht, rfl⟩ := mute_analyzeLabel hrun
    exact ⟨ht, fun _ => rfl⟩
  | .expression tag e, depth => by
    rw [analyzeStmt, checkedJumps]
    exact checking_mute hcfg fun _ _ _ _ hrun => mute_analyzeExpression hrun
  | .constDecl tag name value, depth => by
    rw [analyzeStmt, checkedJumps]
    exact checking_mute hcfg fun _ _ _ _ hrun => mute_analyzeConstDecl hrun
  | .echo tag es, depth => by
    rw [analyzeStmt, checkedJumps]
    refine checking_mute hcfg fun home u y t hrun => ?_
    obtain ⟨es', v, hes, hrun⟩ := (bind_eq_ok_iff ..).mp hrun
    cases hrun
    exact ⟨mute_analyzeAll hes, fun _ => rfl⟩
  | .unset tag es, depth => by
    rw [analyzeStmt, checkedJumps]
    refine checking_mute hcfg fun home u y t hrun => ?_
    obtain ⟨es', v, hes, hrun⟩ := (bind_eq_ok_iff ..).mp hrun
    cases hrun
    exact ⟨mute_analyzeAll hes, fun _ => rfl⟩
  | .throw tag e, depth => by
    rw [analyzeStmt, checkedJumps]
    refine checking_mute hcfg fun home u y t hrun => ?_
    obtain ⟨e', v, hkept, hrun⟩ := (bind_eq_ok_iff ..).mp hrun
    cases hrun
    exact ⟨(mute_kept hkept).trans (mute_enterUnreachable v), fun _ => rfl⟩
  | .goto tag name, depth => by
    rw [analyzeStmt, checkedJumps]
    refine checking_mute hcfg fun home u y t hrun => ?_
    cases hrun
    exact ⟨(mute_gotoLabel name tag.span u).trans (mute_enterUnreachable _), fun _ => rfl⟩
  | .empty tag kind, depth => by
    rw [analyzeStmt, checkedJumps]
    refine checking_mute hcfg fun home u y t hrun => ?_
    cases hrun
    exact ⟨.refl u, fun _ => rfl⟩
termination_by structural x => x

/-- **The analysis of statements checks the level of every jump that it comes to, once.** -/
theorem checking_analyzeStmts (hcfg : cfg.registry = .standard) : ∀ (body : List Stmt) (depth : Nat),
    Checking depth (analyzeStmts cfg body) (checkedJumpsOf cfg body depth)
      fun b => Stmt.loopJumpsOf b depth
  | [], depth => by
    refine ⟨fun {s b t} _ h => ?_⟩
    cases h
    exact .of_mute (.refl s)
  | x :: rest, depth => by
    refine ⟨fun {s b t} hs h => ?_⟩
    rw [analyzeStmts] at h
    obtain ⟨y, u, hx, h⟩ := (bind_eq_ok_iff ..).mp h
    obtain ⟨ys, v, hrest, h⟩ := (bind_eq_ok_iff ..).mp h
    cases h
    have hu := (checking_analyzeStmt hcfg x depth).checks hs hx
    simp only [checkedJumpsOf, following_eq hx]
    exact hu.trans ((checking_analyzeStmts hcfg rest depth).checks (hu.loops.trans hs) hrest)
termination_by structural body => body

theorem checking_analyzeOptional (hcfg : cfg.registry = .standard) : ∀ (part : Option (List Stmt))
    (depth : Nat), Checking depth (analyzeOptional cfg part) (checkedJumpsOfOptional cfg part depth)
      fun b => Stmt.loopJumpsOfOptional b depth
  | none, depth => by
    refine ⟨fun {s b t} _ h => ?_⟩
    cases h
    exact .of_mute (.refl s)
  | some body, depth => by
    refine ⟨fun {s b t} hs h => ?_⟩
    rw [analyzeOptional] at h
    obtain ⟨out, u, hbody, h⟩ := (bind_eq_ok_iff ..).mp h
    cases h
    exact (checking_analyzeStmts hcfg body depth).checks hs hbody
termination_by structural part => part

theorem checking_analyzeElse (hcfg : cfg.registry = .standard) (entry : Reachability) :
    ∀ (part : Option (List Stmt)) (depth : Nat), Checking depth (analyzeElse cfg entry part)
      (fun s => checkedJumpsOfOptional cfg part depth (s.restore entry).enterConditional)
      fun b => Stmt.loopJumpsOfOptional b depth
  | none, depth => by
    refine ⟨fun {s b t} _ h => ?_⟩
    cases h
    exact .of_mute (.refl s)
  | some body, depth => by
    refine ⟨fun {s b t} hs h => ?_⟩
    rw [analyzeElse] at h
    obtain ⟨_, _, hrestore, h⟩ := (bind_eq_ok_iff ..).mp h
    cases hrestore
    obtain ⟨out, u, hbody, h⟩ := (bind_eq_ok_iff ..).mp h
    cases h
    have hchecks := (checking_analyzeStmts hcfg body depth).inConditional.checks
      (s := s.restore entry) hs hbody
    exact .before (t := s.restore entry) ⟨rfl, rfl⟩ hchecks
termination_by structural part => part

theorem checking_analyzeCatches (hcfg : cfg.registry = .standard) :
    ∀ (catches : List Catch) (depth : Nat), Checking depth (analyzeCatches cfg catches)
      (checkedJumpsOfCatches cfg catches depth) fun cs => Stmt.loopJumpsOfCatches cs depth
  | [], depth => by
    refine ⟨fun {s b t} _ h => ?_⟩
    cases h
    exact .of_mute (.refl s)
  | .clause span type var handler resolved :: rest, depth => by
    rw [checkedJumpsOfCatches]
    exact checking_clause (checking_analyzeStmts hcfg handler depth) (checking_analyzeCatches hcfg rest depth)
termination_by structural catches => catches

end

end Analysis
end PhpLowering
