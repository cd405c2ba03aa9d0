import Mathlib.Data.List.Induction
import PhpLowering.Proofs.Analysis.Revival
import PhpLowering.Proofs.Analysis.Stmt
import PhpLowering.Proofs.Analysis.Turns

/-!
# Dead code in a list of statements

A list of statements is flat if none of them holds other statements.  What the analysis makes of such a list can be
read off the list: a statement is dead behind a jump, a `throw` or a `goto` if there is no label in between
(`DeadBehind`), and a label divides the list into stretches, of which each has one dead region at most (`deadRegion`).

The analysis has two flags for that, one that says whether the next statement is dead and one that says whether that has
been reported.  `Reachability.past` is how a statement changes the flags, and it does not depend on anything else
(`passes_analyzeStmt`).  So **`deadCode_of_flat`** is a statement about lists: which statements are left out, how
functions are marked, and what is reported.
-/

namespace PhpLowering

namespace Stmt

/-- A statement that holds no other statements, and no declaration of a constant. -/
def isFlat : Stmt → Bool
  | .jump .. | .throw .. | .goto .. | .label .. | .echo .. | .expression .. | .unset .. | .empty .. => true
  | .function _ _ body _ => body.isEmpty
  | .block .. | .branch .. | .loop .. | .tryCatch .. | .constDecl .. => false

/-- What is behind the statement is not come to from it. -/
def diverts : Stmt → Bool
  | .jump .. | .throw .. | .goto .. => true
  | _ => false

/-- Where it is dead, the statement is left out. -/
def isReplaceable (x : Stmt) : Bool :=
  !x.isLabel && !x.isEmpty && !x.isDeclaration

/-- A statement has become an empty one, as dead code does. -/
def BecomesUnreachable (x y : Stmt) : Prop :=
  (∃ id, y = .empty ⟨id, x.span⟩ .unreachable) ∧ y ≠ x

end Stmt

namespace Analysis

open Pass (bind_eq_ok_iff)

/-! ## Lists -/

/-- Some jump, `throw` or `goto` in the list has no label behind it. -/
def DeadBehind (xs : List Stmt) : Prop :=
  ∃ before d after, xs = before ++ d :: after ∧ d.diverts = true ∧ ∀ x ∈ after, x.isLabel = false

/-- What is behind the first jump, `throw` or `goto`. -/
def deadRegion (stretch : List Stmt) : List Stmt :=
  (stretch.dropWhile (!·.diverts)).tail

/-- What is reported of dead code: its first statement that is left out, in every stretch between labels. -/
def deadCodeReports (xs : List Stmt) : List Diagnostic :=
  (xs.splitOnP Stmt.isLabel).filterMap fun stretch =>
    ((deadRegion stretch).find? Stmt.isReplaceable).map fun x => ⟨.unreachableCode, x.span⟩

/-- How a statement changes the flags for dead code. -/
def Reachability.past (r : Reachability) (x : Stmt) : Reachability :=
  if x.isLabel then {}
  else if r.unreachable then if x.isReplaceable then ⟨true, true⟩ else r
  else if x.diverts then ⟨true, false⟩ else {}

/-- What is reported of dead code at a statement. -/
def Reachability.reportsAt (r : Reachability) (x : Stmt) : List Diagnostic :=
  if r.unreachable && x.isReplaceable && !r.reported then [⟨.unreachableCode, x.span⟩] else []

/-- What is reported of dead code in a list, with the flags given. -/
def reportsFrom : Reachability → List Stmt → List Diagnostic
  | _, [] => []
  | r, x :: rest => r.reportsAt x ++ reportsFrom (r.past x) rest

variable {x y : Stmt} {xs before after : List Stmt} {r : Reachability}

theorem not_diverts_of_isLabel (h : x.isLabel = true) : x.diverts = false := by
  cases x <;> first | rfl | exact nomatch h

theorem not_isReplaceable_of_isLabel (h : x.isLabel = true) : x.isReplaceable = false := by
  rw [Stmt.isReplaceable, h]
  rfl

theorem deadBehind_concat : DeadBehind (xs ++ [x]) ↔ x.isLabel = false ∧ (x.diverts = true ∨ DeadBehind xs) := by
  constructor
  · rintro ⟨before, d, after, heq, hd, hafter⟩
    rcases List.eq_nil_or_concat after with rfl | ⟨after, last, rfl⟩
    · obtain ⟨-, hlast⟩ := List.append_inj' heq rfl
      obtain rfl := List.singleton_inj.mp hlast
      refine ⟨Bool.eq_false_iff.mpr fun hlabel => ?_, Or.inl hd⟩
      exact nomatch hd.symm.trans (not_diverts_of_isLabel hlabel)
    · rw [List.concat_eq_append, ← List.cons_append, ← List.append_assoc] at heq
      rw [List.concat_eq_append] at hafter
      obtain ⟨rfl, hlast⟩ := List.append_inj' heq rfl
      obtain rfl := List.singleton_inj.mp hlast
      exact ⟨hafter x (by simp), Or.inr ⟨before, d, after, rfl, hd, fun y hy => hafter y (by simp [hy])⟩⟩
  · rintro ⟨hlabel, hd | ⟨before, d, after, rfl, hd, hafter⟩⟩
    · exact ⟨xs, x, [], rfl, hd, nofun⟩
    · refine ⟨before, d, after ++ [x], by simp, hd, fun y hy => ?_⟩
      rcases List.mem_append.mp hy with hy | hy
      · exact hafter y hy
      · exact List.mem_singleton.mp hy ▸ hlabel

/-! ## The flags -/

theorem past_of_isLabel (h : x.isLabel = true) (r : Reachability) : r.past x = {} :=
  if_pos h

theorem past_of_dead (hlabel : x.isLabel = false) (hdead : r.unreachable = true) :
    r.past x = if x.isReplaceable then ⟨true, true⟩ else r := by
  rw [Reachability.past, if_neg (Bool.eq_false_iff.mp hlabel), if_pos hdead]

theorem past_of_alive (hlabel : x.isLabel = false) (halive : r.unreachable = false) :
    r.past x = if x.diverts then ⟨true, false⟩ else {} := by
  rw [Reachability.past, if_neg (Bool.eq_false_iff.mp hlabel), if_neg (Bool.eq_false_iff.mp halive)]

/-- **The first flag says whether the code is dead.** -/
theorem unreachable_foldl_past : (xs.foldl Reachability.past {}).unreachable = true ↔ DeadBehind xs := by
  induction xs using List.reverseRecOn with
  | nil =>
    refine iff_of_false nofun ?_
    rintro ⟨before, d, after, heq, -⟩
    exact absurd heq.symm (by simp)
  | append_singleton xs x ih =>
    rw [List.foldl_append, deadBehind_concat, ← ih, List.foldl_cons, List.foldl_nil]
    generalize xs.foldl Reachability.past {} = r
    cases hlabel : x.isLabel with
    | true => simp [past_of_isLabel hlabel]
    | false =>
      cases hdead : r.unreachable with
      | true =>
        rw [past_of_dead hlabel hdead]
        split <;> simp [hdead]
      | false =>
        rw [past_of_alive hlabel hdead]
        split <;> simp [*]

/-- What is reported in a stretch, with the flags given in front of it. -/
def reportOfStretch (r : Reachability) (stretch : List Stmt) : Option Diagnostic :=
  if r.unreachable && r.reported then none
  else
    ((if r.unreachable then stretch else deadRegion stretch).find? Stmt.isReplaceable).map fun x =>
      ⟨.unreachableCode, x.span⟩

theorem reportOfStretch_nil (r : Reachability) : reportOfStretch r [] = none := by
  unfold reportOfStretch deadRegion
  split
  · rfl
  · split <;> rfl

theorem deadRegion_cons (x : Stmt) (stretch : List Stmt) :
    deadRegion (x :: stretch) = if x.diverts then stretch else deadRegion stretch := by
  unfold deadRegion
  cases h : x.diverts with
  | true => rw [List.dropWhile_cons_of_neg (by simp [h])]; rfl
  | false => rw [List.dropWhile_cons_of_pos (by simp [h])]; rfl

/-- The report of a stretch is made at its first statement or behind it. -/
theorem reportOfStretch_cons (hlabel : x.isLabel = false) (r : Reachability) (stretch : List Stmt) :
    (reportOfStretch r (x :: stretch)).toList = r.reportsAt x ++ (reportOfStretch (r.past x) stretch).toList := by
  cases hdead : r.unreachable with
  | true =>
    rw [past_of_dead hlabel hdead]
    cases hreported : r.reported with
    | true => cases hx : x.isReplaceable <;> simp [reportOfStretch, Reachability.reportsAt, hdead, hreported]
    | false => cases hx : x.isReplaceable <;> simp [reportOfStretch, Reachability.reportsAt, hdead, hreported, hx]
  | false =>
    rw [past_of_alive hlabel hdead]
    cases hx : x.diverts <;> simp [reportOfStretch, Reachability.reportsAt, hdead, deadRegion_cons, hx]

/-- The reports of a list, stretch by stretch. -/
theorem reportsFrom_of_splitOnP {rest : List (List Stmt)} {stretch : List Stmt} (r : Reachability)
    (h : xs.splitOnP Stmt.isLabel = stretch :: rest) :
    reportsFrom r xs = (reportOfStretch r stretch).toList ++ rest.filterMap (reportOfStretch {}) := by
  induction xs generalizing r stretch rest with
  | nil =>
    rw [List.splitOnP_nil] at h
    cases h
    rw [reportOfStretch_nil]
    rfl
  | cons x xs ih =>
    obtain ⟨first, others, hsplit⟩ := List.exists_cons_of_ne_nil (List.splitOnP_ne_nil Stmt.isLabel xs)
    rw [List.splitOnP_cons_eq_if_modifyHead, hsplit] at h
    rw [reportsFrom]
    cases hlabel : x.isLabel with
    | true =>
      rw [hlabel, if_pos rfl] at h
      cases h
      have hnone : r.reportsAt x = [] := by simp [Reachability.reportsAt, not_isReplaceable_of_isLabel hlabel]
      rw [past_of_isLabel hlabel, ih {} hsplit, hnone, reportOfStretch_nil, List.filterMap_cons]
      cases reportOfStretch {} first <;> rfl
    | false =>
      rw [hlabel, if_neg nofun] at h
      cases h
      rw [reportOfStretch_cons hlabel, ih (r.past x) hsplit, List.append_assoc]

/-- **In every stretch dead code is reported once**, at the first statement that is left out. -/
theorem reportsFrom_eq (xs : List Stmt) : reportsFrom {} xs = deadCodeReports xs := by
  obtain ⟨stretch, rest, hsplit⟩ := List.exists_cons_of_ne_nil (List.splitOnP_ne_nil Stmt.isLabel xs)
  have hreport : reportOfStretch {} = fun stretch =>
      ((deadRegion stretch).find? Stmt.isReplaceable).map fun x => ⟨.unreachableCode, x.span⟩ := rfl
  rw [reportsFrom_of_splitOnP {} hsplit, deadCodeReports, hsplit, ← hreport, List.filterMap_cons]
  cases reportOfStretch {} stretch <;> rfl

/-! ## Steps that leave the flags alone -/

variable {α : Type} {cfg : Setting} {s t u : State}

/-- The reports of dead code. -/
def State.deadReports (s : State) : Array Diagnostic :=
  s.diagnostics.filter (·.problem = .unreachableCode)

theorem deadReports_report {p : Problem} (h : p ≠ .unreachableCode) (span : Span) (s : State) :
    (s.report p span).deadReports = s.deadReports := by
  unfold State.deadReports State.report
  rw [Array.filter_push, if_neg (by simpa using h)]

theorem deadReports_report_unreachableCode (span : Span) (s : State) :
    (s.report .unreachableCode span).deadReports = s.deadReports.push ⟨.unreachableCode, span⟩ := by
  unfold State.deadReports State.report
  rw [Array.filter_push, if_pos (by simp)]

/-- Dead code is not reported, and code that can be reached still can be. -/
structure Undisturbed (s t : State) : Prop where
  reports : t.deadReports = s.deadReports
  alive : s.reachability = {} → t.reachability = {}

theorem Undisturbed.trans (h : Undisturbed s t) (h' : Undisturbed t u) : Undisturbed s u :=
  ⟨h'.reports.trans h.reports, fun hs => h'.alive (h.alive hs)⟩

/-- Steps that do not touch the flow of control, and report nothing. -/
theorem Undisturbed.of_eq (hflow : t.flow = s.flow) (hdiagnostics : t.diagnostics = s.diagnostics) : Undisturbed s t where
  reports := congrArg (Array.filter _) hdiagnostics
  alive hs := (congrArg Flow.reachability hflow).trans hs

theorem undisturbed_report {p : Problem} (h : p ≠ .unreachableCode) (span : Span) (s : State) : Undisturbed s (s.report p span) :=
  ⟨deadReports_report h span s, id⟩

instance : Frame Undisturbed where
  refl _ := .of_eq rfl rfl
  trans _ _ _ := .trans
  alike h := .of_eq h.flow h.diagnostics
  warn span s _ hp := undisturbed_report hp span s
  conditional h := ⟨h.reports, fun _ => rfl⟩

theorem Relates.of_run {R : State → State → Prop} {x : Analyze α} {a : α} (h : Relates R x)
    (hrun : x s = (.ok a, t)) : R s t := by
  have ht := h.run s
  rwa [hrun] at ht

theorem undisturbed_checkLevel (level : Option Expr) (span : Span) (s : State) : Undisturbed s (checkLevel level span s) := by
  unfold checkLevel
  dsimp only
  cases staticLevel? level <;> dsimp only <;> split
  all_goals first | exact .of_eq rfl rfl | exact undisturbed_report Problem.noConfusion _ s

theorem undisturbed_labelEntry (name : String) (firstGoto : Option Span) (s : State) :
    Undisturbed s (s.labelEntry name firstGoto).2 := by
  unfold State.labelEntry
  split <;> exact .of_eq rfl rfl

theorem undisturbed_gotoLabel (name : String) (span : Span) (s : State) : Undisturbed s (s.gotoLabel name span) :=
  (undisturbed_labelEntry name (some span) s).trans (.of_eq rfl rfl)

theorem undisturbed_defineLabel (name : String) (span : Span) (s : State) : Undisturbed s (s.defineLabel name span).2 := by
  have hentry := undisturbed_labelEntry name none s
  have hagain (u : State) := undisturbed_report (p := .labelRedeclared name) Problem.noConfusion span u
  unfold State.defineLabel
  dsimp only
  split
  · exact hentry.trans ((hagain _).trans (undisturbed_report Problem.noConfusion _ _))
  · exact hentry.trans (.of_eq rfl rfl)

theorem reachability_enterUnreachable (h : s.reachability = {}) : s.enterUnreachable.reachability = ⟨true, false⟩ := by
  have halive : s.unreachable = false := congrArg Reachability.unreachable h
  rw [State.enterUnreachable, if_neg (Bool.eq_false_iff.mp halive)]
  rfl

theorem deadReports_enterUnreachable (s : State) : s.enterUnreachable.deadReports = s.deadReports := by
  unfold State.enterUnreachable
  split <;> rfl

/-! ## One statement -/

/-- With the standard registry a statement is handled by the rule made for its kind. -/
theorem exists_byStmtRule (hcfg : cfg.registry = .standard) (hs : s.table.Regular) (x : Stmt)
    (analyzed : Home StmtKind → Analyze Stmt) :
    ∃ table, byStmtRule cfg x analyzed s = analyzed (RuleTable.stmtHome x.kind x.id) { s with table } := by
  obtain ⟨table, hrun, -⟩ := RuleTable.exists_stmt hs x.kind x.id
  have htable : onTable (RuleTable.stmt .standard x.kind x.id) s =
      (.ok ⟨x.kind, RuleTable.stmtHome x.kind x.id⟩, { s with table }) := by
    unfold onTable
    dsimp only
    rw [hrun]
  refine ⟨table, ?_⟩
  rw [byStmtRule, hcfg, Pass.bind_apply, htable]
  exact congrFun (if_pos rfl) _

/-- What a statement does to the flags, what is reported at it, and what becomes of it. -/
structure Passes (x : Stmt) (s : State) (y : Stmt) (t : State) : Prop where
  reachability : t.reachability = s.reachability.past x
  reports : t.deadReports = s.deadReports ++ (s.reachability.reportsAt x).toArray
  leftOut : s.unreachable = true → x.isReplaceable = true → ∃ id, y = .empty ⟨id, x.span⟩ .unreachable
  kept : ¬ (s.unreachable = true ∧ x.isReplaceable = true) → y.isUnreachable = true → y = x
  function : ∀ tag head body flag, x = .function tag head body flag → y = .function tag head [] s.unreachable

section

variable {tag : StmtTag} {analyzed : Home StmtKind → Analyze Stmt}

/-- The flags are set only where the code is dead. -/
def Truthful (r : Reachability) : Prop :=
  r.unreachable = false → r = {}

theorem truthful_past (h : Truthful r) (x : Stmt) : Truthful (r.past x) := by
  unfold Reachability.past
  split
  · exact fun _ => rfl
  · split
    · split
      · exact nofun
      · exact h
    · split
      · exact nofun
      · exact fun _ => rfl

theorem reportsAt_of_alive (h : r.unreachable = false) (x : Stmt) : r.reportsAt x = [] := by
  simp [Reachability.reportsAt, h]

theorem reportsAt_of_kept (h : x.isReplaceable = false) (r : Reachability) : r.reportsAt x = [] := by
  simp [Reachability.reportsAt, h]

/-- A statement that can be reached and does not divert. -/
theorem Passes.of_stays (halive : s.reachability = {}) (hlabel : x.isLabel = false) (hdiverts : x.diverts = false)
    (hdecl : x.isDeclaration = false) (h : Undisturbed s t) (hy : y.isUnreachable = false) : Passes x s y t where
  reachability := by
    rw [h.alive halive, halive, past_of_alive hlabel rfl, hdiverts]
    rfl
  reports := by rw [h.reports, halive, reportsAt_of_alive rfl, Array.append_empty]
  leftOut hdead := nomatch hdead.symm.trans (congrArg Reachability.unreachable halive)
  kept _ hempty := nomatch hempty.symm.trans hy
  function tag head body flag heq := by
    subst heq
    exact nomatch hdecl

/-- A statement that can be reached and diverts. -/
theorem Passes.of_diverts (halive : s.reachability = {}) (hdiverts : x.diverts = true) (h : Undisturbed s u)
    (hy : y.isUnreachable = false) : Passes x s y u.enterUnreachable where
  reachability := by
    have hlabel : x.isLabel = false := by
      by_contra hlabel
      exact nomatch hdiverts.symm.trans (not_diverts_of_isLabel (Bool.not_eq_false _ ▸ hlabel))
    rw [reachability_enterUnreachable (h.alive halive), halive, past_of_alive hlabel rfl, hdiverts]
    rfl
  reports := by
    rw [deadReports_enterUnreachable, h.reports, halive, reportsAt_of_alive rfl, Array.append_empty]
  leftOut hdead := nomatch hdead.symm.trans (congrArg Reachability.unreachable halive)
  kept _ hempty := nomatch hempty.symm.trans hy
  function tag head body flag heq := by
    subst heq
    exact nomatch hdiverts

/-- A statement that is harmless in dead code, and does nothing to the flags. -/
theorem Passes.of_kept (htruthful : Truthful s.reachability) (hlabel : x.isLabel = false) (hkept : x.isReplaceable = false)
    (hdiverts : x.diverts = false) (hreachability : t.reachability = s.reachability)
    (hreports : t.deadReports = s.deadReports) (hy : y.isUnreachable = true → y = x)
    (hfunction : ∀ tag head body flag, x = .function tag head body flag → y = .function tag head [] s.unreachable) :
    Passes x s y t where
  reachability := by
    rw [hreachability]
    cases hdead : s.reachability.unreachable with
    | true => rw [past_of_dead hlabel hdead, hkept]; rfl
    | false => rw [past_of_alive hlabel hdead, hdiverts]; exact htruthful hdead
  reports := by rw [hreports, reportsAt_of_kept hkept, Array.append_empty]
  leftOut _ hx := nomatch hx.symm.trans hkept
  kept _ := hy
  function := hfunction

theorem reportUnreachable_of_reported (h : s.reachability.reported = true) (options : Options) (span : Span) :
    s.reportUnreachable options span = s :=
  if_pos h

theorem reportUnreachable_of_new (h : s.reachability.reported = false) {options : Options}
    (hreport : options.reportUnreachable = true) (span : Span) :
    s.reportUnreachable options span =
      (s.restore { s.reachability with reported := true }).report .unreachableCode span := by
  have hnew : ¬ s.flow.reachability.reported = true := Bool.eq_false_iff.mp h
  rw [State.reportUnreachable, if_neg hnew]
  exact if_pos hreport

/-- A dead statement is left out. -/
theorem passes_leftOut (hreport : cfg.options.reportUnreachable = true) (hlabel : x.isLabel = false)
    (hdead : s.unreachable = true) (hx : x.isReplaceable = true)
    (h : emptyStmt x.span .unreachable (s.reportUnreachable cfg.options x.span) = (.ok y, t)) : Passes x s y t := by
  have hflags : s.reachability.unreachable = true := hdead
  have hafter : (s.reportUnreachable cfg.options x.span).reachability = ⟨true, true⟩ ∧
      (s.reportUnreachable cfg.options x.span).deadReports =
        s.deadReports ++ (s.reachability.reportsAt x).toArray := by
    cases hreported : s.reachability.reported with
    | true =>
      rw [reportUnreachable_of_reported hreported]
      refine ⟨?_, by simp [Reachability.reportsAt, hreported]⟩
      show (⟨s.reachability.unreachable, s.reachability.reported⟩ : Reachability) = ⟨true, true⟩
      rw [hflags, hreported]
    | false =>
      rw [reportUnreachable_of_new hreported hreport, deadReports_report_unreachableCode]
      refine ⟨congrArg (fun dead => (⟨dead, true⟩ : Reachability)) hflags, ?_⟩
      have hreports : s.reachability.reportsAt x = [⟨.unreachableCode, x.span⟩] := by
        simp [Reachability.reportsAt, hreported, hflags, hx]
      rw [hreports, Array.push_eq_append]
      rfl
  cases h
  exact
    { reachability := by rw [past_of_dead hlabel hflags, hx, if_pos rfl]; exact hafter.1
      reports := hafter.2
      leftOut := fun _ _ => ⟨_, rfl⟩
      kept := fun hkept => absurd ⟨hdead, hx⟩ hkept
      function := fun tag head body flag heq => by subst heq; exact nomatch hx }

/-- A label ends dead code. -/
theorem passes_label {name : String} {home : Home StmtKind} (hflow : u.flow.reachability = {})
    (hreports : u.deadReports = s.deadReports) (h : analyzeLabel tag name home u = (.ok y, t)) :
    Passes (.label tag name) s y t := by
  have hstays : Undisturbed u t ∧ y = .label tag name := by
    obtain ⟨cell, v, hdefine, h⟩ := (bind_eq_ok_iff ..).mp h
    have hv : v = (u.defineLabel name tag.span).2 := (congrArg Prod.snd hdefine).symm
    have hdefined : Undisturbed u v := hv ▸ undisturbed_defineLabel name tag.span u
    cases cell with
    | none =>
      cases h
      exact ⟨hdefined, rfl⟩
    | some cell =>
      cases h
      exact ⟨hdefined.trans (.of_eq rfl rfl), rfl⟩
  obtain ⟨hstays, rfl⟩ := hstays
  exact
    { reachability := hstays.alive hflow
      reports := by rw [hstays.reports, hreports, reportsAt_of_kept rfl, Array.append_empty]
      leftOut := fun _ => nofun
      kept := fun _ => nofun
      function := nofun }

/-- The expression of a jump is analysed, and nothing behind the jump runs. -/
theorem undisturbed_jump {kind : JumpKind} {expr : Option Expr} (h : analyzeJump cfg tag kind expr s = (.ok y, t)) :
    ∃ e u, y = .jump tag kind e ∧ Undisturbed s u ∧ t = u.enterUnreachable := by
  have hend {e : Option Expr} {u : State} (hu : Undisturbed s u)
      (hrest : (do
        if kind ≠ .return then Pass.update (checkLevel e tag.span)
        Pass.update State.enterUnreachable
        return .jump tag kind e : Analyze Stmt) u = (.ok y, t)) :
      ∃ e u, y = .jump tag kind e ∧ Undisturbed s u ∧ t = u.enterUnreachable := by
    split at hrest
    · cases hrest
      exact ⟨e, _, rfl, hu.trans (undisturbed_checkLevel e tag.span u), rfl⟩
    · cases hrest
      exact ⟨e, u, rfl, hu, rfl⟩
  cases expr with
  | none => exact hend (.of_eq rfl rfl) h
  | some e =>
    obtain ⟨returnsRef, _, hpeek, h⟩ := (bind_eq_ok_iff ..).mp h
    cases hpeek
    obtain ⟨node, v, hkept, h⟩ := (bind_eq_ok_iff ..).mp h
    have he := relates_analyze (R := Undisturbed) cfg e
    exact hend (Relates.of_run inferInstance hkept) h

theorem undisturbed_expression {e : Expr} (h : analyzeExpression cfg tag e s = (.ok y, t)) :
    Undisturbed s t ∧ y.isUnreachable = false := by
  obtain ⟨ev, u, hanalyze, h⟩ := (bind_eq_ok_iff ..).mp h
  have hu : Undisturbed s u := (relates_analyze cfg e .none).of_run hanalyze
  cases ev with
  | value v node =>
    cases h
    exact ⟨hu.trans (.of_eq rfl rfl), rfl⟩
  | residual node =>
    cases h
    exact ⟨hu, rfl⟩

theorem isElidable_eq_of_isFlat (hflat : x.isFlat = true) : isElidable x = x.isReplaceable := by
  cases x <;> first | rfl | exact nomatch hflat

/-- A label is handled by its rule, and what follows can be reached. -/
theorem ifAlive_of_isLabel (hlabel : x.isLabel = true) :
    ifAlive cfg x analyzed s = byStmtRule cfg x analyzed s.leaveUnreachable := by
  rw [ifAlive, if_pos hlabel]
  rfl

/-- A statement of a list is left out where it is dead, and handled by its rule otherwise. -/
theorem ifAlive_cases (hcfg : cfg.registry = .standard) (hs : s.table.Regular) (hflat : x.isFlat = true)
    (hlabel : x.isLabel = false) (h : ifAlive cfg x analyzed s = (.ok y, t)) :
    (s.unreachable = true ∧ x.isReplaceable = true ∧
        emptyStmt x.span .unreachable (s.reportUnreachable cfg.options x.span) = (.ok y, t)) ∨
      ((x.isReplaceable = true → s.unreachable = false) ∧
        ∃ table, analyzed (RuleTable.stmtHome x.kind x.id) { s with table } = (.ok y, t)) := by
  rw [ifAlive, if_neg (Bool.eq_false_iff.mp hlabel), Pass.bind_apply, Pass.peek_apply] at h
  dsimp only at h
  rw [isElidable_eq_of_isFlat hflat] at h
  cases hout : s.unreachable && x.isReplaceable with
  | true =>
    rw [hout, if_pos rfl] at h
    obtain ⟨hdead, hx⟩ := Bool.and_eq_true_iff.mp hout
    exact Or.inl ⟨hdead, hx, h⟩
  | false =>
    rw [hout, if_neg Bool.false_ne_true] at h
    obtain ⟨table, hrule⟩ := exists_byStmtRule hcfg hs x analyzed
    refine Or.inr ⟨fun hx => ?_, table, hrule ▸ h⟩
    rwa [hx, Bool.and_true] at hout

/-- **How a statement passes.** -/
theorem passes_analyzeStmt (hcfg : cfg.registry = .standard) (hreport : cfg.options.reportUnreachable = true)
    (hs : s.table.Regular) (htruthful : Truthful s.reachability) (hflat : x.isFlat = true)
    (h : analyzeStmt cfg x s = (.ok y, t)) : Passes x s y t := by
  -- A statement that is left out where it is dead is only handed to its rule where it can be reached.
  have hrule {analyzed} (hx : x.isReplaceable = true) (hstmt : analyzeStmt cfg x = ifAlive cfg x analyzed)
      (hlabel : x.isLabel = false) (hpasses : ∀ u, s.reachability = {} → Undisturbed s u →
        analyzed (RuleTable.stmtHome x.kind x.id) u = (.ok y, t) → Passes x s y t) :
      Passes x s y t := by
    rw [hstmt] at h
    rcases ifAlive_cases hcfg hs hflat hlabel h with ⟨hdead, hx, hout⟩ | ⟨halive, table, hrun⟩
    · exact passes_leftOut hreport hlabel hdead hx hout
    · exact hpasses { s with table } (htruthful (halive hx)) (.of_eq rfl rfl) hrun
  cases x with
  | block | branch | loop | tryCatch | constDecl => exact nomatch hflat
  | expression tag e =>
    refine hrule rfl (by rw [analyzeStmt]) rfl fun u halive hu hrun => ?_
    obtain ⟨hstays, hy⟩ := undisturbed_expression hrun
    exact .of_stays halive rfl rfl rfl (hu.trans hstays) hy
  | echo tag es =>
    refine hrule rfl (by rw [analyzeStmt]) rfl fun u halive hu hrun => ?_
    obtain ⟨es', v, hall, hrun⟩ := (bind_eq_ok_iff ..).mp hrun
    cases hrun
    exact .of_stays halive rfl rfl rfl (hu.trans ((relates_analyzeAll cfg .read es).of_run hall)) rfl
  | unset tag es =>
    refine hrule rfl (by rw [analyzeStmt]) rfl fun u halive hu hrun => ?_
    obtain ⟨es', v, hall, hrun⟩ := (bind_eq_ok_iff ..).mp hrun
    cases hrun
    exact .of_stays halive rfl rfl rfl (hu.trans ((relates_analyzeAll cfg .write es).of_run hall)) rfl
  | jump tag kind e =>
    refine hrule rfl (by rw [analyzeStmt]) rfl fun u halive hu hrun => ?_
    obtain ⟨e', v, rfl, hstays, rfl⟩ := undisturbed_jump hrun
    exact .of_diverts halive rfl (hu.trans hstays) rfl
  | throw tag e =>
    refine hrule rfl (by rw [analyzeStmt]) rfl fun u halive hu hrun => ?_
    obtain ⟨e', v, hkept, hrun⟩ := (bind_eq_ok_iff ..).mp hrun
    have he := relates_analyze (R := Undisturbed) cfg e
    cases hrun
    exact .of_diverts halive rfl (hu.trans (Relates.of_run inferInstance hkept)) rfl
  | goto tag name =>
    refine hrule rfl (by rw [analyzeStmt]) rfl fun u halive hu hrun => ?_
    cases hrun
    exact .of_diverts halive rfl (hu.trans (undisturbed_gotoLabel name tag.span u)) rfl
  | label tag name =>
    rw [analyzeStmt, ifAlive_of_isLabel rfl] at h
    obtain ⟨table, hrun⟩ := exists_byStmtRule (s := s.leaveUnreachable) hcfg hs (.label tag name)
      (analyzeLabel tag name)
    rw [hrun] at h
    refine passes_label ?_ ?_ h <;> rfl
  | function tag head body dead =>
    obtain rfl := List.isEmpty_iff.mp hflat
    rw [analyzeStmt] at h
    rcases ifAlive_cases hcfg hs hflat rfl h with ⟨-, hx, -⟩ | ⟨-, table, hrun⟩
    · exact nomatch hx
    · cases hrun
      refine .of_kept htruthful rfl rfl rfl rfl rfl nofun fun tag head body flag heq => ?_
      cases heq
      rfl
  | empty tag kind =>
    rw [analyzeStmt] at h
    rcases ifAlive_cases hcfg hs hflat rfl h with ⟨-, hx, -⟩ | ⟨-, table, hrun⟩
    · exact nomatch hx
    · cases hrun
      exact .of_kept htruthful rfl rfl rfl rfl rfl (fun _ => rfl) nofun

theorem isReplaceable_iff :
    x.isReplaceable = true ↔ x.isLabel = false ∧ x.isEmpty = false ∧ x.isDeclaration = false := by
  simp [Stmt.isReplaceable, and_assoc]

/-- A statement is left out if the code is dead, unless it is harmless there. -/
theorem Passes.becomesUnreachable_iff (h : Passes x s y t) : x.BecomesUnreachable y ↔
    (x.isLabel = false ∧ x.isEmpty = false ∧ x.isDeclaration = false) ∧ s.unreachable = true := by
  rw [← isReplaceable_iff]
  constructor
  · rintro ⟨⟨id, rfl⟩, hne⟩
    by_contra hkept
    exact hne (h.kept (fun hboth => hkept hboth.symm) rfl)
  · rintro ⟨hx, hdead⟩
    obtain ⟨id, rfl⟩ := h.leftOut hdead hx
    refine ⟨⟨id, rfl⟩, fun heq => ?_⟩
    rw [← heq] at hx
    exact nomatch hx

/-! ## A list of statements -/

/-- Statements pass one after another. -/
inductive PassesAll : List Stmt → State → List Stmt → State → Prop
  | nil (s : State) : PassesAll [] s [] s
  | cons {x y : Stmt} {xs ys : List Stmt} {s t u : State} (hx : Passes x s y t) (hxs : PassesAll xs t ys u) :
    PassesAll (x :: xs) s (y :: ys) u

theorem passesAll_analyzeStmts (hcfg : cfg.registry = .standard) (hreport : cfg.options.reportUnreachable = true)
    (hs : Sound s) (htruthful : Truthful s.reachability) (hflat : ∀ x ∈ xs, x.isFlat = true) :
    ∃ ys t, analyzeStmts cfg xs s = (.ok ys, t) ∧ PassesAll xs s ys t := by
  induction xs generalizing s with
  | nil => exact ⟨[], s, rfl, .nil s⟩
  | cons x xs ih =>
    obtain ⟨y, t, hx, hsettled⟩ := (settles_analyzeStmt hcfg x s hs).exists_ok
    have hpasses := passes_analyzeStmt hcfg hreport hs.table htruthful (hflat x List.mem_cons_self) hx
    have htruthful' : Truthful t.reachability := hpasses.reachability ▸ truthful_past htruthful x
    obtain ⟨ys, u, hxs, hall⟩ := ih (hsettled.advances.sound hs) htruthful' fun z hz => hflat z (List.mem_cons_of_mem x hz)
    refine ⟨y :: ys, u, ?_, .cons hpasses hall⟩
    rw [analyzeStmts, Pass.bind_apply, hx]
    dsimp only
    rw [Pass.bind_apply, hxs]
    rfl

namespace PassesAll

theorem length {ys : List Stmt} (h : PassesAll xs s ys t) : ys.length = xs.length := by
  induction h with
  | nil => rfl
  | cons _ _ ih => rw [List.length_cons, List.length_cons, ih]

theorem reports {ys : List Stmt} (h : PassesAll xs s ys t) :
    t.deadReports = s.deadReports ++ (reportsFrom s.reachability xs).toArray := by
  induction h with
  | nil s => simp [reportsFrom]
  | cons hx _ ih =>
    rw [ih, hx.reports, hx.reachability, Array.append_assoc, reportsFrom, ← List.append_toArray]

/-- In front of a statement the flags are what the statements before it have made of them. -/
theorem at_position {ys : List Stmt} (h : PassesAll xs s ys t) (heq : xs = before ++ x :: after) :
    ∃ y u v, ys[before.length]? = some y ∧ u.reachability = before.foldl Reachability.past s.reachability ∧
      Passes x u y v := by
  induction h generalizing before with
  | nil => exact absurd heq (by simp)
  | @cons z y' zs ys s t u hz hzs ih =>
    cases before with
    | nil =>
      obtain ⟨rfl, rfl⟩ := List.cons.inj heq
      exact ⟨y', s, t, rfl, rfl, hz⟩
    | cons b before =>
      obtain ⟨rfl, htail⟩ := List.cons.inj heq
      obtain ⟨y, u', v, hget, hflags, hpasses⟩ := ih htail
      exact ⟨y, u', v, hget, by rw [hflags, hz.reachability]; rfl, hpasses⟩

end PassesAll

/-- **Dead code in a list of statements, read off the list.**  A statement is left out if it is neither a label nor empty
nor the declaration of a function, and stands behind a jump without a label in between.  A function is marked as dead if
it stands there, and as not dead otherwise.  In every stretch between labels the first statement that is left out is
reported, and no other dead code is. -/
theorem deadCode_of_flat (hcfg : cfg.registry = .standard) (hreport : cfg.options.reportUnreachable = true)
    (hs : Sound s) (hstart : s.reachability = {}) (hflat : ∀ x ∈ xs, x.isFlat = true) :
    ∃ ys t, analyzeStmts cfg xs s = (.ok ys, t) ∧ ys.length = xs.length ∧
      (∀ before x after, xs = before ++ x :: after → ∃ y, ys[before.length]? = some y ∧
        (x.BecomesUnreachable y ↔
          (x.isLabel = false ∧ x.isEmpty = false ∧ x.isDeclaration = false) ∧ DeadBehind before) ∧
        ∀ tag head body flag, x = .function tag head body flag →
          ∃ dead, y = .function tag head [] dead ∧ (dead = true ↔ DeadBehind before)) ∧
      t.deadReports = s.deadReports ++ (deadCodeReports xs).toArray := by
  have htruthful : Truthful s.reachability := fun _ => hstart
  obtain ⟨ys, t, hrun, hall⟩ := passesAll_analyzeStmts hcfg hreport hs htruthful hflat
  refine ⟨ys, t, hrun, hall.length, fun before x after heq => ?_, ?_⟩
  · obtain ⟨y, u, v, hget, hflags, hpasses⟩ := hall.at_position heq
    have hdead : u.unreachable = true ↔ DeadBehind before := by
      rw [← unreachable_foldl_past, ← hstart, ← hflags]
      rfl
    rw [← hdead]
    exact ⟨y, hget, hpasses.becomesUnreachable_iff, fun tag head body flag hx =>
      ⟨_, hpasses.function tag head body flag hx, Iff.rfl⟩⟩
  · rw [hall.reports, hstart, reportsFrom_eq]

/-- A `return`, a function and two statements behind it, a label, a `goto`, and one more statement behind that. -/
def returnThenGoto : List Stmt :=
  [.jump ⟨0, ⟨0, 1⟩⟩ .return none, .function ⟨1, ⟨1, 2⟩⟩ ⟨"f", false, []⟩ [] false, .echo ⟨2, ⟨2, 3⟩⟩ [],
    .unset ⟨3, ⟨3, 4⟩⟩ [], .label ⟨4, ⟨4, 5⟩⟩ "a", .goto ⟨5, ⟨5, 6⟩⟩ "a", .echo ⟨6, ⟨6, 7⟩⟩ []]

theorem deadCode_returnThenGoto : (∀ x ∈ returnThenGoto, x.isFlat = true) ∧
    ∃ ys t, analyzeStmts {} returnThenGoto { nextId := 7 } = (.ok ys, t) ∧
      t.deadReports = #[⟨.unreachableCode, ⟨2, 3⟩⟩, ⟨.unreachableCode, ⟨6, 7⟩⟩] := by
  have hflat : ∀ x ∈ returnThenGoto, x.isFlat = true := by decide
  have hcfg : ({} : Setting).registry = .standard := rfl
  have hsound : Sound { nextId := 7 } := ⟨RuleTable.regular_empty, nofun⟩
  obtain ⟨ys, t, hrun, -, -, hreports⟩ := deadCode_of_flat hcfg rfl hsound rfl hflat
  exact ⟨hflat, ys, t, hrun, hreports⟩

end

end Analysis
end PhpLowering
