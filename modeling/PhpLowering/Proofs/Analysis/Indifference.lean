import PhpLowering.Proofs.Analysis.Accord

/-!
# Reports of dead code

The analysis writes diagnostics and never reads one.  So what it does in a state it also does in the state without
some of its diagnostics, and the two go on to differ in the same way.

Whether dead code is reported does not change what is known of it, because the state remembers in any case that the
stretch has been reported.  So an analysis that does not report dead code goes through the states of one that does,
less the reports (`accord_muted`).
-/

namespace PhpLowering

/-- All diagnostics but the reports of dead code. -/
def Diagnostic.muted (diagnostics : Array Diagnostic) : Array Diagnostic :=
  diagnostics.filter fun d => d.problem ≠ .unreachableCode

namespace Diagnostic

variable {diagnostics : Array Diagnostic} {p : Problem}

theorem muted_push (h : p ≠ .unreachableCode) (span : Span) :
    muted (diagnostics.push ⟨p, span⟩) = (muted diagnostics).push ⟨p, span⟩ := by
  unfold muted
  rw [Array.filter_push, if_pos (decide_eq_true h)]

theorem muted_push_deadCode (span : Span) : muted (diagnostics.push ⟨.unreachableCode, span⟩) = muted diagnostics := by
  unfold muted
  rw [Array.filter_push, if_neg (by simp)]

/-- Reports of dead code are no errors. -/
theorem any_isError_muted : (muted diagnostics).any isError = diagnostics.any isError := by
  rw [Bool.eq_iff_iff, Array.any_eq_true', Array.any_eq_true']
  constructor
  · rintro ⟨d, hd, herror⟩
    exact ⟨d, (Array.mem_filter.mp hd).1, herror⟩
  · rintro ⟨⟨p, span⟩, hd, herror⟩
    refine ⟨⟨p, span⟩, Array.mem_filter.mpr ⟨hd, ?_⟩, herror⟩
    cases p with
    | unreachableCode => exact nomatch herror
    | _ => rfl

end Diagnostic

namespace Analysis
namespace State

/-- A state without the reports of dead code. -/
def muted (s : State) : State :=
  { s with diagnostics := Diagnostic.muted s.diagnostics }

section Muted

variable (s : State)

theorem muted_report {p : Problem} (h : p ≠ .unreachableCode) (span : Span) :
    s.muted.report p span = (s.report p span).muted := by
  unfold muted report
  rw [Diagnostic.muted_push h]

theorem muted_labelEntry (name : String) (firstGoto : Option Span) :
    s.muted.labelEntry name firstGoto = ((s.labelEntry name firstGoto).1, (s.labelEntry name firstGoto).2.muted) := by
  unfold labelEntry
  rw [show s.muted.scope = s.scope from rfl]
  cases s.scope.labels.lookup name <;> rfl

theorem muted_gotoLabel (name : String) (span : Span) :
    s.muted.gotoLabel name span = (s.gotoLabel name span).muted := by
  unfold gotoLabel
  rw [muted_labelEntry]
  rfl

theorem muted_defineLabel (name : String) (span : Span) :
    s.muted.defineLabel name span = ((s.defineLabel name span).1, (s.defineLabel name span).2.muted) := by
  unfold defineLabel
  rw [muted_labelEntry]
  dsimp only
  cases (s.labelEntry name none).1.definedAt with
  | none => rfl
  | some earlier =>
    dsimp only
    rw [muted_report _ (p := .labelRedeclared name) nofun, muted_report _ (p := .relatedLocation) nofun]

theorem muted_reportUndefined : s.muted.reportUndefined = s.reportUndefined.muted := by
  unfold reportUndefined
  rw [show s.muted.scope = s.scope from rfl]
  generalize s.scope.labels = labels
  induction labels generalizing s with
  | nil => rfl
  | cons entry rest ih =>
    rw [List.foldl_cons, List.foldl_cons, ← ih]
    congr 1
    dsimp only
    split
    · exact muted_report s (p := .undefinedLabel entry.1) nofun _
    · rfl

theorem muted_leaveRoutine : s.muted.leaveRoutine = s.leaveRoutine.muted := by
  unfold leaveRoutine
  rw [show s.muted.enclosing = s.enclosing from rfl]
  cases s.enclosing with
  | nil => rfl
  | cons =>
    dsimp only
    rw [muted_reportUndefined s]
    rfl

theorem muted_finish : s.muted.finish = s.finish.muted := by
  have hleave (enclosing : List (Scope × Flow)) (s : State) :
      enclosing.foldl (fun s _ => s.leaveRoutine) s.muted = (enclosing.foldl (fun s _ => s.leaveRoutine) s).muted := by
    induction enclosing generalizing s with
    | nil => rfl
    | cons entry rest ih => rw [List.foldl_cons, List.foldl_cons, muted_leaveRoutine s, ih]
  unfold finish
  show (s.enclosing.foldl (fun s _ => s.leaveRoutine) s.muted).reportUndefined = _
  rw [hleave, muted_reportUndefined]

/-- Dead code is remembered as reported whether it is reported or not. -/
theorem muted_reportUnreachable {options options' : Options} (h' : options'.reportUnreachable = false) (span : Span) :
    (s.reportUnreachable options span).muted = s.muted.reportUnreachable options' span := by
  unfold reportUnreachable
  rw [h']
  show muted (if s.flow.reachability.reported then s else _) = if s.flow.reachability.reported then _ else _
  split
  · rfl
  · dsimp only
    split
    · exact congrArg (fun diagnostics => { s.restore ⟨s.reachability.unreachable, true⟩ with diagnostics })
        (Diagnostic.muted_push_deadCode span)
    · rfl

end Muted

end State

/-- The second state is the first one without the reports of dead code. -/
def Muted (s s' : State) : Prop :=
  s' = s.muted

/-- **An analysis that does not report dead code goes through the same states, less the reports.** -/
theorem accord_muted {cfg cfg' : Setting} (hcfg : Kindred cfg cfg') (hoff : cfg'.options.reportUnreachable = false) :
    Accord cfg cfg' {} True Muted where
  kindred := hcfg
  level hs _ := by rw [hs]; rfl
  number hs _ := by rw [hs]; rfl
  flow hs := by rw [hs]; rfl
  withFlow hs _ := by rw [hs]; rfl
  countKey hs _ _ := by rw [hs]; rfl
  report {s _} hs p span hp := by rw [hs]; exact s.muted_report hp span
  reportUnreachable {s _} hs span := by rw [hs]; exact (s.muted_reportUnreachable hoff span).symm
  ruleExpr hs _ _ := by rw [hs]; exact ⟨rfl, rfl⟩
  ruleStmt hs _ _ := by rw [hs]; exact ⟨rfl, rfl⟩
  constants _ hs := by rw [hs]; rfl
  withConstants _ hs _ := by rw [hs]; rfl
  returnsRef hs := by rw [hs]; rfl
  enterRoutine hs _ := by rw [hs]; rfl
  leaveRoutine {_ _ t _ _} _ _ _ ht := by rw [ht]; exact t.muted_leaveRoutine
  goto {s _} hs name span := by rw [hs]; exact s.muted_gotoLabel name span
  label tag name home := by
    have hdefine : Agrees Muted id (Pass.transform (State.defineLabel name tag.span))
        (Pass.transform (State.defineLabel name tag.span)) :=
      .transform fun s _ hs => by
        rw [hs, s.muted_defineLabel name tag.span]
        exact ⟨rfl, rfl⟩
    refine hdefine.before fun cell => ?_
    cases cell with
    | none => exact .pure rfl
    | some cell =>
      have hset : Agrees Muted id (Pass.update fun s => { s with memory := s.memory.setLabel home cell })
          (Pass.update fun s => { s with memory := s.memory.setLabel home cell }) :=
        .update fun _ _ hs => by rw [hs]; rfl
      exact hset.before fun _ => .pure rfl

end Analysis
end PhpLowering
