import PhpLowering.Proofs.Analysis.Indifference
import PhpLowering.Proofs.Emission
import PhpLowering.Proofs.Lowering.Mirror
import PhpLowering.Proofs.Reporting

/-!
# Options that say what is reported

Two options are about what is told of a unit and not about the unit: whether dead code is reported, and
whether the code says which places of the source it comes from.  Both are asked for in the middle of the work,
next to what the work depends on.  **`Compiler.unchanged_by_reporting`**: apart from what they are about they
change nothing.  Nothing is assumed about the unit, the registry or the other options, and it makes no
difference whether the compilation succeeds.

The two compilations give the slots of their chains back in the same orders, `Compiler.releases`, whatever these
are.  This is part of the statement: two compilations with one and the same setting may differ in which slots they
use if their orders do, `Compiler.changed_by_releases`.
-/

namespace PhpLowering

namespace Routine

/-- No instruction is said to come from anywhere. -/
def Unplaced (r : Routine) : Prop :=
  r.currentSpan = {} ∧ ∀ span ∈ r.spans, span = {}

variable {r r' : Routine}

theorem spans_markLabel (l : Label) (r : Routine) : (r.markLabel l).2.spans = r.spans := by
  unfold markLabel
  split <;> rfl

/-- An operation takes the places of new instructions from the current place. -/
theorem Unplaced.operation {α : Type} {f : Routine → α × Routine} (hf : Placeless f) (h : r.Unplaced) :
    (f r).2.Unplaced := by
  refine ⟨(hf.currentSpan r).trans h.1, ?_⟩
  have hpush : ∀ span ∈ r.spans.push r.currentSpan, span = {} := Array.forall_mem_push.mpr ⟨h.1, h.2⟩
  cases hf.operation with
  | emit i =>
    unfold Routine.emit
    split
    · split
      · exact hpush
      · exact h.2
    · exact hpush
  | addConstant v =>
    unfold Routine.addConstant
    split
    · exact h.2
    · split <;> exact h.2
  | markLabel l =>
    unfold Routine.markLabel
    split <;> exact h.2
  | declareTemp =>
    unfold Routine.declareTemp
    split
    · exact h.2
    · split <;> exact h.2
  | returnTemp t =>
    dsimp only
    unfold Routine.returnTemp
    split <;> exact h.2
  | beginHandler kind =>
    unfold Routine.beginHandler
    split
    · exact h.2
    · split
      · exact h.2
      · exact hpush
  | endRegion =>
    unfold Routine.endRegion
    split
    · exact h.2
    · split
      · exact h.2
      · dsimp only
        rw [spans_markLabel]
        exact hpush
  | defineLabel | beginTry | sequencePoint => exact h.2

end Routine

open Routine (SameCode Unplaced)

namespace Lowering

variable {cfg cfg' : Setting}

/-- Where the same places are wanted the routines are the same. -/
theorem mirror_eq (hregistry : cfg'.registry = cfg.registry)
    (helide : cfg'.options.elideEmptyTry = cfg.options.elideEmptyTry)
    (hpoints : cfg'.options.sequencePoints = cfg.options.sequencePoints) : Mirror cfg cfg' Eq where
  registry := hregistry
  elideEmptyTry := helide
  begun h head := by rw [Chunk.begun, Chunk.begun, h]
  openRegions h := by rw [h]
  operation _ h := by
    rw [h]
    exact ⟨rfl, rfl⟩
  placed h span := by rw [h, hpoints]

/-- Where no places are wanted there are none, and the code is the same. -/
theorem mirror_unplaced (hregistry : cfg'.registry = cfg.registry)
    (helide : cfg'.options.elideEmptyTry = cfg.options.elideEmptyTry)
    (hoff : cfg'.options.sequencePoints = false) : Mirror cfg cfg' fun r r' => SameCode r r' ∧ r'.Unplaced where
  registry := hregistry
  elideEmptyTry := helide
  begun h head := by
    obtain ⟨⟨spans, span, hmain⟩, -⟩ := h
    rw [Chunk.begun, Chunk.begun, hmain]
    exact ⟨⟨#[], {}, rfl⟩, rfl, nofun⟩
  openRegions h := by
    obtain ⟨⟨spans, span, rfl⟩, -⟩ := h
    rfl
  operation hf h := by
    obtain ⟨hanswer, hsame⟩ := Routine.Twins.operation hf.operation h.1
    exact ⟨hanswer, hsame, h.2.operation hf⟩
  placed {r _} h span := by
    obtain ⟨⟨spans, span', rfl⟩, hplaces⟩ := h
    rw [hoff]
    refine ⟨?_, hplaces⟩
    unfold Routine.placed
    split <;> exact ⟨spans, span', rfl⟩

end Lowering

namespace Compiler

variable (c : Compiler) (unit : SourceUnit)

/-- The compiler with reports of dead code on or off. -/
def withReportUnreachable (enabled : Bool) : Compiler :=
  { c with options := { c.options with reportUnreachable := enabled } }

/-- The compiler with sequence points on or off. -/
def withSequencePoints (enabled : Bool) : Compiler :=
  { c with options := c.options.withSequencePoints enabled }

/-! ## Analysis -/

/-- **Without reports of dead code the analysis leaves the same tree, and reports the same less those.** -/
theorem analyze_withReportUnreachable :
    (c.withReportUnreachable false).analyze unit =
      (((c.withReportUnreachable true).analyze unit).1,
        Diagnostic.muted ((c.withReportUnreachable true).analyze unit).2) := by
  obtain ⟨found, hfound⟩ : ∃ found, found = Declarations.collect c.symbols unit.statements := ⟨_, rfl⟩
  obtain ⟨s, hs⟩ : ∃ s : Analysis.State, s = { nextId := unit.nextId, diagnostics := found.diagnostics.toArray } :=
    ⟨_, rfl⟩
  have hstart : Analysis.Muted s s := by
    -- Nothing has been reported yet but that functions are declared again.
    have hfilter : Diagnostic.muted s.diagnostics = s.diagnostics := by
      refine Array.filter_eq_self.mpr fun d hd => ?_
      rw [hs, List.mem_toArray, hfound] at hd
      obtain ⟨name, hname⟩ := Declarations.proper_collect c.symbols unit.statements d hd
      simp [hname]
    rw [Analysis.Muted, Analysis.State.muted, hfilter]
  have : Analysis.Accord ((c.withReportUnreachable true).analysisSetting found.functions)
      ((c.withReportUnreachable false).analysisSetting found.functions) {} True Analysis.Muted :=
    Analysis.accord_muted ⟨rfl, rfl, rfl, fun _ => rfl⟩ rfl
  obtain ⟨hanswer, hmuted⟩ := Analysis.analyzeStmts_eq unit.statements hstart
  rcases hrun : Analysis.analyzeStmts ((c.withReportUnreachable true).analysisSetting found.functions)
    unit.statements s with ⟨r, t⟩
  rcases hrun' : Analysis.analyzeStmts ((c.withReportUnreachable false).analysisSetting found.functions)
    unit.statements s with ⟨r', t'⟩
  rw [hrun, hrun'] at hanswer hmuted
  obtain rfl : r' = r := hanswer
  obtain rfl : t' = t.muted := hmuted
  rw [hs, hfound] at hrun hrun'
  unfold analyze
  dsimp only
  rw [show (c.withReportUnreachable true).symbols = c.symbols from rfl,
    show (c.withReportUnreachable false).symbols = c.symbols from rfl, hrun, hrun']
  cases r' with
  | error f => rfl
  | ok statements =>
    dsimp only
    rw [t.muted_finish]
    rfl

/-- The analysis does not ask for sequence points. -/
theorem analyze_withSequencePoints :
    (c.withSequencePoints false).analyze unit = (c.withSequencePoints true).analyze unit := by
  have hstmts (functions : List (String × Signature)) :
      Analysis.analyzeStmts ((c.withSequencePoints false).analysisSetting functions) unit.statements =
        Analysis.analyzeStmts ((c.withSequencePoints true).analysisSetting functions) unit.statements := by
    have : Analysis.Accord ((c.withSequencePoints true).analysisSetting functions)
        ((c.withSequencePoints false).analysisSetting functions) {} True Eq :=
      Analysis.accord_eq ⟨rfl, rfl, rfl, fun _ => rfl⟩ rfl
    funext s
    obtain ⟨hanswer, hafter⟩ := Analysis.analyzeStmts_eq (R := Eq) unit.statements (rfl : s = s)
    exact Prod.ext hanswer hafter.symm
  unfold analyze
  dsimp only
  rw [hstmts]
  rfl

/-! ## Emission -/

variable {c unit}

/-- The emission of an analysed unit in two settings. -/
theorem emit_of_mirror {c c' : Compiler} {S : Routine → Routine → Prop} {D : Array Diagnostic → Array Diagnostic → Prop}
    [Lowering.Mirror c.loweringSetting c'.loweringSetting S] [Lowering.Reportable D] (analyzed : AnalyzedUnit)
    {diagnostics diagnostics' : Array Diagnostic} {sink sink' : Chunk} (hsink : sink.Resembles S sink')
    (hdiagnostics : D diagnostics diagnostics') (hreleases : c'.releases = c.releases) :
    (c'.emit analyzed diagnostics' sink').result = (c.emit analyzed diagnostics sink).result ∧
      (c.emit analyzed diagnostics sink).sink.Resembles S (c'.emit analyzed diagnostics' sink').sink ∧
      D (c.emit analyzed diagnostics sink).diagnostics (c'.emit analyzed diagnostics' sink').diagnostics := by
  have hstart : Lowering.Reflects S D (c.emissionStart analyzed diagnostics sink)
      (c'.emissionStart analyzed diagnostics' sink') := by
    refine ⟨sink', diagnostics', hsink, hdiagnostics, ?_⟩
    unfold emissionStart
    rw [hreleases]
  have hagrees := Lowering.agrees_lowerRoutine (S := S) (D := D) analyzed.statements false
  have hanswer := hagrees.answer hstart
  obtain ⟨k, d, hchunks, hreports, hafter⟩ := (hagrees _ _ hstart).1
  rcases hrun : Lowering.lowerRoutine c.loweringSetting analyzed.statements false
    (c.emissionStart analyzed diagnostics sink) with ⟨r, t⟩
  rcases hrun' : Lowering.lowerRoutine c'.loweringSetting analyzed.statements false
    (c'.emissionStart analyzed diagnostics' sink') with ⟨r', t'⟩
  rw [hrun, hrun'] at hanswer hafter
  rw [hrun] at hchunks hreports
  obtain rfl : r' = r := hanswer
  obtain rfl : t' = { t with sink := k, diagnostics := d } := hafter
  cases r' with
  | ok a =>
    rw [emit_of_ok hrun, emit_of_ok hrun']
    exact ⟨rfl, hchunks, hreports⟩
  | error e =>
    rw [emit_of_error hrun, emit_of_error hrun']
    exact ⟨rfl, hchunks, hreports⟩

/-- The compilation of a unit in two settings, in which its analysis leaves the same tree. -/
theorem compile_of_mirror {c c' : Compiler} {S : Routine → Routine → Prop}
    {D : Array Diagnostic → Array Diagnostic → Prop}
    [Lowering.Mirror c.loweringSetting c'.loweringSetting S] [Lowering.Reportable D]
    (hanalyze : (c'.analyze unit).1 = (c.analyze unit).1) (hreports : D (c.analyze unit).2 (c'.analyze unit).2)
    (herrors : hasErrors (c'.analyze unit).2 = hasErrors (c.analyze unit).2) {sink sink' : Chunk}
    (hsink : sink.Resembles S sink') (hreleases : c'.releases = c.releases) :
    (c'.compile unit sink').result = (c.compile unit sink).result ∧
      (c.compile unit sink).sink.Resembles S (c'.compile unit sink').sink ∧
      D (c.compile unit sink).diagnostics (c'.compile unit sink').diagnostics := by
  unfold compile
  generalize c.analyze unit = out at hanalyze hreports herrors ⊢
  generalize c'.analyze unit = out' at hanalyze hreports herrors ⊢
  obtain ⟨r, d⟩ := out
  obtain ⟨r', d'⟩ := out'
  obtain rfl : r' = r := hanalyze
  cases r' with
  | error f => exact ⟨rfl, hsink, hreports⟩
  | ok analyzed =>
    dsimp only at herrors ⊢
    rw [herrors]
    split
    · exact ⟨rfl, hsink, hreports⟩
    · exact emit_of_mirror analyzed hsink hreports hreleases

theorem resembles_eq {k k' : Chunk} : k.Resembles Eq k' ↔ k' = k := by
  constructor
  · rintro ⟨hmain, hfunctions, hpending⟩
    rw [List.forall₂_eq_eq_eq] at hfunctions hpending
    exact (Chunk.mk.injEq .. ▸ ⟨hmain, Array.toList_inj.mp hfunctions, hpending⟩ : k = k').symm
  · rintro rfl
    exact ⟨rfl, List.forall₂_eq_eq_eq ▸ rfl, List.forall₂_eq_eq_eq ▸ rfl⟩

variable (c unit)

/-- **Options about reports change nothing else.**  Whether dead code is reported makes no difference to the
tree, the chunk and the outcome, and the diagnostics differ by the reports of dead code.  Whether the chunk is
told of places in the source makes no difference to the tree, the outcome and the diagnostics, and the routines
differ in the places of their instructions; there are none if the chunk is not told.  Chains give their slots
back in the orders of `c` on both sides. -/
theorem unchanged_by_reporting :
    (let on := c.withReportUnreachable true
      let off := c.withReportUnreachable false
      (off.analyze unit).1 = (on.analyze unit).1 ∧
        ∀ sink : Chunk,
          (off.compile unit sink).result = (on.compile unit sink).result ∧
          (off.compile unit sink).sink = (on.compile unit sink).sink ∧
          (off.compile unit sink).diagnostics = Diagnostic.muted (on.compile unit sink).diagnostics) ∧
    (let on := c.withSequencePoints true
      let off := c.withSequencePoints false
      (off.analyze unit).1 = (on.analyze unit).1 ∧
        ∀ name filePath tempLimit, let sink := Chunk.new name filePath tempLimit
          (off.compile unit sink).result = (on.compile unit sink).result ∧
          (off.compile unit sink).diagnostics = (on.compile unit sink).diagnostics ∧
          (on.compile unit sink).sink.Resembles SameCode (off.compile unit sink).sink ∧
          (off.compile unit sink).sink.Every fun r => ∀ span ∈ r.spans, span = {}) := by
  have hreport := c.analyze_withReportUnreachable unit
  have hpoints := c.analyze_withSequencePoints unit
  have htree : ((c.withReportUnreachable false).analyze unit).1 = ((c.withReportUnreachable true).analyze unit).1 := by
    rw [hreport]
  refine ⟨⟨htree, fun sink => ?_⟩, by rw [hpoints], fun name filePath tempLimit => ?_⟩
  · have : Lowering.Mirror (c.withReportUnreachable true).loweringSetting
        (c.withReportUnreachable false).loweringSetting Eq := Lowering.mirror_eq rfl rfl rfl
    have : Lowering.Reportable fun d d' => d' = Diagnostic.muted d :=
      ⟨fun hd message span => by rw [hd, Diagnostic.muted_push (p := .emissionFailed message) nofun]⟩
    have herrors : hasErrors ((c.withReportUnreachable false).analyze unit).2 =
        hasErrors ((c.withReportUnreachable true).analyze unit).2 := by
      rw [hreport]
      exact Diagnostic.any_isError_muted
    obtain ⟨hresult, hsink, hdiagnostics⟩ := compile_of_mirror (D := fun d d' => d' = Diagnostic.muted d) htree
      (by rw [hreport]) herrors (resembles_eq.mpr (rfl : sink = sink)) rfl
    exact ⟨hresult, resembles_eq.mp hsink, hdiagnostics⟩
  · have : Lowering.Mirror (c.withSequencePoints true).loweringSetting (c.withSequencePoints false).loweringSetting
        fun r r' => SameCode r r' ∧ r'.Unplaced := Lowering.mirror_unplaced rfl rfl rfl
    have : Lowering.Reportable fun d d' => d' = d := ⟨fun hd message span => by rw [hd]⟩
    have hnew : (Chunk.new name filePath tempLimit).Resembles (fun r r' => SameCode r r' ∧ r'.Unplaced)
        (Chunk.new name filePath tempLimit) :=
      ⟨⟨⟨#[], {}, rfl⟩, rfl, nofun⟩, .nil, .nil⟩
    have hanalyze : ((c.withSequencePoints false).analyze unit).1 = ((c.withSequencePoints true).analyze unit).1 := by
      rw [hpoints]
    obtain ⟨hresult, hsink, hdiagnostics⟩ := compile_of_mirror (D := fun d d' => d' = d) hanalyze
      (by rw [hpoints]) (by rw [hpoints]) hnew rfl
    exact ⟨hresult, hdiagnostics, hsink.mono fun h => h.1, hsink.every fun h => h.2.2⟩

/-- Two chains, of which the first one gives two slots back: `$a[f()][g()] = 1; $b[h()] = 2;`. -/
def twoChains : SourceUnit :=
  { name := "unit", nextId := 14, span := {}
    statements := [
      .expression ⟨0, {}⟩ (.assign ⟨1, {}, .none⟩
        (.item ⟨2, {}, .none⟩
          (.item ⟨3, {}, .none⟩ (.var ⟨4, {}, .none⟩ "a") (.call ⟨5, {}, .none⟩ "f" []))
          (.call ⟨6, {}, .none⟩ "g" []))
        (.literal ⟨7, {}, .none⟩ (.int 1))),
      .expression ⟨8, {}⟩ (.assign ⟨9, {}, .none⟩
        (.item ⟨10, {}, .none⟩ (.var ⟨11, {}, .none⟩ "b") (.call ⟨12, {}, .none⟩ "h" []))
        (.literal ⟨13, {}, .none⟩ (.int 2)))] }

/-- **Two compilations of a unit differ if the slots of a chain are given back in different orders**: the second chain
takes the slot that was given back last. -/
theorem changed_by_releases :
    let on := ({} : Compiler).withReportUnreachable true
    let off := ({ releases := fun _ => .reversed } : Compiler).withReportUnreachable false
    (on.compile twoChains (Chunk.new "unit" none none)).isEmitted = true ∧
      (off.compile twoChains (Chunk.new "unit" none none)).isEmitted = true ∧
      (off.compile twoChains (Chunk.new "unit" none none)).sink.main.code ≠
        (on.compile twoChains (Chunk.new "unit" none none)).sink.main.code := by
  refine ⟨?_, ?_, ?_⟩
  all_goals decide +kernel

end Compiler
end PhpLowering
