import PhpLowering.Proofs.Analysis.Accord
import PhpLowering.Proofs.Analysis.Labels

/-!
# Analyses with other cells

The cells of labels are given out in the order in which labels are met, so what has been analysed before decides
which cells a routine gets.  `Renames` says that of two analyses the one has, for each cell of the other, a cell
in which the same is written: for the cells from a certain one on, and for certain label statements.

Such a renaming is fixed once and for all, and it says in advance which cells the cells to come stand for.  So
nothing has to be known of the routines around the one at hand: when it is left, the cells around it still
stand for the same cells.  **`accord_renames`**: the relation goes through the analysis of all statements.
-/

namespace PhpLowering

namespace RuleMemory

variable {m : RuleMemory} {cell c : Nat}

theorem isReferenced_of_size_le (h : m.referenced.size ≤ c) : m.isReferenced c = false := by
  unfold isReferenced
  rw [Array.getD_eq_getD_getElem?, Array.getElem?_eq_none h]
  rfl

theorem isReferenced_marked (h : cell < m.referenced.size) (c : Nat) :
    (m.markReferenced cell).isReferenced c = (c == cell || m.isReferenced c) := by
  show (m.referenced.setIfInBounds cell true).getD c false = _
  rw [Array.getD_eq_getD_getElem?, Array.getElem?_setIfInBounds]
  by_cases heq : cell = c
  · subst heq
    rw [if_pos rfl, if_pos h, beq_self_eq_true]
    rfl
  · rw [if_neg heq, beq_false_of_ne (Ne.symm heq), Bool.false_or, isReferenced, Array.getD_eq_getD_getElem?]

end RuleMemory

namespace Analysis

/-- The same entry with another cell. -/
def LabelEntry.rename (f : Nat → Nat) (entry : LabelEntry) : LabelEntry :=
  { entry with cell := f entry.cell }

/-- The same labels with other cells. -/
def renameLabels (f : Nat → Nat) (labels : List (String × LabelEntry)) : List (String × LabelEntry) :=
  labels.map fun p => (p.1, p.2.rename f)

/-- The same routine with other cells. -/
def Scope.rename (f : Nat → Nat) (scope : Scope) : Scope :=
  { scope with labels := renameLabels f scope.labels }

theorem lookup_renameLabels (f : Nat → Nat) (labels : List (String × LabelEntry)) (name : String) :
    (renameLabels f labels).lookup name = (labels.lookup name).map (LabelEntry.rename f) := by
  induction labels with
  | nil => rfl
  | cons p rest ih =>
    rw [renameLabels, List.map_cons, List.lookup_cons, List.lookup_cons]
    split
    · rfl
    · exact ih

theorem putLabel_renameLabels (f : Nat → Nat) (name : String) (entry : LabelEntry)
    (labels : List (String × LabelEntry)) :
    State.putLabel name (entry.rename f) (renameLabels f labels) = renameLabels f (State.putLabel name entry labels) := by
  induction labels with
  | nil => rfl
  | cons p rest ih =>
    obtain ⟨n, e⟩ := p
    show (if n = name then (n, entry.rename f) :: renameLabels f rest
      else (n, e.rename f) :: State.putLabel name (entry.rename f) (renameLabels f rest)) =
        renameLabels f (if n = name then (n, entry) :: rest else (n, e) :: State.putLabel name entry rest)
    rw [ih]
    split <;> rfl

theorem renameLabels_of_eq {f : Nat → Nat} {labels : List (String × LabelEntry)}
    (h : ∀ p ∈ labels, f p.2.cell = p.2.cell) : renameLabels f labels = labels := by
  refine (List.map_congr_left fun p hp => ?_).trans (List.map_id labels)
  show (p.1, ({ p.2 with cell := f p.2.cell } : LabelEntry)) = p
  rw [h p hp]

/-! ## Related states -/

/-- For each cell of one analysis the cell of another one that stands for it.  What is written in the cells below
the floor, and what label statements are given that are not looked at, may be different. -/
structure Renaming where
  cell : Nat → Nat
  injective : cell.Injective
  floor : Nat := 0
  looked : Nat → Prop := fun _ => True

variable {f : Renaming} {known : Prop} {base base' : Array Diagnostic} {s s' t t' : State} {cfg cfg' : Setting}

/-- Two analyses have come to states that only differ in the cells of labels, in the rules that have been asked
for, and in what had been reported before.  The constants need not be the same unless they are `known` to be. -/
structure Renames (f : Renaming) (known : Prop) (base base' : Array Diagnostic) (s s' : State) : Prop where
  table : s.table.Regular
  table' : s'.table.Regular
  flow : s'.flow = s.flow
  scope : s'.scope = s.scope.rename f.cell
  /-- The labels of the routine have cells that are looked at. -/
  cells : ∀ p ∈ s.scope.labels, f.floor ≤ p.2.cell ∧ p.2.cell < s.memory.referenced.size
  floor : f.floor ≤ s.memory.referenced.size
  /-- The next cells stand for each other. -/
  fresh : ∀ i, f.cell (s.memory.referenced.size + i) = s'.memory.referenced.size + i
  referenced : ∀ c, f.floor ≤ c → s'.memory.isReferenced (f.cell c) = s.memory.isReferenced c
  homes : ∀ i, f.looked i → s'.memory.labels[(Home.node i : Home StmtKind)]? =
    s.memory.labels[(Home.node i : Home StmtKind)]?.map f.cell
  given : ∀ i, f.looked i → ∀ c ∈ s.memory.labels[(Home.node i : Home StmtKind)]?,
    f.floor ≤ c ∧ c < s.memory.referenced.size
  constants : known → s'.constants = s.constants
  reports : ∃ more, s.diagnostics = base ++ more ∧ s'.diagnostics = base' ++ more

namespace Renames

/-- A cell that is there stands for one that is there. -/
theorem lt (h : Renames f known base base' s s') {c : Nat} (hc : c < s.memory.referenced.size) :
    f.cell c < s'.memory.referenced.size := by
  by_contra hle
  obtain ⟨i, hi⟩ := Nat.exists_eq_add_of_le (Nat.le_of_not_lt hle)
  have heq : c = s.memory.referenced.size + i := f.injective (hi.trans (h.fresh i).symm)
  omega

/-- Of a label statement that is looked at the same is remembered. -/
theorem labelReferenced (h : Renames f known base base' s s') {i : Nat} (hi : f.looked i) :
    s'.memory.labelReferenced (.node i) = s.memory.labelReferenced (.node i) := by
  have hgiven := h.given i hi
  unfold RuleMemory.labelReferenced
  rw [h.homes i hi]
  cases hcell : s.memory.labels[(Home.node i : Home StmtKind)]? with
  | none => rfl
  | some c => exact h.referenced c (hgiven c hcell).1

theorem report (h : Renames f known base base' s s') (p : Problem) (span : Span) :
    Renames f known base base' (s.report p span) (s'.report p span) := by
  obtain ⟨more, heq, heq'⟩ := h.reports
  refine { h with reports := ⟨more.push ⟨p, span⟩, ?_, ?_⟩ }
  · rw [State.report, heq, Array.push_append]
  · rw [State.report, heq', Array.push_append]

theorem withTables (h : Renames f known base base' s s') {table table' : RuleTable} (ht : table.Regular)
    (ht' : table'.Regular) : Renames f known base base' { s with table } { s' with table := table' } :=
  { h with table := ht, table' := ht' }

/-! ### Labels -/

/-- The entry of a label is found in both states or made in both. -/
theorem labelEntry (h : Renames f known base base' s s') (name : String) (firstGoto : Option Span) :
    (s'.labelEntry name firstGoto).1 = (s.labelEntry name firstGoto).1.rename f.cell ∧
      Renames f known base base' (s.labelEntry name firstGoto).2 (s'.labelEntry name firstGoto).2 ∧
      f.floor ≤ (s.labelEntry name firstGoto).1.cell ∧
      (s.labelEntry name firstGoto).1.cell < (s.labelEntry name firstGoto).2.memory.referenced.size := by
  have hlookup : s'.scope.labels.lookup name = (s.scope.labels.lookup name).map (LabelEntry.rename f.cell) := by
    rw [h.scope]
    exact lookup_renameLabels f.cell s.scope.labels name
  unfold State.labelEntry
  rw [hlookup]
  cases hentry : s.scope.labels.lookup name with
  | some entry => exact ⟨rfl, h, h.cells _ (mem_of_lookup hentry)⟩
  | none =>
    rw [Option.map_none]
    have hcell : s'.memory.referenced.size = f.cell s.memory.referenced.size := (h.fresh 0).symm
    have hsize : s.memory.newCell.2.referenced.size = s.memory.referenced.size + 1 := Array.size_push _
    have hsize' : s'.memory.newCell.2.referenced.size = s'.memory.referenced.size + 1 := Array.size_push _
    have hentries : LabelEntry.mk s'.memory.referenced.size none firstGoto =
        (LabelEntry.mk s.memory.referenced.size none firstGoto).rename f.cell := by rw [hcell]; rfl
    refine ⟨hentries, ?_, h.floor, hsize ▸ Nat.lt_succ_self _⟩
    refine
      { h with
        scope := ?_, cells := fun p hp => ?_, floor := hsize ▸ Nat.le_succ_of_le h.floor, fresh := fun i => ?_
        referenced := fun c hc => ?_, given := fun i hi c hc => ?_ }
    · show Scope.mk s'.scope.returnsRef _ = Scope.mk s.scope.returnsRef _
      rw [h.scope]
      refine congrArg (Scope.mk _) ?_
      exact (congrArg (State.putLabel name · _) hentries).trans (putLabel_renameLabels ..)
    · dsimp only
      rw [hsize]
      rcases mem_putLabel hp with rfl | hp
      · exact ⟨h.floor, Nat.lt_succ_self _⟩
      · exact (h.cells p hp).imp_right Nat.lt_succ_of_lt
    · dsimp only
      rw [hsize, hsize', Nat.add_assoc, Nat.add_assoc]
      exact h.fresh (1 + i)
    · exact (RuleMemory.isReferenced_newCell _ _).trans ((h.referenced c hc).trans
        (RuleMemory.isReferenced_newCell _ _).symm)
    · dsimp only
      rw [hsize]
      exact (h.given i hi c hc).imp_right Nat.lt_succ_of_lt

theorem gotoLabel (h : Renames f known base base' s s') (name : String) (span : Span) :
    Renames f known base base' (s.gotoLabel name span) (s'.gotoLabel name span) := by
  obtain ⟨hentry, hstates, hfloor, hcell⟩ := h.labelEntry name (some span)
  have hsize (m : RuleMemory) (cell : Nat) : (m.markReferenced cell).referenced.size = m.referenced.size :=
    Array.size_setIfInBounds
  unfold State.gotoLabel
  dsimp only
  rw [hentry]
  generalize s.labelEntry name (some span) = out at hstates hfloor hcell
  generalize (s'.labelEntry name (some span)).2 = u' at hstates
  obtain ⟨entry, u⟩ := out
  refine
    { hstates with
      cells := fun p hp => ?_, floor := ?_, fresh := fun i => ?_, referenced := fun c hc => ?_
      given := fun i hi c hc => ?_ }
  · rw [hsize]
    exact hstates.cells p hp
  · rw [hsize]
    exact hstates.floor
  · rw [hsize, hsize]
    exact hstates.fresh i
  · show (u'.memory.markReferenced (f.cell entry.cell)).isReferenced _ = (u.memory.markReferenced entry.cell).isReferenced c
    rw [RuleMemory.isReferenced_marked hcell, RuleMemory.isReferenced_marked (hstates.lt hcell),
      hstates.referenced c hc, f.injective.beq_eq]
  · rw [hsize]
    exact hstates.given i hi c hc

/-- The definition of a label, which may have a definition already. -/
theorem defineLabel (h : Renames f known base base' s s') (name : String) (span : Span) :
    (s'.defineLabel name span).1 = (s.defineLabel name span).1.map f.cell ∧
      Renames f known base base' (s.defineLabel name span).2 (s'.defineLabel name span).2 ∧
      ∀ c ∈ (s.defineLabel name span).1, f.floor ≤ c ∧ c < (s.defineLabel name span).2.memory.referenced.size := by
  obtain ⟨hentry, hstates, hfloor, hcell⟩ := h.labelEntry name none
  unfold State.defineLabel
  dsimp only
  rw [hentry]
  generalize s.labelEntry name none = out at hstates hfloor hcell
  generalize (s'.labelEntry name none).2 = u' at hstates
  obtain ⟨⟨cell, definedAt, firstGoto⟩, u⟩ := out
  cases definedAt with
  | some earlier => exact ⟨rfl, (hstates.report _ _).report _ _, nofun⟩
  | none =>
    refine ⟨rfl, { hstates with scope := ?_, cells := fun p hp => ?_ }, ?_⟩
    · show Scope.mk u'.scope.returnsRef _ = Scope.mk u.scope.returnsRef _
      rw [hstates.scope]
      exact congrArg (Scope.mk _) (putLabel_renameLabels f.cell name ⟨cell, some span, firstGoto⟩ _)
    · rcases mem_putLabel hp with rfl | hp
      · exact ⟨hfloor, hcell⟩
      · exact hstates.cells p hp
    · rintro c ⟨⟩
      exact ⟨hfloor, hcell⟩

/-- The rule of a label statement gets the cell of the label. -/
theorem setLabel (h : Renames f known base base' s s') (home : Home StmtKind) {cell : Nat} (hfloor : f.floor ≤ cell)
    (hcell : cell < s.memory.referenced.size) :
    Renames f known base base' { s with memory := s.memory.setLabel home cell }
      { s' with memory := s'.memory.setLabel home (f.cell cell) } := by
  have hget (m : RuleMemory) (cell : Nat) (i : Nat) :
      (m.setLabel home cell).labels[(Home.node i : Home StmtKind)]? =
        if home = .node i ∧ m.labels[(Home.node i : Home StmtKind)]? = none then some cell
        else m.labels[(Home.node i : Home StmtKind)]? := by
    by_cases hhome : home = .node i
    · subst hhome
      cases hold : m.labels[(Home.node i : Home StmtKind)]? with
      | none =>
        rw [if_pos ⟨rfl, rfl⟩]
        exact RuleMemory.labels_setLabel hold cell
      | some c =>
        rw [if_neg nofun]
        exact (RuleMemory.extends_setLabel m _ cell).cells hold
    · rw [if_neg fun h => hhome h.1]
      exact RuleMemory.labels_setLabel_of_ne hhome cell
  refine { h with homes := fun i hi => ?_, given := fun i hi c hc => ?_ }
  · dsimp only
    rw [hget, hget, h.homes i hi, apply_ite (Option.map f.cell)]
    simp only [Option.map_eq_none_iff, Option.map_some]
  · dsimp only at hc
    rw [hget] at hc
    split at hc
    · cases hc
      exact ⟨hfloor, hcell⟩
    · exact h.given i hi c hc

/-! ### Routines -/

theorem reportUndefined (h : Renames f known base base' s s') :
    Renames f known base base' s.reportUndefined s'.reportUndefined := by
  have hfold (labels : List (String × LabelEntry)) {s s' : State} (h : Renames f known base base' s s') :
      Renames f known base base'
        (labels.foldl (fun s p =>
          if p.2.definedAt.isNone then s.report (.undefinedLabel p.1) (p.2.firstGoto.getD {}) else s) s)
        ((renameLabels f.cell labels).foldl (fun s p =>
          if p.2.definedAt.isNone then s.report (.undefinedLabel p.1) (p.2.firstGoto.getD {}) else s) s') := by
    induction labels generalizing s s' with
    | nil => exact h
    | cons p rest ih =>
      refine ih ?_
      show Renames f known base base' (if p.2.definedAt.isNone then _ else s) (if p.2.definedAt.isNone then _ else s')
      by_cases hnone : p.2.definedAt.isNone = true
      · rw [if_pos hnone, if_pos hnone]
        exact h.report _ _
      · rw [if_neg hnone, if_neg hnone]
        exact h
  unfold State.reportUndefined
  rw [h.scope]
  exact hfold s.scope.labels h

theorem enterRoutine (h : Renames f known base base' s s') (returnsRef : Bool) :
    Renames f known base base' (s.enterRoutine returnsRef) (s'.enterRoutine returnsRef) :=
  { h with flow := rfl, scope := rfl, cells := nofun }

theorem leaveRoutine {returnsRef : Bool} (h : Renames f known base base' s s')
    (hin : Contained (s.enterRoutine returnsRef) t) (hin' : Contained (s'.enterRoutine returnsRef) t')
    (ht : Renames f known base base' t t') : Renames f known base base' t.leaveRoutine t'.leaveRoutine := by
  have hmemory : t.reportUndefined.memory = t.memory := by
    obtain ⟨diagnostics, heq⟩ := exists_reportUndefined_eq t
    rw [heq]
  rw [leaveRoutine_of_enclosing hin.enclosing, leaveRoutine_of_enclosing hin'.enclosing]
  refine { ht.reportUndefined with flow := h.flow, scope := h.scope, cells := fun p hp => ?_ }
  dsimp only
  rw [hmemory]
  exact (h.cells p hp).imp_right (Nat.lt_of_lt_of_le · hin.size)

end Renames

/-- **What cells the labels have makes no difference to the analysis.** -/
theorem accord_renames (hcfg : Kindred cfg cfg') (hregistry : cfg.registry = .standard)
    (hreport : cfg'.options.reportUnreachable = cfg.options.reportUnreachable) :
    Accord cfg cfg' .plain known (Renames f known base base') where
  kindred := hcfg
  level _ _ := rfl
  number hs _ := { hs with }
  flow hs := hs.flow
  withFlow hs _ := { hs with flow := rfl }
  countKey hs _ _ := { hs with }
  report hs p span _ := hs.report p span
  ruleExpr {s s'} hs kind id := by
    obtain ⟨t, ht, hregular⟩ := RuleTable.exists_expr hs.table kind id
    obtain ⟨t', ht', hregular'⟩ := RuleTable.exists_expr hs.table' kind id
    rw [hregistry, ht, ht']
    exact ⟨rfl, hs.withTables hregular hregular'⟩
  constants hknown hs := hs.constants hknown
  returnsRef hs := by rw [hs.scope]; rfl
  reportUnreachable {s s'} hs span := by
    unfold State.reportUnreachable
    rw [hs.flow, hreport]
    split
    · exact hs
    · have hrestored : Renames f known base base' (s.restore ⟨s.reachability.unreachable, true⟩)
          (s'.restore ⟨s'.reachability.unreachable, true⟩) :=
        { hs with flow := by unfold State.restore State.reachability; rw [hs.flow] }
      dsimp only
      split
      · exact hrestored.report _ _
      · exact hrestored
  ruleStmt {s s'} hs kind id := by
    obtain ⟨t, ht, hregular⟩ := RuleTable.exists_stmt hs.table kind id
    obtain ⟨t', ht', hregular'⟩ := RuleTable.exists_stmt hs.table' kind id
    rw [hregistry, ht, ht']
    exact ⟨rfl, hs.withTables hregular hregular'⟩
  withConstants _ hs _ := { hs with constants := fun _ => rfl }
  goto hs name span := hs.gotoLabel name span
  enterRoutine hs returnsRef := hs.enterRoutine returnsRef
  leaveRoutine hs hin hin' ht := hs.leaveRoutine hin hin' ht
  label tag name home s s' hs := by
    obtain ⟨hcell, hstates, hbounds⟩ := hs.defineLabel name tag.span
    have hrun (s : State) : analyzeLabel tag name home s = (.ok (.label tag name),
        match (s.defineLabel name tag.span).1 with
        | none => (s.defineLabel name tag.span).2
        | some cell => { (s.defineLabel name tag.span).2 with
            memory := (s.defineLabel name tag.span).2.memory.setLabel home cell }) := by
      rw [analyzeLabel, Pass.bind_apply, Pass.transform]
      dsimp only
      cases (s.defineLabel name tag.span).1 <;> rfl
    rw [hrun, hrun, hcell]
    refine ⟨?_, rfl⟩
    dsimp only
    cases hdefined : (s.defineLabel name tag.span).1 with
    | none => exact hstates
    | some cell =>
      obtain ⟨hfloor, hsize⟩ := hbounds cell hdefined
      exact hstates.setLabel home hfloor hsize

end Analysis
end PhpLowering
