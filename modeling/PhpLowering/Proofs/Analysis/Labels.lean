import Mathlib.Data.List.Nodup
import PhpLowering.Proofs.Analysis.Steps
import PhpLowering.Proofs.Tree.Routine

/-!
# Labels under analysis

A label has an entry in its routine, which is made when the label is first mentioned, and the
entry has a cell, which is set when a `goto` is met.  The rule of a label statement gets the
cell of its label.  So a label statement and a `goto` with the same name that are both left in
a routine meet in one cell, whichever comes first: `Linked`.

`Reworked` collects what is known after the analysis of some statements.  Of the statements
that are left it says which labels they define and which they go to; what depends on the unit
being accepted is only said if no error has been reported.
-/

namespace PhpLowering

namespace RuleMemory

/-- The second memory is the first one after some more work. -/
structure Extends (m m' : RuleMemory) : Prop where
  cells : ∀ {home : Home StmtKind} {cell : Nat}, m.labels[home]? = some cell → m'.labels[home]? = some cell
  referenced : ∀ {cell : Nat}, m.isReferenced cell = true → m'.isReferenced cell = true
  size : m.referenced.size ≤ m'.referenced.size

theorem Extends.trans {m m' m'' : RuleMemory} (h : m.Extends m') (h' : m'.Extends m'') :
    m.Extends m'' :=
  ⟨fun hc => h'.cells (h.cells hc), fun hr => h'.referenced (h.referenced hr),
    Nat.le_trans h.size h'.size⟩

theorem Extends.labelReferenced {m m' : RuleMemory} (h : m.Extends m') {home : Home StmtKind}
    (hr : m.labelReferenced home = true) : m'.labelReferenced home = true := by
  unfold RuleMemory.labelReferenced at hr ⊢
  split at hr
  · rename_i cell hcell
    rw [h.cells hcell]
    exact h.referenced hr
  · cases hr

theorem isReferenced_iff {m : RuleMemory} {cell : Nat} :
    m.isReferenced cell = true ↔ m.referenced[cell]? = some true := by
  unfold isReferenced
  rw [Array.getD_eq_getD_getElem?]
  cases m.referenced[cell]? with
  | none => simp
  | some b => simp

theorem extends_newCell (m : RuleMemory) : m.Extends m.newCell.2 where
  cells := id
  referenced {cell} h := by
    rw [isReferenced_iff] at h ⊢
    obtain ⟨hcell, -⟩ := Array.getElem?_eq_some_iff.mp h
    show (m.referenced.push false)[cell]? = some true
    rw [Array.getElem?_push_lt hcell, ← Array.getElem?_eq_getElem hcell, h]
  size := by
    show m.referenced.size ≤ (m.referenced.push false).size
    rw [Array.size_push]
    exact Nat.le_succ _

/-- A fresh cell is not set, and it changes no other. -/
theorem isReferenced_newCell (m : RuleMemory) (cell : Nat) :
    m.newCell.2.isReferenced cell = m.isReferenced cell := by
  show (m.referenced.push false).getD cell false = m.referenced.getD cell false
  rw [Array.getD_eq_getD_getElem?, Array.getD_eq_getD_getElem?, Array.getElem?_push]
  split
  · rename_i heq
    rw [heq, Array.getElem?_eq_none (Nat.le_refl _)]
    rfl
  · rfl

theorem isReferenced_markReferenced (m : RuleMemory) {cell : Nat} (h : cell < m.referenced.size) :
    (m.markReferenced cell).isReferenced cell = true := by
  rw [isReferenced_iff]
  show (m.referenced.setIfInBounds cell true)[cell]? = some true
  rw [Array.getElem?_setIfInBounds, if_pos rfl, if_pos h]

theorem extends_markReferenced (m : RuleMemory) (cell : Nat) : m.Extends (m.markReferenced cell) where
  cells := id
  referenced {other} h := by
    rw [isReferenced_iff] at h
    obtain ⟨hother, -⟩ := Array.getElem?_eq_some_iff.mp h
    by_cases heq : cell = other
    · rw [heq]
      exact m.isReferenced_markReferenced hother
    · rw [isReferenced_iff]
      show (m.referenced.setIfInBounds cell true)[other]? = some true
      rw [Array.getElem?_setIfInBounds, if_neg heq, h]
  size := Nat.le_of_eq Array.size_setIfInBounds.symm

theorem extends_setLabel (m : RuleMemory) (home : Home StmtKind) (cell : Nat) :
    m.Extends (m.setLabel home cell) where
  cells {other c} h := by
    show (m.labels.insertIfNew home cell)[other]? = some c
    rw [Std.HashMap.getElem?_insertIfNew]
    split
    · rename_i hnew
      rw [← beq_iff_eq.mp hnew.1] at h
      exact (hnew.2 (Std.HashMap.mem_iff_isSome_getElem?.mpr (by rw [h]; rfl))).elim
    · exact h
  referenced := id
  size := Nat.le_refl _

theorem labels_setLabel {m : RuleMemory} {home : Home StmtKind} (h : m.labels[home]? = none)
    (cell : Nat) : (m.setLabel home cell).labels[home]? = some cell := by
  have hnot : home ∉ m.labels := by
    rw [Std.HashMap.mem_iff_isSome_getElem?, h]
    nofun
  show (m.labels.insertIfNew home cell)[home]? = some cell
  rw [Std.HashMap.getElem?_insertIfNew, if_pos ⟨beq_iff_eq.mpr rfl, hnot⟩]

theorem labels_setLabel_of_ne {m : RuleMemory} {home other : Home StmtKind} (h : home ≠ other)
    (cell : Nat) : (m.setLabel home cell).labels[other]? = m.labels[other]? := by
  show (m.labels.insertIfNew home cell)[other]? = _
  rw [Std.HashMap.getElem?_insertIfNew, if_neg fun heq => h (beq_iff_eq.mp heq.1)]

end RuleMemory

namespace Analysis

variable {s s' t t' u : State} {name : String} {own own' : List Stmt}
  {fs fs' : List (FunctionHead × List Stmt)} {ids ids' : List Nat} {P P' : Nat → Prop}

/-! ## Entries -/

/-- A label has an entry with a definition. -/
def State.Defines (s : State) (name : String) : Prop :=
  ∃ entry, s.scope.labels.lookup name = some entry ∧ entry.definedAt.isSome = true

/-- A label has an entry, and a `goto` goes to it. -/
def State.GoesTo (s : State) (name : String) : Prop :=
  ∃ entry, s.scope.labels.lookup name = some entry ∧ s.memory.isReferenced entry.cell = true

/-- The rule of a label statement has the cell of its label. -/
def State.Stands (s : State) (id : Nat) (name : String) : Prop :=
  ∃ entry, s.scope.labels.lookup name = some entry ∧
    s.memory.labels[(Home.node id : Home StmtKind)]? = some entry.cell

/-- No error has been reported. -/
def State.Clean (s : State) : Prop :=
  ∀ d ∈ s.diagnostics, d.isError = false

/-- The rules are found as they should, and every entry has a cell. -/
structure Sound (s : State) : Prop where
  table : s.table.Regular
  cells : ∀ {name : String} {entry : LabelEntry}, s.scope.labels.lookup name = some entry →
    entry.cell < s.memory.referenced.size

/-- A routine starts without labels. -/
theorem Sound.enterRoutine (h : Sound s) (returnsRef : Bool) : Sound (s.enterRoutine returnsRef) :=
  ⟨h.table, fun hlookup => (Option.some_ne_none _ hlookup.symm).elim⟩

/-- What the analysis of statements keeps of a state. -/
structure Advances (s t : State) : Prop where
  sound : Sound s → Sound t
  enclosing : t.enclosing = s.enclosing
  loops : t.flow.loops = s.flow.loops
  memory : s.memory.Extends t.memory
  diagnostics : ∀ d ∈ s.diagnostics, d ∈ t.diagnostics
  entries : ∀ {name : String} {entry : LabelEntry}, s.scope.labels.lookup name = some entry →
    ∃ entry', t.scope.labels.lookup name = some entry' ∧ entry'.cell = entry.cell ∧
      (entry.definedAt.isSome = true → entry'.definedAt.isSome = true)

theorem Still.extends (h : Still s t) : s.memory.Extends t.memory := by
  refine ⟨fun hc => ?_, fun hr => ?_, ?_⟩
  · rw [h.labels, hc]
  · unfold RuleMemory.isReferenced at hr ⊢
    rwa [h.referenced]
  · exact Nat.le_of_eq (congrArg Array.size h.referenced.symm)

theorem Still.sound (h : Still s t) (hs : Sound s) : Sound t := by
  refine ⟨h.table hs.table, fun hlookup => ?_⟩
  rw [h.scope] at hlookup
  rw [h.referenced]
  exact hs.cells hlookup

theorem Calm.advances (h : Calm s t) : Advances s t where
  sound := h.sound
  enclosing := h.enclosing
  loops := h.loops
  memory := h.extends
  diagnostics := h.diagnostics
  entries {_ entry} hlookup := ⟨entry, by rw [h.scope, hlookup], rfl, id⟩

namespace Advances

theorem refl (s : State) : Advances s s :=
  (Calm.refl s).advances

theorem trans (h : Advances s t) (h' : Advances t u) : Advances s u where
  sound hs := h'.sound (h.sound hs)
  enclosing := h'.enclosing.trans h.enclosing
  loops := h'.loops.trans h.loops
  memory := h.memory.trans h'.memory
  diagnostics d hd := h'.diagnostics d (h.diagnostics d hd)
  entries hlookup := by
    obtain ⟨entry', hlookup', hcell, hdefined⟩ := h.entries hlookup
    obtain ⟨entry'', hlookup'', hcell', hdefined'⟩ := h'.entries hlookup'
    exact ⟨entry'', hlookup'', hcell'.trans hcell, fun hd => hdefined' (hdefined hd)⟩

theorem clean (h : Advances s t) (ht : t.Clean) : s.Clean :=
  fun d hd => ht d (h.diagnostics d hd)

theorem defines (h : Advances s t) (hs : s.Defines name) : t.Defines name := by
  obtain ⟨entry, hlookup, hdefined⟩ := hs
  obtain ⟨entry', hlookup', -, hdefined'⟩ := h.entries hlookup
  exact ⟨entry', hlookup', hdefined' hdefined⟩

theorem goesTo (h : Advances s t) (hs : s.GoesTo name) : t.GoesTo name := by
  obtain ⟨entry, hlookup, hcell⟩ := hs
  obtain ⟨entry', hlookup', heq, -⟩ := h.entries hlookup
  exact ⟨entry', hlookup', heq ▸ h.memory.referenced hcell⟩

theorem stands {id : Nat} (h : Advances s t) (hs : s.Stands id name) : t.Stands id name := by
  obtain ⟨entry, hlookup, hcell⟩ := hs
  obtain ⟨entry', hlookup', heq, -⟩ := h.entries hlookup
  exact ⟨entry', hlookup', heq ▸ h.memory.cells hcell⟩

end Advances

/-- The labels of a routine that a `goto` in it goes to are known to be gone to. -/
def Linked (memory : RuleMemory) (body : List Stmt) : Prop :=
  ∀ tag name, Stmt.label tag name ∈ Stmt.ownOf body →
    name ∈ (Stmt.ownOf body).filterMap Stmt.goto? → memory.labelReferenced (.node tag.id) = true

theorem Linked.extend {m m' : RuleMemory} {body : List Stmt} (h : Linked m body) (hm : m.Extends m') :
    Linked m' body :=
  fun tag name hlabel hgoto => hm.labelReferenced (h tag name hlabel hgoto)

/-- A `goto` and a label statement of one name meet in one cell. -/
theorem State.GoesTo.labelReferenced {id : Nat} (hgoto : s.GoesTo name) (hlabel : s.Stands id name) :
    s.memory.labelReferenced (.node id) = true := by
  obtain ⟨entry, hlookup, hcell⟩ := hgoto
  obtain ⟨entry', hlookup', hcell'⟩ := hlabel
  obtain rfl := Option.some.inj (hlookup.symm.trans hlookup')
  simp only [RuleMemory.labelReferenced, hcell']
  exact hcell

/-- The numbers of label statements are different, and none of them has a cell. -/
def FreshIds (ids : List Nat) (s : State) : Prop :=
  ids.Nodup ∧ ∀ i ∈ ids, s.memory.labels[(Home.node i : Home StmtKind)]? = none

/-! ## What is known after some statements -/

/-- What is known of a state after statements were analysed: `ids` are the numbers of the label
statements among them, `own` is what is left of them in their routine, `fs` are the functions in it,
and `P` says among how many loops it can be emitted. -/
structure Reworked (ids : List Nat) (own : List Stmt) (fs : List (FunctionHead × List Stmt))
    (P : Nat → Prop) (s t : State) : Prop where
  advances : Advances s t
  given : ∀ i, t.memory.labels[(Home.node i : Home StmtKind)]?.isSome = true →
    s.memory.labels[(Home.node i : Home StmtKind)]?.isSome = true ∨ i ∈ ids
  goes : ∀ name ∈ own.filterMap Stmt.goto?, t.GoesTo name
  serves : t.Clean → P s.flow.loops
  nodup : t.Clean → (own.filterMap Stmt.label?).Nodup
  defines : t.Clean → ∀ name ∈ own.filterMap Stmt.label?, ¬ s.Defines name ∧ t.Defines name
  stands : t.Clean → FreshIds ids s → ∀ tag name, .label tag name ∈ own → t.Stands tag.id name
  linked : t.Clean → FreshIds ids s → ∀ p ∈ fs, Linked t.memory p.2

namespace Reworked

/-- Steps that have nothing to do with labels leave nothing to be known. -/
theorem of_calm (h : Calm s t) (hown : ∀ x ∈ own, x.goto? = none ∧ x.label? = none)
    (hP : t.Clean → P s.flow.loops) : Reworked ids own [] P s t := by
  have hgoto : own.filterMap Stmt.goto? = [] :=
    List.filterMap_eq_nil_iff.mpr fun x hx => (hown x hx).1
  have hlabel : own.filterMap Stmt.label? = [] :=
    List.filterMap_eq_nil_iff.mpr fun x hx => (hown x hx).2
  refine
    { advances := h.advances, given := fun i hi => ?_, goes := ?_, serves := hP, nodup := fun _ => ?_
      defines := fun _ => ?_, stands := fun _ _ tag name hmem => ?_, linked := nofun }
  · rw [h.labels] at hi
    exact Or.inl hi
  · rw [hgoto]
    nofun
  · rw [hlabel]
    exact List.nodup_nil
  · rw [hlabel]
    nofun
  · exact nomatch (hown _ hmem).2

/-- Statements and more statements. -/
theorem seq (h : Reworked ids own fs P s t) (h' : Reworked ids' own' fs' P' t u) :
    Reworked (ids ++ ids') (own ++ own') (fs ++ fs') (fun depth => P depth ∧ P' depth) s u := by
  have hclean : u.Clean → t.Clean := h'.advances.clean
  have hfresh : FreshIds (ids ++ ids') s → FreshIds ids s ∧ FreshIds ids' t := by
    rintro ⟨hnodup, hnew⟩
    obtain ⟨hids, hids', hdisjoint⟩ := List.nodup_append.mp hnodup
    refine ⟨⟨hids, fun i hi => hnew i (List.mem_append_left _ hi)⟩, hids', fun i hi => ?_⟩
    cases hcell : t.memory.labels[(Home.node i : Home StmtKind)]? with
    | none => rfl
    | some cell =>
      exfalso
      rcases h.given i (by rw [hcell]; rfl) with hs | hmem
      · rw [hnew i (List.mem_append_right _ hi)] at hs
        exact nomatch hs
      · exact hdisjoint i hmem i hi rfl
  refine
    { advances := h.advances.trans h'.advances, given := ?_, goes := ?_, serves := fun hu => ⟨?_, ?_⟩
      nodup := fun hu => ?_, defines := fun hu => ?_, stands := fun hu hf => ?_
      linked := fun hu hf => ?_ }
  · intro i hi
    rcases h'.given i hi with hi | hi
    · exact (h.given i hi).imp_right (List.mem_append_left _)
    · exact Or.inr (List.mem_append_right _ hi)
  · intro name hname
    rw [List.filterMap_append] at hname
    rcases List.mem_append.mp hname with hname | hname
    · exact h'.advances.goesTo (h.goes name hname)
    · exact h'.goes name hname
  · exact h.serves (hclean hu)
  · exact h.advances.loops ▸ h'.serves hu
  · rw [List.filterMap_append, List.nodup_append]
    refine ⟨h.nodup (hclean hu), h'.nodup hu, ?_⟩
    rintro name hname _ hname' rfl
    exact (h'.defines hu name hname').1 (h.defines (hclean hu) name hname).2
  · intro name hname
    rw [List.filterMap_append] at hname
    rcases List.mem_append.mp hname with hname | hname
    · obtain ⟨hs, ht⟩ := h.defines (hclean hu) name hname
      exact ⟨hs, h'.advances.defines ht⟩
    · obtain ⟨ht, hu'⟩ := h'.defines hu name hname
      exact ⟨fun hs => ht (h.advances.defines hs), hu'⟩
  · obtain ⟨hf, hf'⟩ := hfresh hf
    intro tag name hmem
    rcases List.mem_append.mp hmem with hmem | hmem
    · exact h'.advances.stands (h.stands (hclean hu) hf tag name hmem)
    · exact h'.stands hu hf' tag name hmem
  · obtain ⟨hf, hf'⟩ := hfresh hf
    intro p hp
    rcases List.mem_append.mp hp with hp | hp
    · exact (h.linked (hclean hu) hf p hp).extend h'.advances.memory
    · exact h'.linked hu hf' p hp

/-- What is left of statements can be thrown away. -/
theorem discard (h : Reworked ids own fs P s t) : Reworked ids [] [] (fun _ => True) s t where
  advances := h.advances
  given := h.given
  goes := nofun
  serves _ := trivial
  nodup _ := List.nodup_nil
  defines _ := nofun
  stands _ _ := nofun
  linked _ _ := nofun

/-- Statements that are put into another one, with steps around them that have nothing to do with
labels. -/
theorem around (h : Reworked ids own fs P s' t') (hs : Still s s') (ht : Still t' t)
    (hloops : s'.flow.loops = t'.flow.loops → t.flow.loops = s.flow.loops)
    (hP : P s'.flow.loops → P' s.flow.loops) : Reworked ids own fs P' s t := by
  have hclean : t.Clean → t'.Clean := fun h d hd => h d (ht.diagnostics d hd)
  have hfresh : FreshIds ids s → FreshIds ids s' := fun hf => ⟨hf.1, by rw [hs.labels]; exact hf.2⟩
  have hadvances : Advances s t :=
    { sound := fun h' => ht.sound (h.advances.sound (hs.sound h'))
      enclosing := ht.enclosing.trans (h.advances.enclosing.trans hs.enclosing)
      loops := hloops h.advances.loops.symm
      memory := hs.extends.trans (h.advances.memory.trans ht.extends)
      diagnostics := fun d hd => ht.diagnostics d (h.advances.diagnostics d (hs.diagnostics d hd))
      entries := fun hlookup => by
        rw [← hs.scope] at hlookup
        rw [ht.scope]
        exact h.advances.entries hlookup }
  refine
    { advances := hadvances, given := ?_, goes := ?_, serves := fun hc => hP (h.serves (hclean hc))
      nodup := fun hc => h.nodup (hclean hc), defines := fun hc => ?_, stands := fun hc hf => ?_
      linked := fun hc hf p hp => (h.linked (hclean hc) (hfresh hf) p hp).extend ht.extends }
  · intro i hi
    rw [ht.labels] at hi
    rw [← hs.labels]
    exact h.given i hi
  · intro name hname
    obtain ⟨entry, hlookup, hcell⟩ := h.goes name hname
    exact ⟨entry, by rw [ht.scope, hlookup], ht.extends.referenced hcell⟩
  · intro name hname
    have hdefines := h.defines (hclean hc) name hname
    unfold State.Defines at hdefines ⊢
    rwa [← hs.scope, ht.scope]
  · intro tag name hmem
    obtain ⟨entry, hlookup, hcell⟩ := h.stands (hclean hc) (hfresh hf) tag name hmem
    exact ⟨entry, by rw [ht.scope, hlookup], ht.extends.cells hcell⟩

end Reworked

/-! ## Labels and jumps to them -/

theorem lookup_putLabel (name : String) (entry : LabelEntry) (labels : List (String × LabelEntry))
    (n : String) :
    (State.putLabel name entry labels).lookup n = if n = name then some entry else labels.lookup n := by
  induction labels with
  | nil =>
    unfold State.putLabel
    rw [List.lookup_cons]
    split <;> simp_all
  | cons p rest ih =>
    obtain ⟨m, e⟩ := p
    unfold State.putLabel
    split
    · rename_i heq
      by_cases hn : n = name
      · rw [if_pos hn, List.lookup_cons, hn, heq, beq_self_eq_true]
      · rw [if_neg hn, List.lookup_cons, List.lookup_cons, heq, beq_false_of_ne hn]
    · rename_i hne
      rw [List.lookup_cons, List.lookup_cons, ih]
      by_cases hm : n = m
      · rw [hm, beq_self_eq_true]
        exact (if_neg hne).symm
      · rw [beq_false_of_ne hm]

/-- The state after the entry of a label was replaced by one with the same cell. -/
theorem advances_putLabel {entry : LabelEntry} {memory : RuleMemory} (hm : s.memory.Extends memory)
    (hcell : entry.cell < memory.referenced.size)
    (hsame : ∀ old, s.scope.labels.lookup name = some old →
      entry.cell = old.cell ∧ (old.definedAt.isSome = true → entry.definedAt.isSome = true)) :
    Advances s { s with
      memory
      scope := { s.scope with labels := State.putLabel name entry s.scope.labels } } where
  sound hs := by
    refine ⟨hs.table, fun {n e} hlookup => ?_⟩
    simp only [lookup_putLabel] at hlookup
    split at hlookup
    · obtain rfl := Option.some.inj hlookup
      exact hcell
    · exact Nat.lt_of_lt_of_le (hs.cells hlookup) hm.size
  enclosing := rfl
  loops := rfl
  memory := hm
  diagnostics _ hd := hd
  entries {n e} hlookup := by
    simp only [lookup_putLabel]
    by_cases hn : n = name
    · rw [hn] at hlookup
      obtain ⟨hc, hd⟩ := hsame e hlookup
      exact ⟨entry, if_pos hn, hc, hd⟩
    · exact ⟨e, by rw [if_neg hn, hlookup], rfl, id⟩

/-- The entry of a label is there afterwards; one that is made has no definition. -/
theorem labelEntry_spec (s : State) (name : String) (firstGoto : Option Span) :
    Advances s (s.labelEntry name firstGoto).2 ∧
      (s.labelEntry name firstGoto).2.scope.labels.lookup name =
        some (s.labelEntry name firstGoto).1 ∧
      (s.labelEntry name firstGoto).2.memory.labels = s.memory.labels ∧
      ((s.labelEntry name firstGoto).1.definedAt.isSome = true → s.Defines name) ∧
      (s.Defines name → (s.labelEntry name firstGoto).1.definedAt.isSome = true) := by
  unfold State.labelEntry
  split
  · rename_i entry hlookup
    refine ⟨.refl s, hlookup, rfl, fun hd => ⟨entry, hlookup, hd⟩, ?_⟩
    rintro ⟨entry', hlookup', hd⟩
    exact Option.some.inj (hlookup.symm.trans hlookup') ▸ hd
  · rename_i hlookup
    refine ⟨?_, ?_, rfl, nofun, ?_⟩
    · refine advances_putLabel (RuleMemory.extends_newCell _) ?_ ?_
      · show s.memory.referenced.size < (s.memory.referenced.push false).size
        rw [Array.size_push]
        exact Nat.lt_succ_self _
      · intro old hold
        rw [hlookup] at hold
        exact nomatch hold
    · exact (lookup_putLabel _ _ _ _).trans (if_pos rfl)
    · rintro ⟨entry', hlookup', -⟩
      rw [hlookup] at hlookup'
      exact nomatch hlookup'

/-- A `goto` sets the cell of its label. -/
theorem reworked_goto (hs : Sound s) (tag : StmtTag) (name : String) (span : Span)
    (hP : P s.flow.loops) : Reworked ids [.goto tag name] [] P s (s.gotoLabel name span) := by
  obtain ⟨hadvances, hlookup, hlabels, -, -⟩ := labelEntry_spec s name (some span)
  have hmark : Advances (s.labelEntry name (some span)).2 (s.gotoLabel name span) :=
    { sound := fun h => ⟨h.table, fun hl => Nat.lt_of_lt_of_le (h.cells hl)
        (RuleMemory.extends_markReferenced _ _).size⟩
      enclosing := rfl, loops := rfl, memory := RuleMemory.extends_markReferenced _ _
      diagnostics := fun _ hd => hd, entries := fun {_ entry} hl => ⟨entry, hl, rfl, id⟩ }
  refine
    { advances := hadvances.trans hmark, given := fun i hi => ?_, goes := ?_, serves := fun _ => hP
      nodup := fun _ => List.nodup_nil, defines := fun _ => nofun
      stands := fun _ _ tag' name' hmem => ?_, linked := nofun }
  · have heq : (s.gotoLabel name span).memory.labels = s.memory.labels := hlabels
    rw [heq] at hi
    exact Or.inl hi
  · intro n hn
    obtain rfl := List.mem_singleton.mp hn
    exact ⟨_, hlookup, RuleMemory.isReferenced_markReferenced _ ((hadvances.sound hs).cells hlookup)⟩
  · exact nomatch List.mem_singleton.mp hmem

/-- A label that is defined a second time is an error. -/
theorem not_clean_of_redeclared (name : String) (span earlier : Span) (s : State) :
    ¬ ((s.report (.labelRedeclared name) span).report .relatedLocation earlier).Clean := by
  intro h
  have hmem : (⟨.labelRedeclared name, span⟩ : Diagnostic) ∈
      ((s.report (.labelRedeclared name) span).report .relatedLocation earlier).diagnostics :=
    Array.mem_push_of_mem _ Array.mem_push_self
  exact nomatch h _ hmem

/-- The entry of a label gets a definition, and the rule of the label statement gets its cell. -/
theorem reworked_define {entry : LabelEntry} (tag : StmtTag) (hs : Sound s)
    (hlookup : s.scope.labels.lookup name = some entry) (hat : entry.definedAt = none)
    (hP : P s.flow.loops) :
    Reworked [tag.id] [.label tag name] [] P s { s with
      memory := s.memory.setLabel (.node tag.id) entry.cell
      scope := { s.scope with
        labels := State.putLabel name { entry with definedAt := some tag.span } s.scope.labels } } where
  advances := by
    have hcell : entry.cell < s.memory.referenced.size := hs.cells hlookup
    refine advances_putLabel (RuleMemory.extends_setLabel _ _ _) hcell fun old hold => ?_
    obtain rfl := Option.some.inj (hlookup.symm.trans hold)
    exact ⟨rfl, fun _ => rfl⟩
  given i hi := by
    by_cases heq : i = tag.id
    · exact Or.inr (heq ▸ List.mem_singleton_self _)
    · have hne : (Home.node tag.id : Home StmtKind) ≠ .node i := fun h => heq (Home.node.inj h).symm
      dsimp only at hi
      rw [RuleMemory.labels_setLabel_of_ne hne] at hi
      exact Or.inl hi
  goes := nofun
  serves _ := hP
  nodup _ := List.nodup_singleton _
  defines _ n hn := by
    obtain rfl := List.mem_singleton.mp hn
    refine ⟨?_, _, (lookup_putLabel _ _ _ _).trans (if_pos rfl), rfl⟩
    rintro ⟨old, hold, hdefined⟩
    obtain rfl := Option.some.inj (hlookup.symm.trans hold)
    rw [hat] at hdefined
    exact nomatch hdefined
  stands _ hfresh tag' name' hmem := by
    obtain ⟨rfl, rfl⟩ := Stmt.label.inj (List.mem_singleton.mp hmem)
    refine ⟨_, (lookup_putLabel _ _ _ _).trans (if_pos rfl), ?_⟩
    exact RuleMemory.labels_setLabel (hfresh.2 _ (List.mem_singleton_self _)) _
  linked := nofun

/-- A label statement defines its label, or that is an error. -/
theorem ends_analyzeLabel (hs : Sound s) (tag : StmtTag) (name : String) (hP : P s.flow.loops) :
    Pass.Ends (analyzeLabel tag name (.node tag.id)) s (fun x t =>
      x = .label tag name ∧ Reworked [tag.id] [.label tag name] [] P s t) fun _ => False := by
  obtain ⟨hadvances, hlookup, hlabels, hdefined⟩ := labelEntry_spec s name none
  obtain ⟨⟨entry, t⟩, hentry⟩ : ∃ p, p = s.labelEntry name none := ⟨_, rfl⟩
  rw [← hentry] at hadvances hlookup hlabels hdefined
  dsimp only at hadvances hlookup hlabels hdefined
  unfold analyzeLabel
  cases hat : entry.definedAt with
  | some earlier =>
    obtain ⟨u, hu⟩ : ∃ u, u = (t.report (.labelRedeclared name) tag.span).report .relatedLocation earlier :=
      ⟨_, rfl⟩
    have hrun : State.defineLabel name tag.span s = (none, u) := by
      simp only [State.defineLabel, ← hentry, hat, hu]
    have hdirty : ¬ u.Clean := hu ▸ not_clean_of_redeclared name tag.span earlier t
    have hcalm : Calm t u := hu ▸ (calm_report _ _ t).trans (calm_report _ _ _)
    refine Pass.Ends.bind (Q := fun cell v => cell = none ∧ v = u)
      (.transform (by rw [hrun]; exact ⟨rfl, rfl⟩)) ?_
    rintro _ _ ⟨rfl, rfl⟩
    refine .pure ⟨rfl, ?_⟩
    refine
      { advances := hadvances.trans hcalm.advances, given := fun i hi => ?_, goes := nofun
        serves := fun h => (hdirty h).elim, nodup := fun h => (hdirty h).elim
        defines := fun h => (hdirty h).elim, stands := fun h => (hdirty h).elim, linked := nofun }
    rw [hcalm.labels, hlabels] at hi
    exact Or.inl hi
  | none =>
    have hrun : State.defineLabel name tag.span s = (some entry.cell, { t with
        scope := { t.scope with
          labels := State.putLabel name { entry with definedAt := some tag.span } t.scope.labels } }) := by
      simp only [State.defineLabel, ← hentry, hat]
    have hbefore : Reworked [] [] [] (fun _ => True) s t :=
      { advances := hadvances, given := fun i hi => Or.inl (by rwa [hlabels] at hi), goes := nofun
        serves := fun _ => trivial, nodup := fun _ => List.nodup_nil, defines := fun _ => nofun
        stands := fun _ _ => nofun, linked := nofun }
    have hP' : P t.flow.loops := hadvances.loops.symm ▸ hP
    have hafter := hbefore.seq (reworked_define (P := P) tag (hadvances.sound hs) hlookup hat hP')
    refine Pass.Ends.bind (Q := fun cell v => cell = some entry.cell ∧ v = _)
      (.transform (by rw [hrun]; exact ⟨rfl, rfl⟩)) ?_
    rintro _ _ ⟨rfl, rfl⟩
    exact ⟨rfl, { hafter with serves := fun h => (hafter.serves h).2 }⟩

/-! ## Routines -/

theorem calm_reportUndefined (s : State) : Calm s s.reportUndefined := by
  unfold State.reportUndefined
  generalize s.scope.labels = labels
  induction labels generalizing s with
  | nil => exact .refl s
  | cons p rest ih =>
    refine Calm.trans ?_ (ih _)
    dsimp only
    split
    · exact calm_report _ _ s
    · exact .refl s

/-- The labels of a routine that are left and gone to are linked at its end. -/
theorem Reworked.linked_body {body : List Stmt} (h : Reworked ids (Stmt.ownOf body) fs P s t)
    (hclean : t.Clean) (hfresh : FreshIds ids s) : Linked t.memory body :=
  fun tag name hlabel hgoto => (h.goes name hgoto).labelReferenced (h.stands hclean hfresh tag name hlabel)

/-- Nothing of a routine is left around it but the function itself. -/
theorem Reworked.function {tag : StmtTag} {head : FunctionHead} {body : List Stmt} {dead : Bool}
    {returnsRef : Bool} (h : Reworked ids (Stmt.ownOf body) fs P (s.enterRoutine returnsRef) t)
    (hP : P 0 → ((Stmt.ownOf body).filterMap Stmt.label?).Nodup → P' s.flow.loops) :
    Reworked ids [.function tag head body dead] (fs ++ [(head, body)]) P' s t.leaveRoutine := by
  have hleave : t.leaveRoutine =
      { t.reportUndefined with scope := s.scope, flow := s.flow, enclosing := s.enclosing } := by
    have henclosing : t.enclosing = (s.scope, s.flow) :: s.enclosing := h.advances.enclosing
    simp only [State.leaveRoutine, henclosing]
  have hreport := calm_reportUndefined t
  have hmemory : s.memory.Extends t.leaveRoutine.memory := by
    rw [hleave]
    exact h.advances.memory.trans hreport.extends
  have hlast : t.memory.Extends t.leaveRoutine.memory := by
    rw [hleave]
    exact hreport.extends
  have hclean : t.leaveRoutine.Clean → t.Clean := by
    rw [hleave]
    exact hreport.advances.clean
  have hfresh : FreshIds ids s → FreshIds ids (s.enterRoutine returnsRef) := id
  refine
    { advances := ?_, given := fun i hi => ?_, goes := nofun
      serves := fun hc => hP (h.serves (hclean hc)) (h.nodup (hclean hc))
      nodup := fun _ => List.nodup_nil, defines := fun _ => nofun
      stands := fun _ _ tag' name' hmem => (nomatch List.mem_singleton.mp hmem)
      linked := fun hc hf p hp => ?_ }
  · have hsound : Sound s → Sound t.leaveRoutine := by
      intro hs
      have ht : Sound t := h.advances.sound (hs.enterRoutine _)
      refine ⟨?_, fun hlookup => Nat.lt_of_lt_of_le ?_ hmemory.size⟩
      · rw [hleave]
        exact hreport.table ht.table
      · rw [hleave] at hlookup
        exact hs.cells hlookup
    rw [hleave] at hsound hmemory ⊢
    exact
      { sound := hsound, enclosing := rfl, loops := rfl, memory := hmemory
        diagnostics := fun d hd => hreport.diagnostics d (h.advances.diagnostics d hd)
        entries := fun {_ entry} hlookup => ⟨entry, hlookup, rfl, id⟩ }
  · rw [hleave] at hi
    dsimp only at hi
    rw [hreport.labels] at hi
    exact h.given i hi
  · rcases List.mem_append.mp hp with hp | hp
    · exact (h.linked (hclean hc) (hfresh hf) p hp).extend hlast
    · obtain rfl := List.mem_singleton.mp hp
      exact (h.linked_body (hclean hc) (hfresh hf)).extend hlast

end Analysis
end PhpLowering
