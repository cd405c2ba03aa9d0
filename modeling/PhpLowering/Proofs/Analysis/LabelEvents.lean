import Mathlib.Data.List.Induction
import PhpLowering.Proofs.Analysis.Labels

/-!
# Labels, whatever the order in which they are met

In a routine the labels are met in two ways: a `goto` goes to one, and a label statement defines one.  The two come in
any order, and any number of times.  What the analysis knows of a label is determined by what has happened (`Records`):
the entries come in the order in which the names were first mentioned, each has the place of the first definition, or
else that of the first `goto`, and its cell says whether there has been a `goto`.

From that, **`labels_resolved`** reads off what is reported of each label and what is handed out for it.
-/

namespace PhpLowering

namespace RuleMemory

variable {m : RuleMemory} {cell : Nat}

theorem lt_size_of_isReferenced (h : m.isReferenced cell = true) : cell < m.referenced.size :=
  (Array.getElem?_eq_some_iff.mp (isReferenced_iff.mp h)).1

/-- A cell is set without any other. -/
theorem isReferenced_markReferenced_of_ne (m : RuleMemory) {c : Nat} (h : cell ≠ c) :
    (m.markReferenced c).isReferenced cell = m.isReferenced cell := by
  show (m.referenced.setIfInBounds c true).getD cell false = m.referenced.getD cell false
  rw [Array.getD_eq_getD_getElem?, Array.getD_eq_getD_getElem?, Array.getElem?_setIfInBounds_ne h.symm]

end RuleMemory

namespace Analysis

/-! ## What happens to labels -/

/-- A label is met. -/
inductive LabelEvent where
  | goto (name : String) (span : Span)
  | define (name : String) (span : Span)

namespace LabelEvent

/-- The name of the label. -/
def name : LabelEvent → String
  | .goto name _ | .define name _ => name

/-- The place of a `goto` to the label with this name. -/
def gotoAt? (name : String) : LabelEvent → Option Span
  | .goto n span => if n = name then some span else none
  | .define .. => none

/-- The place of a definition of the label with this name. -/
def definedAt? (name : String) : LabelEvent → Option Span
  | .define n span => if n = name then some span else none
  | .goto .. => none

end LabelEvent

open LabelEvent (gotoAt? definedAt?)

/-- The names in the order in which they are first mentioned. -/
def mentioned (events : List LabelEvent) : List String :=
  (events.map LabelEvent.name).eraseDups

/-- The place of the first `goto` to a label. -/
def firstGoto (events : List LabelEvent) (name : String) : Option Span :=
  events.findSome? (gotoAt? name)

/-- The place of the first definition of a label. -/
def firstDefinition (events : List LabelEvent) (name : String) : Option Span :=
  events.findSome? (definedAt? name)

/-- What is reported of the labels that have a `goto` and no definition. -/
def undefinedLabels (events : List LabelEvent) : List Diagnostic :=
  (mentioned events).filterMap fun name =>
    match firstDefinition events name, firstGoto events name with
    | none, some span => some ⟨.undefinedLabel name, span⟩
    | _, _ => none

/-- What is reported when a label is met after others: that it has been defined before, and where. -/
def redefinition (before : List LabelEvent) : LabelEvent → List Diagnostic
  | .goto .. => []
  | .define name span =>
    match firstDefinition before name with
    | some first => [⟨.labelRedeclared name, span⟩, ⟨.relatedLocation, first⟩]
    | none => []

namespace State

/-- Meets a label. -/
def meet (s : State) : LabelEvent → State
  | .goto name span => s.gotoLabel name span
  | .define name span => (s.defineLabel name span).2

/-- Meets labels in order. -/
def meetAll (events : List LabelEvent) (s : State) : State :=
  events.foldl meet s

theorem meetAll_append (events events' : List LabelEvent) (s : State) :
    s.meetAll (events ++ events') = (s.meetAll events).meetAll events' :=
  List.foldl_append

end State

section

variable {events before after : List LabelEvent} {event : LabelEvent} {name n : String} {span : Span}
  {s t t' : State} {memory memory' : RuleMemory} {entry : LabelEntry} {labels : List (String × LabelEntry)}

theorem mem_mentioned : name ∈ mentioned events ↔ ∃ event ∈ events, event.name = name := by
  rw [mentioned, List.mem_eraseDups, List.mem_map]

theorem mentioned_concat_of_mem (h : event.name ∈ mentioned events) :
    mentioned (events ++ [event]) = mentioned events := by
  have hnone : [event.name].removeAll (events.map LabelEvent.name) = [] := by
    simpa [List.removeAll, mentioned] using h
  rw [mentioned, List.map_append, List.eraseDups_append, List.map_singleton, hnone, List.eraseDups_nil, List.append_nil]
  rfl

theorem mentioned_concat_of_notMem (h : event.name ∉ mentioned events) :
    mentioned (events ++ [event]) = mentioned events ++ [event.name] := by
  have hnew : [event.name].removeAll (events.map LabelEvent.name) = [event.name] := by
    simpa [List.removeAll, mentioned] using h
  rw [mentioned, List.map_append, List.eraseDups_append, List.map_singleton, hnew]
  rfl

theorem firstGoto_concat (events : List LabelEvent) (event : LabelEvent) (name : String) :
    firstGoto (events ++ [event]) name = (firstGoto events name).or (gotoAt? name event) := by
  rw [firstGoto, List.findSome?_append, List.findSome?_singleton]
  rfl

theorem firstDefinition_concat (events : List LabelEvent) (event : LabelEvent) (name : String) :
    firstDefinition (events ++ [event]) name = (firstDefinition events name).or (definedAt? name event) := by
  rw [firstDefinition, List.findSome?_append, List.findSome?_singleton]
  rfl

theorem gotoAt?_of_ne (h : event.name ≠ name) : gotoAt? name event = none := by
  cases event with
  | goto => exact if_neg h
  | define => rfl

theorem definedAt?_of_ne (h : event.name ≠ name) : definedAt? name event = none := by
  cases event with
  | goto => rfl
  | define => exact if_neg h

theorem isSome_gotoAt? : (gotoAt? name event).isSome = true ↔ ∃ span, event = .goto name span := by
  cases event with
  | goto n span => by_cases h : n = name <;> simp [gotoAt?, h]
  | define => simp [gotoAt?]

/-- A label that has a `goto`. -/
theorem isSome_firstGoto : (firstGoto events name).isSome = true ↔ ∃ span, .goto name span ∈ events := by
  rw [firstGoto, List.findSome?_isSome_iff]
  constructor
  · rintro ⟨event, hevent, hsome⟩
    obtain ⟨span, rfl⟩ := isSome_gotoAt?.mp hsome
    exact ⟨span, hevent⟩
  · rintro ⟨span, hevent⟩
    exact ⟨_, hevent, isSome_gotoAt?.mpr ⟨span, rfl⟩⟩

/-- A label that has been mentioned and not defined has a `goto`. -/
theorem isSome_firstGoto_of_mentioned (h : name ∈ mentioned events) (hdef : firstDefinition events name = none) :
    (firstGoto events name).isSome = true := by
  obtain ⟨event, hevent, hname⟩ := mem_mentioned.mp h
  have hnone := List.findSome?_eq_none_iff.mp hdef event hevent
  cases event with
  | goto n span =>
    obtain rfl : n = name := hname
    exact isSome_firstGoto.mpr ⟨span, hevent⟩
  | define n span => exact nomatch (if_pos hname).symm.trans hnone

theorem first_of_notMem (h : name ∉ mentioned events) :
    firstGoto events name = none ∧ firstDefinition events name = none := by
  have hne : ∀ event ∈ events, event.name ≠ name := fun event hevent heq => h (mem_mentioned.mpr ⟨event, hevent, heq⟩)
  exact ⟨List.findSome?_eq_none_iff.mpr fun event hevent => gotoAt?_of_ne (hne event hevent),
    List.findSome?_eq_none_iff.mpr fun event hevent => definedAt?_of_ne (hne event hevent)⟩

/-! ## The entries of labels -/

theorem map_fst_putLabel_of_mem (h : name ∈ labels.map Prod.fst) :
    (State.putLabel name entry labels).map Prod.fst = labels.map Prod.fst := by
  induction labels with
  | nil => exact nomatch h
  | cons p rest ih =>
    obtain ⟨m, e⟩ := p
    rw [State.putLabel]
    split
    · rfl
    · rename_i hne
      rcases List.mem_cons.mp h with heq | hrest
      · exact absurd heq.symm hne
      · rw [List.map_cons, List.map_cons, ih hrest]

theorem putLabel_of_notMem (h : name ∉ labels.map Prod.fst) :
    State.putLabel name entry labels = labels ++ [(name, entry)] := by
  induction labels with
  | nil => rfl
  | cons p rest ih =>
    obtain ⟨m, e⟩ := p
    rw [List.map_cons, List.mem_cons, not_or] at h
    obtain ⟨hne, hrest⟩ := h
    rw [State.putLabel, if_neg (Ne.symm hne), ih hrest, List.cons_append]

/-- Nothing is changed if an entry is put in its own place. -/
theorem putLabel_self (h : labels.lookup name = some entry) : State.putLabel name entry labels = labels := by
  induction labels with
  | nil => exact nomatch h
  | cons p rest ih =>
    obtain ⟨m, e⟩ := p
    rw [List.lookup_cons] at h
    rw [State.putLabel]
    split
    · rename_i heq
      subst heq
      rw [beq_self_eq_true] at h
      rw [Option.some.inj h]
    · rename_i hne
      rw [beq_false_of_ne (Ne.symm hne)] at h
      rw [ih h]

/-- What is known of a label after some events. -/
structure Recorded (events : List LabelEvent) (memory : RuleMemory) (name : String) (entry : LabelEntry) : Prop where
  definedAt : entry.definedAt = firstDefinition events name
  firstGoto : entry.definedAt = none → entry.firstGoto = firstGoto events name
  referenced : memory.isReferenced entry.cell = (Analysis.firstGoto events name).isSome
  cell : entry.cell < memory.referenced.size

/-- An event does not concern labels of other names. -/
theorem Recorded.other (h : Recorded events memory name entry) (hname : event.name ≠ name)
    (hcell : memory'.isReferenced entry.cell = memory.isReferenced entry.cell)
    (hsize : memory.referenced.size ≤ memory'.referenced.size) :
    Recorded (events ++ [event]) memory' name entry where
  definedAt := by rw [firstDefinition_concat, definedAt?_of_ne hname, Option.or_none, h.definedAt]
  firstGoto hnone := by rw [firstGoto_concat, gotoAt?_of_ne hname, Option.or_none, h.firstGoto hnone]
  referenced := by rw [firstGoto_concat, gotoAt?_of_ne hname, Option.or_none, hcell, h.referenced]
  cell := Nat.lt_of_lt_of_le h.cell hsize

/-- The labels of a routine after some events. -/
structure Records (events : List LabelEvent) (t : State) : Prop where
  names : t.scope.labels.map Prod.fst = mentioned events
  entries : ∀ {name entry}, t.scope.labels.lookup name = some entry → Recorded events t.memory name entry
  apart : ∀ {name name' entry entry'}, t.scope.labels.lookup name = some entry →
    t.scope.labels.lookup name' = some entry' → entry.cell = entry'.cell → name = name'

/-- The entry of a label is made or replaced. -/
theorem Records.put (h : Records events t) (hname : event.name = name)
    (hlabels : t'.scope.labels = State.putLabel name entry t.scope.labels)
    (hentry : Recorded (events ++ [event]) t'.memory name entry)
    (hown : ∀ {n e}, t.scope.labels.lookup n = some e → e.cell = entry.cell → n = name)
    (hcells : ∀ {cell}, cell ≠ entry.cell → t'.memory.isReferenced cell = t.memory.isReferenced cell)
    (hsize : t.memory.referenced.size ≤ t'.memory.referenced.size) : Records (events ++ [event]) t' where
  names := by
    rw [hlabels]
    by_cases hmem : name ∈ mentioned events
    · rw [map_fst_putLabel_of_mem (h.names ▸ hmem), h.names, mentioned_concat_of_mem (hname ▸ hmem)]
    · rw [putLabel_of_notMem (h.names ▸ hmem), List.map_append, h.names, mentioned_concat_of_notMem (hname ▸ hmem),
        hname, List.map_singleton]
  entries {n e} hlookup := by
    rw [hlabels, lookup_putLabel] at hlookup
    split at hlookup
    · rename_i heq
      cases hlookup
      exact heq ▸ hentry
    · rename_i hne
      exact (h.entries hlookup).other (hname ▸ Ne.symm hne) (hcells fun heq => hne (hown hlookup heq)) hsize
  apart {n n' e e'} hlookup hlookup' heq := by
    rw [hlabels, lookup_putLabel] at hlookup hlookup'
    split at hlookup <;> split at hlookup'
    · simp only [*]
    · rename_i hn hn'
      cases hlookup
      exact hn.trans (hown hlookup' heq.symm).symm
    · rename_i hn hn'
      cases hlookup'
      exact (hown hlookup heq).trans hn'.symm
    · exact h.apart hlookup hlookup' heq

/-- An entry that has been put is replaced. -/
theorem putLabel_putLabel (name : String) (old entry : LabelEntry) (labels : List (String × LabelEntry)) :
    State.putLabel name entry (State.putLabel name old labels) = State.putLabel name entry labels := by
  induction labels with
  | nil => simp only [State.putLabel, if_pos]
  | cons p rest ih =>
    obtain ⟨m, e⟩ := p
    by_cases heq : m = name
    · simp only [State.putLabel, if_pos heq]
    · simp only [State.putLabel, if_neg heq, ih]

theorem Records.mentioned_of_lookup (h : Records events t) (hlookup : t.scope.labels.lookup name = some entry) :
    name ∈ mentioned events := by
  obtain ⟨front, back, hlabels, -⟩ := List.lookup_eq_some_iff.mp hlookup
  rw [← h.names, hlabels]
  exact List.mem_map_of_mem (List.mem_append_right front List.mem_cons_self)

theorem Records.notMem_of_lookup (h : Records events t) (hlookup : t.scope.labels.lookup name = none) :
    name ∉ mentioned events := by
  rw [← h.names]
  intro hmem
  obtain ⟨p, hp, rfl⟩ := List.mem_map.mp hmem
  exact absurd (List.lookup_eq_none_iff.mp hlookup p hp) (by simp)

/-! ## One event -/

namespace State

theorem gotoLabel_of_some (hlookup : t.scope.labels.lookup name = some entry) (span : Span) :
    t.gotoLabel name span = { t with memory := t.memory.markReferenced entry.cell } := by
  simp only [gotoLabel, labelEntry, hlookup]

theorem gotoLabel_of_none (hlookup : t.scope.labels.lookup name = none) (span : Span) :
    t.gotoLabel name span =
      { t with
        memory := t.memory.newCell.2.markReferenced t.memory.referenced.size
        scope.labels := putLabel name ⟨t.memory.referenced.size, none, some span⟩ t.scope.labels } := by
  simp only [gotoLabel, labelEntry, hlookup]
  rfl

theorem defineLabel_of_defined {earlier : Span} (hlookup : t.scope.labels.lookup name = some entry)
    (hdef : entry.definedAt = some earlier) (span : Span) :
    t.defineLabel name span =
      (none, (t.report (.labelRedeclared name) span).report .relatedLocation earlier) := by
  simp only [defineLabel, labelEntry, hlookup, hdef]

theorem defineLabel_of_undefined (hlookup : t.scope.labels.lookup name = some entry) (hdef : entry.definedAt = none)
    (span : Span) :
    t.defineLabel name span = (some entry.cell,
      { t with scope.labels := putLabel name { entry with definedAt := some span } t.scope.labels }) := by
  simp only [defineLabel, labelEntry, hlookup, hdef]

theorem defineLabel_of_none (hlookup : t.scope.labels.lookup name = none) (span : Span) :
    t.defineLabel name span = (some t.memory.referenced.size,
      { t with
        memory := t.memory.newCell.2
        scope.labels := putLabel name ⟨t.memory.referenced.size, some span, none⟩ t.scope.labels }) := by
  simp only [defineLabel, labelEntry, hlookup, putLabel_putLabel]
  rfl

end State

theorem gotoAt?_self : gotoAt? name (.goto name span) = some span :=
  if_pos rfl

theorem definedAt?_self : definedAt? name (.define name span) = some span :=
  if_pos rfl

theorem firstGoto_concat_define (events : List LabelEvent) (name : String) (span : Span) :
    firstGoto (events ++ [.define name span]) name = firstGoto events name :=
  (firstGoto_concat _ _ _).trans Option.or_none

theorem firstDefinition_concat_goto (events : List LabelEvent) (name : String) (span : Span) :
    firstDefinition (events ++ [.goto name span]) name = firstDefinition events name :=
  (firstDefinition_concat _ _ _).trans Option.or_none

theorem isSome_firstGoto_concat_goto (events : List LabelEvent) (name : String) (span : Span) :
    (firstGoto (events ++ [.goto name span]) name).isSome = true :=
  isSome_firstGoto.mpr ⟨span, List.mem_append_right _ List.mem_cons_self⟩

theorem lt_size_newCell (m : RuleMemory) : m.referenced.size < m.newCell.2.referenced.size := by
  show _ < (m.referenced.push false).size
  rw [Array.size_push]
  exact Nat.lt_succ_self _

/-- No label has the cell that is made next. -/
theorem Records.cell_ne (h : Records events t) (hlookup : t.scope.labels.lookup n = some entry) :
    entry.cell ≠ t.memory.referenced.size :=
  Nat.ne_of_lt (h.entries hlookup).cell

/-- A `goto` sets the cell of its label. -/
theorem Records.goto (h : Records events t) (name : String) (span : Span) :
    Records (events ++ [.goto name span]) (t.gotoLabel name span) := by
  cases hlookup : t.scope.labels.lookup name with
  | some entry =>
    rw [State.gotoLabel_of_some hlookup]
    have hbefore := h.entries hlookup
    have hsize := (t.memory.extends_markReferenced entry.cell).size
    have hentry : Recorded (events ++ [.goto name span]) (t.memory.markReferenced entry.cell) name entry :=
      { definedAt := by rw [firstDefinition_concat_goto, hbefore.definedAt]
        firstGoto := fun hnone => by
          have hsome := isSome_firstGoto_of_mentioned (h.mentioned_of_lookup hlookup) (hbefore.definedAt ▸ hnone)
          rw [firstGoto_concat, Option.or_of_isSome hsome, hbefore.firstGoto hnone]
        referenced := by
          rw [isSome_firstGoto_concat_goto]
          exact t.memory.isReferenced_markReferenced hbefore.cell
        cell := Nat.lt_of_lt_of_le hbefore.cell hsize }
    exact h.put rfl (putLabel_self hlookup).symm hentry (fun hother heq => h.apart hother hlookup heq)
      t.memory.isReferenced_markReferenced_of_ne hsize
  | none =>
    rw [State.gotoLabel_of_none hlookup]
    obtain ⟨hgoto, hdef⟩ := first_of_notMem (h.notMem_of_lookup hlookup)
    have hnew := lt_size_newCell t.memory
    have hmarked := (t.memory.newCell.2.extends_markReferenced t.memory.referenced.size).size
    have hentry : Recorded (events ++ [.goto name span]) (t.memory.newCell.2.markReferenced t.memory.referenced.size)
        name ⟨t.memory.referenced.size, none, some span⟩ :=
      { definedAt := by rw [firstDefinition_concat_goto, hdef]
        firstGoto := fun _ => by rw [firstGoto_concat, hgoto, gotoAt?_self, Option.none_or]
        referenced := by
          rw [isSome_firstGoto_concat_goto]
          exact RuleMemory.isReferenced_markReferenced _ hnew
        cell := Nat.lt_of_lt_of_le hnew hmarked }
    refine h.put rfl rfl hentry (fun hother heq => absurd heq (h.cell_ne hother)) (fun hne => ?_)
      (Nat.le_trans (Nat.le_of_lt hnew) hmarked)
    exact (RuleMemory.isReferenced_markReferenced_of_ne _ hne).trans (t.memory.isReferenced_newCell _)

/-- The first definition is recorded; any other one changes nothing. -/
theorem Records.define (h : Records events t) (name : String) (span : Span) :
    Records (events ++ [.define name span]) (t.defineLabel name span).2 := by
  cases hlookup : t.scope.labels.lookup name with
  | some entry =>
    have hbefore := h.entries hlookup
    have hreferenced : t.memory.isReferenced entry.cell = (firstGoto (events ++ [.define name span]) name).isSome := by
      rw [firstGoto_concat_define, hbefore.referenced]
    cases hdef : entry.definedAt with
    | some earlier =>
      rw [State.defineLabel_of_defined hlookup hdef]
      have hentry : Recorded (events ++ [.define name span]) t.memory name entry :=
        { definedAt := by rw [firstDefinition_concat, ← hbefore.definedAt, hdef, Option.some_or]
          firstGoto := fun hnone => nomatch hdef.symm.trans hnone
          referenced := hreferenced
          cell := hbefore.cell }
      exact h.put rfl (putLabel_self hlookup).symm hentry (fun hother heq => h.apart hother hlookup heq)
        (fun _ => rfl) (Nat.le_refl _)
    | none =>
      rw [State.defineLabel_of_undefined hlookup hdef]
      have hentry : Recorded (events ++ [.define name span]) t.memory name { entry with definedAt := some span } :=
        { definedAt := by rw [firstDefinition_concat, ← hbefore.definedAt, hdef, definedAt?_self, Option.none_or]
          firstGoto := nofun
          referenced := hreferenced
          cell := hbefore.cell }
      exact h.put rfl rfl hentry (fun hother heq => h.apart hother hlookup heq) (fun _ => rfl) (Nat.le_refl _)
  | none =>
    rw [State.defineLabel_of_none hlookup]
    obtain ⟨hgoto, hdef⟩ := first_of_notMem (h.notMem_of_lookup hlookup)
    have hnew := lt_size_newCell t.memory
    have hentry : Recorded (events ++ [.define name span]) t.memory.newCell.2 name
        ⟨t.memory.referenced.size, some span, none⟩ :=
      { definedAt := by rw [firstDefinition_concat, hdef, definedAt?_self, Option.none_or]
        firstGoto := nofun
        referenced := by
          rw [firstGoto_concat_define, hgoto, RuleMemory.isReferenced_newCell, Option.isSome_none, Bool.eq_false_iff]
          exact fun hset => Nat.lt_irrefl _ (RuleMemory.lt_size_of_isReferenced hset)
        cell := hnew }
    exact h.put rfl rfl hentry (fun hother heq => absurd heq (h.cell_ne hother))
      (fun _ => t.memory.isReferenced_newCell _) (Nat.le_of_lt hnew)

/-! ## Many events -/

/-- **After any events the labels are recorded as they have been met.** -/
theorem records_meetAll (h : s.scope.labels = []) (events : List LabelEvent) : Records events (s.meetAll events) := by
  induction events using List.reverseRecOn with
  | nil =>
    have hnone : ∀ name entry, s.scope.labels.lookup name ≠ some entry := fun name entry hlookup => by
      rw [h] at hlookup
      exact nomatch hlookup
    exact ⟨congrArg (List.map Prod.fst) h, fun hlookup => absurd hlookup (hnone _ _),
      fun hlookup => absurd hlookup (hnone _ _)⟩
  | append_singleton events event ih =>
    rw [State.meetAll_append]
    cases event with
    | goto name span => exact ih.goto name span
    | define name span => exact ih.define name span

theorem nodup_mentioned (events : List LabelEvent) : (mentioned events).Nodup := by
  induction events using List.reverseRecOn with
  | nil => exact List.nodup_nil
  | append_singleton events event ih =>
    by_cases h : event.name ∈ mentioned events
    · rwa [mentioned_concat_of_mem h]
    · rw [mentioned_concat_of_notMem h]
      exact List.nodup_append.mpr ⟨ih, List.nodup_singleton _, fun a ha b hb heq =>
        h (List.mem_singleton.mp hb ▸ heq ▸ ha)⟩

theorem lookup_of_mem (hnodup : (labels.map Prod.fst).Nodup) (h : (name, entry) ∈ labels) :
    labels.lookup name = some entry := by
  obtain ⟨front, back, rfl⟩ := List.append_of_mem h
  refine List.lookup_eq_some_iff.mpr ⟨front, back, rfl, fun p hp => ?_⟩
  rw [List.map_append, List.map_cons] at hnodup
  exact bne_iff_ne.mpr ((List.nodup_append.mp hnodup).2.2 _ (List.mem_map_of_mem hp) _ List.mem_cons_self).symm

/-- What is reported of an entry at the end of its routine. -/
def undefined? : String × LabelEntry → Option Diagnostic
  | (name, entry) => if entry.definedAt.isNone then some ⟨.undefinedLabel name, entry.firstGoto.getD {}⟩ else none

theorem diagnostics_reportUndefined (t : State) :
    t.reportUndefined.diagnostics = t.diagnostics ++ (t.scope.labels.filterMap undefined?).toArray := by
  unfold State.reportUndefined
  generalize t.scope.labels = labels
  induction labels generalizing t with
  | nil => simp
  | cons p rest ih =>
    obtain ⟨name, entry⟩ := p
    rw [List.foldl_cons, ih, List.filterMap_cons]
    cases hdef : entry.definedAt with
    | some earlier => simp [undefined?, hdef]
    | none => simp [undefined?, hdef, State.report]

/-- What is reported of a label at the end is determined by how it has been met. -/
theorem Records.undefined?_eq (h : Records events t) :
    t.scope.labels.filterMap undefined? = undefinedLabels events := by
  rw [undefinedLabels, ← h.names, List.filterMap_map]
  refine List.filterMap_congr fun ⟨name, entry⟩ hmem => ?_
  have hlookup := lookup_of_mem (h.names ▸ nodup_mentioned events) hmem
  have hrecorded := h.entries hlookup
  rw [Function.comp_apply, ← hrecorded.definedAt, undefined?]
  cases hdef : entry.definedAt with
  | some first => rfl
  | none =>
    have hsome := isSome_firstGoto_of_mentioned (h.mentioned_of_lookup hlookup) (hrecorded.definedAt ▸ hdef)
    obtain ⟨span, hspan⟩ := Option.isSome_iff_exists.mp hsome
    rw [hrecorded.firstGoto hdef, hspan]
    rfl

/-- A label keeps its cell when an entry is put. -/
theorem cell_putLabel {e : LabelEntry} (hlookup : labels.lookup name = some entry)
    (hsame : n = name → e.cell = entry.cell) :
    ∃ entry', (State.putLabel n e labels).lookup name = some entry' ∧ entry'.cell = entry.cell := by
  rw [lookup_putLabel]
  by_cases hn : name = n
  · exact ⟨e, if_pos hn, hsame hn.symm⟩
  · exact ⟨entry, by rw [if_neg hn, hlookup], rfl⟩

theorem cell_meet (event : LabelEvent) (hlookup : t.scope.labels.lookup name = some entry) :
    ∃ entry', (t.meet event).scope.labels.lookup name = some entry' ∧ entry'.cell = entry.cell := by
  cases event with
  | goto n span =>
    rw [State.meet]
    cases hn : t.scope.labels.lookup n with
    | some e =>
      rw [State.gotoLabel_of_some hn]
      exact ⟨entry, hlookup, rfl⟩
    | none =>
      rw [State.gotoLabel_of_none hn]
      refine cell_putLabel hlookup fun heq => ?_
      rw [heq, hlookup] at hn
      exact nomatch hn
  | define n span =>
    rw [State.meet]
    cases hn : t.scope.labels.lookup n with
    | some e =>
      cases hdef : e.definedAt with
      | some earlier =>
        rw [State.defineLabel_of_defined hn hdef]
        exact ⟨entry, hlookup, rfl⟩
      | none =>
        rw [State.defineLabel_of_undefined hn hdef]
        refine cell_putLabel hlookup fun heq => ?_
        rw [heq, hlookup] at hn
        rw [Option.some.inj hn]
    | none =>
      rw [State.defineLabel_of_none hn]
      refine cell_putLabel hlookup fun heq => ?_
      rw [heq, hlookup] at hn
      exact nomatch hn

/-- A label keeps its cell. -/
theorem cell_meetAll (events : List LabelEvent) (hlookup : t.scope.labels.lookup name = some entry) :
    ∃ entry', (t.meetAll events).scope.labels.lookup name = some entry' ∧ entry'.cell = entry.cell := by
  induction events generalizing t entry with
  | nil => exact ⟨entry, hlookup, rfl⟩
  | cons event rest ih =>
    obtain ⟨entry', hlookup', hcell⟩ := cell_meet event hlookup
    obtain ⟨entry'', hlookup'', hcell'⟩ := ih hlookup'
    exact ⟨entry'', hlookup'', hcell'.trans hcell⟩

/-- What an event reports. -/
theorem Records.diagnostics_meet (h : Records events t) (event : LabelEvent) :
    (t.meet event).diagnostics = t.diagnostics ++ (redefinition events event).toArray := by
  cases event with
  | goto name span =>
    rw [State.meet, redefinition, Array.append_empty]
    cases hlookup : t.scope.labels.lookup name with
    | some entry => rw [State.gotoLabel_of_some hlookup]
    | none => rw [State.gotoLabel_of_none hlookup]
  | define name span =>
    rw [State.meet, redefinition]
    cases hlookup : t.scope.labels.lookup name with
    | some entry =>
      rw [← (h.entries hlookup).definedAt]
      cases hdef : entry.definedAt with
      | some earlier =>
        rw [State.defineLabel_of_defined hlookup hdef]
        simp only [State.report, Array.push_eq_append, Array.append_assoc]
        rfl
      | none => simp [State.defineLabel_of_undefined hlookup hdef]
    | none =>
      rw [(first_of_notMem (h.notMem_of_lookup hlookup)).2, State.defineLabel_of_none hlookup]
      simp

/-- A definition is answered with a cell, which is that of the label from then on, unless the label has been defined. -/
theorem Records.answer_define (h : Records events t) (name : String) (span : Span) :
    match firstDefinition events name with
    | some _ => (t.defineLabel name span).1 = none
    | none => ∃ entry, (t.defineLabel name span).1 = some entry.cell ∧
        (t.defineLabel name span).2.scope.labels.lookup name = some entry := by
  cases hlookup : t.scope.labels.lookup name with
  | some entry =>
    rw [← (h.entries hlookup).definedAt]
    cases hdef : entry.definedAt with
    | some earlier => rw [State.defineLabel_of_defined hlookup hdef]
    | none =>
      rw [State.defineLabel_of_undefined hlookup hdef]
      exact ⟨{ entry with definedAt := some span }, rfl, (lookup_putLabel _ _ _ _).trans (if_pos rfl)⟩
  | none =>
    rw [(first_of_notMem (h.notMem_of_lookup hlookup)).2, State.defineLabel_of_none hlookup]
    exact ⟨_, rfl, (lookup_putLabel _ _ _ _).trans (if_pos rfl)⟩

/-- **Labels are resolved whatever the order in which they are met.**  At the end of the routine every label that has a
`goto` and no definition is reported, at its first `goto` and in the order of the first mention.  On the way only
definitions are reported of labels that have been defined.  They are not answered with a cell, and every other
definition is answered with one that tells in the end whether there is a `goto` to the label anywhere. -/
theorem labels_resolved (h : s.scope.labels = []) (events : List LabelEvent) :
    (s.meetAll events).reportUndefined.diagnostics =
        (s.meetAll events).diagnostics ++ (undefinedLabels events).toArray ∧
      ∀ before event after, events = before ++ event :: after →
        ((s.meetAll before).meet event).diagnostics =
            (s.meetAll before).diagnostics ++ (redefinition before event).toArray ∧
          ∀ name span, event = .define name span →
            match firstDefinition before name with
            | some _ => ((s.meetAll before).defineLabel name span).1 = none
            | none => ∃ cell, ((s.meetAll before).defineLabel name span).1 = some cell ∧
                ((s.meetAll events).reportUndefined.memory.isReferenced cell = true ↔
                  ∃ place, .goto name place ∈ events) := by
  have hend := records_meetAll h events
  refine ⟨by rw [diagnostics_reportUndefined, hend.undefined?_eq], ?_⟩
  rintro before event after rfl
  have hbefore := records_meetAll h before
  refine ⟨hbefore.diagnostics_meet event, ?_⟩
  rintro name span rfl
  have hanswer := hbefore.answer_define name span
  cases hdef : firstDefinition before name with
  | some first =>
    rw [hdef] at hanswer
    exact hanswer
  | none =>
    rw [hdef] at hanswer
    obtain ⟨entry, hcell, hlookup⟩ := hanswer
    obtain ⟨entry', hlookup', hsame⟩ := cell_meetAll after hlookup
    have hlater : (s.meetAll (before ++ .define name span :: after)).scope.labels.lookup name = some entry' := by
      rw [State.meetAll_append]
      exact hlookup'
    refine ⟨entry.cell, hcell, ?_⟩
    rw [← isSome_firstGoto, ← (hend.entries hlater).referenced, hsame]
    unfold RuleMemory.isReferenced
    rw [(calm_reportUndefined _).referenced]

/-- A label is gone to before and after its definition, and defined again; another one is only gone to. -/
def backAndForth : List LabelEvent :=
  [.goto "a" ⟨0, 1⟩, .goto "b" ⟨1, 2⟩, .define "a" ⟨2, 3⟩, .goto "a" ⟨3, 4⟩, .define "a" ⟨4, 5⟩]

theorem labels_resolved_backAndForth :
    ({ nextId := 0 } : State).scope.labels = [] ∧
      (State.meetAll backAndForth { nextId := 0 }).reportUndefined.diagnostics =
        (State.meetAll backAndForth { nextId := 0 }).diagnostics ++ #[⟨.undefinedLabel "b", ⟨1, 2⟩⟩] :=
  ⟨rfl, (labels_resolved rfl backAndForth).1⟩

end

end Analysis
end PhpLowering
