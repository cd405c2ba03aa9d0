import PhpLowering.Proofs.Lowering.Scene

/-!
# What the calls to a sink do to a scene

One lemma for every call.  Emitting an instruction changes the stack and nothing else;
a new label waits for its mark; marking a label takes it off the list of those that wait.
None of these calls can fail as long as the scene is as it should be, except that a routine
can run out of slots and constants.
-/

namespace PhpLowering

namespace Routine

variable {r : Routine} {l l' : Label}

@[simp] theorem position_push (i : Instruction) : (r.push i).position = r.position + 1 := by
  simp [position, push]

theorem code_push_eq {i j : Instruction} {pc : Nat} (h : (r.push i).code[pc]? = some j) :
    r.code[pc]? = some j ∨ pc = r.position ∧ j = i := by
  simp only [push, Array.getElem?_push] at h
  split at h
  · rename_i hpc
    exact Or.inr ⟨hpc, (Option.some.inj h).symm⟩
  · exact Or.inl h

theorem code_push_self (i : Instruction) : (r.push i).code[r.position]? = some i := by
  simp [push, position]

theorem mark?_defineLabel (l : Label) :
    r.defineLabel.2.mark? l = if l = r.defineLabel.1 then some none else r.mark? l := by
  rcases l with ⟨index⟩
  simp only [mark?, defineLabel, Array.getElem?_push, Label.mk.injEq]

theorem mark?_new : r.mark? r.defineLabel.1 = none := by
  simp [mark?, defineLabel]

/-- The routine with a label marked at the end of the code. -/
def marking (l : Label) (r : Routine) : Routine :=
  { r with labels := r.labels.setIfInBounds l.index (some r.position) }

theorem markLabel_eq (h : r.mark? l = some none) : markLabel l r = (.ok (), r.marking l) := by
  unfold mark? at h
  unfold markLabel
  rw [h]
  rfl

theorem mark?_marking (h : r.mark? l = some none) (l' : Label) :
    (r.marking l).mark? l' = if l' = l then some (some r.position) else r.mark? l' := by
  have hbound : l.index < r.labels.size := (Array.getElem?_eq_some_iff.mp h).1
  rcases l with ⟨k⟩
  rcases l' with ⟨k'⟩
  simp only [mark?, marking, Label.mk.injEq]
  by_cases hk : k' = k
  · rw [if_pos hk, hk]
    simp only [Array.getElem?_setIfInBounds_self_of_lt hbound]
  · rw [if_neg hk, Array.getElem?_setIfInBounds_ne (Ne.symm hk)]

theorem grows_marking (h : r.mark? l = some none) : r.Grows (r.marking l) := by
  have hgrows := r.grows_markLabel l
  rwa [markLabel_eq h] at hgrows

/-- An instruction is emitted if the labels that it mentions are there. -/
theorem emit_eq {i : Instruction} (h : ∀ l ∈ i.labels, (r.mark? l).isSome) :
    emit i r = (.ok (), r.push i) := by
  unfold emit
  split
  · rename_i l htarget
    have hl : l ∈ i.labels := by
      cases i <;> simp_all [Instruction.target?, Instruction.labels]
    obtain ⟨o, ho⟩ := Option.isSome_iff_exists.mp (h l hl)
    rw [if_pos (Array.getElem?_eq_some_iff.mp ho).1]
  · rfl

end Routine

namespace StackMap

variable {m : StackMap} {r : Routine}

/-- The map with another stack at a position. -/
def withNext (m : StackMap) (p : Nat) (S : List Slot) : StackMap :=
  { m with before := fun q => if q = p then S else m.before q }

/-- The map with another stack at a label. -/
def withLabel (m : StackMap) (l : Label) (S : List Slot) : StackMap :=
  { m with label := fun k => if k = l then S else m.label k }

theorem extends_withNext (i : Instruction) (S : List Slot) :
    m.Extends r (m.withNext (r.position + 1) S) (r.push i) where
  grows := r.grows_push i
  before hp := if_neg (by omega)
  label _ := rfl

theorem extends_withLabel (S : List Slot) :
    m.Extends r (m.withLabel r.defineLabel.1 S) r.defineLabel.2 where
  grows := r.grows_defineLabel
  before _ := rfl
  label hl := by
    refine if_neg ?_
    rintro rfl
    rw [Routine.mark?_new] at hl
    exact nomatch hl

/-- A routine with one more instruction fits if the instruction does. -/
theorem Fits.push (h : m.Fits r) {i : Instruction} {m' : StackMap}
    (hx : m.Extends r m' (r.push i)) (hi : m'.Passes (r.push i) r.position i) :
    m'.Fits (r.push i) := by
  refine h.extend hx ?_ (fun hl => Or.inl hl) (fun _ hr => Or.inl hr) (fun _ ho => Or.inl ho)
  intro pc j hj
  rcases Routine.code_push_eq hj with hold | ⟨rfl, rfl⟩
  · exact Or.inl hold
  · exact Or.inr hi

/-- A routine with one more label marked fits if the stack at hand is that of the label. -/
theorem Fits.marking (h : m.Fits r) {l : Label} (hl : r.mark? l = some none)
    (hS : m.before r.position = m.label l) : m.Fits (r.marking l) := by
  refine h.extend (.of_grows (Routine.grows_marking hl)) (fun hi => Or.inl hi) ?_
    (fun _ hr => Or.inl hr) (fun _ ho => Or.inl ho)
  intro l' p hp
  rw [Routine.mark?_marking hl] at hp
  split at hp
  · rename_i heq
    have hpos : r.position = p := Option.some.inj (Option.some.inj hp)
    rw [heq, ← hpos]
    exact Or.inr ⟨Nat.le_refl _, hS⟩
  · exact Or.inl hp

end StackMap

namespace Lowering

open Pass (Ends)

variable {E : CompileError → Prop} {c : Scene} {S S' : List Slot} {s : State Chunk} {m m' : StackMap}
  {f : Frame} {r r' : Routine} {l : Label}

/-! ## Facts that survive growth -/

theorem NamedLabel.extend {name : String} (h : NamedLabel m c f r name l)
    (hx : m.Extends r m' r') (hmark : r'.mark? l = r.mark? l) : NamedLabel m' c f r' name l where
  types := h.types.extend hx
  notPending := h.notPending
  notEpilogue := h.notEpilogue
  unmarked hn := by rw [hmark]; exact h.unmarked hn
  marked hn := by rw [hmark]; exact h.marked hn
  seen := h.seen

theorem Labelled.extend (h : Labelled m c f r) (hx : m.Extends r m' r')
    (hmark : ∀ l, r'.mark? l = r.mark? l) : Labelled m' c f r' where
  pending l hl := by rw [hmark]; exact h.pending l hl
  nodup := h.nodup
  epilogue l hl := by
    obtain ⟨hnone, hp, ht, hr⟩ := h.epilogue l hl
    exact ⟨by rw [hmark]; exact hnone, hp, ht.extend hx, hr⟩
  named name l hl := (h.named name l hl).extend hx (hmark l)
  named_inj := h.named_inj
  marked := h.marked
  gone name hn := by
    obtain ⟨l, hl, pc, i, hi, hli⟩ := h.gone name hn
    exact ⟨l, hl, pc, i, hx.grows.code hi, hli⟩
  unmarked l hl := h.unmarked l (by rwa [hmark] at hl)
  returnLabel := h.returnLabel

theorem LoopOpen.extend {loop : Loop} (h : LoopOpen m c r loop) (hx : m.Extends r m' r') :
    LoopOpen m' c r' loop where
  breakTypes := h.breakTypes.extend hx
  breakPending := h.breakPending
  continueTypes := h.continueTypes.extend hx
  continueMarked := by
    obtain ⟨p, hp⟩ := h.continueMarked
    exact ⟨p, hx.grows.marked hp⟩
  level := h.level

/-- Growth that leaves the labels and the open regions alone. -/
theorem Holds.extend (h : Holds m c S f r) (hx : m.Extends r m' r') (hfits : m'.Fits r')
    (hmark : ∀ l, r'.mark? l = r.mark? l) (hopened : r'.openRegions = r.openRegions)
    (htop : m'.before r'.position = S') : Holds m' c S' f r' where
  fits := hfits
  start := (hx.before (Nat.zero_le _)).trans h.start
  top := htop
  grows := h.grows.trans hx.grows
  opened := hopened.trans h.opened
  typed hl := (h.typed hl).extend hx
  loops l hl := (h.loops l hl).extend hx
  labelled := h.labelled.extend hx hmark

/-- Work on a routine that touches nothing a scene speaks of. -/
theorem Holds.congr (h : Holds m c S f r) (hcode : r'.code = r.code)
    (hconstants : r'.constants = r.constants) (hlabels : r'.labels = r.labels)
    (hregions : r'.regions = r.regions) (hopened : r'.openRegions = r.openRegions) :
    Holds m c S f r' := by
  have hmark : ∀ l, r'.mark? l = r.mark? l := fun l => by unfold Routine.mark?; rw [hlabels]
  have hx : m.Extends r m r' := .of_grows (.of_eq hcode hconstants hlabels hregions)
  have hpos : r'.position = r.position := congrArg Array.size hcode
  refine h.extend hx (h.fits.extend hx ?_ ?_ ?_ ?_) hmark hopened (by rw [hpos]; exact h.top)
  · intro pc i hi
    rw [hcode] at hi
    exact Or.inl hi
  · intro l p hp
    rw [hmark] at hp
    exact Or.inl hp
  · intro region hr
    rw [hregions] at hr
    exact Or.inl hr
  · intro o ho
    rw [hopened] at ho
    exact Or.inl ho

/-! ## The state around a routine -/

theorem Around.withActive {c : Surroundings} (h : Around E c s) (r : Routine) :
    Around E c (s.withActive r) where
  outside := (s.sink.outside_withActive r).trans h.outside
  finished := by
    have hf : (s.withActive r).sink.functions = s.sink.functions := s.sink.functions_withActive r
    rw [hf]
    exact h.finished
  earlier := by
    have hf : (s.withActive r).sink.functions = s.sink.functions := s.sink.functions_withActive r
    rw [hf]
    exact h.earlier
  memory := h.memory
  loops := h.loops
  nesting := h.nesting
  returnsRef := h.returnsRef
  table := h.table

theorem onActive_of_eq {α : Type} {call : Pass SinkError Routine α} {result : Except SinkError α}
    (h : call s.active = (result, r)) :
    Chunk.onActive call s.sink = (result, s.sink.withActive r) := by
  rw [← show (call s.active).1 = result by rw [h], ← show (call s.active).2 = r by rw [h]]
  exact Chunk.onActive_eq _ _

theorem toSink_ok {α : Type} {call : Pass SinkError Routine α} {a : α}
    (h : call s.active = (.ok a, r)) : toSink (Chunk.onActive call) s = (.ok a, s.withActive r) := by
  unfold toSink
  rw [onActive_of_eq h]
  rfl

theorem toSink_error {α : Type} {call : Pass SinkError Routine α} {e : SinkError}
    (h : call s.active = (.error e, r)) :
    toSink (Chunk.onActive call) s = (.error (.backend e), s.withActive r) := by
  unfold toSink
  rw [onActive_of_eq h]
  rfl

/-- A call that concerns the active routine. -/
theorem ends_toSink {α : Type} {call : Pass SinkError Routine α} {Q : α → State Chunk → Prop}
    (h : Ends call s.active (fun a r => Q a (s.withActive r)) fun e => E (.backend e)) :
    Ends (toSink (Chunk.onActive call)) s Q E := by
  rcases hcall : call s.active with ⟨result, r⟩
  unfold Ends
  cases result with
  | ok a =>
    rw [toSink_ok hcall]
    exact h.of_ok hcall
  | error e =>
    rw [toSink_error hcall]
    exact h.of_error hcall

theorem Around.ready (h : Around E c.toSurroundings s) (hm : Holds m c S s.frame r) :
    Ready E c S (s.withActive r) := by
  refine ⟨h.withActive r, m, ?_⟩
  rw [State.active_withActive]
  exact hm

/-! ## Instructions -/

/-- An instruction that agrees with the stack at hand can be added. -/
theorem Holds.push (h : Holds m c S f r) (i : Instruction) (S' : List Slot) {out : List Slot}
    (haccepts : i.Accepts (S.take i.pops)) (happly : i.apply r.constants S = some out)
    (hfall : i.fallsThrough = true → S' = out) (hlabels : ∀ l ∈ i.labels, m.Types r l out)
    (hret : i = .ret → out = []) :
    Holds (m.withNext (r.position + 1) S') c S' f (r.push i) := by
  have hx : m.Extends r (m.withNext (r.position + 1) S') (r.push i) := m.extends_withNext i S'
  have hbefore : (m.withNext (r.position + 1) S').before r.position = S :=
    (hx.before (Nat.le_refl _)).trans h.top
  have hnext : (m.withNext (r.position + 1) S').before (r.position + 1) = S' := if_pos rfl
  refine h.extend hx (h.fits.push hx ⟨?_, out, ?_, ?_, ?_, hret⟩) (fun _ => rfl) rfl ?_
  · rwa [hbefore]
  · rw [hbefore]
    exact happly
  · intro hf
    rw [hnext, hfall hf]
  · intro l hl
    exact (hlabels l hl).extend hx
  · rw [Routine.position_push]
    exact hnext

/-- Emitting an instruction that agrees with the stack at hand. -/
theorem Ready.emit (h : Ready E c S s) (i : Instruction) (out S' : List Slot)
    (haccepts : i.Accepts (S.take i.pops)) (happly : i.apply s.active.constants S = some out)
    (hfall : i.fallsThrough = true → S' = out)
    (hlabels : ∀ m, Holds m c S s.frame s.active → ∀ l ∈ i.labels, m.Types s.active l out)
    (hret : i = .ret → out = []) :
    Ends (Lowering.emit i) s
      (fun _ t => Ready E c S' t ∧ t = s.withActive (s.active.push i)) E := by
  obtain ⟨ha, m, hm⟩ := h
  have hpush := hm.push i S' haccepts happly hfall (hlabels m hm) hret
  have hrun := Routine.emit_eq fun l hl => (hlabels m hm l hl).1
  show Ends (toSink (Chunk.onActive (Routine.emit i))) s _ E
  exact ends_toSink (.of_eq hrun ⟨ha.ready hpush, rfl⟩)

/-- Emitting an instruction that mentions no label and goes on to the next one. -/
theorem Ready.emitPlain (h : Ready E c S s) (i : Instruction) {out : List Slot}
    (haccepts : i.Accepts (S.take i.pops)) (happly : i.apply s.active.constants S = some out)
    (hlabels : i.labels = []) (hret : i ≠ .ret) :
    Ends (Lowering.emit i) s (fun _ t => Ready E c out t) E := by
  refine (h.emit i out out haccepts happly (fun _ => rfl) ?_ fun hi => (hret hi).elim).mono
    fun _ _ ht => ht.1
  intro m _ l hl
  rw [hlabels] at hl
  exact nomatch hl

/-! ## Constants and slots -/

/-- Literals that are filed as one are pushed in the same representation. -/
theorem ofLiteral_eq_of_beq {v w : Literal} (h : (v == w) = true) :
    TypeCode.ofLiteral v = TypeCode.ofLiteral w := by
  cases v <;> cases w <;> first | rfl | exact nomatch h

/-- More constants are no reason to look at the code again. -/
theorem Holds.addConstant (h : Holds m c S f r) (v : Literal) :
    Ends (Routine.addConstant v) r
      (fun k r' => Holds m c S f r' ∧
        ∃ w, r'.constants[k]? = some w ∧ TypeCode.ofLiteral w = TypeCode.ofLiteral v)
      fun e => ∃ resource, e = .resourceExhausted resource := by
  cases hfind : r.constants.findIdx? (· == v) with
  | some k =>
    obtain ⟨hk, hv, -⟩ := Array.findIdx?_eq_some_iff_getElem.mp hfind
    have hrun : Routine.addConstant v r = (.ok k, r) := by
      simp only [Routine.addConstant, hfind]
    exact .of_eq hrun ⟨h, _, Array.getElem?_eq_getElem hk, ofLiteral_eq_of_beq hv⟩
  | none =>
    by_cases hsize : r.constants.size < Routine.maxConstants
    · have hrun : Routine.addConstant v r =
          (.ok r.constants.size, { r with constants := r.constants.push v }) := by
        simp only [Routine.addConstant, hfind, if_pos hsize]
      have hx : m.Extends r m { r with constants := r.constants.push v } := by
        have hgrows := r.grows_addConstant v
        rw [hrun] at hgrows
        exact .of_grows hgrows
      refine .of_eq hrun ⟨?_, v, by simp, rfl⟩
      exact h.extend hx (h.fits.extend hx (fun hi => Or.inl hi) (fun hl => Or.inl hl)
        (fun _ hr => Or.inl hr) (fun _ ho => Or.inl ho)) (fun _ => rfl) rfl h.top
    · refine .intro (fun k t hk => ?_) (fun e t he => ?_)
      · simp only [Routine.addConstant, hfind, if_neg hsize] at hk
        exact nomatch hk
      · simp only [Routine.addConstant, hfind, if_neg hsize, Prod.mk.injEq] at he
        exact ⟨.constantPool, (Except.error.inj he.1).symm⟩

/-- Filing a literal. -/
theorem Ready.addConstant (h : Ready E c S s) (hE : Tolerates E) (v : Literal) :
    Ends (toSink (Sink.addConstant v)) s
      (fun k t => Ready E c S t ∧
        ∃ w, t.active.constants[k]? = some w ∧ TypeCode.ofLiteral w = TypeCode.ofLiteral v) E := by
  obtain ⟨ha, m, hm⟩ := h
  show Ends (toSink (Chunk.onActive (Routine.addConstant v))) s _ E
  refine ends_toSink (.intro (fun k r hr => ?_) (fun e r hr => ?_))
  · obtain ⟨hm', w, hw⟩ := (hm.addConstant v).of_ok hr
    refine ⟨ha.ready hm', w, ?_⟩
    rwa [State.active_withActive]
  · obtain ⟨resource, rfl⟩ := (hm.addConstant v).of_error hr
    exact hE.resource resource

theorem Holds.declareTemp (h : Holds m c S f r) {t : Temp}
    (hr : Routine.declareTemp r = (.ok t, r')) : Holds m c S f r' := by
  unfold Routine.declareTemp at hr
  split at hr
  · obtain rfl := (Prod.mk.inj hr).2
    exact h.congr rfl rfl rfl rfl rfl
  · split at hr
    · obtain rfl := (Prod.mk.inj hr).2
      exact h.congr rfl rfl rfl rfl rfl
    · cases hr

theorem Holds.returnTemp (h : Holds m c S f r) (t : Temp) : Holds m c S f (r.returnTemp t) := by
  unfold Routine.returnTemp
  split
  · exact h
  · exact h.congr rfl rfl rfl rfl rfl

theorem Ready.declareTemp (h : Ready E c S s) (hE : Tolerates E) :
    Ends Lowering.declareTemp s (fun _ t => Ready E c S t ∧ t.frame = s.frame) E := by
  obtain ⟨ha, m, hm⟩ := h
  show Ends (toSink (Chunk.onActive Routine.declareTemp)) s _ E
  refine ends_toSink (.intro (fun k r hr => ⟨ha.ready (hm.declareTemp hr), rfl⟩) fun e r hr => ?_)
  unfold Routine.declareTemp at hr
  split at hr
  · cases hr
  · split at hr
    · cases hr
    · obtain rfl := Except.error.inj (Prod.mk.inj hr).1
      exact hE.resource _

/-- Giving back a slot. -/
theorem Ready.withReturned (h : Ready E c S s) (t : Temp) :
    Ready E c S { s with sink := Sink.returnTemp t s.sink } := by
  obtain ⟨ha, m, hm⟩ := h
  have hrun : ({ s with sink := Sink.returnTemp t s.sink } : State Chunk) =
      s.withActive (s.active.returnTemp t) := by
    show ({ s with sink := (Chunk.onActive (fun r => ((), r.returnTemp t)) s.sink).2 } : State Chunk) = _
    rw [Chunk.onActive_eq]
    rfl
  rw [hrun]
  exact ha.ready (hm.returnTemp t)

theorem Ready.returnTemp (h : Ready E c S s) (t : Temp) :
    Ends (Lowering.returnTemp t) s (fun _ u => Ready E c S u) E :=
  .update (h.withReturned t)

/-- Saying where the next instructions come from. -/
theorem Ready.withPoint (h : Ready E c S s) (span : Span) :
    Ready E c S { s with sink := Sink.sequencePoint span s.sink } := by
  obtain ⟨ha, m, hm⟩ := h
  have hrun : ({ s with sink := Sink.sequencePoint span s.sink } : State Chunk) =
      s.withActive { s.active with currentSpan := span } := by
    show ({ s with sink :=
      (Chunk.onActive (fun r => ((), { r with currentSpan := span })) s.sink).2 } : State Chunk) = _
    rw [Chunk.onActive_eq]
    rfl
  rw [hrun]
  exact ha.ready (hm.congr rfl rfl rfl rfl rfl)

end Lowering
end PhpLowering
