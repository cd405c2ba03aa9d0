import PhpLowering.Proofs.Code.Change
import PhpLowering.Proofs.Lowering.Regions

/-!
# Calls that are refused

A routine looks before it does anything: what is refused leaves it as it was (`Routine.LooksFirst`).  Two
calls notice too late that they have to be refused.  `endFunction` takes the innermost function off the
stack and then sees that a region is still growing in it, so the function is gone.  `endRegion` records the
region and then cannot mark the label behind it, because that was marked by hand.

`Chunk.Spoils` has these two and what is left after them, and `Chunk.unchanged_iff_of_refused` says that
there are no others.
-/

namespace PhpLowering

namespace Routine

variable {α : Type} {r : Routine} {o : OpenRegion} {outer : List OpenRegion} {kind : HandlerKind}

/-- What is refused leaves the routine as it was. -/
def LooksFirst (f : Routine → Except SinkError α × Routine) : Prop :=
  ∀ r, (f r).1.isOk = true ∨ (f r).2 = r

theorem looksFirst_emit (i : Instruction) : LooksFirst (emit i) := by
  intro r
  unfold emit
  split
  · split
    · exact Or.inl rfl
    · exact Or.inr rfl
  · exact Or.inl rfl

theorem looksFirst_addConstant (v : Literal) : LooksFirst (addConstant v) := by
  intro r
  unfold addConstant
  split
  · exact Or.inl rfl
  · split
    · exact Or.inl rfl
    · exact Or.inr rfl

theorem looksFirst_markLabel (l : Label) : LooksFirst (markLabel l) := by
  intro r
  unfold markLabel
  split
  · exact Or.inl rfl
  · exact Or.inr rfl

theorem looksFirst_declareTemp : LooksFirst declareTemp := by
  intro r
  unfold declareTemp
  split
  · exact Or.inl rfl
  · split
    · exact Or.inl rfl
    · exact Or.inr rfl

theorem looksFirst_beginHandler (kind : HandlerKind) : LooksFirst (beginHandler kind) := by
  intro r
  unfold beginHandler
  split
  · exact Or.inr rfl
  · split
    · exact Or.inr rfl
    · exact Or.inl rfl

/-- The instruction at the end of a region whose last handler is of a kind. -/
def closing (o : OpenRegion) : HandlerKind → Instruction
  | .cleanup => .endFinally
  | .catching _ => .leave o.endLabel

/-- The routine with its innermost region recorded; the label behind the region is left alone. -/
def recorded (o : OpenRegion) (outer : List OpenRegion) (kind : HandlerKind) (r : Routine) : Routine :=
  { r.push (closing o kind) with
    openRegions := outer
    regions := r.regions.push ((o.close (r.position + 1)).complete (r.position + 1)) }

theorem endRegion_eq (hopened : r.openRegions = o :: outer) (hblock : o.block = .handler kind) :
    r.endRegion = (r.recorded o outer kind).markLabel o.endLabel := by
  simp only [endRegion, hopened, hblock, recorded, position_push]
  cases kind <;> rfl

/-- The labels behind the regions that grow are labels of the routine. -/
def HasEndLabels (r : Routine) : Prop :=
  ∀ o ∈ r.openRegions, o.endLabel.index < r.labels.size

theorem HasEndLabels.markLabel (h : r.HasEndLabels) (l : Label) : (r.markLabel l).2.HasEndLabels := by
  unfold Routine.markLabel
  split
  · intro o ho
    exact Nat.lt_of_lt_of_eq (h o ho) Array.size_setIfInBounds.symm
  · exact h

theorem HasEndLabels.recorded (h : r.HasEndLabels) (hopened : r.openRegions = o :: outer) :
    (r.recorded o outer kind).HasEndLabels :=
  fun _ ho => h _ (hopened ▸ List.mem_cons_of_mem _ ho)

theorem HasEndLabels.operation {f : Routine → α × Routine} (hf : Operation f) (h : r.HasEndLabels) :
    (f r).2.HasEndLabels := by
  have hfresh : ∀ {r' : Routine}, r'.openRegions = r.openRegions → r'.labels = r.labels → r'.HasEndLabels := by
    intro r' hopened hlabels
    rw [HasEndLabels, hopened, hlabels]
    exact h
  have hmore : ∀ o ∈ r.openRegions, o.endLabel.index < (r.labels.push none).size := fun o ho =>
    Nat.lt_of_lt_of_le (h o ho) (Nat.le_of_lt (Array.size_push _ ▸ Nat.lt_succ_self _))
  cases hf with
  | emit i =>
    unfold Routine.emit
    split
    · split <;> exact hfresh rfl rfl
    · exact hfresh rfl rfl
  | addConstant v =>
    unfold Routine.addConstant
    split
    · exact h
    · split <;> exact hfresh rfl rfl
  | defineLabel => exact hmore
  | markLabel l => exact h.markLabel l
  | declareTemp =>
    unfold Routine.declareTemp
    split
    · exact hfresh rfl rfl
    · split <;> exact hfresh rfl rfl
  | returnTemp t =>
    dsimp only
    unfold Routine.returnTemp
    split <;> exact hfresh rfl rfl
  | beginTry =>
    exact List.forall_mem_cons.mpr ⟨Array.size_push _ ▸ Nat.lt_succ_self _, hmore⟩
  | beginHandler kind =>
    unfold Routine.beginHandler
    split
    · exact h
    · rename_i o outer hopened
      split
      · exact h
      · refine List.forall_mem_cons.mpr ⟨?_, fun _ ho => h _ (hopened ▸ List.mem_cons_of_mem _ ho)⟩
        show (o.close _).endLabel.index < r.labels.size
        rw [OpenRegion.endLabel_close]
        exact h o (hopened ▸ List.mem_cons_self)
  | endRegion =>
    cases hopened : r.openRegions with
    | nil =>
      rw [Routine.endRegion, hopened]
      exact h
    | cons o outer =>
      cases hblock : o.block with
      | guarded =>
        simp only [Routine.endRegion, hopened, hblock]
        exact h
      | handler kind =>
        rw [endRegion_eq hopened hblock]
        exact (h.recorded hopened).markLabel _
  | sequencePoint => exact h

/-- A region that cannot be ended stays as it is, unless it has a handler and the label behind it is
marked. -/
theorem endRegion_cases (h : r.HasEndLabels) :
    r.endRegion.1.isOk = true ∨ r.endRegion.2 = r ∨
      ∃ o outer kind p, r.openRegions = o :: outer ∧ o.block = .handler kind ∧
        r.labelPosition? o.endLabel = some p := by
  cases hopened : r.openRegions with
  | nil =>
    refine Or.inr (Or.inl ?_)
    rw [endRegion, hopened]
  | cons o outer =>
    cases hblock : o.block with
    | guarded =>
      refine Or.inr (Or.inl ?_)
      simp only [endRegion, hopened, hblock]
    | handler kind =>
      obtain ⟨mark, hlabel⟩ : ∃ mark, r.labels[o.endLabel.index]? = some mark :=
        ⟨_, Array.getElem?_eq_getElem (h o (hopened ▸ List.mem_cons_self))⟩
      cases mark with
      | none =>
        refine Or.inl ?_
        have hrecorded : (r.recorded o outer kind).labels[o.endLabel.index]? = some none := hlabel
        rw [endRegion_eq hopened hblock, Routine.markLabel, hrecorded]
        rfl
      | some p =>
        refine Or.inr (Or.inr ⟨o, outer, kind, p, rfl, hblock, ?_⟩)
        rw [labelPosition?, hlabel]
        rfl

end Routine

namespace Chunk

open Routine (LooksFirst HasEndLabels)
open Sink (Call)

variable {c c' : Chunk} {call : Call}

/-- The calls that are refused too late, and the chunk that they leave. -/
inductive Spoils (c : Chunk) : Call → Chunk → Prop where
  /-- A function that ends within a region is gone. -/
  | endFunction {r : Routine} {outer : List Routine} (hpending : c.pending = r :: outer)
    (hopened : r.openRegions ≠ []) : Spoils c .endFunction { c with pending := outer }
  /-- A region is recorded although the label behind it is marked already. -/
  | endRegion {o : OpenRegion} {outer : List OpenRegion} {kind : HandlerKind} {p : Nat}
    (hopened : c.active.openRegions = o :: outer) (hblock : o.block = .handler kind)
    (hmarked : c.active.labelPosition? o.endLabel = some p) :
    Spoils c .endRegion (c.withActive (c.active.recorded o outer kind))

theorem make_endRegion (c : Chunk) :
    Call.endRegion.make c = (c.active.endRegion.1.isOk, c.withActive c.active.endRegion.2) :=
  congrArg Sink.answered (onActive_eq _ c)

theorem Spoils.make_eq (h : c.Spoils call c') : call.make c = (false, c') := by
  cases h with
  | @endFunction r outer hpending hopened =>
    have hempty : ¬ r.openRegions.isEmpty = true := fun h => hopened (List.isEmpty_iff.mp h)
    show Sink.answered (Chunk.endFunction c) = _
    simp only [Chunk.endFunction, hpending, if_neg hempty]
    rfl
  | @endRegion o outer kind p hopened hblock hmarked =>
    have hlabel : (c.active.recorded o outer kind).labels[o.endLabel.index]? = some (some p) :=
      Option.join_eq_some_iff.mp hmarked
    rw [make_endRegion, Routine.endRegion_eq hopened hblock, Routine.markLabel, hlabel]
    rfl

/-- What is left is not what was there. -/
theorem Spoils.ne (h : c.Spoils call c') : c' ≠ c := by
  cases h with
  | endFunction hpending hopened =>
    intro heq
    have hlength := congrArg (fun c => c.pending.length) heq
    simp [hpending] at hlength
  | endRegion hopened hblock hmarked =>
    intro heq
    have hlength := congrArg (fun c => c.active.openRegions.length) heq
    simp [hopened, Routine.recorded] at hlength

/-- **Every call is accepted, or leaves the chunk as it was, or spoils it.** -/
theorem make_cases (h : c.Every HasEndLabels) (call : Call) :
    (call.make c).1 = true ∨ (call.make c).2 = c ∨ ∃ c', c.Spoils call c' := by
  have hlooks : ∀ {α : Type} {f : Routine → Except SinkError α × Routine}, LooksFirst f →
      (onActive f c).1.isOk = true ∨ (onActive f c).2 = c ∨ ∃ c', c.Spoils call c' := by
    intro α f hf
    rw [onActive_eq]
    refine (hf c.active).imp_right fun hsame => Or.inl ?_
    rw [hsame, withActive_active]
  cases call with
  | emit i => exact hlooks (Routine.looksFirst_emit i)
  | addConstant v => exact hlooks (Routine.looksFirst_addConstant v)
  | markLabel l => exact hlooks (Routine.looksFirst_markLabel l)
  | declareTemp => exact hlooks Routine.looksFirst_declareTemp
  | beginCatch type => exact hlooks (Routine.looksFirst_beginHandler (.catching type))
  | beginFinally => exact hlooks (Routine.looksFirst_beginHandler .cleanup)
  | endRegion =>
    rw [make_endRegion]
    rcases Routine.endRegion_cases h.active with hok | hsame | ⟨o, outer, kind, p, hopened, hblock, hmarked⟩
    · exact Or.inl hok
    · exact Or.inr (Or.inl (by rw [hsame, withActive_active]))
    · exact Or.inr (Or.inr ⟨_, .endRegion hopened hblock hmarked⟩)
  | endFunction =>
    show (Chunk.endFunction c).1.isOk = true ∨ (Chunk.endFunction c).2 = c ∨ _
    cases hpending : c.pending with
    | nil =>
      refine Or.inr (Or.inl ?_)
      simp only [Chunk.endFunction, hpending]
    | cons r outer =>
      cases hopened : r.openRegions with
      | nil =>
        refine Or.inl ?_
        simp only [Chunk.endFunction, hpending, hopened, List.isEmpty_nil, if_pos]
        rfl
      | cons o rest => exact Or.inr (Or.inr ⟨_, .endFunction hpending (hopened ▸ List.cons_ne_nil o rest)⟩)
  | beginTry =>
    refine Or.inl ?_
    show (onActive (fun r => (Except.ok r.beginTry.1, r.beginTry.2)) c).1.isOk = true
    rw [onActive_eq]
    rfl
  | defineLabel | returnTemp | sequencePoint | beginFunction => exact Or.inl rfl

/-- **A call that is refused leaves the chunk as it was**, whatever calls were made before, if and only if it
is not one of the two that are refused too late; and what those leave is known. -/
theorem unchanged_iff_of_refused {name : String} {filePath : Option String} {tempLimit : Option Nat}
    {calls : List Call} (hc : Sink.after (Chunk.new name filePath tempLimit) calls = c) (call : Call)
    (hrefused : (call.make c).1 = false) :
    ((call.make c).2 = c ↔ ¬ ∃ c', c.Spoils call c') ∧ ∀ c', c.Spoils call c' → (call.make c).2 = c' := by
  have hlabels : c.Every HasEndLabels := by
    rw [← hc]
    have hnew : (Chunk.new name filePath tempLimit).Every HasEndLabels := ⟨nofun, nofun, nofun⟩
    exact hnew.after (fun _ _ => nofun) (fun hf h => h.operation hf) calls
  refine ⟨⟨?_, fun hspoils => ?_⟩, fun c' hspoils => congrArg Prod.snd hspoils.make_eq⟩
  · rintro hsame ⟨c', hspoils⟩
    exact hspoils.ne ((congrArg Prod.snd hspoils.make_eq).symm.trans hsame)
  · rcases make_cases hlabels call with haccepted | hsame | hlate
    · exact nomatch hrefused.symm.trans haccepted
    · exact hsame
    · exact absurd hlate hspoils

/-- In the middle of a function and of a region in it. -/
def inFunction : Chunk :=
  Sink.after (Chunk.new "main" none none) [.emit .nop, .beginFunction ⟨"f", false, []⟩, .beginTry, .beginFinally]

/-- In a cleanup block of a region whose end has been marked by hand. -/
def markedAhead : Chunk :=
  Sink.after (Chunk.new "main" none none) [.beginTry, .beginFinally, .markLabel ⟨0⟩]

theorem unchanged_iff_inFunction : (Call.endFunction.make inFunction).1 = false ∧
    ((Call.endFunction.make inFunction).2 = inFunction ↔ ¬ ∃ c', inFunction.Spoils .endFunction c') ∧
    ∀ c', inFunction.Spoils .endFunction c' → (Call.endFunction.make inFunction).2 = c' :=
  ⟨by decide, unchanged_iff_of_refused rfl .endFunction (by decide)⟩

/-- A function is lost, and a region is recorded that could not be ended. -/
theorem changed_by_refusal :
    ((Call.endFunction.make inFunction).1 = false ∧ (Call.endFunction.make inFunction).2 ≠ inFunction) ∧
    ((Call.endRegion.make markedAhead).1 = false ∧ (Call.endRegion.make markedAhead).2 ≠ markedAhead) := by
  have hfunction : (Call.endFunction.make inFunction).2.pending.length ≠ inFunction.pending.length := by decide
  have hregion : (Call.endRegion.make markedAhead).2.main.regions.size ≠ markedAhead.main.regions.size := by
    decide
  exact ⟨⟨by decide, fun h => hfunction (by rw [h])⟩, ⟨by decide, fun h => hregion (by rw [h])⟩⟩

end Chunk
end PhpLowering
