import PhpLowering.Proofs.Lowering.Branching

/-!
# Exception regions

While a region is open, the label behind it is one of those that wait for a mark, and the
region grows block by block.  Every handler starts on a stack that only depends on what sort
of handler it is, whatever the stack was at the end of the block before: control never goes
from one block to the next.
-/

namespace PhpLowering

namespace OpenRegion

variable (o : OpenRegion) (kind : HandlerKind) (p : Nat)

@[simp] theorem endLabel_close : (o.close p).endLabel = o.endLabel := by
  unfold close
  split <;> rfl

@[simp] theorem tryStart_close : (o.close p).tryStart = o.tryStart := by
  unfold close
  split <;> rfl

theorem block_close : (o.close p).block = .guarded := by
  unfold close
  split
  · assumption
  · rfl

end OpenRegion

namespace StackMap

variable {m : StackMap} {r : Routine} {o : OpenRegion}

/-- The block that ends becomes a handler of the region, unless it is the guarded one. -/
theorem FitsOpen.close (h : m.FitsOpen r o) (p : Nat) : m.FitsOpen r (o.close p) where
  handlers x hx := by
    unfold OpenRegion.close at hx
    split at hx
    · exact h.handlers x hx
    · rename_i kind hblock
      rcases List.mem_cons.mp hx with rfl | hx
      · exact h.block kind hblock
      · exact h.handlers x hx
  block kind hk := by
    rw [o.block_close] at hk
    cases hk
  endLabel := by
    rw [o.endLabel_close]
    exact h.endLabel

theorem FitsOpen.enter {kind : HandlerKind} {p : Nat} (h : m.FitsOpen r o)
    (hp : m.Enters r kind p) : m.FitsOpen r (o.enter kind p) where
  handlers := h.handlers
  block k hk := by
    obtain rfl := Block.handler.inj hk
    exact hp
  endLabel := h.endLabel

end StackMap

namespace Lowering

open Pass (Ends)

variable {E : CompileError → Prop} {c : Scene} {S S' : List Slot} {s : State Chunk} {m : StackMap}
  {f : Frame} {r : Routine} {o : OpenRegion}

/-- The scene inside of a region that is open. -/
def Scene.inRegion (c : Scene) (o : OpenRegion) : Scene :=
  { c.addLabel o.endLabel [] with opened := o :: c.opened }

/-- The open regions of a routine can be exchanged for others that agree with the map. -/
theorem Holds.withOpened (h : Holds m c S f r) (opened : List OpenRegion)
    (hfits : ∀ o ∈ opened, m.FitsOpen r o) :
    Holds m { c with opened } S f { r with openRegions := opened } := by
  have hx : m.Extends r m { r with openRegions := opened } := .of_grows (.of_eq rfl rfl rfl rfl)
  refine
    { fits := ?_, start := h.start, top := h.top, grows := h.grows.trans hx.grows, opened := rfl
      typed := fun hl => (h.typed hl).extend hx
      loops := fun l hl => { (h.loops l hl).extend hx with }
      labelled := ?_ }
  · exact h.fits.extend hx Or.inl Or.inl (fun _ => Or.inl)
      fun o ho => Or.inr ((hfits o ho).extend hx)
  · have hlab := h.labelled.extend hx fun _ => rfl
    exact { hlab with named := fun n l hl => { hlab.named n l hl with } }

/-- Opening a region. -/
theorem Ready.beginTry (hs : Ready E c S s) :
    Ends (toSink Sink.beginTry) s (fun l t =>
      Ready E (c.inRegion (.begin s.active.position l)) S t ∧ t.frame = s.frame) E := by
  obtain ⟨ha, m, hm⟩ := hs
  have hdefine := hm.define []
  have ha' : Around E (c.inRegion (.begin s.active.position s.active.defineLabel.1)).toSurroundings
      s := ha
  have hopened : s.active.defineLabel.2.openRegions = c.opened := hdefine.opened
  have hroutine : s.active.beginTry.2 = { s.active.defineLabel.2 with
      openRegions := .begin s.active.position s.active.defineLabel.1 :: c.opened } := by
    rw [← hopened]
    rfl
  have hholds : Holds (m.withLabel s.active.defineLabel.1 [])
      (c.inRegion (.begin s.active.position s.active.defineLabel.1)) S s.frame
      s.active.beginTry.2 := by
    rw [hroutine]
    refine hdefine.withOpened _ fun o ho => ?_
    rcases List.mem_cons.mp ho with rfl | ho
    · exact { handlers := nofun, block := nofun, endLabel := hdefine.typed List.mem_cons_self }
    · exact hdefine.fits.opened o (hopened ▸ ho)
  exact ends_toSink (.of_eq (a := s.active.defineLabel.1) (t := s.active.beginTry.2) rfl
    ⟨ha'.ready hholds, rfl⟩)

/-- Starting a handler: the block before it goes to the end of the region. -/
theorem Ready.beginHandler (hs : Ready E (c.inRegion o) [] s) (kind : HandlerKind)
    (hblock : o.block ≠ .handler .cleanup) :
    Ends (toSink (Chunk.onActive (Routine.beginHandler kind))) s (fun _ t =>
      ∃ o' : OpenRegion, o'.endLabel = o.endLabel ∧ o'.tryStart = o.tryStart ∧
        o'.block = .handler kind ∧ Ready E (c.inRegion o') kind.entry t ∧ t.frame = s.frame) E := by
  obtain ⟨ha, m, hm⟩ := hs
  have hopened : s.active.openRegions = o :: c.opened := hm.opened
  have hfits : ∀ o' ∈ o :: c.opened, m.FitsOpen s.active o' := hopened ▸ hm.fits.opened
  have hend : m.Types s.active o.endLabel [] := (hfits o List.mem_cons_self).endLabel
  have hpush := hm.push (.leave o.endLabel) kind.entry nofun rfl nofun
    (fun l hl => List.mem_singleton.mp hl ▸ hend) nofun
  have hx := m.extends_withNext (r := s.active) (.leave o.endLabel) kind.entry
  -- The handler starts right behind the branch to the end.
  have hposition : (s.active.push (.leave o.endLabel)).position = s.active.position + 1 :=
    Routine.position_push _
  obtain ⟨o', ho'⟩ : ∃ o', o' = (o.close (s.active.position + 1)).enter kind (s.active.position + 1) :=
    ⟨_, rfl⟩
  have hrun : Routine.beginHandler kind s.active =
      (.ok (), { s.active.push (.leave o.endLabel) with openRegions := o' :: c.opened }) := by
    simp only [Routine.beginHandler, hopened, if_neg hblock, hposition, ho']
  have hnew : Holds (m.withNext (s.active.position + 1) kind.entry)
      { c.inRegion o with opened := o' :: c.opened } kind.entry s.frame
      { s.active.push (.leave o.endLabel) with openRegions := o' :: c.opened } := by
    refine hpush.withOpened _ fun x hxm => ?_
    rcases List.mem_cons.mp hxm with rfl | hxm
    · rw [ho']
      refine (((hfits o List.mem_cons_self).extend hx).close _).enter ⟨Nat.le_of_eq hposition.symm, ?_⟩
      exact if_pos rfl
    · exact (hfits x (List.mem_cons_of_mem o hxm)).extend hx
  have hlabel : o'.endLabel = o.endLabel := by
    rw [ho']
    exact o.endLabel_close _
  have hscene : { c.inRegion o with opened := o' :: c.opened } = c.inRegion o' := by
    unfold Scene.inRegion
    rw [hlabel]
  rw [hscene] at hnew
  have ha' : Around E (c.inRegion o').toSurroundings s := ha
  refine ends_toSink (.of_eq hrun ⟨o', hlabel, ?_, ?_, ha'.ready hnew, rfl⟩)
  · rw [ho']
    exact o.tryStart_close _
  · rw [ho']
    rfl

/-- The instruction behind the last handler. -/
def closing (kind : HandlerKind) (l : Label) : Instruction :=
  match kind with
  | .cleanup => .endFinally
  | .catching _ => .leave l

theorem Holds.closing (h : Holds m c [] f r) (kind : HandlerKind) (hl : m.Types r o.endLabel []) :
    Holds (m.withNext (r.position + 1) []) c [] f (r.push (Lowering.closing kind o.endLabel)) := by
  cases kind with
  | cleanup => exact h.push .endFinally [] nofun rfl nofun nofun nofun
  | catching type =>
    exact h.push (.leave o.endLabel) [] nofun rfl nofun (fun l hl' => List.mem_singleton.mp hl' ▸ hl)
      nofun

/-- A region is recorded whose handlers agree with the map. -/
theorem Holds.pushRegion (h : Holds m c S f r) {region : Region}
    (hregion : ∀ x ∈ region.handlers, m.Enters r x.kind x.start) :
    Holds m c S f { r with regions := r.regions.push region } := by
  have hx : m.Extends r m { r with regions := r.regions.push region } :=
    .of_grows (r.grows_pushRegion region r.openRegions)
  refine h.extend hx (h.fits.extend hx Or.inl Or.inl (fun region' hmem => ?_) fun _ => Or.inl)
    (fun _ => rfl) rfl h.top
  rcases Array.mem_push.mp hmem with hmem | rfl
  · exact Or.inl hmem
  · exact Or.inr fun x hxm => (hregion x hxm).extend hx

/-- One call that goes on as another one would from a routine that is known. -/
theorem toSink_of_eq {α : Type} {call call' : Pass SinkError Routine α}
    (h : call s.active = call' r) :
    toSink (Chunk.onActive call) s = toSink (Chunk.onActive call') (s.withActive r) := by
  have hactive : (s.withActive r).sink.active = r := s.active_withActive r
  have htwice : ∀ r', (s.withActive r).sink.withActive r' = s.sink.withActive r' := fun r' => by
    rcases s with ⟨⟨_, _, _ | _⟩, _⟩ <;> rfl
  have hcalls : Chunk.onActive call s.sink = Chunk.onActive call' (s.withActive r).sink := by
    refine (Chunk.onActive_eq call s.sink).trans
      (Eq.trans ?_ (Chunk.onActive_eq call' (s.withActive r).sink).symm)
    rw [hactive, htwice, ← h]
    rfl
  unfold toSink
  rw [hcalls]
  rfl

/-- Ending a region: it is recorded, and the label behind it gets its mark. -/
theorem Ready.endRegion (hs : Ready E (c.inRegion o) [] s) {kind : HandlerKind}
    (hblock : o.block = .handler kind) (hin : c.LoopsIn c.pending) :
    Ends (toSink (Chunk.onActive Routine.endRegion)) s (fun _ t =>
      Ready E c [] t ∧ t.frame = s.frame ∧ ∃ region : Region,
        t.active.regions = s.active.regions.push region ∧ region.tryStart = o.tryStart ∧
          region.stop = t.active.position) E := by
  obtain ⟨ha, m, hm⟩ := hs
  have hopened : s.active.openRegions = o :: c.opened := hm.opened
  have hfits : ∀ o' ∈ o :: c.opened, m.FitsOpen s.active o' := hopened ▸ hm.fits.opened
  have hpush := hm.closing kind (hfits o List.mem_cons_self).endLabel
  have hx := m.extends_withNext (r := s.active) (closing kind o.endLabel) []
  have hclosed := ((hfits o List.mem_cons_self).extend hx).close (s.active.position + 1)
  obtain ⟨region, hregion⟩ : ∃ region, region =
    (o.close (s.active.position + 1)).complete (s.active.position + 1) := ⟨_, rfl⟩
  have hrecord : Holds (m.withNext (s.active.position + 1) []) (c.addLabel o.endLabel []) [] s.frame
      { s.active.push (closing kind o.endLabel) with
        openRegions := c.opened, regions := s.active.regions.push region } := by
    refine (hpush.withOpened c.opened fun x hxm => ?_).pushRegion fun x hxm => ?_
    · exact (hfits x (List.mem_cons_of_mem o hxm)).extend hx
    · rw [hregion] at hxm
      exact hclosed.handlers x (List.mem_reverse.mp hxm)
  have hrun : Routine.endRegion s.active = Routine.markLabel o.endLabel
      { s.active.push (closing kind o.endLabel) with
        openRegions := c.opened, regions := s.active.regions.push region } := by
    have hposition : ∀ i, (s.active.push i).position = s.active.position + 1 :=
      fun i => Routine.position_push i
    simp only [Routine.endRegion, hopened, hblock, hposition, hregion]
    cases kind <;> rfl
  have ha' : Around E (c.addLabel o.endLabel []).toSurroundings s := ha
  unfold Ends
  rw [toSink_of_eq hrun]
  refine ((ha'.ready hrecord).mark List.mem_cons_self (List.Perm.refl _) hin).mono ?_
  rintro _ _ ⟨ht, rfl⟩
  refine ⟨ht.relabel (fun p hp => List.mem_cons_of_mem _ hp) (List.Perm.refl _), rfl, region, ?_, ?_, ?_⟩
  · simp only [State.active_withActive]
    rfl
  · rw [hregion]
    exact o.tryStart_close _
  · simp only [State.active_withActive, hregion]
    exact (Routine.position_push (closing kind o.endLabel)).symm

end Lowering
end PhpLowering
