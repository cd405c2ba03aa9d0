import PhpLowering.Proofs.Lowering.Constructs

/-!
# Whole routines

At the end of a routine nothing is open any more: all regions are complete, and the labels
that are not marked are targets of `goto` statements.  Then the routine passes the verifier of
the operand stack, and every label that its code mentions is marked if and only if every
target that has been gone to has been marked.

The label of the code that returns is marked only at the very end.  From there on it is an
ordinary label, and the frame is not looked at any more: `FrameFree` is the property of the
remaining steps that allows it to be taken out of the frame before.
-/

namespace PhpLowering
namespace Lowering

open Pass (Ends)

variable {E : CompileError → Prop} {c : Scene} {S : List Slot} {s : State Chunk} {m : StackMap}
  {f : Frame} {r : Routine} {l : Label} {α β : Type}

/-! ## The last instruction -/

/-- What is known of a routine at its end: the targets that were marked and those gone to. -/
structure Finished (marked gone : List String) (r : Routine) : Prop where
  stackSafe : r.StackSafe
  allMarked_iff : r.AllMarked ↔ ∀ name ∈ gone, name ∈ marked
  balanced : r.openRegions = []

/-- Nothing is left to be done in a scene. -/
structure Scene.Settled (c : Scene) : Prop where
  opened : c.opened = []
  pending : c.pending = []
  called : c.called = []

theorem Holds.closed (h : Holds m c S f r) : StackMap.Closed (r.push .ret) where
  last {pc i} hi hf := by
    rw [Routine.position_push]
    rcases Routine.code_push_eq hi with hold | ⟨-, rfl⟩
    · exact Nat.succ_lt_succ (Array.getElem?_eq_some_iff.mp hold).1
    · exact nomatch hf
  marks hl := by
    rw [Routine.position_push]
    exact Nat.lt_succ_of_le (h.fits.marks hl).1
  handlers region hr x hx := by
    rw [Routine.position_push]
    exact Nat.lt_succ_of_le (h.fits.regions region hr x hx).1
  nonempty := by
    rw [Routine.position_push]
    exact Nat.succ_pos _

/-- The labels that are not marked at the end are targets that have been gone to. -/
theorem Holds.allMarked_iff (h : Holds m c S f r) (hc : c.Settled) (hf : f.epilogue = none) :
    r.AllMarked ↔ ∀ name ∈ c.gone, name ∈ c.marked := by
  constructor
  · intro hall name hgone
    by_contra hnot
    obtain ⟨l, hl, pc, i, hi, hli⟩ := h.labelled.gone name hgone
    obtain ⟨p, hp, -⟩ := hall hi hli
    rw [Routine.labelPosition?_eq, Option.join_eq_some_iff] at hp
    rw [(h.labelled.named name l hl).unmarked hnot] at hp
    exact nomatch hp
  · intro hsub pc i l hi hli
    obtain ⟨-, out, -, -, hlabels, -⟩ := h.fits.code hi
    obtain ⟨o, ho⟩ := Option.isSome_iff_exists.mp (hlabels l hli).1
    cases o with
    | some p =>
      refine ⟨p, ?_, (h.fits.marks ho).1⟩
      rw [Routine.labelPosition?_eq, ho]
      rfl
    | none =>
      -- The label of a target that has been gone to, which therefore has been marked after all.
      exfalso
      rcases h.labelled.unmarked l ho with hp | he | ⟨name, hname⟩
      · rw [hc.pending] at hp
        exact nomatch hp
      · rw [hf] at he
        exact nomatch he
      · have hn := h.labelled.named name l hname
        have hmarked : name ∈ c.marked := by
          rcases hn.seen with hs | hs | hs
          · exact hs
          · exact hsub name hs
          · rw [hc.called] at hs
            exact nomatch hs
        obtain ⟨p, hp⟩ := hn.marked hmarked
        rw [ho] at hp
        exact nomatch hp

/-- The routine after its last instruction. -/
theorem Holds.finish (h : Holds m c [.boxed] f r) (hc : c.Settled) (hf : f.epilogue = none) :
    Finished c.marked c.gone (r.push .ret) := by
  have hpush := h.push .ret [] Instruction.eq_boxed_of_mem rfl nofun nofun fun _ => rfl
  exact
    { stackSafe := hpush.fits.stackSafe hpush.start h.closed
      allMarked_iff := hpush.allMarked_iff hc hf
      balanced := hpush.opened.trans hc.opened }

/-- A routine that is at its end, and what is around it. -/
def Done (E : CompileError → Prop) (c : Scene) (s : State Chunk) : Prop :=
  c.base.Grows s.active ∧
    ∃ f, Around E c.toSurroundings { s with frame := f } ∧ Finished c.marked c.gone s.active

theorem Ready.ret (hs : Ready E c [.boxed] s) (hc : c.Settled) (hf : s.frame.epilogue = none) :
    Ends (Lowering.emit .ret) s (fun _ t => Done E c t) E := by
  refine (hs.emit .ret [] [] Instruction.eq_boxed_of_mem rfl nofun nofun fun _ => rfl).mono ?_
  rintro _ _ ⟨ht, rfl⟩
  obtain ⟨-, m, hm⟩ := hs
  refine ⟨ht.grows, s.frame, ht.1, ?_⟩
  rw [State.active_withActive]
  exact hm.finish hc hf

/-! ## Steps that do not look at the frame -/

/-- A step that neither looks at the frame nor changes it. -/
def FrameFree (x : Emit Chunk α) : Prop :=
  ∀ s f, x { s with frame := f } = ((x s).1, { (x s).2 with frame := f })

theorem FrameFree.toSink (call : Pass SinkError Chunk α) : FrameFree (Lowering.toSink call) := by
  intro s f
  unfold Lowering.toSink
  rcases call s.sink with ⟨_ | _, _⟩ <;> rfl

theorem FrameFree.returnTemp (t : Temp) : FrameFree (Lowering.returnTemp t) :=
  fun _ _ => rfl

theorem FrameFree.bind {x : Emit Chunk α} {g : α → Emit Chunk β} (hx : FrameFree x)
    (hg : ∀ a, FrameFree (g a)) : FrameFree (x >>= g) := by
  intro s f
  rw [Pass.bind_apply, Pass.bind_apply, hx s f]
  rcases x s with ⟨_ | a, t⟩
  · rfl
  · exact hg a t f

/-- Such a step leaves the frame as it is. -/
theorem FrameFree.keeps {x : Emit Chunk α} (hx : FrameFree x) {Q : α → State Chunk → Prop}
    (h : Ends x s Q E) : Ends x s (fun a t => Q a t ∧ t.frame = s.frame) E := by
  refine .intro (fun a t hrun => ⟨h.of_ok hrun, ?_⟩) (fun _ _ hrun => h.of_error hrun)
  have hsame : x s = ((x s).1, { (x s).2 with frame := s.frame }) := hx s s.frame
  rw [hrun] at hsame
  have hframe := congrArg State.frame (Prod.mk.inj hsame).2
  exact hframe

/-- What such a step does with another frame it does with the frame at hand. -/
theorem FrameFree.ends {x : Emit Chunk α} (hx : FrameFree x) {Q : α → State Chunk → Prop}
    (h : Ends x { s with frame := f } Q E) : Ends x s (fun a t => Q a { t with frame := f }) E := by
  unfold Ends at h ⊢
  rw [hx s f] at h
  rcases hrun : x s with ⟨_ | a, t⟩
  · rw [hrun] at h
    exact h
  · rw [hrun] at h
    exact h

/-! ## The end of a routine -/

/-- The label of the code that returns is taken out of the frame. -/
theorem Labelled.release (h : Labelled m c f r) (hl : f.epilogue = some l) :
    Labelled m { c.addLabel l [] with returnLabel := none } { f with epilogue := none } r := by
  obtain ⟨hnone, hnot, -, -⟩ := h.epilogue l hl
  refine
    { pending := ?_, nodup := List.nodup_cons.mpr ⟨hnot, h.nodup⟩, epilogue := nofun, named := ?_
      named_inj := h.named_inj, marked := h.marked, gone := h.gone, unmarked := ?_
      returnLabel := nofun }
  · intro x hx
    rcases List.mem_cons.mp hx with rfl | hx
    · exact hnone
    · exact h.pending x hx
  · intro name x hx
    have hn := h.named name x hx
    refine { hn with notPending := fun hmem => ?_, notEpilogue := nofun }
    rcases List.mem_cons.mp hmem with rfl | hmem
    · exact hn.notEpilogue hl
    · exact hn.notPending hmem
  · intro x hx
    rcases h.unmarked x hx with hp | he | hn
    · exact Or.inl (List.mem_cons_of_mem l hp)
    · rw [hl] at he
      exact Or.inl (Option.some.inj he ▸ List.mem_cons_self)
    · exact Or.inr (Or.inr hn)

theorem Ready.release (hs : Ready E c S s) (hl : s.frame.epilogue = some l) :
    Ready E { c.addLabel l [] with returnLabel := none } S
      { s with frame := { s.frame with epilogue := none } } := by
  obtain ⟨ha, m, hm⟩ := hs
  have htypes := (hm.labelled.epilogue l hl).2.2.1
  refine ⟨{ ha with }, m,
    { fits := hm.fits, start := hm.start, top := hm.top, grows := hm.grows, opened := hm.opened
      typed := fun hmem => ?_, loops := fun loop hloop => ?_, labelled := hm.labelled.release hl }⟩
  · rcases List.mem_cons.mp hmem with heq | hmem
    · obtain ⟨rfl, rfl⟩ := Prod.mk.inj heq
      exact htypes
    · exact hm.typed hmem
  · have hopen := hm.loops loop hloop
    exact { hopen with breakPending := List.mem_cons_of_mem l hopen.breakPending }

/-- The code that returns, which all `return` statements go to. -/
theorem Ready.returnCode (hs : Ready E c [] s) (hc : c.Settled) (hl : s.frame.epilogue = some l)
    (k : Temp) :
    Ends (do
      Lowering.mark l
      Lowering.emit (.loadTemp k)
      Lowering.returnTemp k
      Lowering.emit .ret) s (fun _ t => Done E c t) E := by
  have hin := hs.loopsIn
  have hmark := FrameFree.toSink (Sink.markLabel l : Pass SinkError Chunk Unit)
  have hload := FrameFree.toSink (Sink.emit (.loadTemp k) : Pass SinkError Chunk Unit)
  have hret := FrameFree.toSink (Sink.emit .ret : Pass SinkError Chunk Unit)
  have hfree := hmark.bind fun _ => hload.bind fun _ => (FrameFree.returnTemp k).bind fun _ => hret
  refine (hfree.ends (f := { s.frame with epilogue := none }) (Q := fun _ t =>
    Done E { c with returnLabel := none } t) ?_).mono fun _ _ ht => ht
  refine (hmark.keeps (Ready.markLast (c := { c with returnLabel := none }) (hs.release hl) hin)).bind ?_
  rintro _ u ⟨hu, hframe⟩
  refine (hload.keeps ((moves_loadTemp k []).ends hu)).bind ?_
  rintro _ v ⟨hv, hframe'⟩
  refine ((FrameFree.returnTemp k).keeps (hv.returnTemp k)).bind ?_
  rintro _ w ⟨hw, hframe''⟩
  refine hw.ret ⟨hc.opened, hc.pending, hc.called⟩ ?_
  rw [hframe'', hframe', hframe]

/-- **The end of a routine.** -/
theorem Ready.routineEnd (hs : Ready E c [] s) (hE : Tolerates E) (hc : c.Settled)
    (returnsRef : Bool) :
    Ends (Lowering.routineEnd returnsRef) s (fun _ t => Done E c t) E := by
  unfold Lowering.routineEnd
  cases returnsRef
  case' true =>
    refine ((moves_call .newReferenceEmpty []).ends hs).bind fun _ s hs => ?_
  case' false =>
    refine (moves_pushLiteral hE .null [] c s hs).bind ?_
    rintro _ s ⟨_, ⟨rfl, rfl⟩, hs⟩
  -- Now there is a value to return, of one kind or the other.
  all_goals
    refine ends_frame ?_
    split
    · rename_i l k hl _
      refine (hs.emit (.storeTemp k) [] [] (Or.inl rfl) rfl (fun _ => rfl) nofun nofun).bind ?_
      rintro _ _ ⟨hs', rfl⟩
      exact hs'.returnCode hc hl k
    · rename_i hnot
      -- A label without a slot cannot be, so no `return` was met.
      refine hs.ret hc ?_
      cases hl : s.frame.epilogue with
      | none => rfl
      | some l =>
        obtain ⟨-, m, hm⟩ := hs
        obtain ⟨k, hk⟩ := Option.isSome_iff_exists.mp (hm.labelled.epilogue l hl).2.2.2
        exact (hnot l k hl hk).elim

end Lowering
end PhpLowering
