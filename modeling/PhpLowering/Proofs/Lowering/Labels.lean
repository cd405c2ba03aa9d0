import PhpLowering.Lowering.Branching
import PhpLowering.Proofs.Lowering.Calls

/-!
# Labels and the frame of a routine

A fresh label goes on the list of those that wait for a mark, and whoever made it takes it
off again by marking it.  Two sorts of labels change hands: that of the code that returns
and those of `goto` targets are handed to the frame of the routine, which looks after them
from then on.
-/

namespace PhpLowering
namespace Lowering

open Pass (Ends)

variable {E : CompileError → Prop} {c : Scene} {S S' K : List Slot} {s : State Chunk}
  {m m' : StackMap} {f : Frame} {r r' : Routine} {l : Label} {name : String}

/-- The scene with one more label in use, which is not marked yet. -/
def Scene.addLabel (c : Scene) (l : Label) (K : List Slot) : Scene :=
  { c with typed := (l, K) :: c.typed, pending := l :: c.pending }

/-- The loops around have their exits among these labels. -/
def Scene.LoopsIn (c : Scene) (labels : List Label) : Prop :=
  ∀ l ∈ c.loops, l.breakLabel ∈ labels

theorem Ready.loopsIn (h : Ready E c S s) : c.LoopsIn c.pending := by
  obtain ⟨-, m, hm⟩ := h
  exact fun l hl => (hm.loops l hl).breakPending

theorem Scene.LoopsIn.cons {labels : List Label} (h : c.LoopsIn labels) (l : Label) :
    c.LoopsIn (l :: labels) :=
  fun loop hloop => List.mem_cons_of_mem l (h loop hloop)

/-! ## Fresh labels -/

theorem ne_defineLabel (h : (r.mark? l).isSome) : l ≠ r.defineLabel.1 := by
  rintro rfl
  rw [Routine.mark?_new] at h
  exact nomatch h

theorem mark?_defineLabel_of_isSome (h : (r.mark? l).isSome) :
    r.defineLabel.2.mark? l = r.mark? l := by
  rw [Routine.mark?_defineLabel, if_neg (ne_defineLabel h)]

theorem Labelled.define (h : Labelled m c f r) (K : List Slot) :
    Labelled (m.withLabel r.defineLabel.1 K) (c.addLabel r.defineLabel.1 K) f
      r.defineLabel.2 := by
  have hx : m.Extends r (m.withLabel r.defineLabel.1 K) r.defineLabel.2 := m.extends_withLabel K
  have hold : ∀ l o, r.mark? l = some o → r.defineLabel.2.mark? l = some o := fun l o hl =>
    (mark?_defineLabel_of_isSome (Option.isSome_of_eq_some hl)).trans hl
  have hnotin : ∀ l, (r.mark? l).isSome → l ∉ c.pending → l ∉ r.defineLabel.1 :: c.pending :=
    fun l hl hp => List.not_mem_cons_of_ne_of_not_mem (ne_defineLabel hl) hp
  refine
    { pending := ?_, nodup := ?_, epilogue := ?_, named := ?_, named_inj := h.named_inj,
      marked := h.marked, gone := ?_, unmarked := ?_, returnLabel := h.returnLabel }
  · intro l hl
    rcases List.mem_cons.mp hl with rfl | hl
    · rw [Routine.mark?_defineLabel, if_pos rfl]
    · exact hold l none (h.pending l hl)
  · refine List.nodup_cons.mpr ⟨fun hmem => ?_, h.nodup⟩
    have hnone := h.pending _ hmem
    rw [Routine.mark?_new] at hnone
    exact nomatch hnone
  · intro l hl
    obtain ⟨hnone, hp, ht, hr⟩ := h.epilogue l hl
    exact ⟨hold l none hnone, hnotin l ht.1 hp, ht.extend hx, hr⟩
  · intro name l hl
    have hn := h.named name l hl
    exact
      { types := hn.types.extend hx
        notPending := hnotin l hn.types.1 hn.notPending
        notEpilogue := hn.notEpilogue
        unmarked := fun hname => hold l none (hn.unmarked hname)
        marked := fun hname => (hn.marked hname).imp fun p hp => hold l (some p) hp
        seen := hn.seen }
  · intro name hname
    obtain ⟨l, hl, pc, i, hi, hli⟩ := h.gone name hname
    exact ⟨l, hl, pc, i, hx.grows.code hi, hli⟩
  · intro l hl
    rw [Routine.mark?_defineLabel] at hl
    split at hl
    · rename_i heq
      exact Or.inl (heq ▸ List.mem_cons_self)
    · exact (h.unmarked l hl).imp_left (List.mem_cons_of_mem _)

theorem Holds.define (h : Holds m c S f r) (K : List Slot) :
    Holds (m.withLabel r.defineLabel.1 K) (c.addLabel r.defineLabel.1 K) S f r.defineLabel.2 := by
  have hx : m.Extends r (m.withLabel r.defineLabel.1 K) r.defineLabel.2 := m.extends_withLabel K
  refine
    { fits := h.fits.extend hx (fun hi => Or.inl hi) ?_ (fun _ hr => Or.inl hr)
        (fun _ ho => Or.inl ho)
      start := h.start, top := h.top, grows := h.grows.trans hx.grows, opened := h.opened
      typed := ?_, loops := ?_, labelled := h.labelled.define K }
  · intro l p hp
    rw [Routine.mark?_defineLabel] at hp
    split at hp
    · exact nomatch hp
    · exact Or.inl hp
  · intro l K' hl
    rcases List.mem_cons.mp hl with heq | hl
    · obtain ⟨rfl, rfl⟩ := Prod.mk.inj heq
      refine ⟨?_, if_pos rfl⟩
      rw [Routine.mark?_defineLabel, if_pos rfl]
      rfl
    · exact (h.typed hl).extend hx
  · intro loop hloop
    have hopen := (h.loops loop hloop).extend hx
    exact { hopen with breakPending := List.mem_cons_of_mem _ hopen.breakPending }

/-- A fresh label, for which a stack is chosen. -/
theorem Ready.defineLabel (h : Ready E c S s) (K : List Slot) :
    Ends Lowering.defineLabel s (fun l t => Ready E (c.addLabel l K) S t ∧ t.frame = s.frame ∧
      t.active.position = s.active.position) E := by
  obtain ⟨ha, m, hm⟩ := h
  have hrun : Lowering.defineLabel s =
      (.ok s.active.defineLabel.1, s.withActive s.active.defineLabel.2) := by
    show ((.ok (Chunk.onActive Routine.defineLabel s.sink).1,
      { s with sink := (Chunk.onActive Routine.defineLabel s.sink).2 }) :
        Except CompileError Label × State Chunk) = _
    rw [Chunk.onActive_eq]
    rfl
  have ha' : Around E (c.addLabel s.active.defineLabel.1 K).toSurroundings s := ha
  refine .of_eq hrun ⟨ha'.ready (hm.define K), rfl, ?_⟩
  rw [State.active_withActive]
  rfl

/-- What is known of labels can be forgotten, and the order in which they wait does not matter. -/
theorem Ready.relabel {typed : List (Label × List Slot)} {pending : List Label}
    (h : Ready E c S s) (hsub : ∀ p ∈ typed, p ∈ c.typed) (hperm : c.pending.Perm pending) :
    Ready E { c with typed, pending } S s := by
  obtain ⟨ha, m, hm⟩ := h
  have hlab := hm.labelled
  refine ⟨ha, m,
    { fits := hm.fits, start := hm.start, top := hm.top, grows := hm.grows, opened := hm.opened
      typed := fun hl => hm.typed (hsub _ hl), loops := ?_, labelled := ?_ }⟩
  · intro l hl
    have hopen := hm.loops l hl
    exact { hopen with breakPending := hperm.mem_iff.mp hopen.breakPending }
  · refine
      { pending := fun l hl => hlab.pending l (hperm.mem_iff.mpr hl)
        nodup := hperm.nodup_iff.mp hlab.nodup, epilogue := ?_, named := ?_
        named_inj := hlab.named_inj, marked := hlab.marked, gone := hlab.gone, unmarked := ?_
        returnLabel := hlab.returnLabel }
    · intro l hl
      obtain ⟨hnone, hp, ht, hr⟩ := hlab.epilogue l hl
      exact ⟨hnone, fun hmem => hp (hperm.mem_iff.mpr hmem), ht, hr⟩
    · intro name l hl
      have hn := hlab.named name l hl
      exact { hn with notPending := fun hmem => hn.notPending (hperm.mem_iff.mpr hmem) }
    · intro l hl
      exact (hlab.unmarked l hl).imp_left hperm.mem_iff.mp

/-- The order in which two labels were made does not matter. -/
theorem Ready.swap {l' : Label} {K' : List Slot}
    (h : Ready E ((c.addLabel l K).addLabel l' K') S s) :
    Ready E ((c.addLabel l' K').addLabel l K) S s := by
  refine h.relabel ?_ (List.Perm.swap l l' c.pending)
  intro p hp
  exact (List.Perm.swap (l', K') (l, K) c.typed).mem_iff.mp hp

/-! ## Marks -/

theorem mark?_marking_of_ne (hl : r.mark? l = some none) {l' : Label} (h : l' ≠ l) :
    (r.marking l).mark? l' = r.mark? l' := by
  rw [Routine.mark?_marking hl, if_neg h]

theorem Labelled.mark {rest : List Label} (h : Labelled m c f r)
    (hp : c.pending.Perm (l :: rest)) :
    Labelled m { c with pending := rest } f (r.marking l) := by
  have hmem : l ∈ c.pending := hp.mem_iff.mpr List.mem_cons_self
  have hl : r.mark? l = some none := h.pending l hmem
  have hnodup : (l :: rest).Nodup := hp.nodup_iff.mp h.nodup
  have hsub : ∀ x ∈ rest, x ∈ c.pending := fun x hx => hp.mem_iff.mpr (List.mem_cons_of_mem l hx)
  have hx : m.Extends r m (r.marking l) := .of_grows (Routine.grows_marking hl)
  refine
    { pending := ?_, nodup := (List.nodup_cons.mp hnodup).2, epilogue := ?_, named := ?_
      named_inj := h.named_inj, marked := h.marked, gone := h.gone, unmarked := ?_
      returnLabel := h.returnLabel }
  · intro x hxr
    have hne : x ≠ l := by
      rintro rfl
      exact (List.nodup_cons.mp hnodup).1 hxr
    rw [mark?_marking_of_ne hl hne]
    exact h.pending x (hsub x hxr)
  · intro x hxe
    obtain ⟨hnone, hnot, ht, hr⟩ := h.epilogue x hxe
    have hne : x ≠ l := fun heq => hnot (heq ▸ hmem)
    refine ⟨?_, fun hxr => hnot (hsub x hxr), ht.extend hx, hr⟩
    rw [mark?_marking_of_ne hl hne]
    exact hnone
  · intro name x hxn
    have hn := h.named name x hxn
    have hne : x ≠ l := fun heq => hn.notPending (heq ▸ hmem)
    exact { hn.extend hx (mark?_marking_of_ne hl hne) with
      notPending := fun hxr => hn.notPending (hsub x hxr) }
  · intro x hxm
    rw [Routine.mark?_marking hl] at hxm
    split at hxm
    · exact nomatch hxm
    · rename_i hne
      refine (h.unmarked x hxm).imp_left fun hxp => ?_
      exact (List.mem_cons.mp (hp.mem_iff.mp hxp)).resolve_left hne

theorem Labelled.markNamed {called : List String} (h : Labelled m c f r)
    (hlookup : f.labels.lookup name = some l) (hname : name ∉ c.marked)
    (hcalled : c.called = name :: called) :
    Labelled m { c with marked := c.marked ++ [name], called } f (r.marking l) := by
  have hthis := h.named name l hlookup
  have hl : r.mark? l = some none := hthis.unmarked hname
  have hx : m.Extends r m (r.marking l) := .of_grows (Routine.grows_marking hl)
  refine
    { pending := ?_, nodup := h.nodup, epilogue := ?_, named := ?_, named_inj := h.named_inj
      marked := ?_, gone := h.gone, unmarked := ?_, returnLabel := h.returnLabel }
  · intro x hxp
    have hne : x ≠ l := by
      rintro rfl
      exact hthis.notPending hxp
    rw [mark?_marking_of_ne hl hne]
    exact h.pending x hxp
  · intro x hxe
    obtain ⟨hnone, hnot, ht, hr⟩ := h.epilogue x hxe
    have hne : x ≠ l := by
      rintro rfl
      exact hthis.notEpilogue hxe
    refine ⟨?_, hnot, ht.extend hx, hr⟩
    rw [mark?_marking_of_ne hl hne]
    exact hnone
  · intro other x hxn
    have hn := h.named other x hxn
    by_cases hother : other = name
    · obtain rfl : x = l := by
        rw [hother, hlookup] at hxn
        exact (Option.some.inj hxn).symm
      refine
        { types := hn.types.extend hx, notPending := hn.notPending, notEpilogue := hn.notEpilogue
          unmarked := fun hnot => (hnot (by simp [hother])).elim
          marked := fun _ => ⟨r.position, ?_⟩, seen := Or.inl (by simp [hother]) }
      rw [Routine.mark?_marking hl, if_pos rfl]
    · have hne : x ≠ l := by
        rintro rfl
        exact hother (h.named_inj _ _ _ hxn hlookup)
      have hn' := hn.extend hx (mark?_marking_of_ne hl hne)
      refine
        { types := hn'.types, notPending := hn'.notPending, notEpilogue := hn'.notEpilogue
          unmarked := fun hnot => hn'.unmarked fun hmem => hnot (List.mem_append_left _ hmem)
          marked := fun hmem => hn'.marked (by simpa [hother] using hmem), seen := ?_ }
      rcases hn.seen with hs | hs | hs
      · exact Or.inl (List.mem_append_left _ hs)
      · exact Or.inr (Or.inl hs)
      · rw [hcalled] at hs
        exact Or.inr (Or.inr ((List.mem_cons.mp hs).resolve_left hother))
  · intro other hmem
    rcases List.mem_append.mp hmem with hmem | hmem
    · exact h.marked other hmem
    · obtain rfl := List.mem_singleton.mp hmem
      exact ⟨l, hlookup⟩
  · intro x hxm
    rw [Routine.mark?_marking hl] at hxm
    split at hxm
    · exact nomatch hxm
    · exact h.unmarked x hxm

/-- The routine with a label marked, of which all is known but what the labels are. -/
theorem Holds.marking {c' : Scene} (h : Holds m c S f r) (hl : r.mark? l = some none)
    (hS : m.label l = S) (hbase : c'.base = c.base) (htyped : c'.typed = c.typed)
    (hopened : c'.opened = c.opened) (hloops : c'.loops = c.loops)
    (hnesting : c'.nesting = c.nesting) (hin : c'.LoopsIn c'.pending)
    (hlabelled : Labelled m c' f (r.marking l)) : Holds m c' S f (r.marking l) := by
  have hx : m.Extends r m (r.marking l) := .of_grows (Routine.grows_marking hl)
  refine
    { fits := h.fits.marking hl (h.top.trans hS.symm), start := h.start, top := h.top
      grows := ?_, opened := ?_, typed := ?_, loops := ?_, labelled := hlabelled }
  · rw [hbase]
    exact h.grows.trans hx.grows
  · rw [hopened]
    exact h.opened
  · intro l' K hl'
    rw [htyped] at hl'
    exact (h.typed hl').extend hx
  · intro loop hloop
    have hopen := (h.loops loop (hloops ▸ hloop)).extend hx
    exact
      { breakTypes := hopen.breakTypes, breakPending := hin loop hloop
        continueTypes := hopen.continueTypes, continueMarked := hopen.continueMarked
        level := by rw [hnesting]; exact hopen.level }

theorem mark_eq (h : s.active.mark? l = some none) :
    Lowering.mark l s = (.ok (), s.withActive (s.active.marking l)) :=
  toSink_ok (Routine.markLabel_eq h)

/-- Marking a label that waits for it, where the stack is that of the label. -/
theorem Ready.mark {rest : List Label} (h : Ready E c S s) (ht : (l, S) ∈ c.typed)
    (hp : c.pending.Perm (l :: rest)) (hin : c.LoopsIn rest) :
    Ends (Lowering.mark l) s (fun _ t => Ready E { c with pending := rest } S t ∧
      t = s.withActive (s.active.marking l)) E := by
  obtain ⟨ha, m, hm⟩ := h
  have hl : s.active.mark? l = some none :=
    hm.labelled.pending l (hp.mem_iff.mpr List.mem_cons_self)
  have ha' : Around E ({ c with pending := rest } : Scene).toSurroundings s := ha
  exact .of_eq (mark_eq hl) ⟨ha'.ready (hm.marking hl (hm.typed ht).2 rfl rfl rfl rfl rfl hin
    (hm.labelled.mark hp)), rfl⟩

/-- Marking the label that was made last, after which nobody needs it any more. -/
theorem Ready.markLast (h : Ready E (c.addLabel l S) S s) (hin : c.LoopsIn c.pending) :
    Ends (Lowering.mark l) s (fun _ t => Ready E c S t) E := by
  refine (h.mark List.mem_cons_self (List.Perm.refl _) hin).mono fun _ t ht => ?_
  exact ht.1.relabel (fun p hp => List.mem_cons_of_mem _ hp) (List.Perm.refl _)

/-- Marking the target of a `goto`. -/
theorem Ready.markNamed {called : List String} (h : Ready E c [] s)
    (hlookup : s.frame.labels.lookup name = some l) (hname : Granted E (name ∉ c.marked))
    (hcalled : c.called = name :: called) :
    Ends (Lowering.mark l) s
      (fun _ t => Ready E { c with marked := c.marked ++ [name], called } [] t) E := by
  obtain ⟨ha, m, hm⟩ := h
  have hn := hm.labelled.named name l hlookup
  by_cases hmem : name ∈ c.marked
  · have hE : ∀ e, E e := hname.resolve_right fun hnot => hnot hmem
    obtain ⟨p, hp⟩ := hn.marked hmem
    show Ends (toSink (Chunk.onActive (Routine.markLabel l))) s _ E
    refine ends_toSink (.intro (fun _ r hr => ?_) fun _ _ _ => hE _)
    unfold Routine.mark? at hp
    simp only [Routine.markLabel, hp] at hr
    exact nomatch hr
  · have hl := hn.unmarked hmem
    have ha' : Around E
        ({ c with marked := c.marked ++ [name], called } : Scene).toSurroundings s := ha
    exact .of_eq (mark_eq hl) (ha'.ready (hm.marking hl hn.types.2 rfl rfl rfl rfl rfl
      (fun loop hloop => (hm.loops loop hloop).breakPending)
      (hm.labelled.markNamed hlookup hmem hcalled)))

end Lowering
end PhpLowering
