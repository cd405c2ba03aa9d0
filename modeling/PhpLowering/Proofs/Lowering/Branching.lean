import PhpLowering.Lowering.Branching
import PhpLowering.Proofs.Lowering.Elements

/-!
# Jumps and the frame of a routine

Two sorts of labels change hands.  The label of the code that returns and the labels of
`goto` targets are made where they are first needed and then belong to the frame of the
routine.  As long as a target is neither marked nor gone to it is among the `called` ones of
the scene; what happens next takes it off that list again.

A jump out of a loop or of the routine goes to a label that the scene knows, and the stack
is empty there as it is at every statement.
-/

namespace PhpLowering
namespace Lowering

open Pass (Ends)

variable {E : CompileError → Prop} {c : Scene} {S : List Slot} {s t : State Chunk} {m : StackMap}
  {f : Frame} {r : Routine} {l : Label} {name : String}

/-! ## Scenes that differ in little -/

theorem LoopOpen.change {loop : Loop} {c' : Scene} (h : LoopOpen m c r loop)
    (hpending : loop.breakLabel ∈ c'.pending) (hlevel : loop.exceptionLevel ≤ c'.nesting) :
    LoopOpen m c' r loop :=
  { h with breakPending := hpending, level := hlevel }

theorem Holds.change {c' : Scene} {f' : Frame} (h : Holds m c S f r) (hbase : c'.base = c.base)
    (hopened : c'.opened = c.opened) (htyped : ∀ p ∈ c'.typed, p ∈ c.typed)
    (hloops : ∀ l ∈ c'.loops, LoopOpen m c' r l) (hlabelled : Labelled m c' f' r) :
    Holds m c' S f' r where
  fits := h.fits
  start := h.start
  top := h.top
  grows := hbase ▸ h.grows
  opened := h.opened.trans hopened.symm
  typed hl := h.typed (htyped _ hl)
  loops := hloops
  labelled := hlabelled

theorem Labelled.withCalled (h : Labelled m c f r) (name : String) :
    Labelled m { c with called := name :: c.called } f r := by
  refine { h with named := fun other l hl => ?_ }
  have hn := h.named other l hl
  refine { hn with seen := ?_ }
  rcases hn.seen with hs | hs | hs
  · exact Or.inl hs
  · exact Or.inr (Or.inl hs)
  · exact Or.inr (Or.inr (List.mem_cons_of_mem _ hs))

/-- The routine at hand can be taken as the point to look back to. -/
theorem Ready.rebase (hs : Ready E c S s) : Ready E { c with base := s.active } S s := by
  obtain ⟨ha, m, hm⟩ := hs
  exact ⟨ha, m, { hm with
    grows := .refl _
    loops := fun l hl => { hm.loops l hl with }
    labelled := { hm.labelled with named := fun n l hl => { hm.labelled.named n l hl with } } }⟩

/-- An earlier point to look back to. -/
theorem Ready.unbase {base : Routine} (hs : Ready E { c with base } S s) (h : c.base.Grows base) :
    Ready E c S s := by
  obtain ⟨ha, m, hm⟩ := hs
  exact ⟨ha, m, { hm with
    grows := h.trans hm.grows
    loops := fun l hl => { hm.loops l hl with }
    labelled := { hm.labelled with named := fun n l hl => { hm.labelled.named n l hl with } } }⟩

theorem Ready.grows (hs : Ready E c S s) : c.base.Grows s.active := by
  obtain ⟨-, m, hm⟩ := hs
  exact hm.grows

/-- Looking at the frame changes nothing. -/
theorem ends_frame {α : Type} {g : Frame → Emit Chunk α} {Q : α → State Chunk → Prop}
    (h : Ends (g s.frame) s Q E) : Ends (frame >>= g) s Q E := h

/-! ## Labels of `goto` targets -/

theorem lookup_cons_label (name n : String) (l : Label) (labels : List (String × Label)) :
    ((name, l) :: labels).lookup n = if n = name then some l else labels.lookup n := by
  rw [List.lookup_cons]
  by_cases h : n = name
  · rw [if_pos h, beq_iff_eq.mpr h]
  · rw [if_neg h, beq_false_of_ne h]

/-- A fresh label becomes that of a target. -/
theorem Labelled.adopt {K : List Slot} (h : Labelled m (c.addLabel l K) f r)
    (ht : m.Types r l []) (hnew : f.labels.lookup name = none) :
    Labelled m { c with called := name :: c.called }
      { f with labels := (name, l) :: f.labels } r := by
  have hnodup := List.nodup_cons.mp h.nodup
  have hother : ∀ n x, f.labels.lookup n = some x → n ≠ name ∧ x ≠ l := by
    intro n x hx
    refine ⟨fun heq => ?_, fun heq => ?_⟩
    · rw [heq, hnew] at hx
      exact nomatch hx
    · exact (h.named n x hx).notPending (heq ▸ List.mem_cons_self)
  have hkeep : ∀ n x, f.labels.lookup n = some x →
      ((name, l) :: f.labels).lookup n = some x := by
    intro n x hx
    rw [lookup_cons_label, if_neg (hother n x hx).1, hx]
  refine
    { pending := fun x hx => h.pending x (List.mem_cons_of_mem l hx), nodup := hnodup.2
      epilogue := ?_, named := ?_, named_inj := ?_, marked := ?_, gone := ?_, unmarked := ?_
      returnLabel := h.returnLabel }
  · intro x hx
    obtain ⟨hnone, hp, hxt, hr⟩ := h.epilogue x hx
    exact ⟨hnone, fun hmem => hp (List.mem_cons_of_mem l hmem), hxt, hr⟩
  · intro n x hx
    rw [lookup_cons_label] at hx
    split at hx
    · rename_i hn
      obtain rfl := Option.some.inj hx
      refine
        { types := ht, notPending := hnodup.1, notEpilogue := fun he => ?_
          unmarked := fun _ => h.pending l List.mem_cons_self, marked := fun hmem => ?_
          seen := Or.inr (Or.inr (hn ▸ List.mem_cons_self)) }
      · exact (h.epilogue l he).2.1 List.mem_cons_self
      · obtain ⟨x, hx⟩ := h.marked n hmem
        exact ((hother n x hx).1 hn).elim
    · have hn := h.named n x hx
      refine
        { types := hn.types, notPending := fun hmem => hn.notPending (List.mem_cons_of_mem l hmem)
          notEpilogue := hn.notEpilogue, unmarked := hn.unmarked, marked := hn.marked, seen := ?_ }
      rcases hn.seen with hs | hs | hs
      · exact Or.inl hs
      · exact Or.inr (Or.inl hs)
      · exact Or.inr (Or.inr (List.mem_cons_of_mem _ hs))
  · intro n n' x hx hx'
    rw [lookup_cons_label] at hx hx'
    split at hx
    · rename_i hn
      split at hx'
      · rename_i hn'
        exact hn.trans hn'.symm
      · exact ((hother n' x hx').2 (Option.some.inj hx).symm).elim
    · split at hx'
      · exact ((hother n x hx).2 (Option.some.inj hx').symm).elim
      · exact h.named_inj n n' x hx hx'
  · intro n hn
    obtain ⟨x, hx⟩ := h.marked n hn
    exact ⟨x, hkeep n x hx⟩
  · intro n hn
    obtain ⟨x, hx, hcode⟩ := h.gone n hn
    exact ⟨x, hkeep n x hx, hcode⟩
  · intro x hx
    rcases h.unmarked x hx with hp | he | ⟨n, hn⟩
    · rcases List.mem_cons.mp hp with rfl | hp
      · exact Or.inr (Or.inr ⟨name, by rw [lookup_cons_label, if_pos rfl]⟩)
      · exact Or.inl hp
    · exact Or.inr (Or.inl he)
    · exact Or.inr (Or.inr ⟨n, hkeep n x hn⟩)

/-- A target that has been called gets gone to. -/
theorem Labelled.go {called : List String} (h : Labelled m c f r)
    (hcalled : c.called = name :: called) (hl : f.labels.lookup name = some l)
    (hcode : ∃ (pc : Nat) (i : Instruction), r.code[pc]? = some i ∧ l ∈ i.labels) :
    Labelled m { c with gone := c.gone ++ [name], called } f r := by
  refine { h with named := fun n x hx => ?_, gone := fun n hn => ?_ }
  · have hn := h.named n x hx
    refine { hn with seen := ?_ }
    rcases hn.seen with hs | hs | hs
    · exact Or.inl hs
    · exact Or.inr (Or.inl (List.mem_append_left _ hs))
    · rw [hcalled] at hs
      rcases List.mem_cons.mp hs with rfl | hs
      · exact Or.inr (Or.inl (by simp))
      · exact Or.inr (Or.inr hs)
  · rcases List.mem_append.mp hn with hn | hn
    · exact h.gone n hn
    · obtain rfl := List.mem_singleton.mp hn
      exact ⟨l, hl, hcode⟩

/-- The label of a target is there afterwards. -/
theorem Ready.routineLabel (hs : Ready E c S s) (name : String) :
    Ends (Lowering.routineLabel name) s (fun l t =>
      Ready E { c with called := name :: c.called } S t ∧ t.frame.labels.lookup name = some l) E := by
  have hin := hs.loopsIn
  refine ends_frame ?_
  cases hlookup : s.frame.labels.lookup name with
  | some l =>
    obtain ⟨ha, m, hm⟩ := hs
    refine .pure ⟨⟨ha, m, ?_⟩, hlookup⟩
    exact hm.change rfl rfl (fun _ h => h) (fun l hl => (hm.loops l hl).change
      (hm.loops l hl).breakPending (hm.loops l hl).level) (hm.labelled.withCalled name)
  | none =>
    refine (hs.defineLabel []).bind ?_
    rintro l t ⟨⟨ha, m, hm⟩, hframe, -⟩
    refine Ends.bind (Q := fun _ u => Ready E { c with called := name :: c.called } S u ∧
      u.frame.labels.lookup name = some l) (.update ⟨⟨?_, m, ?_⟩, ?_⟩) fun _ _ ht => .pure ht
    · exact { ha with }
    · refine hm.change rfl rfl (fun _ h => List.mem_cons_of_mem _ h) (fun loop hloop => ?_)
        (hm.labelled.adopt (hm.typed List.mem_cons_self) (by rw [hframe]; exact hlookup))
      exact (hm.loops loop hloop).change (hin loop hloop) (hm.loops loop hloop).level
    · exact (lookup_cons_label name name l _).trans (if_pos rfl)

/-! ## Jumps -/

/-- The instruction of a jump: it leaves exception regions if there are other ones around the
label. -/
def jumpInstruction (nesting level : Nat) (l : Label) : Instruction :=
  if nesting = level then .branch l else .leave l

theorem labels_jumpInstruction (nesting level : Nat) (l : Label) :
    (jumpInstruction nesting level l).labels = [l] := by
  unfold jumpInstruction
  split <;> rfl

/-- A jump to a label that has the stack at hand; after it the stack can be anything. -/
theorem Ready.jump (hs : Ready E c S s) (level : Nat)
    (hl : ∀ m, Holds m c S s.frame s.active → m.Types s.active l S) (S' : List Slot) :
    Ends (Lowering.jump l level) s (fun _ t => Ready E c S' t ∧
      t = s.withActive (s.active.push (jumpInstruction c.nesting level l))) E := by
  have hnesting : s.frame.exceptionNesting = c.nesting := hs.1.nesting
  have hlabels : ∀ i : Instruction, i.labels = [l] →
      ∀ m, Holds m c S s.frame s.active → ∀ x ∈ i.labels, m.Types s.active x S := by
    intro i hi m hm x hx
    rw [hi] at hx
    obtain rfl := List.mem_singleton.mp hx
    exact hl m hm
  refine ends_frame ?_
  rw [hnesting]
  unfold jumpInstruction
  split
  · exact hs.emit (.branch l) S S' nofun rfl nofun (hlabels _ rfl) nofun
  · exact hs.emit (.leave l) S S' nofun rfl nofun (hlabels _ rfl) nofun

/-- A `goto`. -/
theorem Ready.goto (hs : Ready E c [] s) (name : String) :
    Ends (do Lowering.jump (← Lowering.routineLabel name) 0) s
      (fun _ t => Ready E { c with gone := c.gone ++ [name] } [] t) E := by
  refine (hs.routineLabel name).bind ?_
  rintro l t ⟨ht, hl⟩
  have htypes : ∀ m, Holds m { c with called := name :: c.called } [] t.frame t.active →
      m.Types t.active l [] := fun m hm => (hm.labelled.named name l hl).types
  refine (ht.jump 0 htypes []).mono ?_
  rintro _ u ⟨⟨ha, m, hm⟩, rfl⟩
  have hcode : ∃ (pc : Nat) (i : Instruction),
      (t.withActive (t.active.push (jumpInstruction c.nesting 0 l))).active.code[pc]? = some i ∧
        l ∈ i.labels := by
    refine ⟨t.active.position, jumpInstruction c.nesting 0 l, ?_, ?_⟩
    · rw [State.active_withActive]
      exact Routine.code_push_self _
    · rw [labels_jumpInstruction]
      exact List.mem_cons_self
  exact ⟨ha, m, hm.change rfl rfl (fun _ h => h) (fun loop hloop => (hm.loops loop hloop).change
    (hm.loops loop hloop).breakPending (hm.loops loop hloop).level) (hm.labelled.go rfl hl hcode)⟩

/-! ## Returns -/

theorem Labelled.withReturnTemp (h : Labelled m c f r) (t : Temp) :
    Labelled m c { f with returnTemp := some t } r := by
  refine { h with epilogue := fun l hl => ?_, named := fun n l hl => { h.named n l hl with } }
  obtain ⟨hnone, hp, ht, -⟩ := h.epilogue l hl
  exact ⟨hnone, hp, ht, rfl⟩

/-- A fresh label becomes that of the code that returns. -/
theorem Labelled.adoptEpilogue {K : List Slot} (h : Labelled m (c.addLabel l K) f r)
    (ht : m.Types r l []) (hnew : f.epilogue = none) (htemp : f.returnTemp.isSome = true) :
    Labelled m c { f with epilogue := some l } r := by
  have hnodup := List.nodup_cons.mp h.nodup
  refine
    { pending := fun x hx => h.pending x (List.mem_cons_of_mem l hx), nodup := hnodup.2
      epilogue := ?_, named := ?_, named_inj := h.named_inj, marked := h.marked, gone := h.gone
      unmarked := ?_, returnLabel := fun x hx => nomatch hnew.symm.trans (h.returnLabel x hx) }
  · intro x hx
    obtain rfl := Option.some.inj hx
    exact ⟨h.pending l List.mem_cons_self, hnodup.1, ht, htemp⟩
  · intro n x hx
    have hn := h.named n x hx
    refine
      { types := hn.types, notPending := fun hmem => hn.notPending (List.mem_cons_of_mem l hmem)
        notEpilogue := fun heq => ?_, unmarked := hn.unmarked, marked := hn.marked
        seen := hn.seen }
    obtain rfl := Option.some.inj heq
    exact hn.notPending List.mem_cons_self
  · intro x hx
    rcases h.unmarked x hx with hp | he | hn
    · rcases List.mem_cons.mp hp with rfl | hp
      · exact Or.inr (Or.inl rfl)
      · exact Or.inl hp
    · rw [hnew] at he
      exact nomatch he
    · exact Or.inr (Or.inr hn)

theorem Ready.returnSlot (hs : Ready E c S s) (hE : Tolerates E) :
    Ends Lowering.returnSlot s (fun _ t => Ready E c S t ∧ t.frame.returnTemp.isSome = true) E := by
  refine ends_frame ?_
  cases htemp : s.frame.returnTemp with
  | some k => exact .pure ⟨hs, by rw [htemp]; rfl⟩
  | none =>
    refine (hs.declareTemp hE).bind ?_
    rintro k t ⟨⟨ha, m, hm⟩, -⟩
    refine Ends.bind (Q := fun _ u => Ready E c S u ∧ u.frame.returnTemp.isSome = true)
      (.update ⟨⟨?_, m, ?_⟩, rfl⟩) fun _ _ ht => .pure ht
    · exact { ha with }
    · exact hm.change rfl rfl (fun _ h => h) hm.loops (hm.labelled.withReturnTemp k)

theorem Ready.epilogue (hs : Ready E c S s) (htemp : s.frame.returnTemp.isSome = true) :
    Ends Lowering.epilogue s (fun l t => Ready E c S t ∧ t.frame.epilogue = some l) E := by
  have hin := hs.loopsIn
  refine ends_frame ?_
  cases hlabel : s.frame.epilogue with
  | some l => exact .pure ⟨hs, hlabel⟩
  | none =>
    refine (hs.defineLabel []).bind ?_
    rintro l t ⟨⟨ha, m, hm⟩, hframe, -⟩
    refine Ends.bind (Q := fun _ u => Ready E c S u ∧ u.frame.epilogue = some l)
      (.update ⟨⟨?_, m, ?_⟩, rfl⟩) fun _ _ ht => .pure ht
    · exact { ha with }
    · refine hm.change rfl rfl (fun _ h => List.mem_cons_of_mem _ h) (fun loop hloop => ?_)
        (hm.labelled.adoptEpilogue (hm.typed List.mem_cons_self) (by rw [hframe]; exact hlabel)
          (by rw [hframe]; exact htemp))
      exact (hm.loops loop hloop).change (hin loop hloop) (hm.loops loop hloop).level

/-- Returning the value on top.  The last instruction is a jump to the code that returns. -/
theorem Ready.returnJump (hs : Ready E c [.boxed] s) (hE : Tolerates E) :
    Ends Lowering.returnJump s (fun _ t => Ready E c [] t ∧ ∃ (r : Routine) (l : Label),
      c.base.Grows r ∧ t.active = r.push (jumpInstruction c.nesting 0 l) ∧
        t.frame.epilogue = some l) E := by
  refine (hs.returnSlot hE).bind ?_
  rintro k s ⟨hs, htemp⟩
  refine (hs.epilogue htemp).bind ?_
  rintro l s ⟨hs, hl⟩
  refine (hs.emit (.storeTemp k) [] [] (Or.inl rfl) rfl (fun _ => rfl) nofun nofun).bind ?_
  rintro _ _ ⟨hs, rfl⟩
  have htypes : ∀ m, Holds m c [] (s.withActive (s.active.push (.storeTemp k))).frame
      (s.withActive (s.active.push (.storeTemp k))).active →
        m.Types (s.withActive (s.active.push (.storeTemp k))).active l [] :=
    fun m hm => (hm.labelled.epilogue l hl).2.2.1
  refine (hs.jump 0 htypes []).mono ?_
  rintro _ _ ⟨ht, rfl⟩
  have hgrows := hs.grows
  rw [State.active_withActive] at hgrows
  refine ⟨ht, s.active.push (.storeTemp k), l, hgrows, ?_, hl⟩
  rw [State.active_withActive, State.active_withActive]

/-! ## Ways out of loops -/

theorem LoopOpen.types {loop : Loop} (h : LoopOpen m c r loop) (kind : BranchKind) :
    m.Types r (loop.target kind) [] := by
  cases kind with
  | «break» => exact h.breakTypes
  | «continue» => exact h.continueTypes

theorem Ready.leaveTo (hs : Ready E c [] s) {loop : Loop} (hloop : loop ∈ c.loops)
    (kind : BranchKind) :
    Ends (Lowering.leaveTo kind loop) s (fun _ t => Ready E c [] t ∧ t = s.withActive
      (s.active.push (jumpInstruction c.nesting loop.exceptionLevel (loop.target kind)))) E :=
  hs.jump loop.exceptionLevel (fun _ hm => (hm.loops loop hloop).types kind) []

/-- A way out of a loop at a known level is one jump. -/
theorem Ready.staticBranch (hs : Ready E c [] s) (kind : BranchKind) {level : Nat}
    (hlevel : Granted E (max level 1 ≤ c.loops.length)) :
    Ends (Lowering.staticBranch kind level) s (fun _ t => Ready E c [] t ∧
      ∃ loop, c.loops[max level 1 - 1]? = some loop ∧ t = s.withActive
        (s.active.push (jumpInstruction c.nesting loop.exceptionLevel (loop.target kind)))) E := by
  refine ends_frame ?_
  simp only [hs.1.loops]
  split
  · rename_i loop hloop
    refine (hs.leaveTo (List.mem_of_getElem? hloop) kind).mono ?_
    rintro _ t ⟨ht, heq⟩
    exact ⟨ht, loop, hloop, heq⟩
  · rename_i hnone
    refine .fail (hlevel.error fun hle => ?_)
    rw [List.getElem?_eq_none_iff] at hnone
    omega

/-- The scene with some more labels in use, which are not marked yet. -/
def Scene.addLabels (c : Scene) (labels : List Label) (K : List Slot) : Scene :=
  { c with typed := labels.map (·, K) ++ c.typed, pending := labels ++ c.pending }

theorem Ready.defineLabels (K : List Slot) (n : Nat) {c : Scene} {s : State Chunk}
    (hs : Ready E c S s) :
    Ends (Lowering.defineLabels n) s
      (fun labels t => labels.length = n ∧ Ready E (c.addLabels labels K) S t) E := by
  induction n generalizing c s with
  | zero => exact .pure ⟨rfl, hs⟩
  | succ n ih =>
    refine (hs.defineLabel K).bind ?_
    rintro l s ⟨hs, -⟩
    refine (ih hs).bind ?_
    rintro labels s ⟨hlength, hs⟩
    refine .pure ⟨by rw [List.length_cons, hlength], ?_⟩
    refine hs.relabel (fun p hp => ?_) List.perm_middle
    exact List.perm_middle.mem_iff.mpr hp

/-- Every entry of a table is a mark and a jump. -/
theorem Ready.tableEntries (kind : BranchKind) (entries : List (Label × Loop)) {c : Scene}
    {s : State Chunk} (hloops : ∀ p ∈ entries, p.2 ∈ c.loops) (hin : c.LoopsIn c.pending)
    (hs : Ready E (c.addLabels (entries.map Prod.fst) []) [] s) :
    Ends (Lowering.tableEntries kind entries) s (fun _ t => Ready E c [] t ∧
      ∀ p ∈ entries, ∃ pc, c.base.position ≤ pc ∧ t.active.code[pc]? =
        some (jumpInstruction c.nesting p.2.exceptionLevel (p.2.target kind))) E := by
  induction entries generalizing c s with
  | nil => exact .pure ⟨hs, nofun⟩
  | cons p rest ih =>
    have hin' : (c.addLabels (rest.map Prod.fst) []).LoopsIn (rest.map Prod.fst ++ c.pending) :=
      fun loop hloop => List.mem_append_right _ (hin loop hloop)
    have hfirst : Ready E ((c.addLabels (rest.map Prod.fst) []).addLabel p.1 []) [] s := hs
    refine (hfirst.markLast hin').bind fun _ s hs => ?_
    refine (hs.leaveTo (hloops p List.mem_cons_self) kind).bind ?_
    rintro _ u ⟨hu, heq⟩
    have hgrows : c.base.Grows u.active := hu.grows
    have hbase : c.base.position ≤ s.active.position := hs.grows.position
    refine (ih (c := { c with base := u.active }) (fun q hq => hloops q (List.mem_cons_of_mem p hq))
      hin hu.rebase).mono ?_
    rintro _ t ⟨ht, hrest⟩
    refine ⟨ht.unbase hgrows, fun q hq => ?_⟩
    rcases List.mem_cons.mp hq with rfl | hq
    · refine ⟨s.active.position, hbase, ht.grows.code ?_⟩
      rw [heq, State.active_withActive]
      exact Routine.code_push_self _
    · obtain ⟨pc, hpc, hcode⟩ := hrest q hq
      exact ⟨pc, Nat.le_trans hgrows.position hpc, hcode⟩

/-- A way out of a loop at a level that turns up at run time: there is a jump for every loop. -/
theorem Ready.runtimeBranch (hs : Ready E c [] s) (hE : Tolerates E) (kind : BranchKind)
    {level : Code Chunk} (hlevel : Yields E True (level .value)) (hne : Granted E (c.loops ≠ [])) :
    Ends (Lowering.runtimeBranch kind level) s (fun _ t => Ready E c [] t ∧
      ∀ loop ∈ c.loops, ∃ pc, c.base.position ≤ pc ∧ t.active.code[pc]? =
        some (jumpInstruction c.nesting loop.exceptionLevel (loop.target kind))) E := by
  have hin := hs.loopsIn
  refine ends_frame ?_
  rw [hs.1.loops]
  cases hloops : c.loops with
  | nil => exact .fail (hne.error fun hne => (hne hloops).elim)
  | cons innermost outer =>
    refine (hlevel.converted (.mk trivial) (rfl : converter? .longInteger = some .toLong) [] c s
      hs).bind ?_
    rintro _ s ⟨_, ⟨rfl, rfl⟩, hs⟩
    refine (hs.declareTemp hE).bind ?_
    rintro k s ⟨hs, -⟩
    refine ((moves_saveTo k [] (Or.inr rfl)).ends hs).bind fun _ s hs => ?_
    refine (hs.defineLabels [] (outer.length + 2)).bind ?_
    rintro table s ⟨hlength, hs⟩
    have hentries : (table.zip (innermost :: innermost :: outer)).map Prod.fst = table :=
      List.map_fst_zip (Nat.le_of_eq hlength)
    have hmem : ∀ p ∈ table.zip (innermost :: innermost :: outer), p.2 ∈ c.loops := by
      intro p hp
      have hp2 := (List.of_mem_zip hp).2
      rw [hloops]
      rcases List.mem_cons.mp hp2 with h | h
      · rw [h]
        exact List.mem_cons_self
      · exact h
    refine (hs.emit (.switch table) [] [] rfl rfl (fun _ => rfl) (fun m hm l hl => ?_) nofun).bind ?_
    · exact hm.typed (List.mem_append_left _ (List.mem_map_of_mem hl))
    rintro _ s ⟨hs, -⟩
    refine ((moves_loadTemp k []).ends hs).bind fun _ s hs => ?_
    refine ((moves_call .throwInvalidBreakLevel []).ends hs).bind fun _ s hs => ?_
    refine (hs.leaveTo (c := c.addLabels table []) (hloops ▸ List.mem_cons_self) .break).bind ?_
    rintro _ s ⟨hs, -⟩
    rw [← hentries] at hs
    refine (Ready.tableEntries kind _ hmem hin hs).bind ?_
    rintro _ s ⟨hs, hjumps⟩
    refine (hs.rebase.returnTemp k).mono fun _ t ht => ⟨ht.unbase hs.grows, fun loop hloop => ?_⟩
    -- The table has two entries for the innermost loop and one for each of the others.
    have hentry : ∃ label, (label, loop) ∈ table.zip (innermost :: innermost :: outer) := by
      obtain ⟨n, hn, hget⟩ := List.mem_iff_getElem.mp hloop
      have hbound : n + 1 < table.length := by
        rw [hlength]
        exact Nat.succ_lt_succ hn
      refine ⟨table[n + 1], List.mem_iff_getElem.mpr ⟨n + 1, ?_, ?_⟩⟩
      · rw [List.length_zip, hlength]
        simp only [List.length_cons] at hn ⊢
        omega
      · rw [List.getElem_zip, ← hget]
        rfl
    obtain ⟨label, hlabel⟩ := hentry
    obtain ⟨pc, hpc, hcode⟩ := hjumps _ hlabel
    exact ⟨pc, hpc, ht.grows.code hcode⟩

/-! ## Loops and regions around -/

/-- Going into a loop whose test is marked and whose exit is not. -/
theorem Ready.enterLoop (hs : Ready E c S s) {exit test : Label} (hpending : exit ∈ c.pending)
    (hexit : (exit, []) ∈ c.typed) (htest : (test, []) ∈ c.typed)
    (hmarked : ∃ p, s.active.mark? test = some (some p)) :
    Ready E { c with loops := ⟨exit, test, c.nesting⟩ :: c.loops } S
      { s with frame := s.frame.enterLoop exit test } := by
  obtain ⟨ha, m, hm⟩ := hs
  refine ⟨{ ha with loops := ?_ }, m, hm.change rfl rfl (fun _ h => h) ?_ ?_⟩
  · show _ :: s.frame.loops = _
    rw [ha.loops, ha.nesting]
  · intro loop hloop
    rcases List.mem_cons.mp hloop with rfl | hloop
    · exact ⟨hm.typed hexit, hpending, hm.typed htest, hmarked, Nat.le_refl _⟩
    · exact { hm.loops loop hloop with }
  · exact { hm.labelled with
      epilogue := hm.labelled.epilogue
      named := fun n l hl => { hm.labelled.named n l hl with } }

/-- Leaving the innermost loop. -/
theorem Ready.leaveLoop (hs : Ready E c S s) {loop : Loop} {loops : List Loop}
    (hloops : c.loops = loop :: loops) :
    Ready E { c with loops } S { s with frame := s.frame.leaveLoop } := by
  obtain ⟨ha, m, hm⟩ := hs
  refine ⟨{ ha with loops := ?_ }, m, hm.change rfl rfl (fun _ h => h) ?_ ?_⟩
  · show s.frame.loops.tail = _
    rw [ha.loops, hloops]
    rfl
  · intro l hl
    exact { hm.loops l (hloops ▸ List.mem_cons_of_mem loop hl) with }
  · exact { hm.labelled with
      epilogue := hm.labelled.epilogue
      named := fun n l hl => { hm.labelled.named n l hl with } }

theorem Ready.enterException (hs : Ready E c S s) :
    Ready E { c with nesting := c.nesting + 1 } S { s with frame := s.frame.enterException } := by
  obtain ⟨ha, m, hm⟩ := hs
  refine ⟨{ ha with nesting := congrArg (· + 1) ha.nesting }, m,
    hm.change rfl rfl (fun _ h => h) (fun l hl => ?_) ?_⟩
  · exact { hm.loops l hl with level := Nat.le_succ_of_le (hm.loops l hl).level }
  · exact { hm.labelled with
      epilogue := hm.labelled.epilogue
      named := fun n l hl => { hm.labelled.named n l hl with } }

/-- Leaving a region again, as all loops around were there before it. -/
theorem Ready.leaveException (hs : Ready E c S s) {n : Nat} (hn : c.nesting = n + 1)
    (hlevel : ∀ l ∈ c.loops, l.exceptionLevel ≤ n) :
    Ready E { c with nesting := n } S { s with frame := s.frame.leaveException } := by
  obtain ⟨ha, m, hm⟩ := hs
  refine ⟨{ ha with nesting := ?_ }, m, hm.change rfl rfl (fun _ h => h) (fun l hl => ?_) ?_⟩
  · show s.frame.exceptionNesting - 1 = n
    rw [ha.nesting, hn]
    rfl
  · exact { hm.loops l hl with level := hlevel l hl }
  · exact { hm.labelled with
      epilogue := hm.labelled.epilogue
      named := fun n l hl => { hm.labelled.named n l hl with } }

theorem Ready.level_le (hs : Ready E c S s) : ∀ l ∈ c.loops, l.exceptionLevel ≤ c.nesting := by
  obtain ⟨-, m, hm⟩ := hs
  exact fun l hl => (hm.loops l hl).level

end Lowering
end PhpLowering
