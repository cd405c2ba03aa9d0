import PhpLowering.Proofs.Lowering.AtRest
import PhpLowering.Proofs.Lowering.Storing
import PhpLowering.Proofs.Lowering.Tries

/-!
# The slots that the code of statements has stored to

Between two statements nothing is taken to be stored.  A label that one may come to from anywhere, such
as that of a loop, of a `goto` target or of the end of a region, promises nothing, so that any branch to it
is fine.  Only the label of the code that returns promises the slot of the value, and the label of the
next clause the slot of the exception.

`s.Charted strict m` says that the state `s` is like that, with the map `m` for the routine at hand, and
`Charts strict ls fs x` that the step `x` leads from such a state to another one, if the labels in `ls`
promise nothing, and completes the functions `fs` on the way.  It is a class with an instance for every
function of the emission that completes no function.  **`charts_lowerStmts`**: this is true of all
statements, and the map may be strict if their increments are steady.
-/

namespace PhpLowering
namespace Lowering

-- The instance for a function is a term with a node for every line of the function.
set_option synthInstance.maxSize 10000

open Pass (Ends)

variable {α β : Type} {strict : Prop} {s t u : State Chunk} {m m' m'' : SlotMap} {S : Set Temp}
  {ls ls' : List Label} {l : Label} {A : Custody} {fs fs' : List (FunctionHead × List Stmt)} {k : Temp}

/-- A function with steady increments stores to its slots before it loads them. -/
def DefinesFirst (p : FunctionHead × List Stmt) (f : Routine) : Prop :=
  Stmt.Steady p.2 → f.DefinedBeforeUse

/-- How a state is between two statements, with a map of the slots that have been stored to. -/
structure State.Charted (strict : Prop) (m : SlotMap) (s : State Chunk) : Prop where
  fits : m.Fits strict s.active
  chains : s.chains = []
  loops : ∀ loop ∈ s.frame.loops, ∀ kind, m.Promises s.active (loop.target kind) ∅
  named : ∀ p ∈ s.frame.labels, m.Promises s.active p.2 ∅
  returns : ∀ l, s.frame.epilogue = some l → ∃ k, s.frame.returnTemp = some k ∧ m.Promises s.active l {k}

/-- A piece of an emission leaves the promises of the labels as they are and completes functions. -/
structure Adds (fs : List (FunctionHead × List Stmt)) (m : SlotMap) (s : State Chunk) (m' : SlotMap)
    (t : State Chunk) : Prop where
  promises : ∀ l, (s.active.mark? l).isSome → (t.active.mark? l).isSome ∧ m'.label l = m.label l
  outside : t.sink.outside = s.sink.outside
  functions : ∃ Fs, t.sink.functions.toList = s.sink.functions.toList ++ Fs ∧
    List.Forall₂ DefinesFirst fs Fs

namespace Adds

theorem trans (h : Adds fs m s m' t) (h' : Adds fs' m' t m'' u) : Adds (fs ++ fs') m s m'' u where
  promises l hl := by
    obtain ⟨hsome, hlabel⟩ := h.promises l hl
    obtain ⟨hsome', hlabel'⟩ := h'.promises l hsome
    exact ⟨hsome', hlabel'.trans hlabel⟩
  outside := h'.outside.trans h.outside
  functions := by
    obtain ⟨Fs, hFs, hall⟩ := h.functions
    obtain ⟨Fs', hFs', hall'⟩ := h'.functions
    exact ⟨Fs ++ Fs', by rw [hFs', hFs, List.append_assoc], List.rel_append hall hall'⟩

/-- More work that completes no function. -/
theorem andThen (h : Adds fs m s m' t) (h' : Adds [] m' t m'' u) : Adds fs m s m'' u := by
  have hall := h.trans h'
  rwa [List.append_nil] at hall

theorem promise (h : Adds fs m s m' t) (hl : m.Promises s.active l S) : m'.Promises t.active l S := by
  obtain ⟨hsome, hlabel⟩ := h.promises l hl.1
  exact ⟨hsome, hlabel.trans hl.2⟩

theorem of_carries (h : Carries strict [] S m s m' t) : Adds [] m s m' t where
  promises l hl := ⟨by rw [h.marks l nofun hl]; exact hl, h.promises l nofun hl⟩
  outside := by rw [h.others.others, Chunk.outside_withActive]
  functions := ⟨[], by rw [h.others.others, Chunk.functions_withActive, List.append_nil], .nil⟩

/-- Something happens to the routine at hand. -/
theorem withActive {r : Routine} (hgrows : s.active.Grows r)
    (hlabel : ∀ l, (s.active.mark? l).isSome → m'.label l = m.label l) : Adds [] m s m' (s.withActive r) where
  promises l hl := by
    rw [State.active_withActive]
    exact ⟨hgrows.isSome_mark? hl, hlabel l hl⟩
  outside := Chunk.outside_withActive ..
  functions := ⟨[], by rw [List.append_nil]; exact congrArg Array.toList (Chunk.functions_withActive ..), .nil⟩

/-- Only the frame is another one. -/
theorem of_sink (h : Adds fs m s m' t) (hsink : u.sink = t.sink) : Adds fs m s m' u := by
  have hactive : u.active = t.active := congrArg Chunk.active hsink
  refine ⟨?_, hsink ▸ h.outside, hsink ▸ h.functions⟩
  rw [hactive]
  exact h.promises

theorem refl (m : SlotMap) (s : State Chunk) : Adds [] m s m s where
  promises _ hl := ⟨hl, rfl⟩
  outside := rfl
  functions := ⟨[], (List.append_nil _).symm, .nil⟩

end Adds

namespace State.Charted

/-- What is known of the labels stays known. -/
theorem keep (h : s.Charted strict m) (hfits : m'.Fits strict t.active) (hadds : Adds fs m s m' t)
    (hchains : t.chains = s.chains) (hframe : t.frame = s.frame) : t.Charted strict m' where
  fits := hfits
  chains := hchains.trans h.chains
  loops := by
    rw [hframe]
    exact fun loop hloop kind => hadds.promise (h.loops loop hloop kind)
  named := by
    rw [hframe]
    exact fun p hp => hadds.promise (h.named p hp)
  returns := by
    rw [hframe]
    exact fun l hl => (h.returns l hl).imp fun _ hk => ⟨hk.1, hadds.promise hk.2⟩

theorem of_steps (h : s.Charted strict m) (hsteps : Steps strict [] S m s m' t) :
    t.Charted strict m' ∧ Adds [] m s m' t :=
  have hadds := Adds.of_carries hsteps.toCarries
  ⟨h.keep hsteps.fits hadds hsteps.chains hsteps.frame, hadds⟩

/-- Another frame, of which no more is known. -/
theorem withFrame {f : Frame} (h : s.Charted strict m) (hloops : f.loops ⊆ s.frame.loops)
    (hlabels : f.labels = s.frame.labels) (hepilogue : f.epilogue = s.frame.epilogue)
    (hslot : f.returnTemp = s.frame.returnTemp) : State.Charted strict m { s with frame := f } where
  fits := h.fits
  chains := h.chains
  loops loop hloop := h.loops loop (hloops hloop)
  named p hp := h.named p (hlabels ▸ hp)
  returns l hl := by
    show ∃ k, f.returnTemp = some k ∧ _
    rw [hslot]
    exact h.returns l (hepilogue ▸ hl)

end State.Charted

/-- A step leads from one state between statements to another one. -/
class Charts (strict : Prop) (ls : List Label) (fs : List (FunctionHead × List Stmt)) (x : Emit Chunk α) :
    Prop where
  ends : ∀ {m : SlotMap} {s : State Chunk}, s.Charted strict m →
    (∀ l ∈ ls, m.Promises s.active l ∅) →
    Ends x s (fun _ t => ∃ m', t.Charted strict m' ∧ Adds fs m s m' t) anyFailure

/-! ## Combinators -/

section Combinators

variable {x y : Emit Chunk α} {f : α → Emit Chunk β}

theorem charts_seq (hx : Charts strict ls fs x) (hf : ∀ a, Charts strict ls fs' (f a)) :
    Charts strict ls (fs ++ fs') (x >>= f) where
  ends h hls := (hx.ends h hls).bind fun a _ ⟨_, ht, hadds⟩ =>
    ((hf a).ends ht fun l hl => hadds.promise (hls l hl)).mono
      fun _ _ ⟨m'', hu, hadds'⟩ => ⟨m'', hu, hadds.trans hadds'⟩

instance charts_bind [hx : Charts strict ls [] x] [k : ∀ a, Charts strict ls fs (f a)] :
    Charts strict ls fs (x >>= f) :=
  charts_seq hx k

theorem charts_then [hx : Charts strict ls fs x] [hf : ∀ a, Charts strict ls [] (f a)] :
    Charts strict ls fs (x >>= f) := by
  have hall := charts_seq hx hf
  rwa [List.append_nil] at hall

instance charts_ite {c : Prop} [Decidable c] [hx : Charts strict ls fs x] [hy : Charts strict ls fs y] :
    Charts strict ls fs (if c then x else y) := by
  split
  · exact hx
  · exact hy

/-- A label that promises nothing may be mentioned or not. -/
instance (priority := low) charts_cons [hx : Charts strict ls fs x] : Charts strict (l :: ls) fs x where
  ends h hls := hx.ends h (List.forall_mem_cons.mp hls).2

theorem charts_of_steps (hx : ∀ {m : SlotMap} {s : State Chunk}, m.Fits strict s.active →
    Ends x s (fun _ t => ∃ m', Steps strict [] (m.now s.active) m s m' t) anyFailure) :
    Charts strict ls [] x where
  ends h _ := (hx h.fits).mono fun _ _ ⟨m', hm'⟩ => ⟨m', h.of_steps hm'⟩

/-- The code of an expression to which no operand is known. -/
theorem Provides.charts (hx : Provides strict A x) (hA : A.known = []) : Charts strict ls [] x where
  ends {m s} h _ := by
    have hallows : A.Allows s := by
      refine ⟨fun i _ hi => ?_, by rw [hA]; nofun⟩
      rw [h.chains] at hi
      exact nomatch hi
    refine (hx.ends h.fits hallows fun _ i hi => ?_).mono fun _ t ⟨m', hm'⟩ => ⟨m', ?_, .of_carries hm'.carries⟩
    · rw [hA] at hi
      exact nomatch hi
    · exact h.keep hm'.carries.fits (.of_carries hm'.carries)
        ((hm'.done.chains_eq_nil_iff.mpr h.chains).trans h.chains.symm) hm'.done.sameFrame

instance (priority := low) charts_of_idle [hx : Idle x] : Charts strict ls [] x :=
  (hx.outline strict).provides.charts rfl

instance charts_pure (a : α) : Charts strict ls [] (pure a : Emit Chunk α) :=
  charts_of_idle

instance charts_peek (g : State Chunk → α) : Charts strict ls [] (Pass.peek g) :=
  charts_of_idle

instance charts_frame : Charts strict ls [] (frame : Emit Chunk Frame) :=
  charts_peek _

instance charts_fault (e : Fault) : Charts strict ls fs (fault e : Emit Chunk α) where
  ends _ _ := .fail trivial

theorem charts_updateFrame {g : Frame → Frame} (hloops : ∀ f, (g f).loops ⊆ f.loops)
    (hlabels : ∀ f, (g f).labels = f.labels)
    (hepilogue : ∀ f, (g f).epilogue = f.epilogue)
    (hslot : ∀ f, (g f).returnTemp = f.returnTemp) :
    Charts strict ls [] (updateFrame g : Emit Chunk Unit) where
  ends {m s} h _ := .update ⟨m, h.withFrame (hloops _) (hlabels _) (hepilogue _) (hslot _),
    (Adds.refl m s).of_sink rfl⟩

theorem charts_thenFrame {g : Frame → Frame} [hx : Charts strict ls fs x]
    (hloops : ∀ f, (g f).loops ⊆ f.loops) (hlabels : ∀ f, (g f).labels = f.labels)
    (hepilogue : ∀ f, (g f).epilogue = f.epilogue)
    (hslot : ∀ f, (g f).returnTemp = f.returnTemp) :
    Charts strict ls fs (thenFrame x g) where
  ends h hls := .ensuring ((hx.ends h hls).mono fun _ _ ⟨m', ht, hadds⟩ =>
    ⟨m', ht.withFrame (hloops _) (hlabels _) (hepilogue _) (hslot _), hadds.of_sink rfl⟩)

end Combinators

/-! ## Calls to the sink -/

/-- An instruction for labels that promise no more than has been stored to. -/
theorem ends_emit_charted {i : Instruction} (h : m.Fits strict s.active)
    (hslot : ∀ k, i = .loadTemp k → k ∈ m.now s.active)
    (hlabels : ∀ l ∈ i.labels, ∃ K ⊆ m.now s.active, m.Promises s.active l K)
    (hS : i.fallsThrough = true → ∀ k ∈ S, k ∈ m.now s.active ∨ i = .storeTemp k) :
    Ends (emit i) s (fun _ t => ∃ m', Steps strict [] S m s m' t) anyFailure := by
  have hkept (l : Label) (hl : l ∈ i.labels) : (s.active.mark? l).isSome ∧ m.label l ⊆ m.now s.active := by
    obtain ⟨K, hK, hpromise⟩ := hlabels l hl
    exact ⟨hpromise.1, hpromise.2 ▸ hK⟩
  have hrun := Routine.emit_eq fun l hl => (hkept l hl).1
  have hpush := h.push (S := S) i (fun _ => hslot) hS hkept
  exact ends_toSink (.of_eq hrun ⟨_, .withActive hpush rfl rfl (fun _ _ _ => rfl) (fun _ _ _ => rfl)
    (SlotMap.now_push ..).symm.subset, rfl, rfl⟩)

theorem charts_emit {i : Instruction} (hlabels : i.labels ⊆ ls) (hslot : ∀ k, i ≠ .loadTemp k) :
    Charts strict ls [] (emit i : Emit Chunk Unit) where
  ends h hls := (ends_emit_charted (S := ∅) h.fits (fun k hk => absurd hk (hslot k))
    (fun l hl => ⟨∅, Set.empty_subset _, hls l (hlabels hl)⟩) fun _ => nofun).mono fun _ _ ⟨m', hm'⟩ => ⟨m', h.of_steps hm'⟩

instance (l : Label) : Charts strict (l :: ls) [] (emit (.branch l) : Emit Chunk Unit) :=
  charts_emit (by simp [Instruction.labels]) nofun

instance (l : Label) : Charts strict (l :: ls) [] (emit (.branchIfFalse l) : Emit Chunk Unit) :=
  charts_emit (by simp [Instruction.labels]) nofun

instance (l : Label) : Charts strict (l :: ls) [] (emit (.leave l) : Emit Chunk Unit) :=
  charts_emit (by simp [Instruction.labels]) nofun

instance (type : String) : Charts strict ls [] (emit (.instanceOf type) : Emit Chunk Unit) :=
  charts_emit (List.nil_subset _) nofun

instance (name : String) : Charts strict ls [] (emit (.defineConstant name) : Emit Chunk Unit) :=
  charts_emit (List.nil_subset _) nofun

instance : Charts strict ls [] (emit .throw : Emit Chunk Unit) := charts_emit (List.nil_subset _) nofun
instance : Charts strict ls [] (emit .rethrow : Emit Chunk Unit) := charts_emit (List.nil_subset _) nofun
instance : Charts strict ls [] (emit .ret : Emit Chunk Unit) := charts_emit (List.nil_subset _) nofun

/-- A label is marked, whatever it promises. -/
theorem ends_mark_charted (h : m.Fits strict s.active) :
    Ends (mark l) s (fun _ t => ∃ m', m'.Fits strict t.active ∧ m'.now t.active = m.now s.active ∩ m.label l ∧
      Adds [] m s m' t ∧ t.chains = s.chains ∧ t.frame = s.frame) anyFailure := by
  refine ends_toSink (.intro (fun a r hrun => ?_) fun _ _ _ => trivial)
  obtain ⟨hl, rfl, hfits⟩ := h.markLabel hrun
  refine ⟨m.withBefore s.active.position (m.now s.active ∩ m.label l), by rwa [State.active_withActive], ?_,
    .withActive (Routine.grows_marking hl) fun _ _ => rfl, rfl, rfl⟩
  rw [State.active_withActive]
  exact SlotMap.now_withBefore ..

instance charts_mark (l : Label) : Charts strict ls [] (mark l : Emit Chunk Unit) where
  ends h _ := (ends_mark_charted h.fits).mono fun _ _ ⟨m', hfits, _, hadds, hchains, hframe⟩ =>
    ⟨m', h.keep hfits hadds hchains hframe, hadds⟩

instance charts_declareTemp : Charts strict ls [] (declareTemp : Emit Chunk Temp) :=
  charts_of_steps fun hfits => (ends_declareTemp_carries hfits).mono fun _ _ ht => ⟨_, ht⟩

instance charts_returnTemp (k : Temp) : Charts strict ls [] (returnTemp k : Emit Chunk Unit) :=
  charts_of_steps fun hfits => .update ⟨_, steps_returnTemp hfits k⟩

instance charts_storeTemp (k : Temp) : Charts strict ls [] (emit (.storeTemp k) : Emit Chunk Unit) :=
  charts_emit (List.nil_subset _) nofun

/-- A new label that promises nothing. -/
instance (priority := high) charts_defineLabel {f : Label → Emit Chunk β}
    [k : ∀ l, Charts strict (l :: ls) fs (f l)] : Charts strict ls fs (defineLabel >>= f) where
  ends {m s} h hls := by
    refine (ends_defineLabel_carries h.fits ∅).bind fun l t ⟨_, m₁, hsteps, hwaits, hlabel⟩ => ?_
    obtain ⟨ht, hadds⟩ := h.of_steps hsteps
    have hnew : m₁.Promises t.active l ∅ := ⟨by rw [hwaits.unmarked]; rfl, hlabel⟩
    refine ((k l).ends ht (List.forall_mem_cons.mpr ⟨hnew, fun l' hl' => hadds.promise (hls l' hl')⟩)).mono
      fun _ _ ⟨m₂, hu, hadds'⟩ => ⟨m₂, hu, hadds.trans hadds'⟩

/-- A call that leaves the promises as they are. -/
theorem charts_call {call : Pass SinkError Routine α} (hgrows : ∀ r, Routine.Grows r (call r).2)
    (hfits : ∀ {m : SlotMap} {r r' : Routine} {a : α}, m.Fits strict r → call r = (.ok a, r') →
      ∃ m' : SlotMap, m'.Fits strict r' ∧ m'.label = m.label) :
    Charts strict ls [] (toSink (Chunk.onActive call)) where
  ends {m s} h _ := by
    refine ends_toSink (.intro (fun a r hrun => ?_) fun _ _ _ => trivial)
    obtain ⟨m', hm', hlabel⟩ := hfits h.fits hrun
    have hr := hgrows s.active
    rw [hrun] at hr
    have hadds : Adds [] m s m' (s.withActive r) := .withActive hr fun l _ => congrFun hlabel l
    refine ⟨m', h.keep ?_ hadds rfl rfl, hadds⟩
    rwa [State.active_withActive]

theorem charts_beginHandler (kind : HandlerKind) :
    Charts strict ls [] (toSink (Chunk.onActive (Routine.beginHandler kind))) :=
  charts_call (Routine.grows_beginHandler kind) fun hfits hrun => ⟨_, hfits.beginHandler hrun, rfl⟩

instance (type : String) : Charts strict ls [] (toSink (Sink.beginCatch type) : Emit Chunk Unit) :=
  charts_beginHandler _

instance : Charts strict ls [] (toSink Sink.beginFinally : Emit Chunk Unit) :=
  charts_beginHandler _

instance : Charts strict ls [] (toSink Sink.endRegion : Emit Chunk Unit) :=
  charts_call Routine.grows_endRegion fun hfits hrun => hfits.endRegion hrun

/-- A region is begun, the label behind which promises nothing. -/
instance (priority := high) charts_beginTry {f : Label → Emit Chunk β}
    [k : ∀ l, Charts strict (l :: ls) fs (f l)] : Charts strict ls fs (toSink Sink.beginTry >>= f) where
  ends {m s} h hls := by
    have hrun : Ends (toSink Sink.beginTry) s (fun l t => l = s.active.beginTry.1 ∧
        t = s.withActive s.active.beginTry.2) anyFailure :=
      ends_toSink (.of_eq (a := s.active.beginTry.1) (t := s.active.beginTry.2) rfl ⟨rfl, rfl⟩)
    refine hrun.bind ?_
    rintro _ _ ⟨rfl, rfl⟩
    have hadds : Adds [] m s (m.withLabel s.active.beginTry.1 ∅) (s.withActive s.active.beginTry.2) := by
      refine .withActive s.active.grows_beginTry fun l hl => SlotMap.label_withLabel_of_ne ?_
      rintro rfl
      rw [show s.active.mark? s.active.beginTry.1 = none from Routine.mark?_new] at hl
      exact absurd hl Bool.false_ne_true
    have ht : (s.withActive s.active.beginTry.2).Charted strict (m.withLabel s.active.beginTry.1 ∅) := by
      refine h.keep ?_ hadds rfl rfl
      rw [State.active_withActive]
      exact h.fits.beginTry
    have hnew : (m.withLabel s.active.beginTry.1 ∅).Promises (s.withActive s.active.beginTry.2).active
        s.active.beginTry.1 ∅ := by
      rw [State.active_withActive]
      exact (h.fits.beginTry.opened _ List.mem_cons_self).endLabel
    refine ((k _).ends ht (List.forall_mem_cons.mpr ⟨hnew, fun l' hl' => hadds.promise (hls l' hl')⟩)).mono
      fun _ _ ⟨m₂, hu, hadds'⟩ => ⟨m₂, hu, hadds.trans hadds'⟩

theorem charts_jump (hl : l ∈ ls) (level : Nat) : Charts strict ls [] (jump l level : Emit Chunk Unit) := by
  have hbranch : Charts strict ls [] (emit (.branch l) : Emit Chunk Unit) :=
    charts_emit (by simpa [Instruction.labels] using hl) nofun
  have hleave : Charts strict ls [] (emit (.leave l) : Emit Chunk Unit) :=
    charts_emit (by simpa [Instruction.labels] using hl) nofun
  unfold jump
  infer_instance

/-! ## Ways out of loops and routines -/

section Ways

variable {x : Emit Chunk Unit}

instance charts_staticBranch (kind : BranchKind) (level : Nat) :
    Charts strict ls [] (staticBranch kind level : Emit Chunk Unit) where
  ends {m s} h _ := by
    refine .peek_bind ?_
    dsimp only
    split
    · rename_i loop hloop
      have hpromise := h.loops loop (List.mem_of_getElem? hloop) kind
      have hjump : Charts strict [loop.target kind] [] (leaveTo kind loop : Emit Chunk Unit) :=
        charts_jump (List.mem_singleton_self _) _
      exact hjump.ends h (List.forall_mem_singleton.mpr hpromise)
    · exact .fail trivial

/-- Labels for a table. -/
theorem ends_defineLabels_charted : ∀ (n : Nat) {m : SlotMap} {s : State Chunk}, s.Charted strict m →
    Ends (defineLabels n) s (fun table t => ∃ m', t.Charted strict m' ∧ Adds [] m s m' t ∧
      m.now s.active ⊆ m'.now t.active ∧ t.frame = s.frame ∧ ∀ l ∈ table, m'.Promises t.active l ∅) anyFailure
  | 0, m, s, h => .pure ⟨m, h, .refl m s, .rfl, rfl, nofun⟩
  | n + 1, m, s, h => by
    refine (ends_defineLabel_carries h.fits ∅).bind fun l t ⟨_, m₁, hsteps, hwaits, hlabel⟩ => ?_
    obtain ⟨ht, hadds⟩ := h.of_steps hsteps
    have hnew : m₁.Promises t.active l ∅ := ⟨by rw [hwaits.unmarked]; rfl, hlabel⟩
    refine (ends_defineLabels_charted n ht).bind fun rest u ⟨m₂, hu, hadds', hnow, hframe, hrest⟩ => .pure ?_
    exact ⟨m₂, hu, hadds.trans hadds', hsteps.now.trans hnow, hframe.trans hsteps.frame,
      List.forall_mem_cons.mpr ⟨hadds'.promise hnew, hrest⟩⟩

theorem charts_tableEntries (kind : BranchKind) : ∀ {entries : List (Label × Loop)},
    (∀ entry ∈ entries, entry.2.target kind ∈ ls) →
    Charts strict ls [] (tableEntries kind entries : Emit Chunk Unit)
  | [], _ => charts_pure ()
  | (label, loop) :: rest, h => by
    obtain ⟨hfirst, hothers⟩ := List.forall_mem_cons.mp h
    have hleave : Charts strict ls [] (leaveTo kind loop : Emit Chunk Unit) := charts_jump hfirst _
    have hrest : Charts strict ls [] (tableEntries kind rest : Emit Chunk Unit) :=
      charts_tableEntries kind hothers
    unfold tableEntries
    infer_instance

/-- The level is loaded again behind the table. -/
theorem charts_runtimeBranch (kind : BranchKind) {level : Code Chunk}
    [hlevel : Charts strict ls [] (converted level .longInteger)] :
    Charts strict ls [] (runtimeBranch kind level) where
  ends {m s} h hls := by
    refine .peek_bind ?_
    cases hloops : s.frame.loops with
    | nil => exact .fail trivial
    | cons innermost outer =>
      dsimp only
      refine (hlevel.ends h hls).bind fun _ t₁ ⟨m₁, h₁, hadds₁⟩ => ?_
      refine (ends_declareTemp_carries h₁.fits).bind fun slot t₂ hs₂ => ?_
      obtain ⟨h₂, hadds₂⟩ := h₁.of_steps hs₂
      refine (ends_saveTo_carries h₂.fits slot).bind fun _ t₃ ⟨m₃, hs₃⟩ => ?_
      obtain ⟨h₃, hadds₃⟩ := h₂.of_steps hs₃
      refine (ends_defineLabels_charted _ h₃).bind fun table t₄ ⟨m₄, h₄, hadds₄, hnow₄, hframe₄, htable⟩ => ?_
      have hslot₄ : slot ∈ m₄.now t₄.active := hnow₄ (hs₃.now (Set.mem_insert _ _))
      refine (ends_emit_charted (i := .switch table) h₄.fits nofun
        (fun l hl => ⟨∅, Set.empty_subset _, htable l hl⟩) fun _ _ => Or.inl).bind
        fun _ t₅ ⟨m₅, hs₅⟩ => ?_
      obtain ⟨h₅, hadds₅⟩ := h₄.of_steps hs₅
      refine (ends_loadTemp_carries h₅.fits slot fun _ => hs₅.now hslot₄).bind fun _ t₆ ⟨m₆, hs₆⟩ => ?_
      obtain ⟨h₆, hadds₆⟩ := h₅.of_steps hs₆
      have hadds := hadds₁.trans (hadds₂.trans (hadds₃.trans (hadds₄.trans (hadds₅.trans hadds₆))))
      -- All that follows goes to the loops around.
      have hrest : Charts strict (innermost.breakLabel :: (innermost :: outer).map (·.target kind)) [] (do
          callVoid .throwInvalidBreakLevel
          leaveTo .break innermost
          tableEntries kind (table.zip (innermost :: innermost :: outer))
          returnTemp slot : Emit Chunk Unit) := by
        have hleave : Charts strict (innermost.breakLabel :: (innermost :: outer).map (·.target kind)) []
            (leaveTo .break innermost : Emit Chunk Unit) := charts_jump List.mem_cons_self _
        have hentries : Charts strict (innermost.breakLabel :: (innermost :: outer).map (·.target kind)) []
            (tableEntries kind (table.zip (innermost :: innermost :: outer)) : Emit Chunk Unit) := by
          refine charts_tableEntries kind fun entry hentry => List.mem_cons_of_mem _ (List.mem_map_of_mem ?_)
          simpa using (List.of_mem_zip hentry).2
        infer_instance
      refine (hrest.ends h₆ fun l hl => hadds.promise ?_).mono
        fun _ _ ⟨m₇, h₇, hadds₇⟩ => ⟨m₇, h₇, hadds.trans hadds₇⟩
      rcases List.mem_cons.mp hl with rfl | hl
      · exact h.loops innermost (hloops ▸ List.mem_cons_self) .break
      · obtain ⟨loop, hloop, rfl⟩ := List.mem_map.mp hl
        exact h.loops loop (hloops ▸ hloop) kind

/-- The slot of the value to return. -/
theorem ends_returnSlot_charted (h : s.Charted strict m) :
    Ends returnSlot s (fun slot t => t.Charted strict m ∧ Adds [] m s m t ∧ t.frame.returnTemp = some slot)
      anyFailure := by
  unfold returnSlot
  refine .peek_bind ?_
  cases hslot : s.frame.returnTemp with
  | some slot => exact .pure ⟨h, .refl m s, hslot⟩
  | none =>
    refine (ends_declareTemp_carries h.fits).bind fun slot t ht => .update_bind (.pure ?_)
    obtain ⟨hcharted, hadds⟩ := h.of_steps ht
    refine ⟨{ hcharted with returns := fun l hl => ?_ }, hadds.of_sink rfl, rfl⟩
    have hlabel : s.frame.epilogue = some l := ht.frame ▸ hl
    obtain ⟨slot', hslot', -⟩ := h.returns l hlabel
    exact nomatch hslot.symm.trans hslot'

/-- The label of the code that returns promises the slot of the value. -/
theorem ends_epilogue_charted (h : s.Charted strict m) (hslot : s.frame.returnTemp = some k) :
    Ends epilogue s (fun l t => ∃ m', t.Charted strict m' ∧ Adds [] m s m' t ∧ m'.Promises t.active l {k})
      anyFailure := by
  unfold epilogue
  refine .peek_bind ?_
  cases hlabel : s.frame.epilogue with
  | some l =>
    obtain ⟨slot, hslot', hpromise⟩ := h.returns l hlabel
    obtain rfl := Option.some.inj (hslot.symm.trans hslot')
    exact .pure ⟨m, h, .refl m s, hpromise⟩
  | none =>
    refine (ends_defineLabel_carries h.fits {k}).bind
      fun l t ⟨_, m', hsteps, hwaits, hpromise⟩ => .update_bind (.pure ?_)
    obtain ⟨ht, hadds⟩ := h.of_steps hsteps
    have hnew : m'.Promises t.active l {k} := ⟨by rw [hwaits.unmarked]; rfl, hpromise⟩
    refine ⟨m', { ht with returns := fun l' hl' => ?_ }, hadds.of_sink rfl, hnew⟩
    obtain rfl := Option.some.inj hl'
    exact ⟨k, (congrArg Frame.returnTemp hsteps.frame).trans hslot, hnew⟩

instance charts_returnJump : Charts strict ls [] (returnJump : Emit Chunk Unit) where
  ends {m s} h _ := by
    refine (ends_returnSlot_charted h).bind fun slot t₁ ⟨h₁, hadds₁, hslot⟩ => ?_
    refine (ends_epilogue_charted h₁ hslot).bind fun l t₂ ⟨m₂, h₂, hadds₂, hpromise⟩ => ?_
    refine (ends_storeTemp_carries h₂.fits slot).bind fun _ t₃ hstored => ?_
    obtain ⟨m₃, hs₃⟩ := hstored
    obtain ⟨h₃, hadds₃⟩ := h₂.of_steps hs₃
    have hadds := hadds₁.trans (hadds₂.trans hadds₃)
    have hstored : {slot} ⊆ m₃.now t₃.active :=
      Set.singleton_subset_iff.mpr (hs₃.now (Set.mem_insert _ _))
    have hbranch {i : Instruction} (hlabels : i.labels = [l]) (hload : ∀ k, i ≠ .loadTemp k) :
        Ends (emit i) t₃ (fun _ t => ∃ m', t.Charted strict m' ∧ Adds [] m s m' t) anyFailure := by
      refine (ends_emit_charted (S := ∅) h₃.fits (fun k hk => absurd hk (hload k)) (fun l' hl' => ?_)
        fun _ _ hk => absurd hk (Set.notMem_empty _)).mono
        fun _ _ ⟨m₄, hs₄⟩ => ⟨m₄, (h₃.of_steps hs₄).1, hadds.trans (h₃.of_steps hs₄).2⟩
      rw [hlabels] at hl'
      exact ⟨{slot}, hstored, List.mem_singleton.mp hl' ▸ hadds₃.promise hpromise⟩
    refine .peek_bind ?_
    split
    · exact hbranch rfl (by rintro k ⟨⟩)
    · exact hbranch rfl (by rintro k ⟨⟩)

/-- The label of a `goto` target promises nothing. -/
theorem ends_routineLabel_charted (name : String) (h : s.Charted strict m) :
    Ends (routineLabel name) s (fun l t => ∃ m', t.Charted strict m' ∧ Adds [] m s m' t ∧
      m'.Promises t.active l ∅) anyFailure := by
  unfold routineLabel
  refine .peek_bind ?_
  cases hlookup : s.frame.labels.lookup name with
  | some l =>
    obtain ⟨front, back, heq, -⟩ := List.lookup_eq_some_iff.mp hlookup
    exact .pure ⟨m, h, .refl m s, h.named (name, l) (heq ▸ List.mem_append_right _ List.mem_cons_self)⟩
  | none =>
    refine (ends_defineLabel_carries h.fits ∅).bind
      fun l t ⟨_, m', hsteps, hwaits, hpromise⟩ => .update_bind (.pure ?_)
    obtain ⟨ht, hadds⟩ := h.of_steps hsteps
    have hnew : m'.Promises t.active l ∅ := ⟨by rw [hwaits.unmarked]; rfl, hpromise⟩
    exact ⟨m', { ht with named := List.forall_mem_cons.mpr ⟨hnew, ht.named⟩ }, hadds.of_sink rfl, hnew⟩

theorem charts_goto (name : String) : Charts strict ls [] (do jump (← routineLabel name) 0 : Emit Chunk Unit) where
  ends h _ := (ends_routineLabel_charted name h).bind fun l _ ⟨_, ht, hadds, hpromise⟩ =>
    have hjump : Charts strict [l] [] (jump l 0 : Emit Chunk Unit) := charts_jump (List.mem_singleton_self _) 0
    (hjump.ends ht (List.forall_mem_singleton.mpr hpromise)).mono
      fun _ _ ⟨m'', hu, hadds'⟩ => ⟨m'', hu, hadds.trans hadds'⟩

instance charts_routineLabel (name : String) : Charts strict ls [] (routineLabel name : Emit Chunk Label) where
  ends h _ := (ends_routineLabel_charted name h).mono fun _ _ ⟨m', ht, hadds, _⟩ => ⟨m', ht, hadds⟩

instance charts_labelCode (name : String) (home : Home StmtKind) :
    Charts strict ls [] (labelCode name home : Emit Chunk Unit) := by
  unfold labelCode
  infer_instance

end Ways

/-! ## Code between statements -/

section Statements

variable {cfg : Setting} {e : Expr} {body : Emit Chunk Unit} {part : Option (Emit Chunk Unit)}

/-- Every use of an expression. -/
theorem charts_lower (he : e.numbers.Nodup) (hsteady : strict → e.Steady) (use : Use) :
    Charts strict ls [] (lower cfg e use : Emit Chunk TypeCode) := by
  refine (outlines_lower cfg e .first he hsteady use).provides.charts ?_
  cases use <;> rfl

theorem charts_boxed (he : e.numbers.Nodup) (hsteady : strict → e.Steady) :
    Charts strict ls [] (boxed (lower cfg e) : Emit Chunk TypeCode) := by
  have hvalue : Charts strict ls [] (lower cfg e .value : Emit Chunk TypeCode) := charts_lower he hsteady _
  unfold boxed
  infer_instance

theorem charts_converted (he : e.numbers.Nodup) (hsteady : strict → e.Steady) (code : TypeCode) :
    Charts strict ls [] (converted (lower cfg e) code : Emit Chunk TypeCode) := by
  have hvalue : Charts strict ls [] (lower cfg e .value : Emit Chunk TypeCode) := charts_lower he hsteady _
  unfold converted
  infer_instance

theorem charts_echoAll : ∀ {es : List Expr}, (Node.numbers (es.flatMap Expr.nodes)).Nodup →
    (strict → ∀ e ∈ es, e.Steady) → Charts strict ls [] (echoAll cfg es : Emit Chunk Unit)
  | [], _, _ => charts_pure ()
  | e :: rest, h, hsteady => by
    have hfirst : Charts strict ls [] (boxed (lower cfg e) : Emit Chunk TypeCode) :=
      charts_boxed (nodup_cons_nodes h).1 fun hstrict => hsteady hstrict e List.mem_cons_self
    have hrest : Charts strict ls [] (echoAll cfg rest : Emit Chunk Unit) :=
      charts_echoAll (nodup_cons_nodes h).2 fun hstrict x hx => hsteady hstrict x (List.mem_cons_of_mem _ hx)
    unfold echoAll
    infer_instance

/-- A location is removed in a chain of its own. -/
theorem charts_unset (he : e.numbers.Nodup) (hsteady : strict → e.Steady) : Charts strict ls [] (do
    beginChain true
    let _ ← Pass.ensuring (lower cfg e .unset) State.endChain : Emit Chunk Unit) where
  ends {m s} h _ := by
    have hunset : Provides strict (e.inner .first) (lower cfg e .unset : Emit Chunk TypeCode) :=
      (outlines_lower cfg e .first he hsteady .unset).provides
    have hbegin := Carries.beginChain h.fits true
    refine .update_bind ((Ends.ensuring ((hunset.ends hbegin.fits (Custody.allows_atStart rfl rfl rfl)
      fun _ => nofun).mono fun _ t ⟨m', hm'⟩ => ?_)).bind fun _ t ht => .pure ht)
    obtain ⟨more, hmore⟩ := hm'.done.chains_inChain rfl rfl
    have hadds := Adds.of_carries (hbegin.trans hm'.carries).endChain
    exact ⟨m', h.keep hm'.carries.endChain.fits hadds (chains_endChain_cons hmore)
      ((frame_endChain t).trans hm'.done.sameFrame), hadds⟩

theorem charts_unsetAll : ∀ {es : List Expr}, (Node.numbers (es.flatMap Expr.nodes)).Nodup →
    (strict → ∀ e ∈ es, e.Steady) → Charts strict ls [] (unsetAll cfg es : Emit Chunk Unit)
  | [], _, _ => charts_pure ()
  | e :: rest, h, hsteady => by
    have hfirst : Charts strict ls [] (do
        beginChain true
        let _ ← Pass.ensuring (lower cfg e .unset) State.endChain : Emit Chunk Unit) :=
      charts_unset (nodup_cons_nodes h).1 fun hstrict => hsteady hstrict e List.mem_cons_self
    have hrest : Charts strict ls [] (unsetAll cfg rest : Emit Chunk Unit) :=
      charts_unsetAll (nodup_cons_nodes h).2 fun hstrict x hx => hsteady hstrict x (List.mem_cons_of_mem _ hx)
    have hall := charts_seq hfirst fun _ => hrest
    simpa only [bind_assoc, pure_bind, unsetAll, List.append_nil] using hall

theorem charts_returnValue {expr : Option Expr} (h : (Node.numbers (expr.toList.flatMap Expr.nodes)).Nodup)
    (hsteady : strict → ∀ e ∈ expr.toList, e.Steady) :
    Charts strict ls [] (returnValue cfg expr : Emit Chunk Unit) := by
  unfold returnValue
  refine charts_bind (k := fun f => ?_)
  cases expr with
  | none =>
    dsimp only
    infer_instance
  | some e =>
    have hvalue : Charts strict ls [] (lower cfg e .value : Emit Chunk TypeCode) :=
      charts_lower (nodup_cons_nodes h).1 (fun hstrict => hsteady hstrict e (by simp)) _
    dsimp only
    infer_instance

theorem charts_loopJump (kind : BranchKind) {level : Option Expr}
    (h : (Node.numbers (level.toList.flatMap Expr.nodes)).Nodup)
    (hsteady : strict → ∀ e ∈ level.toList, e.Steady) :
    Charts strict ls [] (loopJump cfg kind level : Emit Chunk Unit) := by
  unfold loopJump
  cases level with
  | none => exact charts_staticBranch _ _
  | some e =>
    dsimp only
    cases e.value? with
    | some v => exact charts_staticBranch _ _
    | none =>
      have hlevel : Charts strict ls [] (converted (lower cfg e) .longInteger : Emit Chunk TypeCode) :=
        charts_converted (nodup_cons_nodes h).1 (fun hstrict => hsteady hstrict e (by simp)) _
      exact charts_runtimeBranch kind

theorem charts_jumpCode (kind : JumpKind) {expr : Option Expr}
    (h : (Node.numbers (expr.toList.flatMap Expr.nodes)).Nodup)
    (hsteady : strict → ∀ e ∈ expr.toList, e.Steady) :
    Charts strict ls [] (jumpCode cfg kind expr : Emit Chunk Unit) := by
  unfold jumpCode
  cases kind with
  | «return» =>
    have hvalue : Charts strict ls [] (returnValue cfg expr : Emit Chunk Unit) := charts_returnValue h hsteady
    dsimp only
    infer_instance
  | «break» | «continue» => exact charts_loopJump _ h hsteady

/-- The same for a part that may be missing, which completes no functions then. -/
def ChartsOptional (strict : Prop) (ls : List Label) (fs : List (FunctionHead × List Stmt))
    (part : Option (Emit Chunk Unit)) : Prop :=
  match part with
  | some code => Charts strict ls fs code
  | none => fs = []

theorem charts_branchCode (he : e.numbers.Nodup) (hsteady : strict → e.Steady)
    [hbody : Charts strict ls fs body] (hpart : ChartsOptional strict ls fs' part) :
    Charts strict ls (fs ++ fs') (branchCode cfg e body part) := by
  have hcondition : Charts strict ls [] (converted (lower cfg e) .boolean : Emit Chunk TypeCode) :=
    charts_converted he hsteady _
  unfold branchCode branchHead
  simp only [bind_assoc, pure_bind]
  refine charts_defineLabel (k := fun otherwise => ?_)
  cases part with
  | none =>
    obtain rfl : fs' = [] := hpart
    have hthen : Charts strict (otherwise :: ls) (fs ++ []) (do body; mark otherwise : Emit Chunk Unit) :=
      charts_seq charts_cons fun _ => charts_mark otherwise
    dsimp only
    infer_instance
  | some code =>
    have hcode : Charts strict ls fs' code := hpart
    have helse : Charts strict (otherwise :: ls) fs' (do
        let done ← elseHead otherwise
        code
        mark done) := by
      have hmarked (done : Label) : Charts strict (done :: otherwise :: ls) fs' (do code; mark done) :=
        charts_then
      unfold elseHead
      simp only [bind_assoc, pure_bind]
      infer_instance
    have hthen : Charts strict (otherwise :: ls) fs body := charts_cons
    have hboth := charts_seq hthen fun _ => helse
    dsimp only
    infer_instance

theorem charts_loopCode (he : e.numbers.Nodup) (hsteady : strict → e.Steady)
    [hbody : Charts strict ls fs body] : Charts strict ls fs (loopCode cfg e body) := by
  have hcondition : Charts strict ls [] (converted (lower cfg e) .boolean : Emit Chunk TypeCode) :=
    charts_converted he hsteady _
  have henter (exit test : Label) :
      Charts strict (exit :: test :: ls) [] (updateFrame (Frame.enterLoop exit test) : Emit Chunk Unit) := by
    refine ⟨fun {m s} h hls => .update ⟨m, { h with loops := List.forall_mem_cons.mpr ⟨?_, h.loops⟩ },
      (Adds.refl m s).of_sink rfl⟩⟩
    have htest := hls test (by simp)
    have hexit := hls exit (by simp)
    intro kind
    cases kind
    · exact hexit
    · exact htest
  have hinner (exit test : Label) : Charts strict (exit :: test :: ls) fs (do
      let nesting := (← frame).exceptionNesting
      updateFrame (Frame.enterLoop exit test)
      let loop : Loop := ⟨exit, test, nesting⟩
      thenFrame body Frame.leaveLoop
      emit (.branch loop.continueLabel)
      mark loop.breakLabel) := by
    have hthen : Charts strict (exit :: test :: ls) fs (thenFrame body Frame.leaveLoop) :=
      charts_thenFrame (fun f => (List.tail_sublist f.loops).subset) (fun _ => rfl) (fun _ => rfl) fun _ => rfl
    have hend : Charts strict (exit :: test :: ls) fs (do
        thenFrame body Frame.leaveLoop
        emit (.branch test)
        mark exit) := charts_then
    dsimp only
    infer_instance
  unfold loopCode loopHead
  by_cases hknown : e.value?.map Literal.toBool ≠ some true
  · simp only [if_pos hknown, bind_assoc, pure_bind]
    infer_instance
  · simp only [if_neg hknown, bind_assoc, pure_bind]
    infer_instance

/-! ### Regions -/

/-- A step for which a slot has been stored to, and for which it still has been behind the step. -/
def ChartsWith (strict : Prop) (ls : List Label) (k : Temp) (fs : List (FunctionHead × List Stmt))
    (x : Emit Chunk Unit) : Prop :=
  ∀ {m : SlotMap} {s : State Chunk}, s.Charted strict m → k ∈ m.now s.active →
    (∀ l ∈ ls, m.Promises s.active l ∅) →
    Ends x s (fun _ t => ∃ m', t.Charted strict m' ∧ k ∈ m'.now t.active ∧ Adds fs m s m' t) anyFailure

theorem ChartsWith.seq {x y : Emit Chunk Unit} (hx : ChartsWith strict ls k fs x)
    (hy : ChartsWith strict ls k fs' y) : ChartsWith strict ls k (fs ++ fs') (do x; y) :=
  fun h hk hls => (hx h hk hls).bind fun _ _ ⟨_, ht, hk', hadds⟩ =>
    (hy ht hk' fun l hl => hadds.promise (hls l hl)).mono
      fun _ _ ⟨m'', hu, hk'', hadds'⟩ => ⟨m'', hu, hk'', hadds.trans hadds'⟩

theorem ChartsWith.pure : ChartsWith strict ls k [] (pure ()) :=
  fun {m s} h hk _ => .pure ⟨m, h, hk, .refl m s⟩

/-- The label of the next clause promises the slot of the exception. -/
theorem ends_clauseHead_charted (type : String) (var : Option String) (h : s.Charted strict m)
    (hk : k ∈ m.now s.active) :
    Ends (clauseHead k type var) s (fun next t => ∃ m', t.Charted strict m' ∧ Adds [] m s m' t ∧
      m'.Promises t.active next {k}) anyFailure := by
  refine (ends_defineLabel_carries h.fits {k}).bind fun next t₁ ⟨_, m₁, hs₁, hwaits, hlabel⟩ => ?_
  obtain ⟨h₁, hadds₁⟩ := h.of_steps hs₁
  have hnext : m₁.Promises t₁.active next {k} := ⟨by rw [hwaits.unmarked]; rfl, hlabel⟩
  refine (ends_loadTemp_carries h₁.fits k fun _ => hs₁.now hk).bind fun _ t₂ ⟨m₂, hs₂⟩ => ?_
  obtain ⟨h₂, hadds₂⟩ := h₁.of_steps hs₂
  refine (ends_emitPlain_carries h₂.fits (.instanceOf type) rfl rfl).bind fun _ t₃ ⟨m₃, hs₃⟩ => ?_
  obtain ⟨h₃, hadds₃⟩ := h₂.of_steps hs₃
  have hk₃ : k ∈ m₃.now t₃.active := hs₃.now (hs₂.now (hs₁.now hk))
  have hnext₃ := hadds₃.promise (hadds₂.promise hnext)
  refine (ends_emit_charted (i := .branchIfFalse next) h₃.fits nofun (fun l hl =>
    ⟨{k}, Set.singleton_subset_iff.mpr hk₃, List.mem_singleton.mp hl ▸ hnext₃⟩) fun _ _ => Or.inl).bind
      fun _ t₄ ⟨m₄, hs₄⟩ => ?_
  obtain ⟨h₄, hadds₄⟩ := h₃.of_steps hs₄
  have hadds := hadds₁.trans (hadds₂.trans (hadds₃.trans hadds₄))
  have hnext₄ := hadds₄.promise hnext₃
  cases var with
  | none => exact .pure ⟨m₄, h₄, hadds, hnext₄⟩
  | some name =>
    refine (ends_loadTemp_carries h₄.fits k fun _ => hs₄.now hk₃).bind fun _ t₅ ⟨m₅, hs₅⟩ => ?_
    obtain ⟨h₅, hadds₅⟩ := h₄.of_steps hs₅
    refine (ends_emitPlain_carries h₅.fits (.storeVar name) rfl rfl).bind fun _ t₆ ⟨m₆, hs₆⟩ => .pure ?_
    obtain ⟨h₆, hadds₆⟩ := h₅.of_steps hs₆
    exact ⟨m₆, h₆, hadds.trans (hadds₅.trans hadds₆), hadds₆.promise (hadds₅.promise hnext₄)⟩

theorem chartsWith_clauseCode {regionEnd : Label} (hend : regionEnd ∈ ls) (type : String) (var : Option String)
    (hbody : Charts strict ls fs body) :
    ChartsWith strict ls k fs (clauseCode k regionEnd type var body) := by
  intro m s h hk hls
  refine (ends_clauseHead_charted type var h hk).bind fun next t₁ ⟨m₁, h₁, hadds₁, hnext⟩ => ?_
  refine (hbody.ends h₁ fun l hl => hadds₁.promise (hls l hl)).bind fun _ t₂ ⟨m₂, h₂, hadds₂⟩ => ?_
  have hadds : Adds fs m s m₂ t₂ := hadds₁.trans hadds₂
  -- Nothing goes on behind the branch out of the clause.
  refine (ends_emit_charted (i := .leave regionEnd) (S := Set.univ) h₂.fits nofun (fun l hl =>
    ⟨∅, Set.empty_subset _, List.mem_singleton.mp hl ▸ hadds.promise (hls regionEnd hend)⟩) nofun).bind
      fun _ t₃ ⟨m₃, hs₃⟩ => ?_
  obtain ⟨h₃, hadds₃⟩ := h₂.of_steps hs₃
  have hnext₃ := hadds₃.promise (hadds₂.promise hnext)
  refine (ends_mark_charted h₃.fits).mono fun _ t₄ ⟨m₄, hfits, hnow, hadds₄, hchains, hframe⟩ => ?_
  refine ⟨m₄, h₃.keep hfits hadds₄ hchains hframe, ?_, hadds.andThen (hadds₃.trans hadds₄)⟩
  rw [hnow, hnext₃.2]
  exact ⟨hs₃.now trivial, rfl⟩

/-- The exception is stored to its slot in front of the clauses. -/
theorem charts_handlersCode {clauses : Temp → Emit Chunk Unit}
    (hclauses : ∀ k, ChartsWith strict ls k fs (clauses k)) : Charts strict ls fs (handlersCode clauses) := by
  have hrest : Charts strict ls fs (do
      let exception ← declareTemp
      emit (.storeTemp exception)
      clauses exception
      emit .rethrow
      returnTemp exception : Emit Chunk Unit) := by
    refine ⟨fun {m s} h hls => ?_⟩
    refine (ends_declareTemp_carries h.fits).bind fun k t₁ hs₁ => ?_
    obtain ⟨h₁, hadds₁⟩ := h.of_steps hs₁
    refine (ends_storeTemp_carries h₁.fits k).bind fun _ t₂ ⟨m₂, hs₂⟩ => ?_
    obtain ⟨h₂, hadds₂⟩ := h₁.of_steps hs₂
    have hadds := hadds₁.trans hadds₂
    refine (hclauses k h₂ (hs₂.now (Set.mem_insert _ _)) fun l hl => hadds.promise (hls l hl)).bind
      fun _ t₃ ⟨m₃, h₃, _, hadds₃⟩ => ?_
    have hend : Charts strict [] [] (do emit .rethrow; returnTemp k : Emit Chunk Unit) := inferInstance
    exact (hend.ends h₃ nofun).mono
      fun _ _ ⟨m₄, h₄, hadds₄⟩ => ⟨m₄, h₄, (hadds.trans hadds₃).andThen hadds₄⟩
  have hall : Charts strict ls fs (do
      toSink (Sink.beginCatch uncatchableType)
      emit .rethrow
      toSink (Sink.beginCatch hostType)
      callVoid .wrapHostException
      let exception ← declareTemp
      emit (.storeTemp exception)
      clauses exception
      emit .rethrow
      returnTemp exception : Emit Chunk Unit) := inferInstance
  simpa only [handlersCode, handlersHead, bind_assoc, pure_bind] using hall

theorem charts_cleanupCode {hasClauses : Bool} (hpart : ChartsOptional strict ls fs part) :
    Charts strict ls fs (cleanupCode hasClauses part) := by
  unfold cleanupCode
  cases part with
  | none =>
    obtain rfl : fs = [] := hpart
    dsimp only
    infer_instance
  | some code =>
    have hcode : Charts strict ls fs code := hpart
    dsimp only
    infer_instance

/-- The same for clauses, if there are any. -/
def ChartsClauses (strict : Prop) (hasClauses : Bool) (fs : List (FunctionHead × List Stmt))
    (clauses : Label → Temp → Emit Chunk Unit) : Prop :=
  if hasClauses then ∀ regionEnd k, ChartsWith strict [regionEnd] k fs (clauses regionEnd k) else fs = []

theorem ChartsWith.mono {x : Emit Chunk Unit} (h : ChartsWith strict ls k fs x) (hls : ls ⊆ ls') :
    ChartsWith strict ls' k fs x :=
  fun hs hk hls' => h hs hk fun l hl => hls' l (hls hl)

theorem charts_regionCode {hasClauses : Bool} {clauses : Label → Temp → Emit Chunk Unit}
    {fs₁ fs₂ fs₃ : List (FunctionHead × List Stmt)} (hbody : Charts strict ls fs₁ body)
    (hclauses : ChartsClauses strict hasClauses fs₂ clauses) (hpart : ChartsOptional strict ls fs₃ part) :
    Charts strict ls (fs₁ ++ (fs₂ ++ fs₃)) (regionCode body hasClauses clauses part) := by
  have hcleanup : Charts strict ls fs₃ (do cleanupCode hasClauses part; toSink Sink.endRegion) :=
    have hcode : Charts strict ls fs₃ (cleanupCode hasClauses part) := charts_cleanupCode hpart
    charts_then
  unfold regionCode
  refine charts_beginTry (k := fun regionEnd => charts_seq charts_cons fun _ => ?_)
  cases hasClauses with
  | true =>
    have hhandlers : Charts strict (regionEnd :: ls) fs₂ (handlersCode (clauses regionEnd)) :=
      charts_handlersCode fun k => ChartsWith.mono (hclauses regionEnd k) (by simp)
    simp only [if_true]
    exact charts_seq hhandlers fun _ => charts_cons
  | false =>
    obtain rfl : fs₂ = [] := hclauses
    simp only [Bool.false_eq_true, if_false, List.nil_append]
    exact charts_cons

theorem charts_tryCode {hasClauses : Bool} {clauses : Label → Temp → Emit Chunk Unit}
    {fs₁ fs₂ fs₃ : List (FunctionHead × List Stmt)} (hbody : Charts strict ls fs₁ body)
    (hclauses : ChartsClauses strict hasClauses fs₂ clauses) (hpart : ChartsOptional strict ls fs₃ part) :
    Charts strict ls (fs₁ ++ (fs₂ ++ fs₃)) (tryCode cfg body hasClauses clauses part) := by
  unfold tryCode
  split
  · rename_i helided
    simp only [Bool.and_eq_true, Bool.not_eq_true', Option.isNone_iff_eq_none] at helided
    obtain ⟨⟨rfl, rfl⟩, -⟩ := helided
    obtain rfl : fs₂ = [] := hclauses
    obtain rfl : fs₃ = [] := hpart
    rwa [List.append_nil, List.append_nil]
  · have hregion : Charts strict ls (fs₁ ++ (fs₂ ++ fs₃)) (regionCode body hasClauses clauses part) :=
      charts_regionCode hbody hclauses hpart
    have henter : Charts strict ls [] (updateFrame Frame.enterException : Emit Chunk Unit) :=
      charts_updateFrame (fun _ => List.Subset.refl _) (fun _ => rfl) (fun _ => rfl) fun _ => rfl
    have hthen : Charts strict ls (fs₁ ++ (fs₂ ++ fs₃))
        (thenFrame (regionCode body hasClauses clauses part) Frame.leaveException) :=
      charts_thenFrame (fun _ => List.Subset.refl _) (fun _ => rfl) (fun _ => rfl) fun _ => rfl
    infer_instance

/-! ### Routines -/

/-- The code of a routine is complete. -/
structure Rounds (strict : Prop) (fs : List (FunctionHead × List Stmt)) (s t : State Chunk) : Prop where
  chains : t.chains = []
  definedBeforeUse : strict → t.active.DefinedBeforeUse
  outside : t.sink.outside = s.sink.outside
  functions : ∃ Fs, t.sink.functions.toList = s.sink.functions.toList ++ Fs ∧
    List.Forall₂ DefinesFirst fs Fs

theorem State.Charted.rounds (h : t.Charted strict m') (hadds : Adds fs m s m' t) : Rounds strict fs s t where
  chains := h.chains
  definedBeforeUse := h.fits.definedBeforeUse
  outside := hadds.outside
  functions := hadds.functions

/-- The slot of the value to return is stored to on all ways to where it is loaded. -/
theorem ends_returnCode_charted (h : t.Charted strict m') (hadds : Adds fs m s m' t) :
    Ends (do
      let f ← frame
      match f.epilogue, f.returnTemp with
      | some epilogue, some slot =>
        emit (.storeTemp slot)
        mark epilogue
        emit (.loadTemp slot)
        returnTemp slot
        emit .ret
      | _, _ => emit .ret) t (fun _ u => Rounds strict fs s u) anyFailure := by
  have hret {u : State Chunk} {m₁ : SlotMap} (hu : u.Charted strict m₁) (hu' : Adds fs m s m₁ u) :
      Ends (emit .ret) u (fun _ v => Rounds strict fs s v) anyFailure :=
    have hlast : Charts strict [] [] (emit .ret : Emit Chunk Unit) := inferInstance
    (hlast.ends hu (List.forall_mem_nil _)).mono fun _ _ hv => hv.elim fun _ h => h.1.rounds (hu'.andThen h.2)
  refine .peek_bind ?_
  split
  · rename_i l k hl hk
    obtain ⟨k', hk', hpromise⟩ := h.returns l hl
    obtain rfl := Option.some.inj (hk.symm.trans hk')
    refine (ends_storeTemp_carries h.fits k).bind fun _ t₁ hstore => ?_
    obtain ⟨m₁, hs₁⟩ := hstore
    obtain ⟨h₁, hadds₁⟩ := h.of_steps hs₁
    refine (ends_mark_charted h₁.fits).bind fun _ t₂ hmark => ?_
    obtain ⟨m₂, hfits, hnow, hadds₂, hchains, hframe⟩ := hmark
    have h₂ := h₁.keep hfits hadds₂ hchains hframe
    have hstored : k ∈ m₂.now t₂.active := by
      rw [hnow, (hadds₁.promise hpromise).2]
      exact ⟨hs₁.now (Set.mem_insert _ _), rfl⟩
    refine (ends_loadTemp_carries h₂.fits k fun _ => hstored).bind fun _ t₃ hload => .update_bind ?_
    obtain ⟨m₃, hs₃⟩ := hload
    obtain ⟨h₃, hadds₃⟩ := h₂.of_steps hs₃
    obtain ⟨h₄, hadds₄⟩ := h₃.of_steps (steps_returnTemp h₃.fits k)
    exact hret h₄ (hadds.andThen (hadds₁.trans (hadds₂.trans (hadds₃.trans hadds₄))))
  · exact hret h hadds

theorem ends_routineEnd_charted (returnsRef : Bool) (h : t.Charted strict m') (hadds : Adds fs m s m' t) :
    Ends (routineEnd returnsRef) t (fun _ u => Rounds strict fs s u) anyFailure := by
  unfold routineEnd
  cases returnsRef with
  | true =>
    have hvalue : Charts strict [] [] (callVoid .newReferenceEmpty : Emit Chunk Unit) := inferInstance
    simp only [if_true]
    refine (hvalue.ends h (List.forall_mem_nil _)).bind fun _ _ hended => ?_
    obtain ⟨_, hu, hadds'⟩ := hended
    exact ends_returnCode_charted hu (hadds.andThen hadds')
  | false =>
    have hnull : Charts strict [] [] (pushLiteral .null : Emit Chunk TypeCode) := inferInstance
    simp only [Bool.false_eq_true, if_false]
    refine (hnull.ends h (List.forall_mem_nil _)).bind fun _ _ hended => ?_
    obtain ⟨_, hu, hadds'⟩ := hended
    exact ends_returnCode_charted hu (hadds.andThen hadds')

/-- **A routine around the code of its body.** -/
theorem ends_routineCode_charted (returnsRef : Bool) (hbody : Charts strict [] fs body)
    (hempty : IsEmpty s.active) (hchains : s.chains = []) :
    Ends (routineCode returnsRef body) s (fun _ t => t.frame = s.frame ∧ Rounds strict fs s t) anyFailure := by
  refine .peek_bind (.update_bind (.ensuring ?_))
  have hfits : SlotMap.Fits strict ⟨fun _ => ∅, fun _ => ∅⟩ s.active :=
    { start := rfl
      code := fun hi => by rw [hempty.code] at hi; exact nomatch hi
      marks := fun hl => by rw [hempty.mark?] at hl; exact nomatch hl
      regions := fun region hr => by rw [hempty.regions] at hr; exact nomatch hr
      opened := fun o ho => by rw [hempty.openRegions] at ho; exact nomatch ho }
  have hstart : State.Charted strict ⟨fun _ => ∅, fun _ => ∅⟩ { s with frame := { returnsRef } } :=
    ⟨hfits, hchains, nofun, nofun, nofun⟩
  refine ((hbody.ends hstart nofun).bind fun _ t ⟨m', ht, hadds⟩ =>
    ends_routineEnd_charted returnsRef ht hadds).mono fun _ u hu => ⟨rfl, ?_⟩
  exact ⟨hu.chains, hu.definedBeforeUse, hu.outside, hu.functions⟩

/-- The map of the routine around is still right behind a function. -/
theorem charts_function (head : FunctionHead) {inner : List Stmt}
    (hbody : Charts (Stmt.Steady inner) [] fs body) :
    Charts strict ls (fs ++ [(head, inner)]) (do
      toSink (Sink.beginFunction head)
      routineCode head.byRef body
      toSink Sink.endFunction) where
  ends {m s} h _ := by
    refine (ends_function head (fun _ hempty _ _ => ends_routineCode_charted head.byRef hbody hempty h.chains)
      fun ht => ht.2.outside).mono ?_
    rintro _ _ ⟨r, t, ⟨hframe, hchains, hdefined, -, Fs, hFs, hfunctions⟩, rfl⟩
    have hadds : Adds (fs ++ [(head, inner)]) m s m
        { t with sink := ⟨s.sink.main, t.sink.functions.push t.active, s.sink.pending⟩ } :=
      { promises := fun _ hl => ⟨hl, rfl⟩
        outside := Chunk.outside_withFunctions _ s.sink
        functions := ⟨Fs ++ [t.active], by rw [Array.toList_push, hFs, List.append_assoc],
          List.rel_append hfunctions (.cons hdefined .nil)⟩ }
    exact ⟨m, h.keep h.fits hadds (hchains.trans h.chains.symm) hframe, hadds⟩

/-! ### Statements -/

theorem charts_byStmtRule (hcfg : cfg.registry = .standard) {kind : StmtKind} {tag : StmtTag}
    {code : Home StmtKind → Emit Chunk Unit} (hcode : ∀ home, Charts strict ls fs (code home)) :
    Charts strict ls fs (byStmtRule cfg kind tag code) where
  ends {m s} h hls := by
    have htable : Charts strict ls [] (onTable (RuleTable.stmt cfg.registry kind tag.id) : Emit Chunk _) :=
      inferInstance
    unfold byStmtRule
    refine ((htable.ends h hls).and (hcfg ▸ ends_onTable_stmt s kind tag.id)).bind ?_
    rintro _ t ⟨⟨m₁, ht, hadds⟩, rfl⟩
    rw [if_pos rfl]
    exact ((hcode _).ends ht fun l hl => hadds.promise (hls l hl)).mono
      fun _ _ ⟨m₂, hu, hadds'⟩ => ⟨m₂, hu, hadds.trans hadds'⟩

/-- A statement says where it is in the source. -/
theorem charts_sequencePoint (span : Span) : Charts strict ls [] (Pass.update fun s =>
    { s with sink := Sink.sequencePoint span s.sink } : Emit Chunk Unit) where
  ends {m s} h _ := by
    have hrun : ({ s with sink := Sink.sequencePoint span s.sink } : State Chunk) =
        s.withActive { s.active with currentSpan := span } := by
      show ({ s with sink := (Chunk.onActive (fun r => ((), { r with currentSpan := span })) s.sink).2 } :
        State Chunk) = _
      rw [Chunk.onActive_eq]
      rfl
    have hsame : s.active.SameText { s.active with currentSpan := span } :=
      ⟨.of_eq rfl rfl rfl rfl, rfl, rfl, rfl, rfl⟩
    have hadds : Adds [] m s m (s.withActive { s.active with currentSpan := span }) :=
      .withActive hsame.grows fun _ _ => rfl
    refine .update (hrun ▸ ⟨m, h.keep ?_ hadds rfl rfl, hadds⟩)
    rw [State.active_withActive]
    exact h.fits.of_sameText hsame

theorem charts_statement (hcfg : cfg.registry = .standard) {kind : StmtKind} {tag : StmtTag}
    {code : Home StmtKind → Emit Chunk Unit} (hcode : ∀ home, Charts strict ls fs (code home)) :
    Charts strict ls fs (statement cfg kind tag code) := by
  have hpoint : Charts strict ls [] (Pass.update fun s => { s with sink := Sink.sequencePoint tag.span s.sink } :
      Emit Chunk Unit) := charts_sequencePoint tag.span
  have hreporting : Charts strict ls fs (reporting tag.span (byStmtRule cfg kind tag code)) :=
    ⟨fun h hls => ends_reporting tolerates_anyFailure ((charts_byStmtRule hcfg hcode).ends h hls)⟩
  unfold statement
  infer_instance

theorem ChartsClauses.unlessEmpty {catches : List Catch}
    (h : ∀ regionEnd k, ChartsWith strict [regionEnd] k (Stmt.functionsOfCatches catches)
      (lowerClauses cfg catches regionEnd k)) :
    ChartsClauses strict (!catches.isEmpty) (Stmt.functionsOfCatches catches) (lowerClauses cfg catches) := by
  cases catches with
  | nil => rfl
  | cons => exact h

/-- The statements of a routine that evaluate steady expressions only. -/
def SteadyIn (ys : List Stmt) : Prop :=
  ∀ y ∈ ys, ∀ e ∈ y.exprs, e.Steady

mutual

theorem charts_lowerStmt (hcfg : cfg.registry = .standard) :
    ∀ (x : Stmt) {strict : Prop} {ls : List Label}, (Node.numbers x.nodes).Nodup → (strict → SteadyIn x.own) →
      Charts strict ls x.functions (lowerStmt cfg x)
  | .expression _ e, strict, ls, h, hsteady => by
    rw [Stmt.nodes, Node.numbers_stmt, Node.numbers_nodes] at h
    have hvalue : Charts strict ls [] (lower cfg e .value : Emit Chunk TypeCode) :=
      charts_lower h (fun hs => hsteady hs _ List.mem_cons_self e List.mem_cons_self) _
    rw [Stmt.functions]
    exact charts_statement hcfg fun _ => inferInstance
  | .echo _ es, _, _, h, hsteady =>
    charts_statement hcfg fun _ => charts_echoAll h fun hs => hsteady hs _ List.mem_cons_self
  | .block _ body, _, _, h, hsteady =>
    charts_statement hcfg fun _ => charts_lowerStmts hcfg body h fun hs =>
      (List.forall_mem_cons.mp (hsteady hs)).2
  | .branch _ condition thenBody elseBody, strict, ls, h, hsteady => by
    simp only [Stmt.nodes, List.cons_append, Node.numbers_stmt, Node.numbers_append, Node.numbers_nodes,
      List.nodup_append'] at h
    have hparts (hs : strict) : condition.Steady ∧ SteadyIn (Stmt.ownOf thenBody) ∧
        SteadyIn (Stmt.ownOfOptional elseBody) := by
      have hall := hsteady hs
      rw [Stmt.own, SteadyIn, List.forall_mem_cons, List.forall_mem_append] at hall
      exact ⟨hall.1 condition List.mem_cons_self, hall.2⟩
    have hthen : Charts strict ls (Stmt.functionsOf thenBody) (lowerStmts cfg thenBody) :=
      charts_lowerStmts hcfg thenBody h.1.2.1 fun hs => (hparts hs).2.1
    exact charts_statement hcfg fun _ => charts_branchCode h.1.1 (fun hs => (hparts hs).1)
      (charts_lowerOptional hcfg elseBody h.2.1 fun hs => (hparts hs).2.2)
  | .loop _ condition body, strict, ls, h, hsteady => by
    simp only [Stmt.nodes, List.cons_append, Node.numbers_stmt, Node.numbers_append, Node.numbers_nodes,
      List.nodup_append'] at h
    have hparts (hs : strict) : condition.Steady ∧ SteadyIn (Stmt.ownOf body) := by
      have hall := hsteady hs
      rw [Stmt.own, SteadyIn, List.forall_mem_cons] at hall
      exact ⟨hall.1 condition List.mem_cons_self, hall.2⟩
    have hbody : Charts strict ls (Stmt.functionsOf body) (lowerStmts cfg body) :=
      charts_lowerStmts hcfg body h.2.1 fun hs => (hparts hs).2
    rw [Stmt.functions]
    exact charts_statement hcfg fun _ => charts_loopCode h.1 fun hs => (hparts hs).1
  | .jump _ kind _, _, _, h, hsteady =>
    charts_statement hcfg fun _ => charts_jumpCode kind h fun hs => hsteady hs _ List.mem_cons_self
  | .goto _ name, _, _, _, _ => charts_statement hcfg fun _ => charts_goto name
  | .label _ name, _, _, _, _ => charts_statement hcfg fun home => charts_labelCode name home
  | .tryCatch _ body catches cleanup, strict, ls, h, hsteady => by
    simp only [Stmt.nodes, List.cons_append, Node.numbers_stmt, Node.numbers_append,
      List.nodup_append'] at h
    have hparts (hs : strict) : SteadyIn (Stmt.ownOf body) ∧ SteadyIn (Stmt.ownOfCatches catches) ∧
        SteadyIn (Stmt.ownOfOptional cleanup) := by
      have hall := hsteady hs
      rw [Stmt.own, SteadyIn, List.forall_mem_cons, List.forall_mem_append, List.forall_mem_append] at hall
      exact hall.2
    exact charts_statement hcfg fun _ => charts_tryCode
      (charts_lowerStmts hcfg body h.1.1 fun hs => (hparts hs).1)
      (.unlessEmpty (charts_lowerClauses hcfg catches h.1.2.1 fun hs => (hparts hs).2.1))
      (charts_lowerOptional hcfg cleanup h.2.1 fun hs => (hparts hs).2.2)
  | .throw _ e, strict, ls, h, hsteady => by
    rw [Stmt.nodes, Node.numbers_stmt, Node.numbers_nodes] at h
    have hboxed : Charts strict ls [] (boxed (lower cfg e) : Emit Chunk TypeCode) :=
      charts_boxed h fun hs => hsteady hs _ List.mem_cons_self e List.mem_cons_self
    rw [Stmt.functions]
    exact charts_statement hcfg fun _ => inferInstance
  | .unset _ _, _, _, h, hsteady =>
    charts_statement hcfg fun _ => charts_unsetAll h fun hs => hsteady hs _ List.mem_cons_self
  | .constDecl _ _ e, strict, ls, h, hsteady => by
    rw [Stmt.nodes, Node.numbers_stmt, Node.numbers_nodes] at h
    have hboxed : Charts strict ls [] (boxed (lower cfg e) : Emit Chunk TypeCode) :=
      charts_boxed h fun hs => hsteady hs _ List.mem_cons_self e List.mem_cons_self
    rw [Stmt.functions]
    exact charts_statement hcfg fun _ => inferInstance
  | .function _ head body _, _, _, h, _ =>
    charts_statement hcfg fun _ => charts_function head (charts_lowerStmts hcfg body h id)
  | .empty _ _, _, _, _, _ => charts_statement hcfg fun _ => charts_pure ()
termination_by structural x => x

/-- **Between all statements** no more is taken to be stored than is. -/
theorem charts_lowerStmts (hcfg : cfg.registry = .standard) :
    ∀ (xs : List Stmt) {strict : Prop} {ls : List Label}, (Node.numbers (Stmt.nodesOf xs)).Nodup →
      (strict → SteadyIn (Stmt.ownOf xs)) → Charts strict ls (Stmt.functionsOf xs) (lowerStmts cfg xs)
  | [], _, _, _, _ => charts_pure ()
  | x :: rest, _, _, h, hsteady => by
    rw [Stmt.nodesOf, Node.numbers_append, List.nodup_append'] at h
    rw [Stmt.ownOf, SteadyIn, List.forall_mem_append] at hsteady
    exact charts_seq (charts_lowerStmt hcfg x h.1 fun hs => (hsteady hs).1) fun _ =>
      charts_lowerStmts hcfg rest h.2.1 fun hs => (hsteady hs).2
termination_by structural xs => xs

theorem charts_lowerOptional (hcfg : cfg.registry = .standard) :
    ∀ (part : Option (List Stmt)) {strict : Prop} {ls : List Label},
      (Node.numbers (Stmt.nodesOfOptional part)).Nodup → (strict → SteadyIn (Stmt.ownOfOptional part)) →
      ChartsOptional strict ls (Stmt.functionsOfOptional part) (lowerOptional cfg part)
  | none, _, _, _, _ => rfl
  | some body, _, _, h, hsteady => charts_lowerStmts hcfg body h hsteady
termination_by structural part => part

theorem charts_lowerClauses (hcfg : cfg.registry = .standard) :
    ∀ (cs : List Catch) {strict : Prop}, (Node.numbers (Stmt.nodesOfCatches cs)).Nodup →
      (strict → SteadyIn (Stmt.ownOfCatches cs)) → ∀ (regionEnd : Label) (k : Temp),
      ChartsWith strict [regionEnd] k (Stmt.functionsOfCatches cs) (lowerClauses cfg cs regionEnd k)
  | [], _, _, _, _, _ => ChartsWith.pure
  | .clause _ type _ body resolved :: rest, _, h, hsteady, regionEnd, k => by
    rw [Stmt.nodesOfCatches, Node.numbers_append, List.nodup_append'] at h
    rw [Stmt.ownOfCatches, SteadyIn, List.forall_mem_append] at hsteady
    have hbody : Charts _ [regionEnd] (Stmt.functionsOf body) (lowerStmts cfg body) :=
      charts_lowerStmts hcfg body h.1 fun hs => (hsteady hs).1
    exact ChartsWith.seq (chartsWith_clauseCode (List.mem_singleton_self _) _ _ hbody)
      (charts_lowerClauses hcfg rest h.2.1 (fun hs => (hsteady hs).2) regionEnd k)
termination_by structural cs => cs

end

end Statements

end Lowering
end PhpLowering
