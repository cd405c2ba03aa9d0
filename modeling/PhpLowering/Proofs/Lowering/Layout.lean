import Mathlib.Data.List.Forall2
import PhpLowering.Proofs.Code.Confinement
import PhpLowering.Proofs.Lowering.Stretches
import PhpLowering.Proofs.Lowering.Visits

/-!
# What the code of statements looks like

The code of statements is a piece of code with one region for every `try` that is emitted as a region
(`Stmt.tries`, `isRegion`), in the order in which the statements end.  `Wrote cfg A tries fs s t`
says so of the piece between two states of an emission: the regions are those of the statements `tries`,
and the branches stay in the piece, but for those to the labels `A` (`Confined`).

Which labels these are depends on the frame.  Outside of all regions a `return` branches to the code
that returns; a way out of a loop is a branch if the loop is in the same block (`Frame.Leads`).  Inside of
a region that has just been entered there are none, as every loop is further outside.
-/

namespace PhpLowering

namespace Stmt

mutual

/-- The `try` statements in a statement that belong to the same routine, in the order in which they
end. -/
def tries : Stmt → List Stmt
  | .block _ body | .loop _ _ body => triesOf body
  | .branch _ _ thenBody elseBody => triesOf thenBody ++ triesOfOptional elseBody
  | x@(.tryCatch _ body catches cleanup) =>
    triesOf body ++ (triesOfCatches catches ++ triesOfOptional cleanup) ++ [x]
  | .expression .. | .echo .. | .jump .. | .goto .. | .label .. | .throw .. | .unset ..
  | .constDecl .. | .function .. | .empty .. => []
termination_by structural s => s

/-- The `try` statements in a list of statements. -/
def triesOf : List Stmt → List Stmt
  | [] => []
  | s :: rest => tries s ++ triesOf rest
termination_by structural s => s

/-- The `try` statements in a part that may be missing. -/
def triesOfOptional : Option (List Stmt) → List Stmt
  | none => []
  | some body => triesOf body
termination_by structural s => s

/-- The `try` statements in the clauses of a `try`. -/
def triesOfCatches : List Catch → List Stmt
  | [] => []
  | .clause _ _ _ body _ :: rest => triesOf body ++ triesOfCatches rest
termination_by structural s => s

end

/-- The `try` statements inside of a `try`. -/
def inner : Stmt → List Stmt
  | .tryCatch _ body catches cleanup => triesOf body ++ (triesOfCatches catches ++ triesOfOptional cleanup)
  | _ => []

/-- Whether a `try` has a clause. -/
def hasClauses : Stmt → Bool
  | .tryCatch _ _ catches _ => !catches.isEmpty
  | _ => false

/-- Whether a `try` has a cleanup. -/
def hasCleanup : Stmt → Bool
  | .tryCatch _ _ _ cleanup => cleanup.isSome
  | _ => false

end Stmt

/-- The handlers of a region.  No clause sees the exception by which a dying program unwinds. -/
def handlerKinds (hasClauses hasCleanup : Bool) : List HandlerKind :=
  (if hasClauses then [.catching Lowering.uncatchableType, .catching Lowering.hostType] else []) ++
    if hasCleanup || !hasClauses then [.cleanup] else []

namespace Routine

variable {r r' : Routine}

/-- A handler does nothing but let the exception go on: the branch behind that goes to a label. -/
structure Rethrows (r : Routine) (h : Handler) (l : Label) : Prop where
  stop : h.stop = h.start + 2
  rethrow : r.code[h.start]? = some .rethrow
  leave : r.code[h.start + 1]? = some (.leave l)

theorem Rethrows.grows {h : Handler} {l : Label} (hr : r.Rethrows h l) (hg : r.Grows r') :
    r'.Rethrows h l :=
  ⟨hr.stop, hg.code hr.rethrow, hg.code hr.leave⟩

/-- A region is that of a `try`. -/
structure IsRegionOf (r : Routine) (x : Stmt) (R : Region) : Prop where
  handlers : R.handlers.map Handler.kind = handlerKinds x.hasClauses x.hasCleanup
  rethrows : x.hasClauses = true → ∃ h l, R.handlers.head? = some h ∧ r.Rethrows h l ∧
    r.labelPosition? l = some R.stop

theorem IsRegionOf.grows {x : Stmt} {R : Region} (h : r.IsRegionOf x R) (hr : r.Grows r') :
    r'.IsRegionOf x R where
  handlers := h.handlers
  rethrows hx := by
    obtain ⟨h, l, hh, hrethrows, hl⟩ := h.rethrows hx
    exact ⟨h, l, hh, hrethrows.grows hr, hr.labelPosition? hl⟩

/-- Regions mirror `try` statements that are listed in the order in which they end: a region holds those
of the `try` statements inside of its own, and what is not inside of each other stands in a row. -/
inductive Mirrors (cfg : Lowering.Setting) (r : Routine) : List Stmt → List Region → Prop
  | nil : Mirrors cfg r [] []
  | append {xs ys : List Stmt} {Rs Ss : List Region} (first : Mirrors cfg r xs Rs)
      (second : Mirrors cfg r ys Ss) (inOrder : ∀ R ∈ Rs, ∀ S ∈ Ss, R.stop ≤ S.tryStart) :
      Mirrors cfg r (xs ++ ys) (Rs ++ Ss)
  | region {x : Stmt} {R : Region} {Rs : List Region}
      (inside : Mirrors cfg r (x.inner.filter (Lowering.isRegion cfg)) Rs) (holds : ∀ S ∈ Rs, R.Holds S)
      (isRegion : r.IsRegionOf x R) :
      Mirrors cfg r (x.inner.filter (Lowering.isRegion cfg) ++ [x]) (Rs ++ [R])

variable {cfg : Lowering.Setting} {xs : List Stmt} {Rs : List Region}

theorem Mirrors.grows (h : r.Mirrors cfg xs Rs) (hr : r.Grows r') : r'.Mirrors cfg xs Rs := by
  induction h with
  | nil => exact .nil
  | append _ _ inOrder ih ih' => exact .append ih ih' inOrder
  | region _ holds isRegion ih => exact .region ih holds (isRegion.grows hr)

/-- There is one region for each of the statements, in the same order. -/
theorem Mirrors.forall₂ (h : r.Mirrors cfg xs Rs) : List.Forall₂ r.IsRegionOf xs Rs := by
  induction h with
  | nil => exact .nil
  | append _ _ _ ih ih' => exact List.rel_append ih ih'
  | region _ _ isRegion ih => exact List.rel_append ih (.cons isRegion .nil)

/-- The regions of a routine are those of its statements, and its branches respect them. -/
structure Arranged (cfg : Lowering.Setting) (body : List Stmt) (r : Routine) : Prop where
  regions : r.Mirrors cfg ((Stmt.triesOf body).filter (Lowering.isRegion cfg)) r.regions.toList
  branches : (∀ n ∈ Stmt.nodesOf body, n.isGoto = false) →
    Confined r (fun _ => False) 0 r.position r.regions.toList

end Routine

namespace Lowering

open Pass (Ends)

/-- The labels outside of a statement that a branch in it may go to.  If there are `goto` statements,
nothing is known of them where there are no regions around. -/
def Frame.Leads (gotos : Prop) (f : Frame) (l : Label) : Prop :=
  (∃ loop ∈ f.loops, loop.exceptionLevel = f.exceptionNesting ∧ ∃ kind, l = loop.target kind) ∨
    f.exceptionNesting = 0 ∧ (f.epilogue = some l ∨ gotos)

/-- What holds of a state at every statement. -/
structure Orderly (s : State Chunk) : Prop where
  slots : s.active.SlotsInOrder
  levels : ∀ loop ∈ s.frame.loops, loop.exceptionLevel ≤ s.frame.exceptionNesting
  returns : s.frame.returnTemp = none → s.frame.epilogue = none

variable {cfg : Setting} {A B : Label → Prop} {G : Prop} {tries tries' : List Stmt}
  {fs fs' : List (FunctionHead × List Stmt)} {s t u : State Chunk} {l : Label} {k : Temp} {f g : Frame}
  {α : Type}

/-- What a piece of an emission leaves besides code. -/
structure Kept (cfg : Setting) (fs : List (FunctionHead × List Stmt)) (s t : State Chunk) : Prop where
  grows : s.active.Grows t.active
  orderly : Orderly t
  vacant : ∀ k, t.active.Vacant k → s.active.Vacant k
  loops : t.frame.loops = s.frame.loops
  nesting : t.frame.exceptionNesting = s.frame.exceptionNesting
  epilogue : ∀ l, s.frame.epilogue = some l → t.frame.epilogue = some l
  outside : t.sink.outside = s.sink.outside
  functions : ∃ Fs, t.sink.functions.toList = s.sink.functions.toList ++ Fs ∧
    List.Forall₂ (fun p f => Routine.Arranged cfg p.2 f) fs Fs

/-- A piece of an emission has written the code of statements with certain regions and functions. -/
structure Wrote (cfg : Setting) (A : Label → Prop) (tries : List Stmt)
    (fs : List (FunctionHead × List Stmt)) (s t : State Chunk) : Prop extends Kept cfg fs s t where
  opened : t.active.openRegions = s.active.openRegions
  code : ∃ Rs, t.active.regions.toList = s.active.regions.toList ++ Rs ∧
    t.active.Mirrors cfg tries Rs ∧ Confined t.active A s.active.position t.active.position Rs

namespace Kept

theorem trans (h : Kept cfg fs s t) (h' : Kept cfg fs' t u) : Kept cfg (fs ++ fs') s u where
  grows := h.grows.trans h'.grows
  orderly := h'.orderly
  vacant k hk := h.vacant k (h'.vacant k hk)
  loops := h'.loops.trans h.loops
  nesting := h'.nesting.trans h.nesting
  epilogue l hl := h'.epilogue l (h.epilogue l hl)
  outside := h'.outside.trans h.outside
  functions := by
    obtain ⟨Fs, hFs, hall⟩ := h.functions
    obtain ⟨Fs', hFs', hall'⟩ := h'.functions
    exact ⟨Fs ++ Fs', by rw [hFs', hFs, List.append_assoc], List.rel_append hall hall'⟩

theorem leads (h : Kept cfg fs s t) (hl : s.frame.Leads G l) : t.frame.Leads G l := by
  unfold Frame.Leads at hl ⊢
  rw [h.loops, h.nesting]
  refine hl.imp_right fun hl => ⟨hl.1, hl.2.imp_left fun hl => h.epilogue l hl⟩

/-- What has been done with another frame around. -/
theorem reframe (h : Kept cfg fs { s with frame := f } t)
    (horderly : Orderly { t with frame := g }) (hloops : g.loops = s.frame.loops)
    (hnesting : g.exceptionNesting = s.frame.exceptionNesting)
    (hepilogue : ∀ l, s.frame.epilogue = some l → g.epilogue = some l) :
    Kept cfg fs s { t with frame := g } :=
  { h with orderly := horderly, loops := hloops, nesting := hnesting, epilogue := hepilogue }

/-- A slot that was vacant is given back. -/
theorem returnTemp (h : Kept cfg fs s t) (hk : s.active.Vacant k) (htaken : ¬ t.active.Vacant k) :
    Kept cfg fs s { t with sink := Sink.returnTemp k t.sink } := by
  have hactive : ({ t with sink := Sink.returnTemp k t.sink } : State Chunk).active =
      t.active.returnTemp k := active_returnTemp k t.sink
  have hsink : Sink.returnTemp k t.sink = t.sink.withActive (Sink.returnTemp k t.sink).active :=
    (sameBesides_returnTemp k t.sink).others
  refine
    { grows := ?_, orderly := ⟨?_, h.orderly.levels, h.orderly.returns⟩, vacant := fun j hj => ?_
      loops := h.loops, nesting := h.nesting, epilogue := h.epilogue, outside := ?_, functions := ?_ }
  · rw [hactive]
    exact h.grows.trans (t.active.grows_returnTemp k)
  · rw [hactive]
    exact h.orderly.slots.returnTemp (Routine.lt_of_not_vacant htaken)
  · rw [hactive, Routine.vacant_returnTemp] at hj
    exact hj.elim (h.vacant j) fun heq => heq ▸ hk
  · rw [← h.outside]
    show (Sink.returnTemp k t.sink).outside = _
    rw [hsink, Chunk.outside_withActive]
  · show ∃ Fs, (Sink.returnTemp k t.sink).functions.toList = _ ∧ _
    rw [hsink, Chunk.functions_withActive]
    exact h.functions

/-- A step that only concerns the routine at hand. -/
theorem of_tidy (hs : Orderly s) (h : Tidy s t) : Kept cfg [] s t where
  grows := h.grows
  orderly := ⟨h.order, h.sameFrame ▸ hs.levels, h.sameFrame ▸ hs.returns⟩
  vacant := h.vacant
  loops := congrArg Frame.loops h.sameFrame
  nesting := congrArg Frame.exceptionNesting h.sameFrame
  epilogue l hl := (congrArg Frame.epilogue h.sameFrame).trans hl
  outside := by rw [h.same.others, Chunk.outside_withActive]
  functions := ⟨[], by rw [h.same.others, Chunk.functions_withActive, List.append_nil], .nil⟩

end Kept

namespace Wrote

theorem trans (h : Wrote cfg A tries fs s t) (h' : Wrote cfg A tries' fs' t u) :
    Wrote cfg A (tries ++ tries') (fs ++ fs') s u where
  toKept := h.toKept.trans h'.toKept
  opened := h'.opened.trans h.opened
  code := by
    obtain ⟨Rs, hRs, hregions, hcode⟩ := h.code
    obtain ⟨Rs', hRs', hregions', hcode'⟩ := h'.code
    refine ⟨Rs ++ Rs', by rw [hRs', hRs, List.append_assoc], ?_, (hcode.grows h'.grows).seq hcode'⟩
    refine (hregions.grows h'.grows).append hregions' fun R hR S hS => ?_
    exact Nat.le_trans (hcode.within R hR).stop (hcode'.within S hS).start

/-- Labels that are marked at one of the ends are not outside. -/
theorem settle (h : Wrote cfg B tries fs s t) (hB : ∀ l, B l → A l ∨
    t.active.labelPosition? l = some s.active.position ∨
      t.active.labelPosition? l = some t.active.position) : Wrote cfg A tries fs s t :=
  { h with
    code := by
      obtain ⟨Rs, hRs, hregions, hcode⟩ := h.code
      exact ⟨Rs, hRs, hregions, hcode.settle hB⟩ }

theorem mono (h : Wrote cfg B tries fs s t) (hBA : ∀ l, B l → A l) : Wrote cfg A tries fs s t :=
  h.settle fun l hl => Or.inl (hBA l hl)

theorem reframe (h : Wrote cfg A tries fs { s with frame := f } t)
    (horderly : Orderly { t with frame := g }) (hloops : g.loops = s.frame.loops)
    (hnesting : g.exceptionNesting = s.frame.exceptionNesting)
    (hepilogue : ∀ l, s.frame.epilogue = some l → g.epilogue = some l) :
    Wrote cfg A tries fs s { t with frame := g } :=
  ⟨h.toKept.reframe horderly hloops hnesting hepilogue, h.opened, h.code⟩

/-- A step that writes code without regions. -/
theorem of_tidy (hs : Orderly s) (h : Tidy s t)
    (hcode : Confined t.active A s.active.position t.active.position []) : Wrote cfg A [] [] s t where
  toKept := .of_tidy hs h
  opened := h.same.opened
  code := ⟨[], (congrArg Array.toList h.same.regions).trans (List.append_nil _).symm, .nil, hcode⟩

/-- A step that writes nothing. -/
theorem of_code_eq (hs : Orderly s) (h : Tidy s t) (hcode : t.active.code = s.active.code) :
    Wrote cfg A [] [] s t := by
  refine .of_tidy hs h ?_
  rw [show t.active.position = s.active.position from congrArg Array.size hcode]
  exact .nil (Nat.le_of_eq (congrArg Array.size hcode.symm))

theorem refl (hs : Orderly s) : Wrote cfg A [] [] s s :=
  .of_code_eq hs (.of_eq hs.slots (.refl _) rfl (.refl _) rfl rfl rfl) rfl

/-- A slot that was vacant is given back. -/
theorem returnTemp (h : Wrote cfg A tries fs s t) (hk : s.active.Vacant k) (htaken : ¬ t.active.Vacant k) :
    Wrote cfg A tries fs s { t with sink := Sink.returnTemp k t.sink } where
  toKept := h.toKept.returnTemp hk htaken
  opened := (sameBesides_returnTemp k t.sink).opened.trans h.opened
  code := by
    have hsame := sameBesides_returnTemp k t.sink
    have hgrows : t.active.Grows (Sink.returnTemp k t.sink).active := grows_active_returnTemp k t.sink
    obtain ⟨Rs, hRs, hregions, hcode⟩ := h.code
    refine ⟨Rs, (congrArg Array.toList hsame.regions).trans hRs,
      hregions.grows hgrows, ?_⟩
    show Confined (Sink.returnTemp k t.sink).active A s.active.position
      (Sink.returnTemp k t.sink).active.position Rs
    rw [position_active_returnTemp]
    exact hcode.grows hgrows

end Wrote

/-! ## Steps -/

/-- The piece between two states is the code of statements: its branches stay in it, but for those to
some labels that are known and those out of the statements. -/
def Covers (cfg : Setting) (G : Prop) (ls : List Label) (tries : List Stmt)
    (fs : List (FunctionHead × List Stmt)) (s t : State Chunk) : Prop :=
  Wrote cfg (fun l => l ∈ ls ∨ t.frame.Leads G l) tries fs s t

variable {ls ls' : List Label}

namespace Covers

theorem trans (h : Covers cfg G ls tries fs s t) (h' : Covers cfg G ls tries' fs' t u) :
    Covers cfg G ls (tries ++ tries') (fs ++ fs') s u :=
  Wrote.trans (h.mono fun _ hl => hl.imp_right h'.leads) h'

/-- A step that is no statement by itself. -/
theorem andThen (h : Covers cfg G ls tries fs s t) (h' : Covers cfg G ls [] [] t u) :
    Covers cfg G ls tries fs s u := by
  have hboth := h.trans h'
  rwa [List.append_nil, List.append_nil] at hboth

theorem subset (h : Covers cfg G ls tries fs s t) (hls : ls ⊆ ls') : Covers cfg G ls' tries fs s t :=
  Wrote.mono h fun _ hl => hl.imp_left fun hmem => hls hmem

theorem weaken (h : Covers cfg G [] tries fs s t) : Covers cfg G ls tries fs s t :=
  h.subset (List.nil_subset ls)

end Covers

theorem Frame.Leads.of_noLoops (h : f.Leads G l) (hloops : f.loops = []) :
    f.epilogue = some l ∨ G := by
  rcases h with ⟨loop, hloop, -⟩ | ⟨-, hl⟩
  · rw [hloops] at hloop
    exact nomatch hloop
  · exact hl

section Steps

variable (hs : Orderly s) (cfg : Setting) (G : Prop) (ls : List Label)
include hs

/-- The code of an expression, with what is done with its value. -/
theorem Orderly.lays {n : Nat} {m : α → Nat} {x : Emit Chunk α} (hx : Lays n m x) :
    Ends x s (fun _ t => Covers cfg G ls [] [] s t ∧ t.frame = s.frame) anyFailure :=
  (hx s hs.slots).mono fun _ _ ht =>
    ⟨.of_tidy hs ht.toTidy (ht.code.confined _ (Nat.le_refl _)), ht.sameFrame⟩

theorem Orderly.emit (i : Instruction) (hi : ∀ l ∈ i.branchTargets, l ∈ ls ∨ s.frame.Leads G l) :
    Ends (emit i) s (fun _ t => Covers cfg G ls [] [] s t ∧ t.frame = s.frame ∧
      t.active.position = s.active.position + 1 ∧ t.active.code[s.active.position]? = some i)
      anyFailure := by
  refine (ends_branch i hs.slots).mono ?_
  rintro _ t ⟨ht, hposition, hcode⟩
  refine ⟨.of_tidy hs ht ?_, ht.sameFrame, hposition, hcode⟩
  rw [hposition, ht.sameFrame]
  exact .instruction hcode hi

/-- An instruction that does not branch. -/
theorem Orderly.straight (i : Instruction) (hi : i.branchTargets = []) :
    Ends (Lowering.emit i) s (fun _ t => (∀ A, Wrote cfg A [] [] s t) ∧ t.frame = s.frame)
      anyFailure := by
  refine (ends_branch i hs.slots).mono ?_
  rintro _ t ⟨ht, hposition, hcode⟩
  refine ⟨fun A => .of_tidy hs ht ?_, ht.sameFrame⟩
  rw [hposition]
  refine .instruction hcode fun l hl => ?_
  rw [hi] at hl
  exact nomatch hl

theorem Orderly.plain (i : Instruction) (hi : i.branchTargets = []) :
    Ends (Lowering.emit i) s (fun _ t => Covers cfg G ls [] [] s t ∧ t.frame = s.frame) anyFailure :=
  (hs.straight cfg i hi).mono fun _ _ ht => ⟨ht.1 _, ht.2⟩

theorem Orderly.define :
    Ends defineLabel s (fun _ t => Covers cfg G ls [] [] s t ∧ t.frame = s.frame ∧
      t.active.position = s.active.position) anyFailure := by
  have hcode : (s.withActive s.active.defineLabel.2).active.code = s.active.code := by
    rw [State.active_withActive]
    rfl
  have hrun : defineLabel s = (.ok s.active.defineLabel.1, s.withActive s.active.defineLabel.2) := by
    show (Except.ok (Chunk.onActive Routine.defineLabel s.sink).1,
      ({ s with sink := (Chunk.onActive Routine.defineLabel s.sink).2 } : State Chunk)) = _
    rw [Chunk.onActive_eq]
    rfl
  refine .of_eq hrun ⟨.of_code_eq hs ?_ hcode, rfl, congrArg Array.size hcode⟩
  exact .withActive hs.slots s.active.grows_defineLabel rfl rfl rfl rfl

/-- A label is marked at the position at hand. -/
theorem Orderly.mark (l : Label) :
    Ends (mark l) s (fun _ t => Covers cfg G ls [] [] s t ∧ t.frame = s.frame ∧
      t.active.position = s.active.position ∧
        t.active.labelPosition? l = some s.active.position) anyFailure := by
  refine (ends_mark l hs.slots).mono ?_
  rintro _ t ⟨ht, hposition, hl⟩
  refine ⟨.of_tidy hs ht ?_, ht.sameFrame, hposition, hl⟩
  rw [hposition]
  exact .nil (Nat.le_of_eq hposition.symm)

theorem Orderly.declareTemp :
    Ends declareTemp s (fun k t => Covers cfg G ls [] [] s t ∧ t.frame = s.frame ∧
      s.active.Vacant k ∧ ¬ t.active.Vacant k) anyFailure := by
  refine (ends_declareTemp hs.slots).mono ?_
  rintro k t ⟨ht, hcode, -, hk, htaken⟩
  exact ⟨.of_code_eq hs ht hcode, ht.sameFrame, hk, htaken⟩

end Steps

/-- A label that is marked behind a piece is not outside of it. -/
theorem Covers.mark (h : Covers cfg G (l :: ls) tries fs s t) :
    Ends (mark l) t (fun _ u => Covers cfg G ls tries fs s u ∧ u.frame = t.frame ∧
      Covers cfg G [] [] [] t u) anyFailure := by
  refine (h.orderly.mark cfg G [] l).mono ?_
  rintro _ u ⟨hu, hframe, hposition, hl⟩
  refine ⟨Wrote.settle (h.andThen hu.weaken) fun x hx => ?_, hframe, hu⟩
  rcases hx with hx | hx
  · rcases List.mem_cons.mp hx with rfl | hx
    · exact Or.inr (Or.inr (hposition ▸ hl))
    · exact Or.inl (Or.inl hx)
  · exact Or.inl (Or.inr hx)

/-- Code of statements with certain regions and functions. -/
def Writes (cfg : Setting) (G : Prop) (tries : List Stmt) (fs : List (FunctionHead × List Stmt))
    (x : Emit Chunk Unit) : Prop :=
  ∀ s, Orderly s → Ends x s (fun _ t => Covers cfg G [] tries fs s t) anyFailure

/-- The same for a part that may be missing. -/
def WritesOptional (cfg : Setting) (G : Prop) (tries : List Stmt) (fs : List (FunctionHead × List Stmt))
    (x : Option (Emit Chunk Unit)) : Prop :=
  match x with
  | some x => Writes cfg G tries fs x
  | none => tries = [] ∧ fs = []

/-- The same for clauses. -/
def WritesClauses (cfg : Setting) (G : Prop) (tries : List Stmt) (fs : List (FunctionHead × List Stmt))
    (clauses : Label → Temp → Emit Chunk Unit) : Prop :=
  ∀ regionEnd k, Writes cfg G tries fs (clauses regionEnd k)

variable {x y : Emit Chunk Unit}

theorem Lays.writes {n m : Nat} (hx : Lays n (fun _ => m) x) : Writes cfg G [] [] x :=
  fun _ hs => (hs.lays cfg G [] hx).mono fun _ _ ht => ht.1

theorem Writes.seq (hx : Writes cfg G tries fs x) (hy : Writes cfg G tries' fs' y) :
    Writes cfg G (tries ++ tries') (fs ++ fs') (do x; y) := by
  intro s hs
  refine (hx s hs).bind fun _ t ht => ?_
  exact (hy t ht.orderly).mono fun _ _ hu => ht.trans hu

/-! ## Branches and loops -/

theorem writes_branchCode (condition : Expr) {otherwise : Option (Emit Chunk Unit)}
    (hx : Writes cfg G tries fs x) (hy : WritesOptional cfg G tries' fs' otherwise) :
    Writes cfg G (tries ++ tries') (fs ++ fs') (branchCode cfg condition x otherwise) := by
  intro s hs
  have hhead : Ends (branchHead cfg condition) s (fun l t => Covers cfg G [l] [] [] s t) anyFailure := by
    refine (hs.define cfg G []).bind ?_
    rintro l s₁ ⟨h₁, -, -⟩
    have htest := (lays_lower cfg condition).converted .boolean (g := fun _ => 1) fun _ _ => rfl
    refine (h₁.orderly.lays cfg G [] htest).bind ?_
    rintro _ s₂ ⟨h₂, -⟩
    refine (h₂.orderly.emit cfg G [l] (.branchIfFalse l) fun _ hl => Or.inl hl).bind ?_
    rintro _ s₃ ⟨h₃, -⟩
    exact .pure ((h₁.andThen h₂).weaken.andThen h₃)
  refine hhead.bind fun l t ht => ?_
  refine (hx t ht.orderly).bind fun _ u hu => ?_
  have hfirst : Covers cfg G [l] tries fs s u := ht.trans hu.weaken
  cases otherwise with
  | none =>
    obtain ⟨rfl, rfl⟩ := hy
    rw [List.append_nil, List.append_nil]
    exact hfirst.mark.mono fun _ _ hv => hv.1
  | some y =>
    have helse : Ends (elseHead l) u (fun done v => Covers cfg G [done] tries fs s v) anyFailure := by
      refine (hu.orderly.define cfg G []).bind ?_
      rintro done u₁ ⟨h₁, -, -⟩
      refine (h₁.orderly.emit cfg G [l, done] (.branch done) fun _ hl =>
        Or.inl (List.mem_cons_of_mem l hl)).bind ?_
      rintro _ u₂ ⟨h₂, -⟩
      have hwide : Covers cfg G [l, done] tries fs s u :=
        hfirst.subset (List.cons_subset_cons l (List.nil_subset _))
      refine ((hwide.andThen h₁.weaken).andThen h₂).mark.bind ?_
      rintro _ u₃ ⟨h₃, -⟩
      exact .pure h₃
    refine helse.bind fun done v hv => ?_
    refine (hy v hv.orderly).bind fun _ w hw => ?_
    exact (hv.trans hw.weaken).mark.mono fun _ _ h => h.1

/-- Out of a loop, its own ways out are known labels. -/
theorem Frame.Leads.leaveLoop {loop : Loop} (h : f.Leads G l) (hloops : f.loops = loop :: g.loops)
    (hnesting : f.exceptionNesting = g.exceptionNesting) (hepilogue : f.epilogue = g.epilogue) :
    l ∈ [loop.continueLabel, loop.breakLabel] ∨ g.Leads G l := by
  unfold Frame.Leads at h ⊢
  rw [hloops, hnesting, hepilogue] at h
  rcases h with ⟨loop', hmem, hlevel, kind, rfl⟩ | h
  · rcases List.mem_cons.mp hmem with rfl | hmem
    · cases kind <;> simp [Loop.target]
    · exact Or.inr (Or.inl ⟨loop', hmem, hlevel, kind, rfl⟩)
  · exact Or.inr (Or.inr h)

/-- In front of the body of a loop. -/
structure AtLoop (cfg : Setting) (G : Prop) (loop : Loop) (s t : State Chunk) : Prop where
  wrote : Covers cfg G [loop.breakLabel] [] [] s { t with frame := s.frame }
  frame : t.frame = { s.frame with loops := loop :: s.frame.loops }
  level : loop.exceptionLevel = s.frame.exceptionNesting
  test : t.active.labelPosition? loop.continueLabel = some s.active.position

theorem ends_loopHead (condition : Expr) (hs : Orderly s) :
    Ends (loopHead cfg condition) s (fun loop t => AtLoop cfg G loop s t) anyFailure := by
  refine (hs.define cfg G []).bind ?_
  rintro test s₁ ⟨h₁, hframe₁, hposition₁⟩
  refine (h₁.orderly.define cfg G []).bind ?_
  rintro exit s₂ ⟨h₂, hframe₂, hposition₂⟩
  refine (h₂.orderly.mark cfg G [] test).bind ?_
  rintro _ s₃ ⟨h₃, hframe₃, -, hl⟩
  rw [hposition₂, hposition₁] at hl
  have hto : Covers cfg G [exit] [] [] s s₃ := ((h₁.andThen h₂).andThen h₃).weaken
  have hframe : s₃.frame = s.frame := hframe₃.trans (hframe₂.trans hframe₁)
  have hrest : ∀ u, Covers cfg G [exit] [] [] s₃ u → u.frame = s₃.frame → Ends (do
      let nesting := (← frame).exceptionNesting
      updateFrame (Frame.enterLoop exit test)
      return (⟨exit, test, nesting⟩ : Loop)) u (fun loop t => AtLoop cfg G loop s t) anyFailure := by
    intro u hu hframe'
    rw [hframe] at hframe'
    refine ends_frame (.update_bind (.pure ⟨?_, ?_, ?_, ?_⟩))
    · rw [← hframe']
      exact hto.andThen hu
    · rw [← hframe']
      rfl
    · rw [← hframe']
    · exact hu.grows.labelPosition? hl
  split
  · have htest := (lays_lower cfg condition).converted .boolean (g := fun _ => 1) fun _ _ => rfl
    refine (h₃.orderly.lays cfg G [exit] htest).bind ?_
    rintro _ s₄ ⟨h₄, hframe₄⟩
    refine (h₄.orderly.emit cfg G [exit] (.branchIfFalse exit) fun _ hl => Or.inl hl).bind ?_
    rintro _ s₅ ⟨h₅, hframe₅, -, -⟩
    exact hrest s₅ (h₄.andThen h₅) (hframe₅.trans hframe₄)
  · exact hrest s₃ (.refl h₃.orderly) rfl

/-- A label that was marked in front of a piece is not outside of it. -/
theorem Covers.settleStart (h : Covers cfg G (l :: ls) tries fs s t)
    (hl : t.active.labelPosition? l = some s.active.position) : Covers cfg G ls tries fs s t := by
  refine Wrote.settle h fun x hx => ?_
  rcases hx with hx | hx
  · rcases List.mem_cons.mp hx with rfl | hx
    · exact Or.inr (Or.inl hl)
    · exact Or.inl (Or.inl hx)
  · exact Or.inl (Or.inr hx)

theorem AtLoop.orderly {loop : Loop} (h : AtLoop cfg G loop s t) (hs : Orderly s) : Orderly t where
  slots := h.wrote.orderly.slots
  levels := by
    rw [h.frame]
    exact List.forall_mem_cons.mpr ⟨Nat.le_of_eq h.level, hs.levels⟩
  returns := by
    rw [h.frame]
    exact hs.returns

/-- Behind the body of a loop the ways out of the loop are known labels. -/
theorem AtLoop.leave {loop : Loop} (h : AtLoop cfg G loop s t) (hu : Covers cfg G [] tries fs t u) :
    Covers cfg G [loop.continueLabel, loop.breakLabel] tries fs s
      { u with frame := u.frame.leaveLoop } := by
  have hloops : u.frame.loops = loop :: s.frame.loops := by
    rw [hu.loops, h.frame]
  have hnesting : u.frame.exceptionNesting = s.frame.exceptionNesting := by
    rw [hu.nesting, h.frame]
  have htail : u.frame.leaveLoop.loops = s.frame.loops := by
    rw [Frame.leaveLoop, hloops, List.tail_cons]
  have horderly : Orderly { u with frame := u.frame.leaveLoop } :=
    ⟨hu.orderly.slots, fun l hl => hu.orderly.levels l (List.mem_of_mem_tail hl), hu.orderly.returns⟩
  have hbody : Covers cfg G [loop.continueLabel, loop.breakLabel] tries fs { t with frame := s.frame }
      { u with frame := u.frame.leaveLoop } := by
    have hwide : Wrote cfg (fun l => l ∈ [loop.continueLabel, loop.breakLabel] ∨
        u.frame.leaveLoop.Leads G l) tries fs t u := by
      refine Wrote.mono hu fun l hl => ?_
      have hl : u.frame.Leads G l := hl.resolve_left List.not_mem_nil
      exact hl.leaveLoop (g := u.frame.leaveLoop) (htail ▸ hloops) rfl rfl
    refine Wrote.reframe (f := t.frame) hwide horderly htail hnesting fun l hl => ?_
    refine hu.epilogue l ?_
    rw [h.frame]
    exact hl
  exact (h.wrote.subset (List.subset_cons_self _ _)).trans hbody

theorem writes_loopCode (condition : Expr) (hx : Writes cfg G tries fs x) :
    Writes cfg G tries fs (loopCode cfg condition x) := by
  intro s hs
  refine (ends_loopHead (G := G) condition hs).bind fun loop t ht => ?_
  refine Ends.bind (Q := fun _ u => Covers cfg G [loop.continueLabel, loop.breakLabel] tries fs s u ∧
      t.active.Grows u.active) (.ensuring ((hx t (ht.orderly hs)).mono fun _ u hu => ?_)) ?_
  · exact ⟨ht.leave hu, hu.grows⟩
  rintro _ u ⟨hu, hgrows⟩
  refine (hu.orderly.emit cfg G [loop.continueLabel, loop.breakLabel] (.branch loop.continueLabel)
    fun l hl => Or.inl (List.mem_singleton.mp hl ▸ List.mem_cons_self)).bind ?_
  rintro _ v ⟨hv, -⟩
  have htest := (hgrows.trans hv.grows).labelPosition? ht.test
  exact ((hu.andThen hv).settleStart htest).mark.mono fun _ _ hw => hw.1

end Lowering
end PhpLowering
