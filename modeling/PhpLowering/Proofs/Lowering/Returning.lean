import PhpLowering.Proofs.Code.Refusal
import PhpLowering.Proofs.Code.Sealing
import PhpLowering.Proofs.Lowering.Marks
import PhpLowering.Proofs.Lowering.OwnLabels
import PhpLowering.Proofs.Lowering.Tries

/-!
# The returns of a routine in the course of its emission

Every `return` that has been emitted is a delivery, and what is emitted behind it leaves the deliveries alone.
`s.Sealed b ds` says so of the routine at hand in the state `s`, along with what has to be known for the next
step to do no harm: of the labels that are there for any branch, none stands for a position in a delivery and none
is that of the code that returns (`State.Safe`), and the slot of the value to return is taken.

`Seals cfg b ls exprs fs x` says that the step `x` leads from such a state to another one if the labels in `ls` are
safe, with one more delivery for each of `exprs`, which are given to a `return`, and that it completes the functions
`fs`, each of which returns as its head says (`Routine.ReturnsAs`).  **`seals_lowerStmts`**: this is true of all
statements, if what is given to their returns is what the routine returns.
-/

namespace PhpLowering

/-- What a `return` is given. -/
def Stmt.return? : Stmt → Option (Option Expr)
  | .jump _ .return expr => some expr
  | _ => none

/-- What the returns among some statements are given. -/
def Stmt.returns (ys : List Stmt) : List (Option Expr) :=
  ys.filterMap Stmt.return?

namespace Routine

variable {cfg : Lowering.Setting} {r r' : Routine} {expr : Option Expr} {d : Delivery}

/-- A delivery is the code that is emitted for what a `return` is given. -/
def HasReturn (cfg : Lowering.Setting) (r : Routine) (expr : Option Expr) (d : Delivery) : Prop :=
  ∃ s t : Lowering.State Chunk, Lowering.returnValue cfg expr s = (.ok (), t) ∧ s.active.position = d.start ∧
    t.active.position = d.stop ∧ t.active.Grows r

theorem HasReturn.grows (h : r.HasReturn cfg expr d) (hg : r.Grows r') : r'.HasReturn cfg expr d := by
  obtain ⟨s, t, hrun, hstart, hstop, hgrows⟩ := h
  exact ⟨s, t, hrun, hstart, hstop, hgrows.trans hg⟩

/-- A routine returns references or values, and has a delivery for everything that is given to a `return`. -/
structure ReturnsAs (cfg : Lowering.Setting) (byRef : Bool) (exprs : List (Option Expr)) (r : Routine) : Prop where
  returnsRef : r.returnsRef = byRef
  conveys : ∃ returns, r.Conveys byRef returns ∧ List.Forall₂ (r.HasReturn cfg) exprs returns

end Routine

/-- The blocks of an open region start where they did. -/
theorem OpenRegion.start_of_close {o : OpenRegion} {q : Nat} {x : Handler} (hx : x ∈ (o.close q).handlers) :
    x.start = o.blockStart ∨ x ∈ o.handlers := by
  unfold close at hx
  split at hx
  · exact Or.inr hx
  · exact (List.mem_cons.mp hx).imp_left (congrArg Handler.start)

namespace Lowering

-- The instance for a function is a term with a node for every line of the function.
set_option synthInstance.maxSize 10000

open Pass (Ends)
open Routine (SameMarks)

variable {α β : Type} {cfg : Setting} {b : Bool} {ds ds' ds'' : List Delivery} {s t u : State Chunk} {l e : Label}
  {ls ls' : List Label} {k : Temp} {exprs exprs' : List (Option Expr)} {fs fs' : List (FunctionHead × List Stmt)}
  {i : Instruction} {pc p n : Nat} {g : α → Nat}

/-- Any instruction may go to a label. -/
def State.Safe (ds : List Delivery) (s : State Chunk) (l : Label) : Prop :=
  s.active.Safe s.frame.epilogue ds l

/-- A slot is taken, and not for the value to return. -/
def State.Takes (s : State Chunk) (k : Temp) : Prop :=
  ¬ s.active.Vacant k ∧ s.frame.returnTemp ≠ some k

/-- The deliveries are complete, and the rest of the code leaves them alone. -/
structure State.Sealed (b : Bool) (ds : List Delivery) (s : State Chunk) : Prop where
  routine : s.active.Sealed b s.frame.returnTemp s.frame.epilogue ds
  slots : s.active.SlotsInOrder
  inside : s.active.LabelsInside
  byRef : s.active.returnsRef = b
  frame : s.frame.returnsRef = b
  slot : ∀ k, s.frame.returnTemp = some k → ¬ s.active.Vacant k
  exit : ∀ l, s.frame.epilogue = some l → s.active.mark? l = some none
  loops : ∀ loop ∈ s.frame.loops, ∀ kind, s.Safe ds (loop.target kind)
  named : ∀ p ∈ s.frame.labels, s.Safe ds p.2
  opened : ∀ o ∈ s.active.openRegions, s.Safe ds o.endLabel

/-- A piece of an emission leaves the deliveries alone, adds others to them, and completes functions. -/
structure Passes (cfg : Setting) (b : Bool) (exprs : List (Option Expr)) (fs : List (FunctionHead × List Stmt))
    (ds : List Delivery) (s : State Chunk) (ds' : List Delivery) (t : State Chunk) : Prop where
  sealed : t.Sealed b ds'
  grows : s.active.Grows t.active
  safe : ∀ l, s.Safe ds l → t.Safe ds' l
  takes : ∀ k, s.Takes k → t.Takes k
  returns : ∃ more, ds' = ds ++ more ∧ List.Forall₂ (t.active.HasReturn cfg) exprs more
  outside : t.sink.outside = s.sink.outside
  functions : ∃ Fs, t.sink.functions.toList = s.sink.functions.toList ++ Fs ∧
    List.Forall₂ (fun p => Routine.ReturnsAs cfg p.1.byRef (Stmt.returns (Stmt.ownOf p.2))) fs Fs

namespace Passes

theorem trans (h : Passes cfg b exprs fs ds s ds' t) (h' : Passes cfg b exprs' fs' ds' t ds'' u) :
    Passes cfg b (exprs ++ exprs') (fs ++ fs') ds s ds'' u where
  sealed := h'.sealed
  grows := h.grows.trans h'.grows
  safe l hl := h'.safe l (h.safe l hl)
  takes k hk := h'.takes k (h.takes k hk)
  returns := by
    obtain ⟨more, rfl, hmore⟩ := h.returns
    obtain ⟨more', rfl, hmore'⟩ := h'.returns
    exact ⟨more ++ more', List.append_assoc .., List.rel_append (hmore.imp fun _ _ hd => hd.grows h'.grows) hmore'⟩
  outside := h'.outside.trans h.outside
  functions := by
    obtain ⟨Fs, hFs, hall⟩ := h.functions
    obtain ⟨Fs', hFs', hall'⟩ := h'.functions
    exact ⟨Fs ++ Fs', by rw [hFs', hFs, List.append_assoc], List.rel_append hall hall'⟩

/-- More work without a `return` and without a function. -/
theorem andThen (h : Passes cfg b exprs fs ds s ds' t) (h' : Passes cfg b [] [] ds' t ds'' u) :
    Passes cfg b exprs fs ds s ds'' u := by
  have hall := h.trans h'
  rwa [List.append_nil, List.append_nil] at hall

theorem refl (h : s.Sealed b ds) : Passes cfg b [] [] ds s ds s where
  sealed := h
  grows := .refl _
  safe _ hl := hl
  takes _ hk := hk
  returns := ⟨[], (List.append_nil _).symm, .nil⟩
  outside := rfl
  functions := ⟨[], (List.append_nil _).symm, .nil⟩

/-- Another frame, of which no more is known. -/
theorem withFrame {f : Frame} (h : Passes cfg b exprs fs ds s ds' t) (href : f.returnsRef = t.frame.returnsRef)
    (hloops : ∀ loop ∈ f.loops, ∀ kind, t.Safe ds' (loop.target kind)) (hlabels : f.labels = t.frame.labels)
    (hepilogue : f.epilogue = t.frame.epilogue) (hslot : f.returnTemp = t.frame.returnTemp) :
    Passes cfg b exprs fs ds s ds' { t with frame := f } := by
  have hsafe (l : Label) (hl : t.Safe ds' l) : State.Safe ds' { t with frame := f } l := by
    show t.active.Safe f.epilogue ds' l
    rw [hepilogue]
    exact hl
  refine { h with sealed := ?_, safe := fun l hl => hsafe l (h.safe l hl), takes := fun k hk => ?_ }
  · refine
      { slots := h.sealed.slots, inside := h.sealed.inside, byRef := h.sealed.byRef
        frame := href.trans h.sealed.frame, slot := fun k hk => h.sealed.slot k (hslot ▸ hk)
        exit := fun l hl => h.sealed.exit l (hepilogue ▸ hl), routine := ?_
        loops := fun loop hloop kind => hsafe _ (hloops loop hloop kind)
        named := fun p hp => hsafe _ (h.sealed.named p (hlabels ▸ hp))
        opened := fun o ho => hsafe _ (h.sealed.opened o ho) }
    show t.active.Sealed b f.returnTemp f.epilogue ds'
    rw [hslot, hepilogue]
    exact h.sealed.routine
  · obtain ⟨hvacant, hne⟩ := h.takes k hk
    exact ⟨hvacant, fun heq => hne (hslot ▸ heq)⟩

end Passes

/-! ## Work on the routine at hand -/

/-- Work on the routine at hand, with code that leaves the deliveries alone. -/
structure Aside (ls : List Label) (ds : List Delivery) (s t : State Chunk) : Prop where
  grows : s.active.Grows t.active
  frame : t.frame = s.frame
  others : t.sink = s.sink.withActive t.active
  code : ∀ {pc i}, s.active.position ≤ pc → t.active.code[pc]? = some i →
    t.active.Spares s.frame.returnTemp s.frame.epilogue ds pc i
  starts : ∀ {p}, t.active.Starts p → s.active.Starts p ∨ s.active.position ≤ p ∧ p ≤ t.active.position
  opened : ∀ o ∈ t.active.openRegions,
    (∃ o' ∈ s.active.openRegions, o'.endLabel = o.endLabel) ∨ t.Safe ds o.endLabel
  marks : SameMarks ls s.active t.active
  slots : t.active.SlotsInOrder

namespace Aside

variable (h : s.Sealed b ds) (ha : Aside ls ds s t) (hls : ∀ l ∈ ls, s.Safe ds l)

include h ha

theorem safe (hl : s.Safe ds l) : t.Safe ds l := by
  unfold State.Safe at hl ⊢
  rw [ha.frame]
  exact hl.grows h.routine.delivered ha.grows

include hls

/-- The deliveries stay sealed, also if a slot is given back that is not the one of the value to return. -/
theorem sealed (hvacant : ∀ k, t.active.Vacant k → s.active.Vacant k ∨ s.Takes k) : t.Sealed b ds where
  routine := by
    rw [ha.frame]
    exact h.routine.grow ha.grows ha.code ha.starts
  slots := ha.slots
  inside := ha.marks.inside h.inside
  byRef := ha.marks.returnsRef.trans h.byRef
  frame := (congrArg Frame.returnsRef ha.frame).trans h.frame
  slot k hk hv := by
    rw [ha.frame] at hk
    rcases hvacant k hv with hv | htakes
    · exact h.slot k hk hv
    · exact htakes.2 hk
  exit l hl := by
    rw [ha.frame] at hl
    have hmark := h.exit l hl
    have hnot : l ∉ ls := fun hmem => (hls l hmem).notExit hl
    rw [ha.marks.same l hnot (by rw [hmark]; rfl), hmark]
  loops loop hloop kind := ha.safe h (h.loops loop (ha.frame ▸ hloop) kind)
  named p hp := ha.safe h (h.named p (ha.frame ▸ hp))
  opened o ho := by
    rcases ha.opened o ho with ⟨o', ho', heq⟩ | hsafe
    · exact ha.safe h (heq ▸ h.opened o' ho')
    · exact hsafe

theorem passes (hvacant : ∀ k, t.active.Vacant k → s.active.Vacant k) : Passes cfg b [] [] ds s ds t where
  sealed := ha.sealed h hls fun k hk => Or.inl (hvacant k hk)
  grows := ha.grows
  safe _ hl := ha.safe h hl
  takes k hk := ⟨fun hv => hk.1 (hvacant k hv), by rw [ha.frame]; exact hk.2⟩
  returns := ⟨[], (List.append_nil _).symm, .nil⟩
  outside := by rw [ha.others, Chunk.outside_withActive]
  functions := ⟨[], by rw [ha.others, Chunk.functions_withActive, List.append_nil], .nil⟩

end Aside

/-- Without code there is no new instruction. -/
theorem not_emitted (hcode : t.active.code = s.active.code) (hle : s.active.position ≤ pc) :
    t.active.code[pc]? ≠ some i := by
  rw [hcode]
  exact fun hi => absurd (Array.getElem?_eq_some_iff.mp hi).1 (Nat.not_lt_of_le hle)

/-- Work that leaves the regions alone. -/
theorem Aside.of_same (hsame : SameBesides s.sink t.sink) (hframe : t.frame = s.frame)
    (hgrows : s.active.Grows t.active) (hmarks : SameMarks ls s.active t.active) (hslots : t.active.SlotsInOrder)
    (hcode : ∀ {pc i}, s.active.position ≤ pc → t.active.code[pc]? = some i →
      t.active.Spares s.frame.returnTemp s.frame.epilogue ds pc i) : Aside ls ds s t where
  grows := hgrows
  frame := hframe
  others := hsame.others
  code := hcode
  starts hp := by
    have hregions : t.active.regions = s.active.regions := hsame.regions
    have hopened : t.active.openRegions = s.active.openRegions := hsame.opened
    unfold Routine.Starts Routine.HandlesAt at hp ⊢
    rw [hregions, hopened] at hp
    exact Or.inl hp
  opened o ho := Or.inl ⟨o, hsame.opened ▸ ho, rfl⟩
  marks := hmarks
  slots := hslots

theorem Tidy.aside (ht : Tidy s t) (hmarks : SameMarks ls s.active t.active)
    (hcode : ∀ {pc i}, s.active.position ≤ pc → t.active.code[pc]? = some i →
      t.active.Spares s.frame.returnTemp s.frame.epilogue ds pc i) : Aside ls ds s t :=
  .of_same ht.same ht.sameFrame ht.grows hmarks ht.order hcode

/-- Work without code. -/
theorem Tidy.aside_of_code (ht : Tidy s t) (hmarks : SameMarks ls s.active t.active)
    (hcode : t.active.code = s.active.code) : Aside ls ds s t :=
  ht.aside hmarks fun hle hi => absurd hi (not_emitted hcode hle)

/-- The code of an expression. -/
theorem Laid.aside {m : Nat} (h : s.Sealed b ds) (ht : Laid (StoresTo s.active.Vacant) n m s t)
    (hmarks : SameMarks ls s.active t.active) : Aside ls ds s t := by
  refine ht.toTidy.aside hmarks fun {pc i} hle hi => ?_
  have hin := ht.code.inside hle (Array.getElem?_eq_some_iff.mp hi).1 hi
  refine { notRet := hin.notRet, labels := fun l hl => ?_, stores := fun {k} hstore hslot => ?_ }
  · -- It branches to what is in the code itself.
    obtain ⟨q, hq, hbehind, -⟩ := hin.labels l hl
    have hmark : t.active.mark? l = some (some q) := by
      rwa [Routine.labelPosition?_eq, Option.join_eq_some_iff] at hq
    refine { defined := by rw [hmark]; rfl, exit := fun _ hnone => ?_, position := fun {p} hp d hd => ?_ }
    · exact nomatch hmark.symm.trans hnone
    · obtain rfl := Option.some.inj (hp.symm.trans hq)
      exact Or.inl ((h.routine.delivered d hd).misses hbehind)
  · subst hstore
    exact absurd ((hin.plain rfl).slot k rfl) (h.slot k hslot)

/-- One instruction. -/
theorem aside_push (ls : List Label) (h : s.Sealed b ds) (hret : i ≠ .ret) (hlabels : ∀ l ∈ i.labels, s.Safe ds l)
    (hstore : ∀ k, i = .storeTemp k → s.frame.returnTemp ≠ some k) :
    Aside ls ds s (s.withActive (s.active.push i)) := by
  have hactive := s.active_withActive (s.active.push i)
  have htidy : Tidy s (s.withActive (s.active.push i)) :=
    .withActive h.slots (s.active.grows_push i) rfl rfl rfl rfl
  refine htidy.aside (by rw [hactive]; exact s.active.sameMarks_push ls i) fun {pc j} hle hj => ?_
  rw [hactive] at hj ⊢
  rcases Routine.code_push_eq hj with hj | ⟨rfl, rfl⟩
  · exact absurd (Array.getElem?_eq_some_iff.mp hj).1 (Nat.not_lt_of_le hle)
  · exact
      { notRet := hret
        labels := fun l hl => ((hlabels l hl).grows h.routine.delivered (s.active.grows_push _)).admits _
        stores := fun hk hslot => absurd hslot (hstore _ hk) }

/-! ## Steps -/

/-- A step leads from one state with sealed deliveries to another one. -/
class Seals (cfg : Setting) (b : Bool) (ls : List Label) (exprs : List (Option Expr))
    (fs : List (FunctionHead × List Stmt)) (x : Emit Chunk α) : Prop where
  ends : ∀ {ds : List Delivery} {s : State Chunk}, s.Sealed b ds → (∀ l ∈ ls, s.Safe ds l) →
    Ends x s (fun _ t => ∃ ds', Passes cfg b exprs fs ds s ds' t) anyFailure

section Combinators

variable {x y : Emit Chunk α} {f : α → Emit Chunk β}

theorem seals_seq (hx : Seals cfg b ls exprs fs x) (hf : ∀ a, Seals cfg b ls exprs' fs' (f a)) :
    Seals cfg b ls (exprs ++ exprs') (fs ++ fs') (x >>= f) where
  ends h hls := (hx.ends h hls).bind fun a _ ⟨_, ht⟩ =>
    ((hf a).ends ht.sealed fun l hl => ht.safe l (hls l hl)).mono fun _ _ ⟨ds'', hu⟩ => ⟨ds'', ht.trans hu⟩

instance seals_bind [hx : Seals cfg b ls [] [] x] [k : ∀ a, Seals cfg b ls exprs fs (f a)] :
    Seals cfg b ls exprs fs (x >>= f) :=
  seals_seq hx k

theorem seals_then [hx : Seals cfg b ls exprs fs x] [hf : ∀ a, Seals cfg b ls [] [] (f a)] :
    Seals cfg b ls exprs fs (x >>= f) := by
  have hall := seals_seq hx hf
  rwa [List.append_nil, List.append_nil] at hall

instance seals_ite {c : Prop} [Decidable c] [hx : Seals cfg b ls exprs fs x] [hy : Seals cfg b ls exprs fs y] :
    Seals cfg b ls exprs fs (if c then x else y) := by
  split
  · exact hx
  · exact hy

/-- A label that is safe may be mentioned or not. -/
instance (priority := low) seals_cons [hx : Seals cfg b ls exprs fs x] : Seals cfg b (l :: ls) exprs fs x where
  ends h hls := hx.ends h (List.forall_mem_cons.mp hls).2

theorem seals_mono (hx : Seals cfg b ls exprs fs x) (hls : ls ⊆ ls') : Seals cfg b ls' exprs fs x where
  ends h hls' := hx.ends h fun l hl => hls' l (hls hl)

/-- The code of an expression marks no label from before. -/
theorem seals_of_lays (hx : Lays n g x) [hmarks : MarksOnly [] x] : Seals cfg b ls [] [] x where
  ends {ds s} h _ := ((hx s h.slots).and (hmarks.ends s)).mono fun _ _ ht =>
    ⟨ds, (Laid.aside h ht.1 ht.2).passes h nofun ht.1.vacant⟩

instance seals_pure (a : α) : Seals cfg b ls [] [] (pure a : Emit Chunk α) where
  ends {ds _} h _ := .pure ⟨ds, .refl h⟩

instance seals_peek (f : State Chunk → α) : Seals cfg b ls [] [] (Pass.peek f) where
  ends {ds _} h _ := .peek ⟨ds, .refl h⟩

instance seals_frame : Seals cfg b ls [] [] (frame : Emit Chunk Frame) :=
  seals_peek _

instance seals_fault (e : Fault) : Seals cfg b ls exprs fs (fault e : Emit Chunk α) where
  ends _ _ := .fail trivial

instance seals_onTable (q : Pass Fault RuleTable α) : Seals cfg b ls [] [] (onTable q : Emit Chunk α) :=
  seals_of_lays (n := 0) (lays_onTable q)

/-- The frame is changed in what returns have nothing to do with. -/
structure Frame.KeepsReturns (g : Frame → Frame) : Prop where
  returnsRef : ∀ f, (g f).returnsRef = f.returnsRef
  loops : ∀ f, (g f).loops ⊆ f.loops
  labels : ∀ f, (g f).labels = f.labels
  epilogue : ∀ f, (g f).epilogue = f.epilogue
  slot : ∀ f, (g f).returnTemp = f.returnTemp

theorem Passes.changeFrame {g : Frame → Frame} (h : Passes cfg b exprs fs ds s ds' t) (hg : Frame.KeepsReturns g) :
    Passes cfg b exprs fs ds s ds' { t with frame := g t.frame } :=
  h.withFrame (hg.returnsRef _) (fun loop hloop => h.sealed.loops loop (hg.loops _ hloop)) (hg.labels _)
    (hg.epilogue _) (hg.slot _)

theorem seals_updateFrame {g : Frame → Frame} (hg : Frame.KeepsReturns g) :
    Seals cfg b ls [] [] (updateFrame g : Emit Chunk Unit) where
  ends {ds _} h _ := .update ⟨ds, (Passes.refl h).changeFrame hg⟩

theorem seals_thenFrame {g : Frame → Frame} [hx : Seals cfg b ls exprs fs x] (hg : Frame.KeepsReturns g) :
    Seals cfg b ls exprs fs (thenFrame x g) where
  ends h hls := .ensuring ((hx.ends h hls).mono fun _ _ ⟨ds', ht⟩ => ⟨ds', ht.changeFrame hg⟩)

end Combinators

/-! ### Calls to the sink -/

theorem State.Sealed.push (h : s.Sealed b ds) (hret : i ≠ .ret) (hlabels : ∀ l ∈ i.labels, s.Safe ds l)
    (hstore : ∀ k, i = .storeTemp k → s.frame.returnTemp ≠ some k) :
    Passes cfg b [] [] ds s ds (s.withActive (s.active.push i)) := by
  refine (aside_push [] h hret hlabels hstore).passes h nofun fun k hk => ?_
  rwa [State.active_withActive] at hk

variable (cfg) in
theorem ends_emit_sealed (h : s.Sealed b ds) (hret : i ≠ .ret) (hlabels : ∀ l ∈ i.labels, s.Safe ds l)
    (hstore : ∀ k, i = .storeTemp k → s.frame.returnTemp ≠ some k) :
    Ends (emit i) s (fun _ t => Passes cfg b [] [] ds s ds t ∧ t.frame = s.frame) anyFailure := by
  refine (ends_emit i s).mono ?_
  rintro _ _ rfl
  exact ⟨h.push hret hlabels hstore, rfl⟩

theorem seals_emit (hlabels : i.labels ⊆ ls) (hret : i ≠ .ret) (hstore : ∀ k, i ≠ .storeTemp k) :
    Seals cfg b ls [] [] (emit i : Emit Chunk Unit) where
  ends {ds s} h hls := by
    have hsafe : ∀ l ∈ i.labels, s.Safe ds l := fun l hl => hls l (hlabels hl)
    exact (ends_emit_sealed cfg h hret hsafe fun k hk => absurd hk (hstore k)).mono fun _ _ ht => ⟨ds, ht.1⟩

instance (l : Label) : Seals cfg b (l :: ls) [] [] (emit (.branch l) : Emit Chunk Unit) :=
  seals_emit (by simp [Instruction.labels]) nofun nofun

instance (l : Label) : Seals cfg b (l :: ls) [] [] (emit (.branchIfFalse l) : Emit Chunk Unit) :=
  seals_emit (by simp [Instruction.labels]) nofun nofun

instance (l : Label) : Seals cfg b (l :: ls) [] [] (emit (.leave l) : Emit Chunk Unit) :=
  seals_emit (by simp [Instruction.labels]) nofun nofun

instance (k : Temp) : Seals cfg b ls [] [] (emit (.loadTemp k) : Emit Chunk Unit) :=
  seals_emit (List.nil_subset _) nofun nofun

instance (name : String) : Seals cfg b ls [] [] (emit (.storeVar name) : Emit Chunk Unit) :=
  seals_emit (List.nil_subset _) nofun nofun

instance (type : String) : Seals cfg b ls [] [] (emit (.instanceOf type) : Emit Chunk Unit) :=
  seals_emit (List.nil_subset _) nofun nofun

instance (name : String) : Seals cfg b ls [] [] (emit (.defineConstant name) : Emit Chunk Unit) :=
  seals_emit (List.nil_subset _) nofun nofun

instance : Seals cfg b ls [] [] (emit .throw : Emit Chunk Unit) := seals_emit (List.nil_subset _) nofun nofun
instance : Seals cfg b ls [] [] (emit .rethrow : Emit Chunk Unit) := seals_emit (List.nil_subset _) nofun nofun

instance seals_callVoid (op : RuntimeOp) : Seals cfg b ls [] [] (callVoid op : Emit Chunk Unit) :=
  seals_of_lays (lays_callVoid op)

instance seals_discard (code : TypeCode) : Seals cfg b ls [] [] (discard code : Emit Chunk TypeCode) :=
  seals_of_lays (g := TypeCode.height) (lays_discard code rfl)

instance seals_mark (l : Label) : Seals cfg b (l :: ls) [] [] (mark l : Emit Chunk Unit) where
  ends {ds s} h hls := by
    have hlabels : MarksOnly [l] (mark l : Emit Chunk Unit) := marksOnly_mark l
    refine ((ends_mark l h.slots).and (hlabels.ends s)).mono ?_
    rintro _ t ⟨⟨htidy, hposition, -⟩, hmarks⟩
    refine ⟨ds, (htidy.aside hmarks fun {pc j} hle hj => ?_).passes h ?_ htidy.vacant⟩
    · have hbehind : t.active.position ≤ pc := hposition.symm ▸ hle
      exact absurd (Array.getElem?_eq_some_iff.mp hj).1 (Nat.not_lt_of_le hbehind)
    · exact List.forall_mem_singleton.mpr (hls l List.mem_cons_self)

/-- A label without a position that is not the one of the code that returns. -/
theorem State.safe_of_unmarked (hmark : t.active.mark? l = some none)
    (hnew : t.frame.epilogue ≠ some l) : t.Safe ds l where
  defined := by rw [hmark]; rfl
  notExit := hnew
  position {p} hp := by
    rw [Routine.labelPosition?_eq, hmark] at hp
    exact nomatch hp

/-- The label of the code that returns is there. -/
theorem State.Sealed.epilogue_ne (h : s.Sealed b ds) : s.frame.epilogue ≠ some s.active.defineLabel.1 := by
  intro heq
  have hmark := h.exit _ heq
  rw [show s.active.mark? s.active.defineLabel.1 = none from Routine.mark?_new] at hmark
  exact nomatch hmark

variable (cfg) in
theorem ends_defineLabel_sealed (h : s.Sealed b ds) :
    Ends defineLabel s (fun l t => Passes cfg b [] [] ds s ds t ∧ SameMarks [] s.active t.active ∧
      SameBesides s.sink t.sink ∧ t.frame = s.frame ∧ t.active.code = s.active.code ∧
      t.active.mark? l = some none ∧ s.frame.epilogue ≠ some l ∧ ∀ l', (s.active.mark? l').isSome → l ≠ l')
      anyFailure := by
  refine (ends_defineLabel_eq s).mono ?_
  rintro _ _ ⟨rfl, rfl⟩
  have hactive := s.active_withActive s.active.defineLabel.2
  have hmarks : SameMarks [] s.active (s.withActive s.active.defineLabel.2).active := by
    rw [hactive]
    exact s.active.sameMarks_defineLabel []
  have htidy : Tidy s (s.withActive s.active.defineLabel.2) :=
    .withActive h.slots s.active.grows_defineLabel rfl rfl rfl rfl
  have hcode : (s.withActive s.active.defineLabel.2).active.code = s.active.code := by rw [hactive]; rfl
  refine ⟨(htidy.aside_of_code hmarks hcode).passes h nofun htidy.vacant, hmarks, htidy.same, rfl, hcode, ?_,
    h.epilogue_ne, fun l' hl' => (ne_defineLabel hl').symm⟩
  rw [hactive]
  rw [Routine.mark?_defineLabel, if_pos rfl]

/-- A new label is safe. -/
instance (priority := high) seals_defineLabel {f : Label → Emit Chunk β}
    [k : ∀ l, Seals cfg b (l :: ls) exprs fs (f l)] :
    Seals cfg b ls exprs fs (defineLabel >>= f) where
  ends {ds s} h hls := by
    refine (ends_defineLabel_sealed cfg h).bind fun l t ⟨ht, _, _, hframe, _, hmark, hnew, _⟩ => ?_
    have hsafe : t.Safe ds l := State.safe_of_unmarked hmark (by rw [hframe]; exact hnew)
    exact ((k l).ends ht.sealed (List.forall_mem_cons.mpr ⟨hsafe, fun l' hl' => ht.safe l' (hls l' hl')⟩)).mono
      fun _ _ ⟨ds'', hu⟩ => ⟨ds'', ht.trans hu⟩

variable (cfg) in
/-- A slot that is declared is taken. -/
theorem ends_declareTemp_sealed (h : s.Sealed b ds) :
    Ends declareTemp s (fun k t => Passes cfg b [] [] ds s ds t ∧ SameMarks [] s.active t.active ∧
      SameBesides s.sink t.sink ∧ t.frame = s.frame ∧ t.active.code = s.active.code ∧
      s.active.Vacant k ∧ t.Takes k) anyFailure := by
  have hlabels : MarksOnly [] (declareTemp : Emit Chunk Temp) := marksOnly_declareTemp
  refine ((ends_declareTemp h.slots).and (hlabels.ends s)).mono ?_
  rintro k t ⟨⟨htidy, hcode, -, hvacant, htaken⟩, hmarks⟩
  refine ⟨(htidy.aside_of_code hmarks hcode).passes h nofun htidy.vacant, hmarks, htidy.same, htidy.sameFrame, hcode,
    hvacant, htaken, fun hslot => ?_⟩
  rw [htidy.sameFrame] at hslot
  exact h.slot k hslot hvacant

/-- A slot that was vacant is given back. -/
theorem Passes.returnTemp (h : Passes cfg b exprs fs ds s ds' t) (hvacant : s.active.Vacant k) (htakes : t.Takes k) :
    Passes cfg b exprs fs ds s ds' { t with sink := Sink.returnTemp k t.sink } := by
  have hactive : ({ t with sink := Sink.returnTemp k t.sink } : State Chunk).active = t.active.returnTemp k :=
    active_returnTemp k t.sink
  have hgrows := grows_active_returnTemp k t.sink
  have haside : Aside [] ds' t { t with sink := Sink.returnTemp k t.sink } := by
    refine .of_same (sameBesides_returnTemp k t.sink) rfl hgrows (sameMarks_active_returnTemp k t.sink) ?_
      fun hle hi => absurd hi (not_emitted (code_active_returnTemp k t.sink) hle)
    rw [hactive]
    exact h.sealed.slots.returnTemp (Routine.lt_of_not_vacant htakes.1)
  have hv (j : Temp) (hj : ({ t with sink := Sink.returnTemp k t.sink } : State Chunk).active.Vacant j) :
      t.active.Vacant j ∨ j = k := by
    rwa [hactive, Routine.vacant_returnTemp] at hj
  exact
    { sealed := haside.sealed h.sealed nofun fun j hj => (hv j hj).imp_right fun heq => by rwa [heq]
      grows := h.grows.trans hgrows
      safe := fun l hl => haside.safe h.sealed (h.safe l hl)
      takes := fun j hj => ⟨fun hvj => (hv j hvj).elim (h.takes j hj).1 fun heq => hj.1 (by rwa [heq]),
        (h.takes j hj).2⟩
      returns := by
        obtain ⟨more, hmore, hall⟩ := h.returns
        exact ⟨more, hmore, hall.imp fun _ _ hd => hd.grows hgrows⟩
      outside := by rw [haside.others, Chunk.outside_withActive, h.outside]
      functions := by rw [haside.others, Chunk.functions_withActive]; exact h.functions }

/-! ### Regions -/

/-- A region is begun; the label behind it is new. -/
instance (priority := high) seals_beginTry {f : Label → Emit Chunk β}
    [k : ∀ l, Seals cfg b (l :: ls) exprs fs (f l)] :
    Seals cfg b ls exprs fs (toSink Sink.beginTry >>= f) where
  ends {ds s} h hls := by
    have hrun : Ends (toSink Sink.beginTry) s (fun l t => l = s.active.beginTry.1 ∧
        t = s.withActive s.active.beginTry.2) anyFailure :=
      ends_toSink (.of_eq (a := s.active.beginTry.1) (t := s.active.beginTry.2) rfl ⟨rfl, rfl⟩)
    refine hrun.bind ?_
    rintro _ _ ⟨rfl, rfl⟩
    have hactive := s.active_withActive s.active.beginTry.2
    have hdefine := s.active.sameMarks_defineLabel []
    have hsafe : (s.withActive s.active.beginTry.2).Safe ds s.active.beginTry.1 := by
      refine State.safe_of_unmarked ?_ h.epilogue_ne
      rw [hactive]
      exact (Routine.mark?_defineLabel _).trans (if_pos rfl)
    have haside : Aside [] ds s (s.withActive s.active.beginTry.2) :=
      { grows := by rw [hactive]; exact s.active.grows_beginTry
        frame := rfl
        others := by rw [hactive]; rfl
        code := fun hle hi => absurd hi (not_emitted (by rw [hactive]; rfl) hle)
        starts := fun {p} hp => by
          rw [hactive] at hp ⊢
          rcases hp with hp | ⟨o, ho, hp⟩
          · exact Or.inl (Or.inl hp)
          · rcases List.mem_cons.mp ho with rfl | ho
            · rcases hp with rfl | ⟨_, hx, -⟩
              · exact Or.inr ⟨Nat.le_refl _, Nat.le_refl _⟩
              · exact nomatch hx
            · exact Or.inl (Or.inr ⟨o, ho, hp⟩)
        opened := fun o ho => by
          rw [hactive] at ho
          rcases List.mem_cons.mp ho with rfl | ho
          · exact Or.inr hsafe
          · exact Or.inl ⟨o, ho, rfl⟩
        marks := by rw [hactive]; exact ⟨hdefine.same, hdefine.inside, hdefine.returnsRef⟩
        slots := by rw [hactive]; exact ⟨h.slots.nodup, h.slots.bound⟩ }
    have ht : Passes cfg b [] [] ds s ds (s.withActive s.active.beginTry.2) :=
      haside.passes h nofun fun k hk => by rwa [hactive] at hk
    exact ((k _).ends ht.sealed (List.forall_mem_cons.mpr ⟨hsafe, fun l' hl' => ht.safe l' (hls l' hl')⟩)).mono
      fun _ _ ⟨ds'', hu⟩ => ⟨ds'', ht.trans hu⟩

/-- The regions are changed, and labels marked. -/
theorem Passes.regions (ls : List Label) {r : Routine} (h : Passes cfg b exprs fs ds s ds' t)
    (hgrows : t.active.Grows r) (hcode : r.code = t.active.code) (hmarks : SameMarks ls t.active r) (hls : ∀ l ∈ ls, t.Safe ds' l)
    (hstarts : ∀ {p}, r.Starts p → t.active.Starts p ∨ p = t.active.position)
    (hopened : ∀ o ∈ r.openRegions, ∃ o' ∈ t.active.openRegions, o'.endLabel = o.endLabel)
    (hfree : r.freeTemps = t.active.freeTemps) (hcount : r.tempCount = t.active.tempCount) :
    Passes cfg b exprs fs ds s ds' (t.withActive r) := by
  have hactive := t.active_withActive r
  have haside : Aside ls ds' t (t.withActive r) :=
    { grows := by rwa [hactive]
      frame := rfl
      others := by rw [hactive]; rfl
      code := fun hle hi => absurd hi (not_emitted (by rw [hactive, hcode]) hle)
      starts := fun {p} hp => by
        rw [hactive] at hp ⊢
        rcases hstarts hp with hp | rfl
        · exact Or.inl hp
        · exact Or.inr ⟨Nat.le_refl _, hgrows.position⟩
      opened := fun o ho => Or.inl (hopened o (hactive ▸ ho))
      marks := by rwa [hactive]
      slots := by
        rw [hactive]
        exact ⟨hfree ▸ h.sealed.slots.nodup, by rw [hfree, hcount]; exact h.sealed.slots.bound⟩ }
  refine h.andThen (haside.passes h.sealed hls fun k hk => ?_)
  rwa [hactive, Routine.Vacant, hfree, hcount] at hk

theorem State.withActive_withActive (r r' : Routine) (s : State Chunk) :
    (s.withActive r).withActive r' = s.withActive r' := by
  show ({ s with sink := (s.sink.withActive r).withActive r' } : State Chunk) = _
  rw [Chunk.withActive_withActive]
  rfl

/-- Control may leave regions for a label that is safe. -/
theorem State.Sealed.leave (h : s.Sealed b ds) (hl : s.Safe ds l) :
    Passes cfg b [] [] ds s ds (s.withActive (s.active.push (.leave l))) := by
  refine h.push ?_ (List.forall_mem_singleton.mpr hl) ?_
  · rintro ⟨⟩
  · rintro _ ⟨⟩

theorem seals_beginHandler (kind : HandlerKind) :
    Seals cfg b ls [] [] (toSink (Chunk.onActive (Routine.beginHandler kind))) where
  ends {ds s} h _ := by
    refine ends_toSink (.intro (fun _ r hrun => ⟨ds, ?_⟩) fun _ _ _ => trivial)
    cases hopened : s.active.openRegions with
    | nil =>
      simp only [Routine.beginHandler, hopened] at hrun
      cases hrun
    | cons o outer =>
      have hmem : o ∈ s.active.openRegions := hopened ▸ List.mem_cons_self
      obtain rfl := Routine.beginHandler_ok hopened hrun
      have hactive := s.active_withActive (s.active.push (.leave o.endLabel))
      have hpush : Passes cfg b [] [] ds s ds (s.withActive (s.active.push (.leave o.endLabel))) :=
        h.leave (h.opened o hmem)
      rw [← State.withActive_withActive (s.active.push (.leave o.endLabel))]
      refine hpush.regions [] ?_ ?_ ?_ (List.forall_mem_nil _) (fun {p} hp => ?_) (fun o' ho' => ?_) ?_ ?_
      all_goals rw [hactive]
      · exact .of_eq rfl rfl rfl rfl
      · exact .of_labels rfl (Nat.le_refl _) rfl
      · rcases hp with hp | ⟨o', ho', hp⟩
        · exact Or.inl (Or.inl hp)
        · rcases List.mem_cons.mp ho' with rfl | ho'
          · rcases hp with rfl | ⟨x, hx, hp⟩
            · exact Or.inr (Routine.position_push _).symm
            · refine Or.inl (Or.inr ⟨o, hmem, ?_⟩)
              exact (OpenRegion.start_of_close hx).imp (·.symm.trans hp) fun hx => ⟨x, hx, hp⟩
          · exact Or.inl (Or.inr ⟨o', hopened ▸ List.mem_cons_of_mem _ ho', hp⟩)
      · rcases List.mem_cons.mp ho' with rfl | ho'
        · exact ⟨o, hmem, (OpenRegion.endLabel_close o _).symm⟩
        · exact ⟨o', hopened ▸ List.mem_cons_of_mem _ ho', rfl⟩

instance (type : String) : Seals cfg b ls [] [] (toSink (Sink.beginCatch type) : Emit Chunk Unit) :=
  seals_beginHandler _

instance : Seals cfg b ls [] [] (toSink Sink.beginFinally : Emit Chunk Unit) :=
  seals_beginHandler _

/-- The label behind a region is marked where the region ends. -/
instance : Seals cfg b ls [] [] (toSink Sink.endRegion : Emit Chunk Unit) where
  ends {ds s} h _ := by
    show Ends (toSink (Chunk.onActive Routine.endRegion)) _ _ _
    refine ends_toSink (.intro (fun _ r hrun => ⟨ds, ?_⟩) fun _ _ _ => trivial)
    cases hopened : s.active.openRegions with
    | nil =>
      simp only [Routine.endRegion, hopened] at hrun
      cases hrun
    | cons o outer =>
      cases hblock : o.block with
      | guarded =>
        simp only [Routine.endRegion, hopened, hblock] at hrun
        cases hrun
      | handler kind =>
        have hmem : o ∈ s.active.openRegions := hopened ▸ List.mem_cons_self
        rw [Routine.endRegion_eq hopened hblock] at hrun
        obtain ⟨hmark, rfl⟩ := Routine.markLabel_ok hrun
        have hactive := s.active_withActive (s.active.push (Routine.closing o kind))
        have hpush : Passes cfg b [] [] ds s ds (s.withActive (s.active.push (Routine.closing o kind))) := by
          cases kind with
          | cleanup => exact h.push nofun nofun nofun
          | catching => exact h.leave (h.opened o hmem)
        rw [← State.withActive_withActive (s.active.push (Routine.closing o kind))]
        have hrecorded : (s.active.push (Routine.closing o kind)).Grows (s.active.recorded o outer kind) := by
          refine { Routine.Grows.refl _ with regions := fun hk => ?_ }
          obtain ⟨hlt, -⟩ := Array.getElem?_eq_some_iff.mp hk
          exact (Array.getElem?_push_lt hlt).trans ((Array.getElem?_eq_getElem hlt).symm.trans hk)
        have hmarks : SameMarks [o.endLabel] (s.active.push (Routine.closing o kind))
            (s.active.recorded o outer kind) :=
          .of_labels rfl (Nat.le_refl _) rfl
        have hsafe := List.forall_mem_singleton.mpr (hpush.safe _ (h.opened o hmem))
        refine hpush.regions [o.endLabel] ?_ ?_ ?_ hsafe (fun {p} hp => Or.inl ?_) (fun o' ho' => ?_) ?_ ?_
        all_goals rw [hactive]
        · exact hrecorded.trans (Routine.grows_marking hmark)
        · rfl
        · exact hmarks.trans (Routine.sameMarks_marking [] hmark)
        · rcases hp with ⟨region, hregion, x, hx, hp⟩ | ⟨o', ho', hp⟩
          · rcases Array.mem_push.mp hregion with hregion | rfl
            · exact Or.inl ⟨region, hregion, x, hx, hp⟩
            · refine Or.inr ⟨o, hmem, ?_⟩
              exact (OpenRegion.start_of_close (List.mem_reverse.mp hx)).imp (·.symm.trans hp) fun hx => ⟨x, hx, hp⟩
          · exact Or.inr ⟨o', hopened ▸ List.mem_cons_of_mem _ ho', hp⟩
        · exact ⟨o', hopened ▸ List.mem_cons_of_mem _ ho', rfl⟩
        · rfl
        · rfl

/-! ## Ways out of loops -/

section Ways

theorem seals_jump (hl : l ∈ ls) (level : Nat) : Seals cfg b ls [] [] (jump l level : Emit Chunk Unit) := by
  have hbranch : Seals cfg b ls [] [] (emit (.branch l) : Emit Chunk Unit) :=
    seals_emit (by simpa [Instruction.labels] using hl) nofun nofun
  have hleave : Seals cfg b ls [] [] (emit (.leave l) : Emit Chunk Unit) :=
    seals_emit (by simpa [Instruction.labels] using hl) nofun nofun
  unfold jump
  infer_instance

instance seals_staticBranch (kind : BranchKind) (level : Nat) :
    Seals cfg b ls [] [] (staticBranch kind level : Emit Chunk Unit) where
  ends {ds s} h _ := by
    refine .peek_bind ?_
    dsimp only
    split
    · rename_i loop hloop
      have hjump : Seals cfg b [loop.target kind] [] [] (leaveTo kind loop : Emit Chunk Unit) :=
        seals_jump (List.mem_singleton_self _) _
      exact hjump.ends h (List.forall_mem_singleton.mpr (h.loops loop (List.mem_of_getElem? hloop) kind))
    · exact .fail trivial

variable (cfg) in
/-- Labels for a table. -/
theorem ends_defineLabels_sealed : ∀ (n : Nat) {s : State Chunk}, s.Sealed b ds →
    Ends (defineLabels n) s (fun table t => Passes cfg b [] [] ds s ds t ∧ ∀ l ∈ table, t.Safe ds l) anyFailure
  | 0, _, h => .pure ⟨.refl h, nofun⟩
  | n + 1, s, h => by
    refine (ends_defineLabel_sealed cfg h).bind fun l t ⟨ht, _, _, hframe, _, hmark, hnew, _⟩ => ?_
    have hsafe : t.Safe ds l := State.safe_of_unmarked hmark (by rw [hframe]; exact hnew)
    refine (ends_defineLabels_sealed n ht.sealed).bind fun rest u ⟨hu, hrest⟩ => .pure ?_
    exact ⟨ht.trans hu, List.forall_mem_cons.mpr ⟨hu.safe l hsafe, hrest⟩⟩

theorem seals_tableEntries (kind : BranchKind) : ∀ {entries : List (Label × Loop)},
    (∀ entry ∈ entries, entry.1 ∈ ls ∧ entry.2.target kind ∈ ls) →
    Seals cfg b ls [] [] (tableEntries kind entries : Emit Chunk Unit)
  | [], _ => seals_pure ()
  | (label, loop) :: rest, h => by
    obtain ⟨⟨hlabel, htarget⟩, hothers⟩ := List.forall_mem_cons.mp h
    have hmarked : Seals cfg b [label] [] [] (mark label : Emit Chunk Unit) := seals_mark label
    have hmark : Seals cfg b ls [] [] (mark label : Emit Chunk Unit) :=
      seals_mono hmarked (List.cons_subset.mpr ⟨hlabel, List.nil_subset _⟩)
    have hleave : Seals cfg b ls [] [] (leaveTo kind loop : Emit Chunk Unit) := seals_jump htarget _
    have hrest : Seals cfg b ls [] [] (tableEntries kind rest : Emit Chunk Unit) := seals_tableEntries kind hothers
    unfold tableEntries
    infer_instance

variable (cfg) in
/-- A slot is stored to that is taken for something else. -/
theorem ends_saveTo_sealed (h : s.Sealed b ds) (htakes : s.Takes k) :
    Ends (saveTo k) s (fun _ t => Passes cfg b [] [] ds s ds t) anyFailure := by
  refine (ends_emit_sealed cfg h (i := .dup) nofun nofun nofun).bind fun _ t ⟨ht, hframe⟩ => ?_
  refine (ends_emit_sealed cfg ht.sealed (i := .storeTemp k) nofun nofun ?_).mono fun _ _ hu => ht.trans hu.1
  rintro _ ⟨⟩
  exact (ht.takes k htakes).2

/-- The slot of the level is not that of the value to return. -/
theorem seals_runtimeBranch (kind : BranchKind) {level : Code Chunk}
    [hlevel : Seals cfg b ls [] [] (converted level .longInteger)] :
    Seals cfg b ls [] [] (runtimeBranch kind level) where
  ends {ds s} h hls := by
    refine .peek_bind ?_
    cases hloops : s.frame.loops with
    | nil => exact .fail trivial
    | cons innermost outer =>
      dsimp only
      refine (hlevel.ends h hls).bind fun _ t₁ ⟨ds₁, h₁⟩ => ?_
      refine (ends_declareTemp_sealed cfg h₁.sealed).bind fun slot t₂ ⟨h₂, _, _, _, _, hvacant, htakes⟩ => ?_
      refine (ends_saveTo_sealed cfg h₂.sealed htakes).bind fun _ t₃ h₃ => ?_
      refine (ends_defineLabels_sealed cfg _ h₃.sealed).bind fun table t₄ ⟨h₄, htable⟩ => ?_
      have hloop₄ (loop : Loop) (hloop : loop ∈ innermost :: outer) (kind : BranchKind) :
          t₄.Safe ds₁ (loop.target kind) :=
        h₄.safe _ (h₃.safe _ (h₂.safe _ (h₁.safe _ (h.loops loop (hloops ▸ hloop) kind))))
      -- All that follows goes to the labels of the table and of the loops around.
      obtain ⟨ls', hls'⟩ : ∃ ls', ls' = innermost.breakLabel :: (table ++ (innermost :: outer).map (·.target kind)) :=
        ⟨_, rfl⟩
      have hrest : Seals cfg b ls' [] [] (do
          emit (.switch table)
          emit (.loadTemp slot)
          callVoid .throwInvalidBreakLevel
          leaveTo .break innermost
          tableEntries kind (table.zip (innermost :: innermost :: outer)) : Emit Chunk Unit) := by
        have hswitch : Seals cfg b ls' [] [] (emit (.switch table) : Emit Chunk Unit) :=
          seals_emit (fun l hl => hls' ▸ List.mem_cons_of_mem _ (List.mem_append_left _ hl)) nofun nofun
        have hleave : Seals cfg b ls' [] [] (leaveTo .break innermost : Emit Chunk Unit) :=
          seals_jump (hls' ▸ List.mem_cons_self) _
        have hentries : Seals cfg b ls' [] []
            (tableEntries kind (table.zip (innermost :: innermost :: outer)) : Emit Chunk Unit) := by
          refine seals_tableEntries kind fun entry hentry => ?_
          obtain ⟨hlabel, hloop⟩ := List.of_mem_zip hentry
          subst hls'
          refine ⟨List.mem_cons_of_mem _ (List.mem_append_left _ hlabel), ?_⟩
          exact List.mem_cons_of_mem _ (List.mem_append_right _ (List.mem_map_of_mem (by simpa using hloop)))
        infer_instance
      have hsafe : ∀ l ∈ ls', t₄.Safe ds₁ l := by
        subst hls'
        refine List.forall_mem_cons.mpr ⟨hloop₄ innermost List.mem_cons_self .break, ?_⟩
        refine List.forall_mem_append.mpr ⟨htable, fun l hl => ?_⟩
        obtain ⟨loop, hloop, rfl⟩ := List.mem_map.mp hl
        exact hloop₄ loop hloop kind
      have hbegun := h₂.trans (h₃.trans h₄)
      have hend := (hrest.ends h₄.sealed hsafe).bind (f := fun _ => returnTemp slot)
        (R := fun _ u => ∃ ds', Passes cfg b [] [] ds s ds' u) fun _ t₅ ⟨ds₅, h₅⟩ => .update
          ⟨ds₅, h₁.trans ((hbegun.trans h₅).returnTemp hvacant (h₅.takes _ (h₄.takes _ (h₃.takes _ htakes))))⟩
      simpa only [bind_assoc] using hend

end Ways

/-! ## Returning -/

section Returning

variable {expr : Option Expr}

/-- Work in front of the branch of a `return`, which leaves the labels, the regions and the loops around as they
are. -/
structure Readies (cfg : Setting) (b : Bool) (ds : List Delivery) (s t : State Chunk) : Prop
    extends Passes cfg b [] [] ds s ds t where
  same : SameBesides s.sink t.sink
  marks : SameMarks [] s.active t.active
  loops : t.frame.loops = s.frame.loops
  labels : t.frame.labels = s.frame.labels

theorem Readies.trans (h : Readies cfg b ds s t) (h' : Readies cfg b ds t u) : Readies cfg b ds s u where
  toPasses := h.toPasses.trans h'.toPasses
  same := h.same.trans h'.same
  marks := h.marks.trans h'.marks
  loops := h'.loops.trans h.loops
  labels := h'.labels.trans h.labels

theorem Readies.refl (h : s.Sealed b ds) : Readies cfg b ds s s :=
  ⟨.refl h, .refl _, .refl _ _, rfl, rfl⟩

/-- Without a slot for the value to return there is no delivery. -/
theorem State.Sealed.eq_nil_of_slot (h : s.Sealed b ds) (hslot : s.frame.returnTemp = none) : ds = [] := by
  refine List.eq_nil_iff_forall_not_mem.mpr fun d hd => ?_
  obtain ⟨k, hk, -⟩ := (h.routine.delivered d hd).store
  exact nomatch hslot.symm.trans hk

/-- Without a label for the code that returns there is no delivery. -/
theorem State.Sealed.eq_nil_of_epilogue (h : s.Sealed b ds) (hexit : s.frame.epilogue = none) : ds = [] := by
  refine List.eq_nil_iff_forall_not_mem.mpr fun d hd => ?_
  obtain ⟨e, he, -⟩ := (h.routine.delivered d hd).away
  exact nomatch hexit.symm.trans he

variable (cfg) in
/-- The slot of the value to return. -/
theorem ends_returnSlot_sealed (h : s.Sealed b ds) :
    Ends returnSlot s (fun k t => Readies cfg b ds s t ∧ t.active.code = s.active.code ∧
      t.frame.returnTemp = some k) anyFailure := by
  unfold returnSlot
  refine .peek_bind ?_
  cases hslot : s.frame.returnTemp with
  | some k => exact .pure ⟨.refl h, rfl, hslot⟩
  | none =>
    obtain rfl := h.eq_nil_of_slot hslot
    refine (ends_declareTemp_sealed cfg h).bind
      fun k t ⟨ht, hmarks, hsame, hframe, hcode, hvacant, htakes⟩ => .update_bind (.pure ?_)
    have hsealed := ht.sealed
    have htaken : State.Sealed b [] { t with frame := { t.frame with returnTemp := some k } } :=
      { hsealed with
        routine := hsealed.routine.withSlot
        slot := fun j hj => Option.some.inj hj ▸ htakes.1 }
    have hloops : t.frame.loops = s.frame.loops := congrArg Frame.loops hframe
    have hlabels : t.frame.labels = s.frame.labels := congrArg Frame.labels hframe
    refine ⟨⟨{ ht with sealed := htaken, takes := fun j hj => ⟨(ht.takes j hj).1, fun heq => hj.1 ?_⟩ }, hsame, hmarks,
      hloops, hlabels⟩, hcode, rfl⟩
    rwa [← Option.some.inj heq]

variable (cfg) in
/-- The label of the code that returns, which no other branch goes to. -/
theorem ends_epilogue_sealed (h : s.Sealed b ds) :
    Ends epilogue s (fun e t => Readies cfg b ds s t ∧ t.active.code = s.active.code ∧
      t.frame.returnTemp = s.frame.returnTemp ∧ t.frame.epilogue = some e) anyFailure := by
  unfold epilogue
  refine .peek_bind ?_
  cases hexit : s.frame.epilogue with
  | some e => exact .pure ⟨.refl h, rfl, rfl, hexit⟩
  | none =>
    obtain rfl := h.eq_nil_of_epilogue hexit
    refine (ends_defineLabel_sealed cfg h).bind
      fun e t ⟨ht, hmarks, hsame, hframe, hcode, hmark, _, hnew⟩ => .update_bind (.pure ?_)
    have hsealed := ht.sealed
    have hsafe (l : Label) (hl : s.Safe [] l) :
        State.Safe [] { t with frame := { t.frame with epilogue := some e } } l :=
      { defined := (ht.safe l hl).defined
        notExit := fun heq => hnew l hl.defined (Option.some.inj heq)
        position := fun _ => nofun }
    have htaken : State.Sealed b [] { t with frame := { t.frame with epilogue := some e } } :=
      { hsealed with
        routine := hsealed.routine.withExit fun {pc i} hi hmem => by
          rw [hcode] at hi
          exact hnew e ((h.routine.code hi).labels e hmem).defined rfl
        exit := fun l hl => Option.some.inj hl ▸ hmark
        loops := fun loop hloop kind => hsafe _ (h.loops loop (hframe ▸ hloop) kind)
        named := fun p hp => hsafe _ (h.named p (hframe ▸ hp))
        opened := fun o ho => hsafe _ (h.opened o (hsame.opened ▸ ho)) }
    have hloops : t.frame.loops = s.frame.loops := congrArg Frame.loops hframe
    have hlabels : t.frame.labels = s.frame.labels := congrArg Frame.labels hframe
    have hslot : t.frame.returnTemp = s.frame.returnTemp := congrArg Frame.returnTemp hframe
    exact ⟨⟨{ ht with sealed := htaken, safe := hsafe }, hsame, hmarks, hloops, hlabels⟩, hcode, hslot, rfl⟩

/-- The value is stored to the slot, and control goes to the code that returns. -/
theorem Readies.deliver {P : Instruction → Prop} (h : s.Sealed b ds) (ht : Readies cfg b ds s t)
    (hslot : t.frame.returnTemp = some k) (he : t.frame.epilogue = some e) (hi : i = .branch e ∨ i = .leave e)
    (hcode : Stretch t.active P s.active.position t.active.position 0 1)
    (hyields : ∀ {r'}, t.active.Grows r' → r'.Yields b ⟨s.active.position, t.active.position⟩)
    (hreturn : t.active.HasReturn cfg expr ⟨s.active.position, t.active.position⟩) :
    Passes cfg b [expr] [] ds s (ds ++ [⟨s.active.position, t.active.position⟩])
      (t.withActive ((t.active.push (.storeTemp k)).push i)) := by
  obtain ⟨d, hd⟩ : ∃ d : Delivery, d = ⟨s.active.position, t.active.position⟩ := ⟨_, rfl⟩
  obtain ⟨r, hr⟩ : ∃ r, r = (t.active.push (.storeTemp k)).push i := ⟨_, rfl⟩
  have hmark := ht.sealed.exit e he
  have hgrows : t.active.Grows r := hr ▸ (t.active.grows_push _).trans (Routine.grows_push _ _)
  have hlabels : r.labels = t.active.labels := hr ▸ rfl
  have hactive := t.active_withActive r
  have hmarks {l : Label} {p : Nat} (hl : (s.active.mark? l).isSome) (hp : t.active.labelPosition? l = some p) :
      p ≤ s.active.position := by
    refine h.inside l p ?_
    rwa [Routine.labelPosition?_eq, ht.marks.same l List.not_mem_nil hl] at hp
  have hrun := ht.sealed.routine
  rw [hslot, he] at hrun
  have hsealed : r.Sealed b (some k) (some e) (ds ++ [d]) := by
    rw [hr, hd]
    refine hrun.deliver h.routine ht.grows hcode (fun {p} hp => ?_) hmarks hmark hi hyields
    have hregions : t.active.regions = s.active.regions := ht.same.regions
    have hopened : t.active.openRegions = s.active.openRegions := ht.same.opened
    unfold Routine.Starts Routine.HandlesAt at hp
    rw [hregions, hopened] at hp
    exact (h.routine.starts hp).1
  have hsafe (l : Label) (hl : s.Safe ds l) : (t.withActive r).Safe (ds ++ [d]) l := by
    have hl' : r.Safe t.frame.epilogue ds l := (ht.safe l hl).grows ht.sealed.routine.delivered hgrows
    show (t.withActive r).active.Safe t.frame.epilogue (ds ++ [d]) l
    rw [hactive]
    refine hl'.add fun {p} hp => Or.inl ?_
    unfold Routine.labelPosition? at hp
    rw [hlabels] at hp
    exact hd ▸ hmarks hl.defined hp
  rw [← hd, ← hr]
  refine
    { sealed := ?_, grows := by rw [hactive]; exact ht.grows.trans hgrows, safe := hsafe, takes := fun j hj => ?_
      returns := ⟨[d], rfl, .cons (by rw [hactive, hd]; exact hreturn.grows hgrows) .nil⟩
      outside := (Chunk.outside_withActive r t.sink).trans ht.outside
      functions := ⟨[], by
        obtain ⟨Fs, hFs, hall⟩ := ht.functions
        cases hall
        exact (congrArg Array.toList (Chunk.functions_withActive r t.sink)).trans hFs, .nil⟩ }
  · have hvacant (j : Temp) : (t.withActive r).active.Vacant j ↔ t.active.Vacant j := by
      rw [hactive, hr]
      rfl
    exact
      { routine := by
          show (t.withActive r).active.Sealed b t.frame.returnTemp t.frame.epilogue _
          rw [hactive, hslot, he]
          exact hsealed
        slots := by rw [hactive, hr]; exact ⟨ht.sealed.slots.nodup, ht.sealed.slots.bound⟩
        inside := by
          rw [hactive]
          have hsame : SameMarks [] t.active r := .of_labels hlabels hgrows.position (hr ▸ rfl)
          exact hsame.inside ht.sealed.inside
        byRef := by rw [hactive, hr]; exact ht.sealed.byRef
        frame := ht.sealed.frame
        slot := fun j hj hv => ht.sealed.slot j hj ((hvacant j).mp hv)
        exit := fun l hl => by
          rw [hactive, Routine.mark?, hlabels]
          exact ht.sealed.exit l hl
        loops := fun loop hloop kind => hsafe _ (h.loops loop (ht.loops ▸ hloop) kind)
        named := fun p hp => hsafe _ (h.named p (ht.labels ▸ hp))
        opened := fun o ho => by
          rw [hactive, hr] at ho
          exact hsafe _ (h.opened o (ht.same.opened ▸ ho)) }
  · refine ⟨?_, (ht.takes j hj).2⟩
    rw [hactive, hr]
    exact (ht.takes j hj).1

/-- Code that goes through leaves a value with a mark, if it leaves one whenever it is run through. -/
theorem yields_of_acts {A : Temp → Prop}
    (hcode : Stretch t.active (StoresTo A) s.active.position t.active.position 0 1)
    (hacts : ∀ {h : Host} {r : Routine}, Acts (h := h.marking) r anyPart 0 1
      (fun _ _ out => ∀ v ∈ out, Host.mark v = b) s t) {r : Routine} (hr : t.active.Grows r) :
    r.Yields b ⟨s.active.position, t.active.position⟩ where
  le := hcode.le
  value {h c c' trace} hpc hrun := by
    obtain ⟨mid, _, out, rest, hmid, hout, -, ⟨hlength, hmarks⟩, hrest⟩ :=
      (hacts (h := h)).does hr [] rfl hpc (List.nil_append _).symm (Nat.le_refl _) hrun
    -- The run is over where it comes to the end.
    cases hrest with
    | here =>
      obtain ⟨v, rfl⟩ := List.length_eq_one_iff.mp hlength
      exact ⟨v, hout, hmarks v (List.mem_singleton_self v)⟩
    | step hne => exact absurd hmid hne
  inside {pc i} hle hlt hi := by
    have hin := (hcode.grows hr).inside hle hlt hi
    refine hin.goesOn.elim (fun hplain => ?_) id
    have hnot := (hin.plain hplain).notSwitch
    cases i with
    | leave => exact nomatch hplain
    | switch targets => exact absurd rfl (hnot targets)
    | _ => rfl

/-- **A `return`.** -/
theorem seals_return (hreturned : ∀ e ∈ expr, e.Returned b) : Seals cfg b ls [expr] [] (do
    returnValue cfg expr
    returnJump : Emit Chunk Unit) where
  ends {ds s} h _ := by
    refine Ends.bind (.intro (Q := fun _ t => returnValue cfg expr s = (.ok (), t)) (fun _ _ hrun => hrun)
      fun _ _ _ => trivial) fun _ t₁ hrun => ?_
    have hlays : Lays 0 (fun _ => 1) (returnValue cfg expr) := lays_returnValue expr
    have hlaid := (hlays s h.slots).of_ok hrun
    have hmarks := ((marksOnly_returnValue cfg expr).ends s).of_ok hrun
    have hacts {h' : Host} {r : Routine} : Acts (h := h'.marking) r anyPart 0 1
        (fun _ _ out => ∀ v ∈ out, Host.mark v = b) s t₁ := by
      have hreturns := (ends_returnValue (h := h') (r := r) cfg (s := s) (by rwa [h.frame]) h.slots).of_ok hrun
      rwa [h.frame] at hreturns
    have h₁ : Readies cfg b ds s t₁ :=
      ⟨(Laid.aside h hlaid hmarks).passes h nofun hlaid.vacant, hlaid.same, hmarks,
        congrArg Frame.loops hlaid.sameFrame, congrArg Frame.labels hlaid.sameFrame⟩
    refine (ends_returnSlot_sealed cfg h₁.sealed).bind fun k t₂ ⟨h₂, hcode₂, hslot₂⟩ => ?_
    refine (ends_epilogue_sealed cfg h₂.sealed).bind fun e t₃ ⟨h₃, hcode₃, hslot₃, hexit⟩ => ?_
    have hready := h₁.trans (h₂.trans h₃)
    have hposition : t₁.active.position = t₃.active.position := (congrArg Array.size (hcode₃.trans hcode₂)).symm
    have hcode : Stretch t₃.active (StoresTo s.active.Vacant) s.active.position t₃.active.position 0 1 :=
      hposition ▸ hlaid.code.grows (h₂.grows.trans h₃.grows)
    have hyields {r : Routine} (hr : t₃.active.Grows r) : r.Yields b ⟨s.active.position, t₃.active.position⟩ :=
      hposition ▸ yields_of_acts hlaid.code hacts ((h₂.grows.trans h₃.grows).trans hr)
    have hreturn : t₃.active.HasReturn cfg expr ⟨s.active.position, t₃.active.position⟩ :=
      ⟨s, t₁, hrun, rfl, hposition, h₂.grows.trans h₃.grows⟩
    refine (ends_emit (.storeTemp k) t₃).bind ?_
    rintro _ _ rfl
    have hbranch {i : Instruction} (hi : i = .branch e ∨ i = .leave e) :
        Ends (emit i) (t₃.withActive (t₃.active.push (.storeTemp k)))
          (fun _ u => ∃ ds', Passes cfg b [expr] [] ds s ds' u) anyFailure := by
      refine (ends_emit i _).mono ?_
      rintro _ _ rfl
      rw [State.withActive_withActive, State.active_withActive]
      exact ⟨_, hready.deliver h (hslot₃.trans hslot₂) hexit hi hcode hyields hreturn⟩
    refine .peek_bind ?_
    split
    · exact hbranch (Or.inl rfl)
    · exact hbranch (Or.inr rfl)

end Returning

/-! ## Labels of `goto` targets -/

/-- The label of a `goto` target is safe. -/
theorem ends_routineLabel_sealed (name : String) (h : s.Sealed b ds) :
    Ends (routineLabel name) s (fun l t => Passes cfg b [] [] ds s ds t ∧ t.Safe ds l) anyFailure := by
  unfold routineLabel
  refine .peek_bind ?_
  cases hlookup : s.frame.labels.lookup name with
  | some l =>
    obtain ⟨front, back, heq, -⟩ := List.lookup_eq_some_iff.mp hlookup
    exact .pure ⟨.refl h, h.named (name, l) (heq ▸ List.mem_append_right _ List.mem_cons_self)⟩
  | none =>
    refine (ends_defineLabel_sealed cfg h).bind
      fun l t ⟨ht, _, _, hframe, _, hmark, hnew, _⟩ => .update_bind (.pure ?_)
    have hsafe : t.Safe ds l := State.safe_of_unmarked hmark (by rw [hframe]; exact hnew)
    have hsealed := ht.sealed
    have hnamed : State.Sealed b ds { t with frame := { t.frame with labels := (name, l) :: t.frame.labels } } :=
      { hsealed with named := List.forall_mem_cons.mpr ⟨hsafe, hsealed.named⟩ }
    exact ⟨{ ht with sealed := hnamed }, hsafe⟩

theorem seals_goto (name : String) : Seals cfg b ls [] [] (do jump (← routineLabel name) 0 : Emit Chunk Unit) where
  ends h _ := (ends_routineLabel_sealed name h).bind fun l _ ⟨ht, hsafe⟩ =>
    have hjump : Seals cfg b [l] [] [] (jump l 0 : Emit Chunk Unit) := seals_jump (List.mem_singleton_self _) 0
    (hjump.ends ht.sealed (List.forall_mem_singleton.mpr hsafe)).mono fun _ _ ⟨ds', hu⟩ => ⟨ds', ht.trans hu⟩

theorem seals_markRoutineLabel (name : String) :
    Seals cfg b ls [] [] (do mark (← routineLabel name) : Emit Chunk Unit) where
  ends h _ := (ends_routineLabel_sealed name h).bind fun l _ ⟨ht, hsafe⟩ =>
    have hmark : Seals cfg b [l] [] [] (mark l : Emit Chunk Unit) := seals_mark l
    (hmark.ends ht.sealed (List.forall_mem_singleton.mpr hsafe)).mono fun _ _ ⟨ds', hu⟩ => ⟨ds', ht.trans hu⟩

instance seals_labelCode (name : String) (home : Home StmtKind) :
    Seals cfg b ls [] [] (labelCode name home : Emit Chunk Unit) := by
  have hmark : Seals cfg b ls [] [] (do mark (← routineLabel name) : Emit Chunk Unit) := seals_markRoutineLabel name
  unfold labelCode
  infer_instance

/-! ## Code of statements -/

section Statements

variable {c : Setting} {x : Expr} {body : Emit Chunk Unit} {part : Option (Emit Chunk Unit)}

instance seals_lower (e : Expr) (use : Use) : Seals cfg b ls [] [] (lower c e use : Emit Chunk TypeCode) :=
  seals_of_lays (lays_lower c e use)

instance seals_box (code : TypeCode) : Seals cfg b ls [] [] (box code : Emit Chunk TypeCode) :=
  seals_of_lays (lays_boxed code)

instance seals_convert (code target : TypeCode) : Seals cfg b ls [] [] (convert code target : Emit Chunk TypeCode) :=
  seals_of_lays (lays_convert code target (g := TypeCode.height) fun _ => id)

instance seals_boxed (e : Expr) : Seals cfg b ls [] [] (boxed (lower c e) : Emit Chunk TypeCode) := by
  unfold boxed
  infer_instance

instance seals_converted (e : Expr) (target : TypeCode) :
    Seals cfg b ls [] [] (converted (lower c e) target : Emit Chunk TypeCode) := by
  unfold converted
  infer_instance

instance seals_pushLiteral (v : Literal) : Seals cfg b ls [] [] (pushLiteral v : Emit Chunk TypeCode) :=
  seals_of_lays (lays_pushLiteral v).one

instance seals_echoAll (es : List Expr) : Seals cfg b ls [] [] (echoAll c es : Emit Chunk Unit) :=
  seals_of_lays (lays_echoAll es)

instance seals_unsetAll (es : List Expr) : Seals cfg b ls [] [] (unsetAll c es : Emit Chunk Unit) :=
  seals_of_lays (lays_unsetAll es)

instance seals_loopJump (kind : BranchKind) (level : Option Expr) :
    Seals cfg b ls [] [] (loopJump c kind level : Emit Chunk Unit) := by
  unfold loopJump
  cases level with
  | none => exact seals_staticBranch _ _
  | some e =>
    dsimp only
    cases e.value? with
    | some v => exact seals_staticBranch _ _
    | none => exact seals_runtimeBranch kind

theorem seals_jumpCode (tag : StmtTag) (kind : JumpKind) {expr : Option Expr}
    (hreturned : ∀ e ∈ (Stmt.jump tag kind expr).return?, ∀ e' ∈ e, e'.Returned b) :
    Seals cfg b ls (Stmt.jump tag kind expr).return?.toList [] (jumpCode cfg kind expr : Emit Chunk Unit) := by
  unfold jumpCode
  cases kind with
  | «return» => exact seals_return (hreturned expr rfl)
  | «break» | «continue» => exact seals_loopJump _ expr

/-- The same for a part that may be missing. -/
def SealsOptional (cfg : Setting) (b : Bool) (ls : List Label) (exprs : List (Option Expr))
    (fs : List (FunctionHead × List Stmt)) (part : Option (Emit Chunk Unit)) : Prop :=
  match part with
  | some code => Seals cfg b ls exprs fs code
  | none => exprs = [] ∧ fs = []

theorem seals_branchCode (e : Expr) (hbody : Seals cfg b ls exprs fs body)
    (hpart : SealsOptional cfg b ls exprs' fs' part) :
    Seals cfg b ls (exprs ++ exprs') (fs ++ fs') (branchCode c e body part) := by
  unfold branchCode branchHead
  simp only [bind_assoc, pure_bind]
  refine seals_defineLabel (k := fun otherwise => ?_)
  have hthen : Seals cfg b (otherwise :: ls) exprs fs body := seals_cons
  cases part with
  | none =>
    obtain ⟨rfl, rfl⟩ := hpart
    have hall : Seals cfg b (otherwise :: ls) (exprs ++ []) (fs ++ []) (do body; mark otherwise : Emit Chunk Unit) :=
      seals_seq hthen fun _ => seals_mark otherwise
    dsimp only
    infer_instance
  | some code =>
    have hcode : Seals cfg b ls exprs' fs' code := hpart
    have helse : Seals cfg b (otherwise :: ls) exprs' fs' (do
        let done ← elseHead otherwise
        code
        mark done) := by
      have hmarked (done : Label) : Seals cfg b (done :: otherwise :: ls) exprs' fs' (do code; mark done) := seals_then
      unfold elseHead
      simp only [bind_assoc, pure_bind]
      infer_instance
    have hboth := seals_seq hthen fun _ => helse
    dsimp only
    infer_instance

theorem keepsReturns_leaveLoop : Frame.KeepsReturns Frame.leaveLoop where
  returnsRef _ := rfl
  loops f := (List.tail_sublist f.loops).subset
  labels _ := rfl
  epilogue _ := rfl
  slot _ := rfl

theorem keepsReturns_enterException : Frame.KeepsReturns Frame.enterException :=
  ⟨fun _ => rfl, fun _ => List.Subset.refl _, fun _ => rfl, fun _ => rfl, fun _ => rfl⟩

theorem keepsReturns_leaveException : Frame.KeepsReturns Frame.leaveException :=
  ⟨fun _ => rfl, fun _ => List.Subset.refl _, fun _ => rfl, fun _ => rfl, fun _ => rfl⟩

theorem seals_enterLoop (exit test : Label) :
    Seals cfg b (exit :: test :: ls) [] [] (updateFrame (Frame.enterLoop exit test) : Emit Chunk Unit) where
  ends {ds s} h hls := by
    refine .update ⟨ds, (Passes.refl h).withFrame rfl (List.forall_mem_cons.mpr ⟨?_, h.loops⟩) rfl rfl rfl⟩
    intro kind
    cases kind
    · exact hls exit (by simp)
    · exact hls test (by simp)

theorem seals_loopCode (e : Expr) (hbody : Seals cfg b ls exprs fs body) :
    Seals cfg b ls exprs fs (loopCode c e body) := by
  have henter (exit test : Label) :
      Seals cfg b (exit :: test :: ls) [] [] (updateFrame (Frame.enterLoop exit test) : Emit Chunk Unit) :=
    seals_enterLoop exit test
  have hinner (exit test : Label) : Seals cfg b (exit :: test :: ls) exprs fs (do
      let nesting := (← frame).exceptionNesting
      updateFrame (Frame.enterLoop exit test)
      let loop : Loop := ⟨exit, test, nesting⟩
      thenFrame body Frame.leaveLoop
      emit (.branch loop.continueLabel)
      mark loop.breakLabel) := by
    have hthen : Seals cfg b (exit :: test :: ls) exprs fs (thenFrame body Frame.leaveLoop) :=
      seals_thenFrame keepsReturns_leaveLoop
    have hend : Seals cfg b (exit :: test :: ls) exprs fs (do
        thenFrame body Frame.leaveLoop
        emit (.branch test)
        mark exit) := seals_then
    dsimp only
    infer_instance
  unfold loopCode loopHead
  by_cases hknown : e.value?.map Literal.toBool ≠ some true
  · simp only [if_pos hknown, bind_assoc, pure_bind]
    infer_instance
  · simp only [if_neg hknown, bind_assoc, pure_bind]
    infer_instance

/-! ### Regions -/

theorem seals_clauseCode {regionEnd : Label} (hend : regionEnd ∈ ls) (type : String) (var : Option String)
    [hbody : Seals cfg b ls exprs fs body] : Seals cfg b ls exprs fs (clauseCode k regionEnd type var body) := by
  have hleave (next : Label) : Seals cfg b (next :: ls) [] [] (emit (.leave regionEnd) : Emit Chunk Unit) :=
    seals_emit (by simpa [Instruction.labels] using Or.inr hend) nofun nofun
  have hrest (next : Label) : Seals cfg b (next :: ls) exprs fs (do
      body
      emit (.leave regionEnd)
      mark next) := seals_then
  unfold clauseCode clauseHead
  cases var with
  | none =>
    simp only [bind_assoc, pure_bind]
    infer_instance
  | some name =>
    simp only [bind_assoc, pure_bind]
    infer_instance

/-- The slot of the exception is not that of the value to return. -/
theorem seals_handlersCode {clauses : Temp → Emit Chunk Unit} (hclauses : ∀ k, Seals cfg b ls exprs fs (clauses k)) :
    Seals cfg b ls exprs fs (handlersCode clauses) := by
  have hrest : Seals cfg b ls exprs fs (do
      let exception ← declareTemp
      emit (.storeTemp exception)
      clauses exception
      emit .rethrow
      returnTemp exception : Emit Chunk Unit) := by
    refine ⟨fun {ds s} h hls => ?_⟩
    refine (ends_declareTemp_sealed cfg h).bind fun k t₁ ⟨h₁, _, _, _, _, hvacant, htakes⟩ => ?_
    refine (ends_emit_sealed cfg h₁.sealed (i := .storeTemp k) nofun nofun ?_).bind fun _ t₂ ⟨h₂, _⟩ => ?_
    · rintro _ ⟨⟩
      exact htakes.2
    have hbegun := h₁.trans h₂
    refine ((hclauses k).ends h₂.sealed fun l hl => hbegun.safe l (hls l hl)).bind fun _ t₃ ⟨ds₃, h₃⟩ => ?_
    refine (ends_emit_sealed cfg h₃.sealed (i := .rethrow) nofun nofun nofun).bind fun _ t₄ ⟨h₄, _⟩ => ?_
    have htaken := h₄.takes k (h₃.takes k (h₂.takes k htakes))
    exact .update ⟨ds₃, ((hbegun.trans h₃).andThen h₄).returnTemp hvacant htaken⟩
  have hall : Seals cfg b ls exprs fs (do
      toSink (Sink.beginCatch uncatchableType)
      emit .rethrow
      toSink (Sink.beginCatch hostType)
      callVoid .wrapHostException
      let exception ← declareTemp
      emit (.storeTemp exception)
      clauses exception
      emit .rethrow
      returnTemp exception : Emit Chunk Unit) := inferInstance
  simpa only [handlersCode, handlersHead, bind_assoc, pure_bind] using hall

theorem seals_cleanupCode {hasClauses : Bool} (hpart : SealsOptional cfg b ls exprs fs part) :
    Seals cfg b ls exprs fs (cleanupCode hasClauses part) := by
  unfold cleanupCode
  cases part with
  | none =>
    obtain ⟨rfl, rfl⟩ := hpart
    dsimp only
    infer_instance
  | some code =>
    have hcode : Seals cfg b ls exprs fs code := hpart
    dsimp only
    infer_instance

/-- The same for clauses, if there are any. -/
def SealsClauses (cfg : Setting) (b : Bool) (hasClauses : Bool) (exprs : List (Option Expr))
    (fs : List (FunctionHead × List Stmt)) (clauses : Label → Temp → Emit Chunk Unit) : Prop :=
  if hasClauses then ∀ regionEnd k, Seals cfg b [regionEnd] exprs fs (clauses regionEnd k) else exprs = [] ∧ fs = []

section Regions

variable {hasClauses : Bool} {clauses : Label → Temp → Emit Chunk Unit} {exprs₁ exprs₂ exprs₃ : List (Option Expr)}
  {fs₁ fs₂ fs₃ : List (FunctionHead × List Stmt)} (hbody : Seals cfg b ls exprs₁ fs₁ body)
  (hclauses : SealsClauses cfg b hasClauses exprs₂ fs₂ clauses) (hpart : SealsOptional cfg b ls exprs₃ fs₃ part)

include hbody hclauses hpart

theorem seals_regionCode :
    Seals cfg b ls (exprs₁ ++ (exprs₂ ++ exprs₃)) (fs₁ ++ (fs₂ ++ fs₃)) (regionCode body hasClauses clauses part) := by
  have hcleanup : Seals cfg b ls exprs₃ fs₃ (do cleanupCode hasClauses part; toSink Sink.endRegion) :=
    have hcode : Seals cfg b ls exprs₃ fs₃ (cleanupCode hasClauses part) := seals_cleanupCode hpart
    seals_then
  unfold regionCode
  refine seals_beginTry (k := fun regionEnd => seals_seq seals_cons fun _ => ?_)
  cases hasClauses with
  | true =>
    have hhandlers : Seals cfg b (regionEnd :: ls) exprs₂ fs₂ (handlersCode (clauses regionEnd)) :=
      seals_handlersCode fun k => seals_mono (hclauses regionEnd k) (by simp)
    simp only [if_true]
    exact seals_seq hhandlers fun _ => seals_cons
  | false =>
    obtain ⟨rfl, rfl⟩ : exprs₂ = [] ∧ fs₂ = [] := hclauses
    simp only [Bool.false_eq_true, if_false, List.nil_append]
    exact seals_cons

theorem seals_tryCode :
    Seals cfg b ls (exprs₁ ++ (exprs₂ ++ exprs₃)) (fs₁ ++ (fs₂ ++ fs₃)) (tryCode c body hasClauses clauses part) := by
  unfold tryCode
  split
  · rename_i helided
    simp only [Bool.and_eq_true, Bool.not_eq_true', Option.isNone_iff_eq_none] at helided
    obtain ⟨⟨rfl, rfl⟩, -⟩ := helided
    obtain ⟨rfl, rfl⟩ : exprs₂ = [] ∧ fs₂ = [] := hclauses
    obtain ⟨rfl, rfl⟩ : exprs₃ = [] ∧ fs₃ = [] := hpart
    simpa only [List.append_nil] using hbody
  · have hregion := seals_regionCode hbody hclauses hpart
    have henter : Seals cfg b ls [] [] (updateFrame Frame.enterException : Emit Chunk Unit) :=
      seals_updateFrame keepsReturns_enterException
    have hthen : Seals cfg b ls (exprs₁ ++ (exprs₂ ++ exprs₃)) (fs₁ ++ (fs₂ ++ fs₃))
        (thenFrame (regionCode body hasClauses clauses part) Frame.leaveException) :=
      seals_thenFrame keepsReturns_leaveException
    infer_instance

end Regions

/-! ### Routines -/

/-- The code of a routine is complete. -/
structure Closes (cfg : Setting) (b : Bool) (exprs : List (Option Expr)) (fs : List (FunctionHead × List Stmt))
    (s t : State Chunk) : Prop where
  returnsAs : t.active.ReturnsAs cfg b exprs
  outside : t.sink.outside = s.sink.outside
  functions : ∃ Fs, t.sink.functions.toList = s.sink.functions.toList ++ Fs ∧
    List.Forall₂ (fun p => Routine.ReturnsAs cfg p.1.byRef (Stmt.returns (Stmt.ownOf p.2))) fs Fs

theorem State.returnTemp_eq (k : Temp) (s : State Chunk) :
    ({ s with sink := Sink.returnTemp k s.sink } : State Chunk) = s.withActive (s.active.returnTemp k) := by
  have hothers := (sameBesides_returnTemp k s.sink).others
  rw [active_returnTemp] at hothers
  exact congrArg (fun sink => { s with sink }) hothers

/-- The code that is emitted where the returns of a routine meet. -/
theorem ends_sharing (hmark : s.active.mark? e = some none) : Ends (do
    emit (.storeTemp k)
    mark e
    emit (.loadTemp k)
    returnTemp k
    emit .ret) s (fun _ t => t = s.withActive (s.active.sharing k e)) anyFailure := by
  refine (ends_emit _ s).bind ?_
  rintro _ _ rfl
  refine Ends.bind (Q := fun _ t => t = s.withActive ((s.active.push (.storeTemp k)).marking e))
    (ends_toSink (.of_eq (a := ()) (t := (s.active.push (.storeTemp k)).marking e) ?_ ?_)) ?_
  · rw [State.active_withActive]
    exact Routine.markLabel_eq hmark
  · exact State.withActive_withActive ..
  rintro _ _ rfl
  refine (ends_emit _ _).bind ?_
  rintro _ _ rfl
  refine .update_bind ((ends_emit _ _).mono ?_)
  rintro _ _ rfl
  rw [State.returnTemp_eq]
  simp only [State.active_withActive, State.withActive_withActive]
  rfl

/-- The code behind the body of a routine, up to where it returns: there is a value to return, and the labels are
those of the body. -/
structure Readied (cfg : Setting) (b : Bool) (ds : List Delivery) (s t : State Chunk) : Prop
    extends Readies cfg b ds s t where
  sameLabels : t.active.labels = s.active.labels
  yields : ∀ {r : Routine}, t.active.Grows r → r.Yields b ⟨s.active.position, t.active.position⟩

/-- **The end of a routine**, behind the value for when no `return` was met. -/
theorem ends_returnCode_sealed (h : Passes cfg b exprs fs [] s ds t) (hu : Readied cfg b ds t u) :
    Ends (do
      let f ← frame
      match f.epilogue, f.returnTemp with
      | some epilogue, some slot =>
        emit (.storeTemp slot)
        mark epilogue
        emit (.loadTemp slot)
        returnTemp slot
        emit .ret
      | _, _ => emit .ret) u (fun _ v => Closes cfg b exprs fs s v) anyFailure := by
  have hall := h.andThen hu.toPasses
  obtain ⟨_, rfl, hreturns⟩ := hall.returns
  have hfinish {r : Routine} (hgrows : u.active.Grows r) (href : r.returnsRef = u.active.returnsRef)
      (hconveys : r.Conveys b ds) : Closes cfg b exprs fs s (u.withActive r) :=
    { returnsAs := by
        rw [State.active_withActive]
        exact ⟨href.trans hall.sealed.byRef, ds, hconveys, hreturns.imp fun _ _ hd => hd.grows hgrows⟩
      outside := (Chunk.outside_withActive r u.sink).trans hall.outside
      functions := by
        obtain ⟨Fs, hFs, hfs⟩ := hall.functions
        exact ⟨Fs, (congrArg Array.toList (Chunk.functions_withActive r u.sink)).trans hFs, hfs⟩ }
  have hbounded {l : Label} {p : Nat} (hp : u.active.labelPosition? l = some p) : p ≤ t.active.position := by
    unfold Routine.labelPosition? at hp
    rw [hu.sameLabels] at hp
    exact h.sealed.inside l p hp
  have hstarts {p : Nat} (hp : u.active.Starts p) : p ≤ t.active.position := by
    have hregions : u.active.regions = t.active.regions := hu.same.regions
    have hopened : u.active.openRegions = t.active.openRegions := hu.same.opened
    unfold Routine.Starts Routine.HandlesAt at hp
    rw [hregions, hopened] at hp
    exact (h.sealed.routine.starts hp).1
  have hroutine := hu.sealed.routine
  refine .peek_bind ?_
  split
  · rename_i e k he hk
    have hmark := hu.sealed.exit e he
    rw [hk, he] at hroutine
    refine (ends_sharing hmark).mono ?_
    rintro _ _ rfl
    refine hfinish (Routine.grows_sharing hmark) ?_
      (hroutine.conveys_sharing hu.grows.position hbounded hstarts hu.yields hmark)
    unfold Routine.sharing Routine.returnTemp
    split <;> rfl
  · rename_i hnot
    -- No delivery is without a slot and a label to return to.
    obtain rfl : ds = [] := by
      cases he : u.frame.epilogue with
      | none => exact hu.sealed.eq_nil_of_epilogue he
      | some e =>
        cases hk : u.frame.returnTemp with
        | none => exact hu.sealed.eq_nil_of_slot hk
        | some k => exact (hnot e k he hk).elim
    refine (ends_emit _ u).mono ?_
    rintro _ _ rfl
    exact hfinish (u.active.grows_push _) rfl (hroutine.conveys_push hbounded hstarts hu.yields)

/-- What a routine returns if no `return` was met. -/
theorem readied_nothing {x : Emit Chunk α} (h : t.Sealed b ds) (hx : Lays 0 (fun _ => 1) x) [hm : MarksOnly [] x]
    {a : α} (hrun : x t = (.ok a, u)) (hlabels : u.active.labels = t.active.labels)
    (hacts : ∀ {h' : Host} {r : Routine}, Acts (h := h'.marking) r anyPart 0 1
      (fun _ _ out => ∀ v ∈ out, Host.mark v = b) t u) : Readied cfg b ds t u := by
  have hlaid := (hx t h.slots).of_ok hrun
  have hmarks := (hm.ends t).of_ok hrun
  exact
    { toPasses := (Laid.aside h hlaid hmarks).passes h nofun hlaid.vacant
      same := hlaid.same
      marks := hmarks
      loops := congrArg Frame.loops hlaid.sameFrame
      labels := congrArg Frame.labels hlaid.sameFrame
      sameLabels := hlabels
      yields := yields_of_acts hlaid.code hacts }

theorem ends_pushLiteral_labels (v : Literal) (s : State Chunk) :
    Ends (pushLiteral v) s (fun _ t => t.active.labels = s.active.labels) anyFailure := by
  have hadd : Ends (toSink (Chunk.onActive (Routine.addConstant v))) s
      (fun _ t => t.active.labels = s.active.labels) anyFailure := by
    refine ends_toSink (.intro (fun k r hrun => ?_) fun _ _ _ => trivial)
    have hsame := s.active.sameText_addConstant v
    rw [hrun] at hsame
    rw [State.active_withActive]
    exact hsame.labels
  refine hadd.bind fun k t ht => (ends_emit _ t).bind ?_
  rintro _ _ rfl
  refine .pure ?_
  rw [State.active_withActive]
  exact ht

theorem ends_routineEnd_sealed (h : Passes cfg b exprs fs [] s ds t) :
    Ends (routineEnd b) t (fun _ u => Closes cfg b exprs fs s u) anyFailure := by
  have hnothing {h' : Host} {r : Routine} := turns_nothing (h := h') (r := r) b t h.sealed.slots
  unfold routineEnd
  cases b with
  | true =>
    simp only [if_true] at hnothing ⊢
    refine Ends.bind (.intro (Q := fun _ u => Readied cfg true ds t u) (fun _ u hrun => ?_) fun _ _ _ => trivial)
      fun _ u hu => ends_returnCode_sealed h hu
    refine readied_nothing h.sealed (lays_callVoid .newReferenceEmpty) hrun ?_ (hnothing.of_ok hrun)
    rw [(ends_emit _ t).of_ok hrun, State.active_withActive]
    rfl
  | false =>
    simp only [Bool.false_eq_true, if_false] at hnothing ⊢
    refine Ends.bind (.intro (Q := fun _ u => Readied cfg false ds t u) (fun code u hrun => ?_) fun _ _ _ => trivial)
      fun _ u hu => ends_returnCode_sealed h hu
    refine readied_nothing h.sealed (lays_pushLiteral .null).one hrun ?_ fun {h' r} => ?_
    · exact (ends_pushLiteral_labels .null t).of_ok hrun
    · refine hnothing.of_ok (a := ()) ?_
      rw [Pass.bind_apply, hrun]
      rfl

/-- **A routine around the code of its body.** -/
theorem ends_routineCode_sealed (hbody : Seals cfg b [] exprs fs body) (hempty : IsEmpty s.active)
    (hslots : s.active.SlotsInOrder) (href : s.active.returnsRef = b) :
    Ends (routineCode b body) s (fun _ t => t.frame = s.frame ∧ Closes cfg b exprs fs s t) anyFailure := by
  refine .peek_bind (.update_bind (.ensuring ?_))
  have hroutine : s.active.Sealed b none none [] :=
    { ordered := .nil
      code := fun hi => by rw [hempty.code] at hi; exact nomatch hi
      starts := fun hp => by
        rcases hp with ⟨region, hregion, -⟩ | ⟨o, ho, -⟩
        · rw [hempty.regions] at hregion
          exact nomatch hregion
        · rw [hempty.openRegions] at ho
          exact nomatch ho
      delivered := nofun }
  have hinside : s.active.LabelsInside := fun l p hp => by
    rw [Routine.labelPosition?_eq, hempty.mark? l] at hp
    exact nomatch hp
  have hstart : State.Sealed b [] { s with frame := { returnsRef := b } } :=
    { routine := hroutine, slots := hslots, inside := hinside, byRef := href, frame := rfl, slot := nofun
      exit := nofun, loops := nofun, named := nofun
      opened := fun o ho => by
        have ho' : o ∈ s.active.openRegions := ho
        rw [hempty.openRegions] at ho'
        exact nomatch ho' }
  refine ((hbody.ends hstart nofun).bind fun _ t ⟨_, ht⟩ => ends_routineEnd_sealed ht).mono fun _ u hu => ⟨rfl, ?_⟩
  exact ⟨hu.returnsAs, hu.outside, hu.functions⟩

/-- The routine around is left alone while a function is emitted. -/
theorem seals_function (head : FunctionHead) {inner : List Stmt}
    (hbody : Seals cfg head.byRef [] (Stmt.returns (Stmt.ownOf inner)) fs body) :
    Seals cfg b ls [] (fs ++ [(head, inner)]) (do
      toSink (Sink.beginFunction head)
      routineCode head.byRef body
      toSink Sink.endFunction) where
  ends {ds s} h _ := by
    refine (ends_function head (fun _ hempty hslots href => ends_routineCode_sealed hbody hempty hslots href)
      fun ht => ht.2.outside).mono ?_
    rintro _ u ⟨r, t, ⟨hframe, hreturnsAs, -, Fs, hFs, hfunctions⟩, hu⟩
    refine ⟨ds, ?_⟩
    have hactive : u.active = s.active := hu ▸ rfl
    have hsame : u.frame = s.frame := hu ▸ hframe
    have hsafe (l : Label) (hl : s.Safe ds l) : u.Safe ds l := by
      unfold State.Safe
      rw [hactive, hsame]
      exact hl
    refine
      { sealed := ?_, grows := hactive ▸ .refl _, safe := hsafe, takes := fun k hk => ?_
        returns := ⟨[], (List.append_nil _).symm, .nil⟩, outside := ?_
        functions := ⟨Fs ++ [t.active], ?_, List.rel_append hfunctions (.cons hreturnsAs .nil)⟩ }
    · exact
        { routine := by rw [hactive, hsame]; exact h.routine
          slots := hactive ▸ h.slots
          inside := hactive ▸ h.inside
          byRef := hactive ▸ h.byRef
          frame := hsame ▸ h.frame
          slot := by rw [hactive, hsame]; exact h.slot
          exit := by rw [hactive, hsame]; exact h.exit
          loops := fun loop hloop kind => hsafe _ (h.loops loop (hsame ▸ hloop) kind)
          named := fun p hp => hsafe _ (h.named p (hsame ▸ hp))
          opened := fun o ho => hsafe _ (h.opened o (hactive ▸ ho)) }
    · unfold State.Takes
      rw [hactive, hsame]
      exact hk
    · rw [hu]
      exact Chunk.outside_withFunctions _ s.sink
    · rw [hu, Array.toList_push, hFs, List.append_assoc]

/-! ### Statements -/

/-- The memory of the rules made for the program keeps the rule of a statement. -/
theorem seals_byStmtRule (hcfg : c.registry = .standard) {kind : StmtKind} {tag : StmtTag}
    {code : Home StmtKind → Emit Chunk Unit} (hcode : ∀ home, Seals cfg b ls exprs fs (code home)) :
    Seals cfg b ls exprs fs (byStmtRule c kind tag code) where
  ends {ds s} h hls := by
    have htable : Seals cfg b ls [] [] (onTable (RuleTable.stmt c.registry kind tag.id) : Emit Chunk _) :=
      inferInstance
    unfold byStmtRule
    refine ((htable.ends h hls).and (hcfg ▸ ends_onTable_stmt s kind tag.id)).bind ?_
    rintro _ t ⟨⟨ds₁, ht⟩, rfl⟩
    rw [if_pos rfl]
    exact ((hcode _).ends ht.sealed fun l hl => ht.safe l (hls l hl)).mono fun _ _ ⟨ds₂, hu⟩ => ⟨ds₂, ht.trans hu⟩

/-- A statement says where it is in the source. -/
theorem seals_sequencePoint (span : Span) : Seals cfg b ls [] [] (Pass.update fun s =>
    { s with sink := Sink.sequencePoint span s.sink } : Emit Chunk Unit) where
  ends {ds s} h _ := by
    have hrun : ({ s with sink := Sink.sequencePoint span s.sink } : State Chunk) =
        s.withActive { s.active with currentSpan := span } := by
      show ({ s with sink := (Chunk.onActive (fun r => ((), { r with currentSpan := span })) s.sink).2 } :
        State Chunk) = _
      rw [Chunk.onActive_eq]
      rfl
    have hactive := s.active_withActive { s.active with currentSpan := span }
    have htidy : Tidy s (s.withActive { s.active with currentSpan := span }) :=
      .withActive h.slots (.of_eq rfl rfl rfl rfl) rfl rfl rfl rfl
    have haside : Aside [] ds s (s.withActive { s.active with currentSpan := span }) := by
      refine htidy.aside_of_code ?_ ?_
      · rw [hactive]
        exact .of_labels rfl (Nat.le_refl _) rfl
      · rw [hactive]
    exact .update (hrun ▸ ⟨ds, haside.passes h nofun htidy.vacant⟩)

theorem seals_statement (hcfg : c.registry = .standard) {kind : StmtKind} {tag : StmtTag}
    {code : Home StmtKind → Emit Chunk Unit} (hcode : ∀ home, Seals cfg b ls exprs fs (code home)) :
    Seals cfg b ls exprs fs (statement c kind tag code) := by
  have hpoint : Seals cfg b ls [] [] (Pass.update fun s => { s with sink := Sink.sequencePoint tag.span s.sink } :
      Emit Chunk Unit) := seals_sequencePoint tag.span
  have hreporting : Seals cfg b ls exprs fs (reporting tag.span (byStmtRule c kind tag code)) :=
    ⟨fun h hls => ends_reporting tolerates_anyFailure ((seals_byStmtRule hcfg hcode).ends h hls)⟩
  unfold statement
  infer_instance

theorem SealsClauses.unlessEmpty {catches : List Catch}
    (h : ∀ regionEnd k, Seals cfg b [regionEnd] (Stmt.returns (Stmt.ownOfCatches catches))
      (Stmt.functionsOfCatches catches) (lowerClauses cfg catches regionEnd k)) :
    SealsClauses cfg b (!catches.isEmpty) (Stmt.returns (Stmt.ownOfCatches catches))
      (Stmt.functionsOfCatches catches) (lowerClauses cfg catches) := by
  cases catches with
  | nil => exact ⟨rfl, rfl⟩
  | cons => exact h

end Statements

end Lowering

/-- What is given to the returns among some statements is what the routine returns. -/
def Stmt.ReturnedIn (b : Bool) (ys : List Stmt) : Prop :=
  ∀ expr ∈ Stmt.returns ys, ∀ e ∈ expr, e.Returned b

/-- The same of functions, each with its own way to return. -/
def Stmt.ReturnedFrom (fs : List (FunctionHead × List Stmt)) : Prop :=
  ∀ p ∈ fs, Stmt.ReturnedIn p.1.byRef (Stmt.ownOf p.2)

theorem Stmt.returns_append (ys ys' : List Stmt) : Stmt.returns (ys ++ ys') = Stmt.returns ys ++ Stmt.returns ys' :=
  List.filterMap_append

theorem Stmt.returnedIn_append {b : Bool} {ys ys' : List Stmt} :
    Stmt.ReturnedIn b (ys ++ ys') ↔ Stmt.ReturnedIn b ys ∧ Stmt.ReturnedIn b ys' := by
  unfold Stmt.ReturnedIn
  rw [Stmt.returns_append, List.forall_mem_append]

theorem Stmt.returnedFrom_append {fs fs' : List (FunctionHead × List Stmt)} :
    Stmt.ReturnedFrom (fs ++ fs') ↔ Stmt.ReturnedFrom fs ∧ Stmt.ReturnedFrom fs' :=
  List.forall_mem_append

namespace Lowering

variable {cfg : Setting} {b : Bool} {ls : List Label}

mutual

theorem seals_lowerStmt (hcfg : cfg.registry = .standard) :
    ∀ (x : Stmt) {b : Bool} {ls : List Label}, Stmt.ReturnedIn b x.own → Stmt.ReturnedFrom x.functions →
      Seals cfg b ls (Stmt.returns x.own) x.functions (lowerStmt cfg x)
  | .expression _ e, b, ls, _, _ =>
    have hcode : Seals cfg b ls [] [] (do let _ ← discard (← lower cfg e .value)) := inferInstance
    seals_statement hcfg fun _ => hcode
  | .echo _ es, _, _, _, _ => seals_statement hcfg fun _ => seals_echoAll es
  | .block _ body, _, _, h, hfs => seals_statement hcfg fun _ => seals_lowerStmts hcfg body h hfs
  | .branch _ condition thenBody elseBody, b, ls, h, hfs => by
    obtain ⟨h₁, h₂⟩ := Stmt.returnedIn_append.mp h
    obtain ⟨hfs₁, hfs₂⟩ := Stmt.returnedFrom_append.mp hfs
    have hthen : Seals cfg b ls (Stmt.returns (Stmt.ownOf thenBody)) (Stmt.functionsOf thenBody)
        (lowerStmts cfg thenBody) := seals_lowerStmts hcfg thenBody h₁ hfs₁
    have helse : SealsOptional cfg b ls (Stmt.returns (Stmt.ownOfOptional elseBody))
        (Stmt.functionsOfOptional elseBody) (lowerOptional cfg elseBody) := seals_lowerOptional hcfg elseBody h₂ hfs₂
    have hboth := seals_branchCode (c := cfg) condition hthen helse
    rw [← Stmt.returns_append] at hboth
    exact seals_statement hcfg fun _ => hboth
  | .loop _ condition body, b, ls, h, hfs => by
    have hbody : Seals cfg b ls (Stmt.returns (Stmt.ownOf body)) (Stmt.functionsOf body) (lowerStmts cfg body) :=
      seals_lowerStmts hcfg body h hfs
    exact seals_statement hcfg fun _ => seals_loopCode condition hbody
  | .jump tag kind expr, b, ls, h, _ => by
    have heq : Stmt.returns (Stmt.jump tag kind expr).own = (Stmt.jump tag kind expr).return?.toList := by
      cases kind <;> rfl
    have hreturned : ∀ e ∈ (Stmt.jump tag kind expr).return?, ∀ e' ∈ e, e'.Returned b := fun e he =>
      h e (by rw [heq]; exact Option.mem_toList.mpr he)
    rw [heq]
    exact seals_statement hcfg fun _ => seals_jumpCode tag kind hreturned
  | .goto _ name, _, _, _, _ => seals_statement hcfg fun _ => seals_goto name
  | .label _ name, _, _, _, _ => seals_statement hcfg fun home => seals_labelCode name home
  | .tryCatch _ body catches cleanup, b, ls, h, hfs => by
    obtain ⟨h₁, h'⟩ := Stmt.returnedIn_append.mp h
    obtain ⟨h₂, h₃⟩ := Stmt.returnedIn_append.mp h'
    obtain ⟨hfs₁, hfs'⟩ := Stmt.returnedFrom_append.mp hfs
    obtain ⟨hfs₂, hfs₃⟩ := Stmt.returnedFrom_append.mp hfs'
    have hbody : Seals cfg b ls (Stmt.returns (Stmt.ownOf body)) (Stmt.functionsOf body) (lowerStmts cfg body) :=
      seals_lowerStmts hcfg body h₁ hfs₁
    have hregion := seals_tryCode (c := cfg) hbody
      (SealsClauses.unlessEmpty (seals_lowerClauses hcfg catches h₂ hfs₂)) (seals_lowerOptional hcfg cleanup h₃ hfs₃)
    rw [← Stmt.returns_append, ← Stmt.returns_append] at hregion
    exact seals_statement hcfg fun _ => hregion
  | .throw _ e, b, ls, _, _ =>
    have hcode : Seals cfg b ls [] [] (do let _ ← boxed (lower cfg e); emit .throw) := inferInstance
    seals_statement hcfg fun _ => hcode
  | .unset _ es, _, _, _, _ => seals_statement hcfg fun _ => seals_unsetAll es
  | .constDecl _ name e, b, ls, _, _ =>
    have hcode : Seals cfg b ls [] [] (do let _ ← boxed (lower cfg e); emit (.defineConstant name)) := inferInstance
    seals_statement hcfg fun _ => hcode
  | .function _ head body _, _, _, _, hfs =>
    have hinner := Stmt.returnedFrom_append.mp hfs
    seals_statement hcfg fun _ => seals_function head
      (seals_lowerStmts hcfg body (hinner.2 (head, body) (List.mem_singleton_self _)) hinner.1)
  | .empty _ _, _, _, _, _ => seals_statement hcfg fun _ => seals_pure ()
termination_by structural x => x

/-- **The returns of all statements are deliveries.** -/
theorem seals_lowerStmts (hcfg : cfg.registry = .standard) :
    ∀ (xs : List Stmt) {b : Bool} {ls : List Label}, Stmt.ReturnedIn b (Stmt.ownOf xs) →
      Stmt.ReturnedFrom (Stmt.functionsOf xs) →
      Seals cfg b ls (Stmt.returns (Stmt.ownOf xs)) (Stmt.functionsOf xs) (lowerStmts cfg xs)
  | [], _, _, _, _ => seals_pure ()
  | x :: rest, _, _, h, hfs => by
    obtain ⟨h₁, h₂⟩ := Stmt.returnedIn_append.mp h
    obtain ⟨hfs₁, hfs₂⟩ := Stmt.returnedFrom_append.mp hfs
    rw [Stmt.ownOf, Stmt.returns_append]
    exact seals_seq (seals_lowerStmt hcfg x h₁ hfs₁) fun _ => seals_lowerStmts hcfg rest h₂ hfs₂
termination_by structural xs => xs

theorem seals_lowerOptional (hcfg : cfg.registry = .standard) :
    ∀ (part : Option (List Stmt)) {b : Bool} {ls : List Label}, Stmt.ReturnedIn b (Stmt.ownOfOptional part) →
      Stmt.ReturnedFrom (Stmt.functionsOfOptional part) →
      SealsOptional cfg b ls (Stmt.returns (Stmt.ownOfOptional part)) (Stmt.functionsOfOptional part)
        (lowerOptional cfg part)
  | none, _, _, _, _ => ⟨rfl, rfl⟩
  | some body, _, _, h, hfs => seals_lowerStmts hcfg body h hfs
termination_by structural part => part

theorem seals_lowerClauses (hcfg : cfg.registry = .standard) :
    ∀ (cs : List Catch) {b : Bool}, Stmt.ReturnedIn b (Stmt.ownOfCatches cs) →
      Stmt.ReturnedFrom (Stmt.functionsOfCatches cs) → ∀ (regionEnd : Label) (k : Temp),
      Seals cfg b [regionEnd] (Stmt.returns (Stmt.ownOfCatches cs)) (Stmt.functionsOfCatches cs)
        (lowerClauses cfg cs regionEnd k)
  | [], _, _, _, _, _ => seals_pure ()
  | .clause _ type _ body resolved :: rest, b, h, hfs, regionEnd, k => by
    obtain ⟨h₁, h₂⟩ := Stmt.returnedIn_append.mp h
    obtain ⟨hfs₁, hfs₂⟩ := Stmt.returnedFrom_append.mp hfs
    have hbody : Seals cfg b [regionEnd] (Stmt.returns (Stmt.ownOf body)) (Stmt.functionsOf body)
        (lowerStmts cfg body) := seals_lowerStmts hcfg body h₁ hfs₁
    rw [Stmt.ownOfCatches, Stmt.returns_append]
    exact seals_seq (seals_clauseCode (List.mem_singleton_self _) _ _) fun _ =>
      seals_lowerClauses hcfg rest h₂ hfs₂ regionEnd k
termination_by structural cs => cs

end

end Lowering
end PhpLowering
