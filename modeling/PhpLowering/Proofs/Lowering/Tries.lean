import PhpLowering.Proofs.Lowering.Leaving

/-!
# Exception regions and the statements they are made of

A region grows block by block.  `InRegion` is what is known while it is open: the complete blocks are a
row that no branch leaves, and so is the code of the block at hand.  This is because no label leads out
of a region that has been entered: all loops around are further outside, and so is the code that returns.
When the region is recorded, it is that of its statement.

**`writes_lowerStmts`**: the code of statements has the regions of its `try` statements, in the order in
which they end.  **`arranged_routineCode`** says what follows for the routine as a whole.
-/

namespace PhpLowering

namespace OpenRegion

variable {o : OpenRegion} {kind : HandlerKind} {q : Nat}

/-- The complete blocks. -/
def blocks (o : OpenRegion) : List (Nat × Nat) :=
  (o.tryStop.toList.map fun q => (o.tryStart, q)) ++ o.handlers.reverse.map fun h => (h.start, h.stop)

/-- What the handlers are, the one at hand included. -/
def kinds (o : OpenRegion) : List HandlerKind :=
  o.handlers.reverse.map Handler.kind ++
    match o.block with
    | .guarded => []
    | .handler kind => [kind]

/-- The guarded block comes first. -/
structure Proper (o : OpenRegion) : Prop where
  guarded : o.block = .guarded → o.tryStop = none ∧ o.handlers = [] ∧ o.blockStart = o.tryStart
  handler : o.block ≠ .guarded → o.tryStop.isSome = true

theorem proper_begin (q : Nat) (l : Label) : (begin q l).Proper :=
  ⟨fun _ => ⟨rfl, rfl, rfl⟩, fun h => absurd rfl h⟩

theorem Proper.blocks_close (h : o.Proper) : (o.close q).blocks = o.blocks ++ [(o.blockStart, q)] := by
  unfold close
  split
  · rename_i hblock
    obtain ⟨hstop, hhandlers, hstart⟩ := h.guarded hblock
    simp [blocks, hstop, hhandlers, hstart]
  · simp [blocks]

theorem Proper.isSome_close (h : o.Proper) : (o.close q).tryStop.isSome = true := by
  unfold close
  split
  · rfl
  · rename_i hblock
    exact h.handler (by rw [hblock]; rintro ⟨⟩)

theorem Proper.next (h : o.Proper) : ((o.close q).enter kind q).Proper :=
  ⟨nofun, fun _ => h.isSome_close⟩

theorem blocks_enter (kind : HandlerKind) (q : Nat) : (o.enter kind q).blocks = o.blocks := rfl

theorem kinds_next : ((o.close q).enter kind q).kinds = o.kinds ++ [kind] := by
  unfold close
  split
  · rename_i hblock
    simp [kinds, enter, hblock]
  · rename_i hblock
    simp [kinds, enter, hblock]

theorem kinds_complete : ((o.close q).complete q).handlers.map Handler.kind = o.kinds := by
  unfold close
  split
  · rename_i hblock
    simp [kinds, complete, hblock]
  · rename_i hblock
    simp [kinds, complete, hblock]

theorem Proper.blocks_complete (h : o.Proper) :
    ((o.close q).complete q).blocks = o.blocks ++ [(o.blockStart, q)] := by
  rw [← h.blocks_close]
  obtain ⟨stop, hstop⟩ := Option.isSome_iff_exists.mp (h.isSome_close (q := q))
  simp [complete, Region.blocks, blocks, hstop]

/-- Handlers that are complete stay the first ones. -/
theorem prefix_close : o.handlers.reverse <+: (o.close q).handlers.reverse := by
  unfold close
  split
  · exact List.prefix_rfl
  · exact ⟨_, (List.reverse_cons ..).symm⟩

end OpenRegion

namespace Routine

variable {r r' : Routine} {o : OpenRegion} {outer : List OpenRegion} {kind : HandlerKind}

/-- Starting a handler closes the block at hand with a branch to the end of the region. -/
theorem beginHandler_ok (hopened : r.openRegions = o :: outer) (h : beginHandler kind r = (.ok (), r')) :
    r' = { r.push (.leave o.endLabel) with
      openRegions := (o.close (r.position + 1)).enter kind (r.position + 1) :: outer } := by
  simp only [beginHandler, hopened, position_push] at h
  split at h
  · cases h
  · exact (Prod.mk.inj h).2.symm

/-- A region that is ended is recorded. -/
structure Ended (r : Routine) (o : OpenRegion) (outer : List OpenRegion) (r' : Routine) : Prop where
  code : ∃ i : Instruction, i.branchTargets = [] ∧ r'.code = r.code.push i
  regions : r'.regions = r.regions.push ((o.close (r.position + 1)).complete (r.position + 1))
  opened : r'.openRegions = outer
  endLabel : r'.labelPosition? o.endLabel = some (r.position + 1)
  freeTemps : r'.freeTemps = r.freeTemps
  tempCount : r'.tempCount = r.tempCount

theorem endRegion_ok (hopened : r.openRegions = o :: outer) (h : endRegion r = (.ok (), r')) :
    r.Ended o outer r' := by
  have hmark : ∀ i : Instruction, i.branchTargets = [] → markLabel o.endLabel { r.push i with
      openRegions := outer
      regions := r.regions.push ((o.close (r.position + 1)).complete (r.position + 1)) } =
        (.ok (), r') → r.Ended o outer r' := by
    intro i hi hrun
    unfold markLabel at hrun
    split at hrun
    · rename_i hnone
      have hbound := (Array.getElem?_eq_some_iff.mp hnone).1
      obtain rfl := (Prod.mk.inj hrun).2
      refine ⟨⟨i, hi, rfl⟩, rfl, rfl, ?_, rfl, rfl⟩
      simp only [labelPosition?, Array.getElem?_setIfInBounds_self_of_lt hbound]
      exact congrArg some (position_push (r := r) i)
    · cases hrun
  simp only [endRegion, hopened] at h
  split at h
  · cases h
  · simp only [position_push] at h
    refine hmark _ ?_ h
    split <;> rfl

end Routine

namespace Lowering

open Pass (Ends)

variable {cfg : Setting} {G : Prop} {A : Label → Prop} {tries tries' : List Stmt}
  {fs fs' : List (FunctionHead × List Stmt)} {s t u : State Chunk} {l : Label} {k : Temp}
  {x : Emit Chunk Unit} {o : OpenRegion} {kind : HandlerKind}

/-- No label leads out of here. -/
structure Frame.IsShut (f : Frame) : Prop where
  nesting : f.exceptionNesting ≠ 0
  levels : ∀ loop ∈ f.loops, loop.exceptionLevel ≠ f.exceptionNesting

theorem Frame.IsShut.not_leads {f : Frame} (h : f.IsShut) : ¬ f.Leads G l := by
  rintro (⟨loop, hloop, hlevel, -⟩ | ⟨hzero, -⟩)
  · exact h.levels loop hloop hlevel
  · exact h.nesting hzero

/-- In the middle of a region that was begun in an earlier state. -/
structure InRegion (cfg : Setting) (tries : List Stmt) (fs : List (FunctionHead × List Stmt))
    (o : OpenRegion) (s t : State Chunk) : Prop extends Kept cfg fs s t where
  shut : s.frame.IsShut
  proper : o.Proper
  start : o.tryStart = s.active.position
  opened : t.active.openRegions = o :: s.active.openRegions
  code : ∃ Rs Rs', t.active.regions.toList = s.active.regions.toList ++ (Rs ++ Rs') ∧
    t.active.Mirrors cfg tries (Rs ++ Rs') ∧
    Fenced t.active o.blocks s.active.position o.blockStart Rs ∧
    Confined t.active (fun _ => False) o.blockStart t.active.position Rs'

namespace InRegion

/-- Some more code in the block at hand. -/
theorem andThen (h : InRegion cfg tries fs o s t) (h' : Covers cfg G [] tries' fs' t u) :
    InRegion cfg (tries ++ tries') (fs ++ fs') o s u where
  toKept := h.toKept.trans h'.toKept
  shut := h.shut
  proper := h.proper
  start := h.start
  opened := h'.opened.trans h.opened
  code := by
    obtain ⟨Rs, Rs', hRs, hregions, hfenced, hcode⟩ := h.code
    obtain ⟨Rs'', hRs'', hregions', hcode'⟩ := h'.code
    have hshut : u.frame.IsShut := by
      refine ⟨?_, ?_⟩
      · rw [h'.nesting, h.nesting]
        exact h.shut.nesting
      · rw [h'.loops, h.loops, h'.nesting, h.nesting]
        exact h.shut.levels
    refine ⟨Rs, Rs' ++ Rs'', ?_, ?_, hfenced.grows h'.grows, (hcode.grows h'.grows).seq (hcode'.mono ?_)⟩
    · rw [hRs'', hRs, List.append_assoc, List.append_assoc]
    · rw [← List.append_assoc]
      refine (hregions.grows h'.grows).append hregions' fun R hR S hS => ?_
      have hstart := (hcode'.within S hS).start
      have hle := hcode.le
      rcases List.mem_append.mp hR with hR | hR
      · have hstop := (hfenced.within R hR).1.stop
        omega
      · have hstop := (hcode.within R hR).stop
        omega
    · rintro l (hl | hl)
      · exact nomatch hl
      · exact hshut.not_leads hl

/-- A step that is no statement by itself. -/
theorem step (h : InRegion cfg tries fs o s t) (h' : Covers cfg G [] [] [] t u) :
    InRegion cfg tries fs o s u := by
  have hboth := h.andThen h'
  rwa [List.append_nil, List.append_nil] at hboth

end InRegion

/-- Work on the routine at hand that leaves its slots alone. -/
theorem Kept.withActive (cfg : Setting) {r : Routine} (hs : Orderly s) (hgrows : s.active.Grows r)
    (hfree : r.freeTemps = s.active.freeTemps) (hcount : r.tempCount = s.active.tempCount) :
    Kept cfg [] s (s.withActive r) where
  grows := by rwa [State.active_withActive]
  orderly := by
    refine ⟨?_, hs.levels, hs.returns⟩
    rw [State.active_withActive]
    exact ⟨hfree ▸ hs.slots.nodup, by rw [hfree, hcount]; exact hs.slots.bound⟩
  vacant k hk := by rwa [State.active_withActive, Routine.Vacant, hfree, hcount] at hk
  loops := rfl
  nesting := rfl
  epilogue _ hl := hl
  outside := Chunk.outside_withActive r s.sink
  functions := ⟨[], by
    show (s.sink.withActive r).functions.toList = _
    rw [Chunk.functions_withActive, List.append_nil], .nil⟩

/-- A region begins where the code ends. -/
theorem Orderly.beginTry (hs : Orderly s) (cfg : Setting) (hshut : s.frame.IsShut) :
    Ends (toSink Sink.beginTry) s (fun l t => InRegion cfg [] [] (.begin s.active.position l) s t)
      anyFailure := by
  have hgrows := s.active.grows_beginTry
  refine ends_toSink (.of_eq (a := s.active.defineLabel.1) (t := s.active.beginTry.2) rfl ?_)
  have hactive := s.active_withActive s.active.beginTry.2
  refine
    { toKept := .withActive cfg hs hgrows rfl rfl, shut := hshut, proper := OpenRegion.proper_begin _ _
      start := rfl, opened := congrArg Routine.openRegions hactive
      code := ⟨[], [], ?_, .nil, ?_, ?_⟩ }
  · rw [hactive, List.append_nil, List.append_nil]
    rfl
  all_goals rw [hactive]
  · exact .nil (Nat.le_refl s.active.position)
  · exact .nil (Nat.le_refl s.active.position)

/-- A handler begins a new block. -/
theorem InRegion.beginHandler (h : InRegion cfg tries fs o s t) (kind : HandlerKind) :
    Ends (toSink (Chunk.onActive (Routine.beginHandler kind))) t (fun _ u =>
      InRegion cfg tries fs ((o.close (t.active.position + 1)).enter kind (t.active.position + 1)) s u ∧
        t.active.Grows u.active ∧ u.active.position = t.active.position + 1 ∧
          u.active.code[t.active.position]? = some (.leave o.endLabel)) anyFailure := by
  refine ends_toSink (.intro (fun _ r hrun => ?_) fun _ _ _ => trivial)
  have hgrows := Routine.grows_beginHandler kind t.active
  rw [hrun] at hgrows
  obtain rfl := Routine.beginHandler_ok h.opened hrun
  have hkept := h.toKept.trans (Kept.withActive cfg h.orderly hgrows rfl rfl)
  rw [List.append_nil] at hkept
  obtain ⟨Rs, Rs', hRs, hregions, hfenced, hcode⟩ := h.code
  have hlast := t.active.code_push_self (.leave o.endLabel)
  have hend : t.active.position + 1 = (t.active.push (.leave o.endLabel)).position :=
    (Routine.position_push _).symm
  simp only [State.active_withActive]
  refine ⟨{ toKept := hkept, shut := h.shut, proper := h.proper.next, start := ?_, opened := ?_
            code := ⟨Rs ++ Rs', [], ?_, ?_, ?_, ?_⟩ }, hgrows, hend.symm, hlast⟩
  · exact (OpenRegion.tryStart_close o _).trans h.start
  · rw [State.active_withActive]
  · rw [State.active_withActive, List.append_nil]
    exact hRs
  · rw [State.active_withActive, List.append_nil]
    exact hregions.grows hgrows
  · rw [State.active_withActive, OpenRegion.blocks_enter, h.proper.blocks_close]
    exact (hfenced.grows hgrows).block (hcode.grows hgrows) hlast rfl
  · rw [State.active_withActive]
    show Confined _ _ (t.active.position + 1) (t.active.push (.leave o.endLabel)).position []
    rw [← hend]
    exact .nil (Nat.le_of_eq hend)

/-- A statement is a `try` with certain parts. -/
structure IsTry (cfg : Setting) (y : Stmt) (clauses cleanup : Bool) (tries : List Stmt) : Prop where
  hasClauses : y.hasClauses = clauses
  hasCleanup : y.hasCleanup = cleanup
  inner : y.inner.filter (isRegion cfg) = tries
  isRegion : isRegion cfg y = isGuarded cfg clauses cleanup

/-- A region that is ended is the region of its statement. -/
theorem InRegion.endRegion {y : Stmt} {hasClauses hasCleanup : Bool} (h : InRegion cfg tries fs o s t)
    (hy : IsTry cfg y hasClauses hasCleanup tries) (hkinds : o.kinds = handlerKinds hasClauses hasCleanup)
    (hrethrows : hasClauses = true → ∃ h rest, o.handlers.reverse = h :: rest ∧
      t.active.Rethrows h o.endLabel) :
    Ends (toSink (Chunk.onActive Routine.endRegion)) t (fun _ u => Wrote cfg A (tries ++ [y]) fs s u)
      anyFailure := by
  refine ends_toSink (.intro (fun _ r hrun => ?_) fun _ _ _ => trivial)
  have hgrows := Routine.grows_endRegion t.active
  rw [hrun] at hgrows
  have hended := Routine.endRegion_ok h.opened hrun
  have hkept := h.toKept.trans (Kept.withActive cfg h.orderly hgrows hended.freeTemps
    hended.tempCount)
  rw [List.append_nil] at hkept
  obtain ⟨Rs, Rs', hRs, hregions, hfenced, hcode⟩ := h.code
  obtain ⟨i, hi, hpush⟩ := hended.code
  have hlast : r.code[t.active.position]? = some i := by
    rw [hpush]
    exact Array.getElem?_push_size
  have hposition : r.position = t.active.position + 1 := by
    unfold Routine.position
    rw [hpush, Array.size_push]
  obtain ⟨R, hR⟩ : ∃ R, R = (o.close (t.active.position + 1)).complete (t.active.position + 1) := ⟨_, rfl⟩
  have hstart : R.tryStart = s.active.position := by
    rw [hR]
    exact (OpenRegion.tryStart_close o _).trans h.start
  have hstop : R.stop = t.active.position + 1 := by
    rw [hR]
    rfl
  have hblocks : R.blocks = o.blocks ++ [(o.blockStart, t.active.position + 1)] := by
    rw [hR]
    exact h.proper.blocks_complete
  have hregion : r.IsRegionOf y R := by
    refine ⟨?_, fun hc => ?_⟩
    · rw [hR, OpenRegion.kinds_complete, hkinds, hy.hasClauses, hy.hasCleanup]
    · rw [hy.hasClauses] at hc
      obtain ⟨first, rest, hfirst, hrethrows⟩ := hrethrows hc
      obtain ⟨more, hmore⟩ := o.prefix_close (q := t.active.position + 1)
      refine ⟨first, o.endLabel, ?_, hrethrows.grows hgrows, ?_⟩
      · rw [hR]
        show (o.close _).handlers.reverse.head? = _
        rw [← hmore, hfirst]
        rfl
      · rw [hstop]
        exact hended.endLabel
  have hrow := (hfenced.grows hgrows).block (hcode.grows hgrows) hlast hi
  rw [← hblocks, ← hstop, ← hstart] at hrow
  refine { toKept := hkept, opened := ?_, code := ⟨Rs ++ Rs' ++ [R], ?_, ?_, ?_⟩ }
  all_goals rw [State.active_withActive]
  · exact hended.opened
  · rw [hended.regions, Array.toList_push, hRs, hR]
    exact List.append_assoc ..
  · obtain rfl := hy.inner
    exact .region (hregions.grows hgrows) (fun S hS => (hrow.within S hS).2) hregion
  · have hconfined : Confined r A R.tryStart R.stop (Rs ++ Rs' ++ [R]) := hrow.region
    rwa [hstart, hstop, ← hposition] at hconfined

namespace InRegion

/-- A slot that was vacant is given back. -/
theorem returnTemp (h : InRegion cfg tries fs o s t) (hk : s.active.Vacant k)
    (htaken : ¬ t.active.Vacant k) :
    InRegion cfg tries fs o s { t with sink := Sink.returnTemp k t.sink } where
  toKept := h.toKept.returnTemp hk htaken
  shut := h.shut
  proper := h.proper
  start := h.start
  opened := (sameBesides_returnTemp k t.sink).opened.trans h.opened
  code := by
    have hsame := sameBesides_returnTemp k t.sink
    have hgrows : t.active.Grows (Sink.returnTemp k t.sink).active := grows_active_returnTemp k t.sink
    obtain ⟨Rs, Rs', hRs, hregions, hfenced, hcode⟩ := h.code
    refine ⟨Rs, Rs', (congrArg Array.toList hsame.regions).trans hRs,
      hregions.grows hgrows, hfenced.grows hgrows, ?_⟩
    show Confined (Sink.returnTemp k t.sink).active _ o.blockStart
      (Sink.returnTemp k t.sink).active.position Rs'
    rw [position_active_returnTemp]
    exact hcode.grows hgrows

end InRegion

/-- In the handler of the clauses, or in front of the cleanup: what is known of the region. -/
structure Handling (cfg : Setting) (tries : List Stmt) (fs : List (FunctionHead × List Stmt))
    (hasClauses : Bool) (l : Label) (s t : State Chunk) (o : OpenRegion) : Prop where
  inRegion : InRegion cfg tries fs o s t
  endLabel : o.endLabel = l
  kinds : o.kinds = if hasClauses then [.catching uncatchableType, .catching hostType] else []
  rethrows : hasClauses = true → ∃ h rest, o.handlers.reverse = h :: rest ∧ t.active.Rethrows h l

/-- In front of the clauses an exception by which a dying program unwinds goes on, and any other one is
put into a slot. -/
theorem InRegion.handlersHead (h : InRegion cfg tries fs o s t) (hblock : o.block = .guarded) :
    Ends Lowering.handlersHead t (fun k u => s.active.Vacant k ∧ ¬ u.active.Vacant k ∧
      ∃ o', Handling cfg tries fs true o.endLabel s u o') anyFailure := by
  obtain ⟨-, hhandlers, -⟩ := h.proper.guarded hblock
  refine (h.beginHandler (.catching uncatchableType)).bind ?_
  rintro _ t₁ ⟨h₁, hgrows₁, hposition₁, -⟩
  refine (h₁.orderly.emit cfg True [] .rethrow nofun).bind ?_
  rintro _ t₂ ⟨h₂, -, hposition₂, hrethrow⟩
  refine ((h₁.step h₂).beginHandler (.catching hostType)).bind ?_
  rintro _ t₃ ⟨h₃, hgrows₃, hposition₃, hleave⟩
  refine (h₃.orderly.plain cfg True [] (.call .wrapHostException) rfl).bind ?_
  rintro _ t₄ ⟨h₄, -⟩
  refine (h₄.orderly.declareTemp cfg True []).bind ?_
  rintro k t₅ ⟨h₅, -, hk, htaken⟩
  refine (h₅.orderly.plain cfg True [] (.storeTemp k) rfl).bind ?_
  rintro _ t₆ ⟨h₆, -⟩
  have hregion := ((h₃.step h₄).step h₅).step h₆
  have hrest := ((h₄.andThen h₅).andThen h₆).grows
  refine .pure ⟨(h₃.step h₄).vacant k hk, fun hvacant => htaken (h₆.vacant k hvacant), _, hregion, ?_, ?_,
    fun _ => ⟨⟨.catching uncatchableType, t.active.position + 1, t₂.active.position + 1⟩, [], ?_, ?_, ?_, ?_⟩⟩
  · exact (OpenRegion.endLabel_close _ _).trans (OpenRegion.endLabel_close o _)
  · rw [OpenRegion.kinds_next, OpenRegion.kinds_next, OpenRegion.kinds, hhandlers, hblock]
    rfl
  · simp [OpenRegion.close, OpenRegion.enter, hblock, hhandlers]
  · show t₂.active.position + 1 = t.active.position + 1 + 2
    omega
  · rw [hposition₁] at hrethrow
    exact hrest.code (hgrows₃.code hrethrow)
  · have hlabel : ((o.close (t.active.position + 1)).enter (.catching uncatchableType)
        (t.active.position + 1)).endLabel = o.endLabel := OpenRegion.endLabel_close o _
    rw [hposition₂, hposition₁, hlabel] at hleave
    exact hrest.code hleave

/-- The handlers of a region with clauses. -/
theorem InRegion.handlersCode {clauses : Label → Temp → Emit Chunk Unit}
    (h : InRegion cfg tries fs o s t) (hblock : o.block = .guarded)
    (hclauses : WritesClauses cfg G tries' fs' clauses) :
    Ends (Lowering.handlersCode (clauses o.endLabel)) t (fun _ u =>
      ∃ o', Handling cfg (tries ++ tries') (fs ++ fs') true o.endLabel s u o') anyFailure := by
  refine (h.handlersHead hblock).bind ?_
  rintro k t₁ ⟨hk, htaken, o', h₁⟩
  refine (hclauses o.endLabel k t₁ h₁.inRegion.orderly).bind fun _ t₂ h₂ => ?_
  refine (h₂.orderly.plain cfg G [] .rethrow rfl).bind ?_
  rintro _ t₃ ⟨h₃, -⟩
  have hregion := (h₁.inRegion.andThen h₂).step h₃
  have htaken' : ¬ t₃.active.Vacant k := fun hvacant => htaken (h₂.vacant k (h₃.vacant k hvacant))
  refine .update ⟨o', hregion.returnTemp hk htaken', h₁.endLabel, h₁.kinds, fun hc => ?_⟩
  obtain ⟨first, rest, hfirst, hrethrows⟩ := h₁.rethrows hc
  exact ⟨first, rest, hfirst,
    (hrethrows.grows (h₂.grows.trans h₃.grows)).grows (grows_active_returnTemp k t₃.sink)⟩

/-- In front of the end of a region, all its handlers are there. -/
theorem Handling.cleanupCode {hasClauses : Bool} {cleanup : Option (Emit Chunk Unit)} {y : Stmt}
    (h : Handling cfg tries fs hasClauses l s t o) (hcleanup : WritesOptional cfg G tries' fs' cleanup)
    (hy : IsTry cfg y hasClauses cleanup.isSome (tries ++ tries')) :
    Ends (do
      Lowering.cleanupCode hasClauses cleanup
      toSink Sink.endRegion) t (fun _ u => Wrote cfg A (tries ++ tries' ++ [y]) (fs ++ fs') s u)
      anyFailure := by
  -- With a cleanup there is one more handler behind those that are complete.
  have hbegin : Ends (toSink (Chunk.onActive (Routine.beginHandler .cleanup))) t (fun _ u =>
      ∃ o', InRegion cfg tries fs o' s u ∧ o'.kinds = o.kinds ++ [.cleanup] ∧
        (hasClauses = true → ∃ h rest, o'.handlers.reverse = h :: rest ∧
          u.active.Rethrows h o'.endLabel)) anyFailure := by
    refine (h.inRegion.beginHandler .cleanup).mono ?_
    rintro _ u ⟨hu, hgrows, -, -⟩
    refine ⟨_, hu, OpenRegion.kinds_next, fun hc => ?_⟩
    obtain ⟨first, rest, hfirst, hrethrows⟩ := h.rethrows hc
    obtain ⟨more, hmore⟩ := o.prefix_close (q := t.active.position + 1)
    have hlabel : ((o.close (t.active.position + 1)).enter .cleanup (t.active.position + 1)).endLabel = l :=
      (OpenRegion.endLabel_close o _).trans h.endLabel
    rw [hlabel]
    refine ⟨first, rest ++ more, ?_, hrethrows.grows hgrows⟩
    show (o.close _).handlers.reverse = _
    rw [← hmore, hfirst, List.cons_append]
  have hkinds := h.kinds
  cases cleanup with
  | some z =>
    refine Ends.bind (Q := fun _ u => ∃ o', InRegion cfg (tries ++ tries') (fs ++ fs') o' s u ∧
      o'.kinds = o.kinds ++ [.cleanup] ∧ (hasClauses = true → ∃ h rest, o'.handlers.reverse = h :: rest ∧
        u.active.Rethrows h o'.endLabel)) (hbegin.bind ?_) ?_
    · rintro _ u ⟨o', hu, hkinds', hrethrows⟩
      refine (hcleanup u hu.orderly).mono fun _ v hv => ⟨o', hu.andThen hv, hkinds', fun hc => ?_⟩
      obtain ⟨first, rest, hfirst, hrethrows⟩ := hrethrows hc
      exact ⟨first, rest, hfirst, hrethrows.grows hv.grows⟩
    · rintro _ u ⟨o', hu, hkinds', hrethrows⟩
      refine hu.endRegion hy ?_ hrethrows
      rw [hkinds', hkinds]
      cases hasClauses <;> rfl
  | none =>
    obtain ⟨rfl, rfl⟩ := hcleanup
    rw [List.append_nil] at hy
    rw [List.append_nil, List.append_nil]
    cases hasClauses with
    | true =>
      refine h.inRegion.endRegion hy hkinds fun hc => ?_
      rw [h.endLabel]
      exact h.rethrows hc
    | false =>
      refine hbegin.bind ?_
      rintro _ u ⟨o', hu, hkinds', hrethrows⟩
      refine hu.endRegion hy ?_ hrethrows
      rw [hkinds', hkinds]
      rfl

/-- **An exception region** is the region of its statement. -/
theorem Orderly.regionCode {tries₁ tries₂ tries₃ : List Stmt} {fs₁ fs₂ fs₃ : List (FunctionHead × List Stmt)}
    {hasClauses : Bool} {clauses : Label → Temp → Emit Chunk Unit} {cleanup : Option (Emit Chunk Unit)}
    {y : Stmt} (hs : Orderly s) (hshut : s.frame.IsShut) (hx : Writes cfg G tries₁ fs₁ x)
    (hclauses : if hasClauses then WritesClauses cfg G tries₂ fs₂ clauses else tries₂ = [] ∧ fs₂ = [])
    (hcleanup : WritesOptional cfg G tries₃ fs₃ cleanup)
    (hy : IsTry cfg y hasClauses cleanup.isSome (tries₁ ++ (tries₂ ++ tries₃))) :
    Ends (Lowering.regionCode x hasClauses clauses cleanup) s (fun _ t =>
      Wrote cfg A (tries₁ ++ (tries₂ ++ tries₃) ++ [y]) (fs₁ ++ (fs₂ ++ fs₃)) s t) anyFailure := by
  refine (hs.beginTry cfg hshut).bind fun l t ht => ?_
  refine (hx t ht.orderly).bind fun _ u hu => ?_
  have hbody := ht.andThen hu
  rw [List.nil_append, List.nil_append] at hbody
  rw [← List.append_assoc] at hy
  rw [← List.append_assoc, ← List.append_assoc]
  cases hasClauses with
  | true =>
    refine (hbody.handlersCode rfl hclauses).bind ?_
    rintro _ v ⟨o, hv⟩
    exact hv.cleanupCode hcleanup hy
  | false =>
    obtain ⟨rfl, rfl⟩ := hclauses
    rw [List.append_nil] at hy
    rw [List.append_nil, List.append_nil]
    have hu : Handling cfg tries₁ fs₁ false l s u (.begin s.active.position l) := ⟨hbody, rfl, rfl, nofun⟩
    exact hu.cleanupCode hcleanup hy

/-- A `try` is a region, or no more than its body. -/
theorem writes_tryCode {tries₁ tries₂ tries₃ : List Stmt} {fs₁ fs₂ fs₃ : List (FunctionHead × List Stmt)}
    {hasClauses : Bool} {clauses : Label → Temp → Emit Chunk Unit} {cleanup : Option (Emit Chunk Unit)}
    {y : Stmt} (hx : Writes cfg G tries₁ fs₁ x)
    (hclauses : if hasClauses then WritesClauses cfg G tries₂ fs₂ clauses else tries₂ = [] ∧ fs₂ = [])
    (hcleanup : WritesOptional cfg G tries₃ fs₃ cleanup)
    (hy : IsTry cfg y hasClauses cleanup.isSome (tries₁ ++ (tries₂ ++ tries₃))) :
    Writes cfg G (tries₁ ++ (tries₂ ++ tries₃) ++ [y].filter (isRegion cfg)) (fs₁ ++ (fs₂ ++ fs₃))
      (tryCode cfg x hasClauses clauses cleanup) := by
  intro s hs
  rw [tryCode_eq]
  by_cases hguarded : isGuarded cfg hasClauses cleanup.isSome = true
  · rw [if_pos hguarded, List.filter_cons_of_pos (hy.isRegion.trans hguarded), List.filter_nil]
    have hinside : Orderly { s with frame := s.frame.enterException } :=
      ⟨hs.slots, fun loop hloop => Nat.le_succ_of_le (hs.levels loop hloop), hs.returns⟩
    have hshut : s.frame.enterException.IsShut :=
      ⟨Nat.succ_ne_zero _, fun loop hloop => Nat.ne_of_lt (Nat.lt_succ_of_le (hs.levels loop hloop))⟩
    refine .update_bind (.ensuring ((hinside.regionCode (A := fun _ => False) hshut hx hclauses hcleanup
      hy).mono fun _ u hu => ?_))
    have hloops : u.frame.loops = s.frame.loops := hu.loops
    have hnesting : u.frame.leaveException.exceptionNesting = s.frame.exceptionNesting := by
      rw [Frame.leaveException, hu.nesting]
      rfl
    have horderly : Orderly { u with frame := u.frame.leaveException } := by
      refine ⟨hu.orderly.slots, ?_, hu.orderly.returns⟩
      show ∀ loop ∈ u.frame.loops, loop.exceptionLevel ≤ u.frame.leaveException.exceptionNesting
      rw [hloops, hnesting]
      exact hs.levels
    exact (Wrote.reframe (g := u.frame.leaveException) hu horderly hloops hnesting hu.epilogue).mono
      fun _ h => h.elim
  · rw [if_neg hguarded, List.filter_cons_of_neg (by rwa [hy.isRegion]), List.filter_nil, List.append_nil]
    simp only [isGuarded, Bool.or_eq_true, not_or, Bool.not_eq_true, Option.isSome_eq_false_iff,
      Option.isNone_iff_eq_none] at hguarded
    obtain ⟨⟨rfl, rfl⟩, -⟩ := hguarded
    obtain ⟨rfl, rfl⟩ := hclauses
    obtain ⟨rfl, rfl⟩ := hcleanup
    rw [List.append_nil, List.append_nil, List.append_nil, List.append_nil]
    exact hx s hs

/-! ## Routines -/

/-- A routine has been emitted from its start to its end. -/
structure Completes (cfg : Setting) (G : Prop) (tries : List Stmt) (fs : List (FunctionHead × List Stmt))
    (s t : State Chunk) : Prop where
  outside : t.sink.outside = s.sink.outside
  functions : ∃ Fs, t.sink.functions.toList = s.sink.functions.toList ++ Fs ∧
    List.Forall₂ (fun p f => Routine.Arranged cfg p.2 f) fs Fs
  regions : t.active.Mirrors cfg tries t.active.regions.toList
  code : Confined t.active (fun _ => G) 0 t.active.position t.active.regions.toList

/-- The last instruction of a routine. -/
theorem Wrote.ret (h : Wrote cfg (fun _ => G) tries fs s t) (hempty : IsEmpty s.active)
    (hsame : SameBesides t.sink u.sink) (hgrows : t.active.Grows u.active)
    (hcode : u.active.code = t.active.code) :
    Ends (emit .ret) u (fun _ v => Completes cfg G tries fs s v ∧ v.frame = u.frame) anyFailure := by
  refine (ends_emit .ret u).mono ?_
  rintro _ _ rfl
  have hpush : t.active.Grows (u.active.push .ret) := hgrows.trans (u.active.grows_push .ret)
  have hposition : u.active.position = t.active.position := congrArg Array.size hcode
  have hret : (u.active.push .ret).code[t.active.position]? = some .ret := by
    rw [← hposition]
    exact u.active.code_push_self .ret
  obtain ⟨Rs, hRs, hregions, hconfined⟩ := h.code
  have hall : (u.active.push .ret).regions.toList = Rs := by
    have hbefore : t.active.regions.toList = Rs := by
      rw [hRs, hempty.regions]
      rfl
    exact (congrArg Array.toList hsame.regions).trans hbefore
  have hstart : s.active.position = 0 := congrArg Array.size hempty.code
  refine ⟨⟨?_, ?_, ?_, ?_⟩, rfl⟩
  · show (u.sink.withActive _).outside = _
    rw [Chunk.outside_withActive, hsame.others, Chunk.outside_withActive]
    exact h.outside
  · show ∃ Fs, (u.sink.withActive _).functions.toList = _ ∧ _
    rw [Chunk.functions_withActive, hsame.others, Chunk.functions_withActive]
    exact h.functions
  all_goals rw [State.active_withActive, hall]
  · exact hregions.grows hpush
  · have hboth := (hconfined.grows hpush).seq (.instruction hret nofun)
    rw [List.append_nil, hstart, ← hposition] at hboth
    rwa [Routine.position_push]

/-- Outside of all loops the only way out of the statements is the label to return to. -/
theorem Covers.outsideLoops (h : Covers cfg G [] tries fs s t) (hloops : t.frame.loops = []) :
    Wrote cfg (fun l => t.frame.epilogue = some l ∨ G) tries fs s t :=
  Wrote.mono h fun _ hl => (hl.resolve_left List.not_mem_nil).of_noLoops hloops

/-- The code that returns what was kept for it, with the mark of the label to return to. -/
theorem Covers.epilogue {e : Label} (h : Covers cfg G [] tries fs s t) (hempty : IsEmpty s.active)
    (hloops : t.frame.loops = []) (he : t.frame.epilogue = some e) (k : Temp) :
    Ends (do
      Lowering.emit (.storeTemp k)
      Lowering.mark e
      Lowering.emit (.loadTemp k)
      Lowering.returnTemp k
      Lowering.emit .ret) t (fun _ u => Completes cfg G tries fs s u) anyFailure := by
  refine (h.orderly.straight cfg (.storeTemp k) rfl).bind ?_
  rintro _ v ⟨hv, -⟩
  refine (ends_mark e (hv fun _ => G).orderly.slots).bind ?_
  rintro _ w ⟨hw, hposition, hl⟩
  have hw' : Wrote cfg (fun l => t.frame.epilogue = some l ∨ G) [] [] v w := by
    refine .of_tidy (hv fun _ => G).orderly hw ?_
    rw [hposition]
    exact .nil (Nat.le_of_eq hposition.symm)
  have hmarked : Wrote cfg (fun _ => G) tries fs s w := by
    have hboth := ((h.outsideLoops hloops).trans (hv _)).trans hw'
    rw [List.append_nil, List.append_nil, List.append_nil, List.append_nil] at hboth
    refine hboth.settle fun l hl' => ?_
    rcases hl' with hl' | hG
    · obtain rfl := Option.some.inj (he.symm.trans hl')
      exact Or.inr (Or.inr (hposition ▸ hl))
    · exact Or.inl hG
  refine (hmarked.orderly.straight cfg (.loadTemp k) rfl).bind ?_
  rintro _ z ⟨hz, -⟩
  have hall := hmarked.trans (hz fun _ => G)
  rw [List.append_nil, List.append_nil] at hall
  refine .update_bind ((hall.ret (u := { z with sink := Sink.returnTemp k z.sink }) hempty
    (sameBesides_returnTemp k z.sink) (grows_active_returnTemp k z.sink)
    (code_active_returnTemp k z.sink)).mono fun _ _ ht => ht.1)

/-- What stands behind the value at the end of a routine: the label to return to gets its mark. -/
theorem Covers.returnCode (h : Covers cfg G [] tries fs s t) (hempty : IsEmpty s.active)
    (hloops : s.frame.loops = []) (hu : Covers cfg G [] [] [] t u) : Ends (do
      let f ← frame
      match f.epilogue, f.returnTemp with
      | some epilogue, some k =>
        Lowering.emit (.storeTemp k)
        Lowering.mark epilogue
        Lowering.emit (.loadTemp k)
        Lowering.returnTemp k
        Lowering.emit .ret
      | _, _ => Lowering.emit .ret) u (fun _ v => Completes cfg G tries fs s v) anyFailure := by
  have hbody := h.andThen hu
  have hnil : u.frame.loops = [] := hbody.loops.trans hloops
  refine ends_frame ?_
  split
  · rename_i e k he hk
    exact hbody.epilogue hempty hnil he k
  · rename_i hnot
    -- A label without a slot cannot be, so no `return` was met.
    have hnone : u.frame.epilogue = none := by
      cases he : u.frame.epilogue with
      | none => rfl
      | some e =>
        cases hk : u.frame.returnTemp with
        | none => exact he.symm.trans (hu.orderly.returns hk)
        | some k => exact (hnot e k he hk).elim
    have hall : Wrote cfg (fun _ => G) tries fs s u := by
      refine (hbody.outsideLoops hnil).mono fun l hl => ?_
      rw [hnone] at hl
      exact hl.resolve_left (Option.some_ne_none l).symm
    exact (hall.ret hempty (.refl _) (.refl _) rfl).mono fun _ _ ht => ht.1

/-- The end of a routine, behind its body. -/
theorem Covers.routineEnd (h : Covers cfg G [] tries fs s t) (hempty : IsEmpty s.active)
    (hloops : s.frame.loops = []) (returnsRef : Bool) :
    Ends (Lowering.routineEnd returnsRef) t (fun _ u => Completes cfg G tries fs s u) anyFailure := by
  unfold Lowering.routineEnd
  cases returnsRef
  case' true =>
    refine (h.orderly.lays cfg G [] (lays_callVoid .newReferenceEmpty)).bind fun _ u hu => ?_
  case' false =>
    refine (h.orderly.lays cfg G [] (lays_pushLiteral .null).one).bind fun _ u hu => ?_
  all_goals exact h.returnCode hempty hloops hu.1

/-- Whether there is a `goto` in the statements of a routine. -/
def HasGoto (body : List Stmt) : Prop :=
  ∃ n ∈ Stmt.nodesOf body, n.isGoto = true

/-- **A routine around the code of its body.** -/
theorem arranged_routineCode {body : List Stmt} {returnsRef : Bool}
    (hx : Writes cfg (HasGoto body) ((Stmt.triesOf body).filter (isRegion cfg)) fs x)
    (hempty : IsEmpty s.active) (hslots : s.active.SlotsInOrder) :
    Ends (routineCode returnsRef x) s (fun _ t => t.frame = s.frame ∧ t.sink.outside = s.sink.outside ∧
      (∃ Fs, t.sink.functions.toList = s.sink.functions.toList ++ Fs ∧
        List.Forall₂ (fun p f => Routine.Arranged cfg p.2 f) fs Fs) ∧
      t.active.Arranged cfg body) anyFailure := by
  have hstart : Orderly { s with frame := { returnsRef } } := ⟨hslots, nofun, fun _ => rfl⟩
  refine ends_frame (.update_bind (.ensuring ((hx _ hstart).bind fun _ t ht => ?_)))
  refine (ht.routineEnd hempty rfl returnsRef).mono fun _ u hu => ?_
  refine ⟨rfl, hu.outside, hu.functions, hu.regions, fun hfree => ?_⟩
  refine hu.code.mono ?_
  rintro - ⟨n, hn, hgoto⟩
  exact absurd (hgoto.symm.trans (hfree n hn)) nofun

/-- Ending a function puts it with those that are complete. -/
theorem endFunction_ok {main r : Routine} {functions : Array Routine} {outer : List Routine}
    (hsink : t.sink = ⟨main, functions, r :: outer⟩) (hrun : toSink Sink.endFunction t = (.ok (), u)) :
    u = { t with sink := ⟨main, functions.push r, outer⟩ } := by
  have hcall : (Sink.endFunction t.sink : Except SinkError Unit × Chunk) =
      Chunk.endFunction ⟨main, functions, r :: outer⟩ := by
    rw [hsink]
    rfl
  unfold toSink at hrun
  rw [hcall] at hrun
  by_cases hopen : r.openRegions.isEmpty = true
  · simp only [Chunk.endFunction, if_pos hopen] at hrun
    exact (Prod.mk.inj hrun).2.symm
  · simp only [Chunk.endFunction, if_neg hopen] at hrun
    cases hrun

/-- **A function around its code.**  Behind it the routine around is where it was left, below the function. -/
theorem ends_function (head : FunctionHead) {Q : Routine → State Chunk → Prop}
    (hx : ∀ r : Routine, IsEmpty r → r.SlotsInOrder → r.returnsRef = head.byRef →
      Ends x { s with sink := { s.sink with pending := r :: s.sink.pending } } (fun _ t => Q r t) anyFailure)
    (houtside : ∀ {r t}, Q r t → t.sink.outside = some (s.sink.main, s.sink.pending)) :
    Ends (do
        toSink (Sink.beginFunction head)
        x
        toSink Sink.endFunction) s
      (fun _ u => ∃ r t, Q r t ∧
        u = { t with sink := ⟨s.sink.main, t.sink.functions.push t.active, s.sink.pending⟩ }) anyFailure := by
  obtain ⟨r, hbegin, hempty, hslots, href⟩ : ∃ r : Routine, toSink (Sink.beginFunction head) s =
      (.ok (), { s with sink := { s.sink with pending := r :: s.sink.pending } }) ∧ IsEmpty r ∧
        r.SlotsInOrder ∧ r.returnsRef = head.byRef :=
    ⟨_, rfl, ⟨rfl, rfl, rfl, rfl⟩, ⟨List.nodup_nil, nofun⟩, rfl⟩
  refine (Ends.of_eq (Q := fun _ t => t = { s with sink := { s.sink with pending := r :: s.sink.pending } })
    hbegin rfl).bind ?_
  rintro _ _ rfl
  refine (hx r hempty hslots href).bind ?_
  rintro _ t ht
  refine .intro (fun _ _ hrun => ⟨r, t, ht, ?_⟩) fun _ _ _ => trivial
  exact endFunction_ok (Chunk.eq_of_outside (houtside ht)) hrun

theorem writes_function (head : FunctionHead) {body : List Stmt}
    (hx : Writes cfg (HasGoto body) ((Stmt.triesOf body).filter (isRegion cfg)) fs x) :
    Writes cfg G [] (fs ++ [(head, body)]) (do
      toSink (Sink.beginFunction head)
      routineCode head.byRef x
      toSink Sink.endFunction) := by
  intro s hs
  refine (ends_function head (fun _ hempty hslots _ => arranged_routineCode hx hempty hslots)
    fun ht => ht.2.1).mono ?_
  rintro _ _ ⟨r, t, ⟨hframe, -, ⟨Fs, hFs, hfunctions⟩, harranged⟩, rfl⟩
  refine
    { grows := .refl _, orderly := ⟨hs.slots, ?_, ?_⟩, vacant := fun _ hk => hk
      loops := congrArg Frame.loops hframe, nesting := congrArg Frame.exceptionNesting hframe
      epilogue := fun l hl => (congrArg Frame.epilogue hframe).trans hl
      outside := Chunk.outside_withFunctions _ s.sink
      functions := ⟨Fs ++ [t.active], ?_, List.rel_append hfunctions (.cons harranged .nil)⟩, opened := rfl
      code := ⟨[], (List.append_nil _).symm, .nil, .nil (Nat.le_refl s.active.position)⟩ }
  · rw [hframe]
    exact hs.levels
  · rw [hframe]
    exact hs.returns
  · rw [Array.toList_push, hFs, List.append_assoc]

/-! ## Statements -/

variable (cfg G) in
/-- A statement says where it is in the source. -/
theorem Orderly.withPoint (hs : Orderly s) (span : Span) :
    Covers cfg G [] [] [] s { s with sink := Sink.sequencePoint span s.sink } := by
  have hrun : ({ s with sink := Sink.sequencePoint span s.sink } : State Chunk) =
      s.withActive { s.active with currentSpan := span } := by
    show ({ s with sink := (Chunk.onActive (fun r => ((), { r with currentSpan := span })) s.sink).2 } :
      State Chunk) = _
    rw [Chunk.onActive_eq]
    rfl
  rw [hrun]
  refine .of_code_eq hs (.withActive hs.slots ?_ rfl rfl rfl rfl) ?_
  · exact .of_eq rfl rfl rfl rfl
  · rw [State.active_withActive]

/-- The memory of the rules made for the program keeps the rule of a statement. -/
theorem ends_onTable_stmt (s : State Chunk) (kind : StmtKind) (id : Nat) :
    Ends (onTable (RuleTable.stmt .standard kind id)) s
      (fun handle _ => handle = ⟨kind, RuleTable.stmtHome kind id⟩) anyFailure := by
  refine .intro (fun handle t hrun => ?_) fun _ _ _ => trivial
  unfold onTable at hrun
  split at hrun
  · rename_i hfound
    obtain rfl := Except.ok.inj (Prod.mk.inj hrun).1
    exact ((RuleTable.ends_stmt s.table kind id).of_ok hfound).1
  · cases hrun

/-- A statement is handled by the rule made for its kind. -/
theorem writes_statement (hcfg : cfg.registry = .standard) {kind : StmtKind} {tag : StmtTag}
    {code : Home StmtKind → Emit Chunk Unit} (h : ∀ home, Writes cfg G tries fs (code home)) :
    Writes cfg G tries fs (statement cfg kind tag code) := by
  have hrule : Writes cfg G tries fs (Lowering.reporting tag.span (byStmtRule cfg kind tag code)) := by
    intro s hs
    have hlays := hs.lays cfg G [] (lays_onTable (n := 0) (RuleTable.stmt cfg.registry kind tag.id))
    refine ends_reporting tolerates_anyFailure
      (((hcfg ▸ ends_onTable_stmt s kind tag.id).and (hlays.mono fun _ _ ht => ht.1)).bind ?_)
    rintro _ t ⟨rfl, ht⟩
    rw [if_pos rfl]
    exact (h _ t ht.orderly).mono fun _ _ hu => ht.trans hu
  intro s hs
  unfold statement
  split
  · have hpoint := hs.withPoint cfg G tag.span
    exact .update_bind ((hrule _ hpoint.orderly).mono fun _ _ ht => hpoint.trans ht)
  · exact hrule s hs

theorem Writes.pure : Writes cfg G [] [] (return) :=
  fun _ hs => .pure (.refl hs)

theorem Writes.clause {type : String} {var : Option String} {clauses : Label → Temp → Emit Chunk Unit}
    (hx : Writes cfg G tries fs x) (hrest : WritesClauses cfg G tries' fs' clauses) :
    WritesClauses cfg G (tries ++ tries') (fs ++ fs') (fun regionEnd k => do
      clauseCode k regionEnd type var x
      clauses regionEnd k) :=
  fun regionEnd k => (writes_clauseCode k regionEnd type var hx).seq (hrest regionEnd k)

theorem WritesClauses.unlessEmpty {catches : List Catch}
    (h : WritesClauses cfg G ((Stmt.triesOfCatches catches).filter (isRegion cfg))
      (Stmt.functionsOfCatches catches) (lowerClauses cfg catches)) :
    if (!catches.isEmpty) = true then
      WritesClauses cfg G ((Stmt.triesOfCatches catches).filter (isRegion cfg))
        (Stmt.functionsOfCatches catches) (lowerClauses cfg catches)
    else (Stmt.triesOfCatches catches).filter (isRegion cfg) = [] ∧
      Stmt.functionsOfCatches catches = [] := by
  cases catches with
  | nil => exact ⟨rfl, rfl⟩
  | cons => exact h

/-- A `try` has the parts that it is emitted from. -/
theorem isTry_tryCatch (tag : StmtTag) (body : List Stmt) (catches : List Catch)
    (cleanup : Option (List Stmt)) :
    IsTry cfg (.tryCatch tag body catches cleanup) (!catches.isEmpty)
      (lowerOptional cfg cleanup : Option (Emit Chunk Unit)).isSome
      ((Stmt.triesOf body).filter (isRegion cfg) ++ ((Stmt.triesOfCatches catches).filter (isRegion cfg) ++
        (Stmt.triesOfOptional cleanup).filter (isRegion cfg))) := by
  rw [isSome_lowerOptional]
  refine ⟨rfl, rfl, ?_, rfl⟩
  rw [Stmt.inner, List.filter_append, List.filter_append]

mutual

/-- **The code of a statement** has the regions of the `try` statements in it. -/
theorem writes_lowerStmt (hcfg : cfg.registry = .standard) :
    ∀ (x : Stmt) (G : Prop), (∀ n ∈ x.nodes, n.isGoto = true → G) →
      Writes cfg G (x.tries.filter (isRegion cfg)) x.functions (lowerStmt cfg x)
  | .block tag body, _, hG => by
    rw [lowerStmt, Stmt.tries, Stmt.functions]
    rw [Stmt.nodes, List.forall_mem_cons] at hG
    exact writes_statement hcfg fun _ => writes_lowerStmts hcfg body _ hG.2
  | .branch tag condition thenBody elseBody, _, hG => by
    rw [lowerStmt, Stmt.tries, Stmt.functions, List.filter_append]
    rw [Stmt.nodes, List.forall_mem_append, List.forall_mem_append] at hG
    exact writes_statement hcfg fun _ => writes_branchCode condition
      (writes_lowerStmts hcfg thenBody _ hG.1.2) (writes_lowerOptional hcfg elseBody _ hG.2)
  | .loop tag condition body, _, hG => by
    rw [lowerStmt, Stmt.tries, Stmt.functions]
    rw [Stmt.nodes, List.forall_mem_append] at hG
    exact writes_statement hcfg fun _ => writes_loopCode condition (writes_lowerStmts hcfg body _ hG.2)
  | .tryCatch tag body catches cleanup, _, hG => by
    rw [lowerStmt, Stmt.tries, Stmt.functions, List.filter_append, List.filter_append,
      List.filter_append]
    rw [Stmt.nodes, List.forall_mem_append, List.cons_append, List.forall_mem_cons,
      List.forall_mem_append] at hG
    exact writes_statement hcfg fun _ => writes_tryCode (writes_lowerStmts hcfg body _ hG.1.2.1)
      (writes_lowerClauses hcfg catches _ hG.1.2.2).unlessEmpty
      (writes_lowerOptional hcfg cleanup _ hG.2) (isTry_tryCatch tag body catches cleanup)
  | .function tag head body dead, _, _ => by
    rw [lowerStmt, Stmt.functions]
    exact writes_statement hcfg fun _ => writes_function head
      (writes_lowerStmts hcfg body _ fun n hn hgoto => ⟨n, hn, hgoto⟩)
  | .goto tag name, _, hG => by
    rw [lowerStmt]
    exact writes_statement hcfg fun _ =>
      writes_goto name (hG _ (List.mem_singleton_self _) rfl)
  | .expression tag e, _, _ => by
    rw [lowerStmt]
    exact writes_statement hcfg fun _ => (lays_discarded e).writes
  | .echo tag es, _, _ => by
    rw [lowerStmt]
    exact writes_statement hcfg fun _ => (lays_echoAll es).writes
  | .jump tag kind expr, _, _ => by
    rw [lowerStmt]
    exact writes_statement hcfg fun _ => writes_jumpCode kind expr
  | .label tag name, _, _ => by
    rw [lowerStmt]
    exact writes_statement hcfg fun home => writes_labelCode name home
  | .throw tag e, _, _ => by
    rw [lowerStmt]
    exact writes_statement hcfg fun _ => writes_throw e
  | .unset tag targets, _, _ => by
    rw [lowerStmt]
    exact writes_statement hcfg fun _ => (lays_unsetAll targets).writes
  | .constDecl tag name value, _, _ => by
    rw [lowerStmt]
    exact writes_statement hcfg fun _ => (lays_defineConstant name value).writes
  | .empty tag kind, _, _ => by
    rw [lowerStmt]
    exact writes_statement hcfg fun _ => .pure
termination_by structural x => x

/-- **The code of statements** has the regions of the `try` statements in them, in the order in which
they end. -/
theorem writes_lowerStmts (hcfg : cfg.registry = .standard) :
    ∀ (xs : List Stmt) (G : Prop), (∀ n ∈ Stmt.nodesOf xs, n.isGoto = true → G) →
      Writes cfg G ((Stmt.triesOf xs).filter (isRegion cfg)) (Stmt.functionsOf xs) (lowerStmts cfg xs)
  | [], _, _ => .pure
  | x :: rest, _, hG => by
    rw [lowerStmts, Stmt.triesOf, Stmt.functionsOf, List.filter_append]
    rw [Stmt.nodesOf, List.forall_mem_append] at hG
    exact (writes_lowerStmt hcfg x _ hG.1).seq (writes_lowerStmts hcfg rest _ hG.2)
termination_by structural xs => xs

theorem writes_lowerOptional (hcfg : cfg.registry = .standard) :
    ∀ (body : Option (List Stmt)) (G : Prop), (∀ n ∈ Stmt.nodesOfOptional body, n.isGoto = true → G) →
      WritesOptional cfg G ((Stmt.triesOfOptional body).filter (isRegion cfg))
        (Stmt.functionsOfOptional body) (lowerOptional cfg body)
  | none, _, _ => ⟨rfl, rfl⟩
  | some body, _, hG => writes_lowerStmts hcfg body _ hG
termination_by structural body => body

theorem writes_lowerClauses (hcfg : cfg.registry = .standard) :
    ∀ (catches : List Catch) (G : Prop), (∀ n ∈ Stmt.nodesOfCatches catches, n.isGoto = true → G) →
      WritesClauses cfg G ((Stmt.triesOfCatches catches).filter (isRegion cfg))
        (Stmt.functionsOfCatches catches) (lowerClauses cfg catches)
  | [], _, _ => fun _ _ => .pure
  | .clause _ _ _ body _ :: rest, _, hG => by
    rw [Stmt.triesOfCatches, Stmt.functionsOfCatches, List.filter_append]
    rw [Stmt.nodesOfCatches, List.forall_mem_append] at hG
    exact .clause (writes_lowerStmts hcfg body _ hG.1) (writes_lowerClauses hcfg rest _ hG.2)
termination_by structural catches => catches

end

end Lowering
end PhpLowering
