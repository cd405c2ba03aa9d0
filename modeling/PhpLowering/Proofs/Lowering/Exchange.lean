import PhpLowering.Proofs.Lowering.Copies
import PhpLowering.Proofs.Lowering.Mirror

/-!
# Functions in another order

Two trees that have a copy in common are emitted beside each other (`Follows.cancel`).  If a function declaration is
moved from one place to another in a routine, the code of the routine is the same, and the same functions are
completed, in another order: `accompanies_moved`.  The declaration leaves the routine that it stands in as it is
(`exists_functionStatement`), so what is emitted behind it cannot tell whether it was there.

Emissions in this sense are related by `Accompanies`.  It is `Follows` with the order of the functions left open, and it
goes both ways: where the first emission fails, the second one fails.
-/

namespace PhpLowering

namespace Routine.SameCode

variable {r r' r'' : Routine}

theorem symm (h : SameCode r r') : SameCode r' r := by
  obtain ⟨spans, span, rfl⟩ := h
  exact ⟨r.spans, r.currentSpan, rfl⟩

theorem trans (h : SameCode r r') (h' : SameCode r' r'') : SameCode r r'' := by
  obtain ⟨spans, span, rfl⟩ := h
  obtain ⟨spans', span', rfl⟩ := h'
  exact ⟨spans', span', rfl⟩

theorem head (h : SameCode r r') : r'.head = r.head := by
  obtain ⟨spans, span, rfl⟩ := h
  rfl

/-- If the routines of two lists are those of a third one, they are those of each other. -/
theorem cancel {ds es fs : List Routine} (h : List.Forall₂ SameCode ds fs) (h' : List.Forall₂ SameCode es fs) :
    List.Forall₂ SameCode ds es := by
  induction h generalizing es with
  | nil =>
    cases h'
    exact .nil
  | cons hfirst _ ih =>
    cases h' with
    | cons hfirst' hrest' => exact .cons (hfirst.trans hfirst'.symm) (ih hrest')

end Routine.SameCode

/-- The same routines in any order. -/
def Reordered (ds ds' : List Routine) : Prop :=
  ∃ es, List.Forall₂ Routine.SameCode ds es ∧ es.Perm ds'

theorem Reordered.append {ds ds' es es' : List Routine} (h : Reordered ds ds') (h' : Reordered es es') :
    Reordered (ds ++ es) (ds' ++ es') := by
  obtain ⟨fs, hsame, hperm⟩ := h
  obtain ⟨fs', hsame', hperm'⟩ := h'
  exact ⟨fs ++ fs', List.rel_append hsame hsame', hperm.append hperm'⟩

namespace Lowering

open Pass (bind_eq_ok_iff)
open Routine (SameCode Twins)

variable {α β : Type} {cfg : Setting} {p : Sides} {m m' : RuleMemory} {s s' t t' : State Chunk}
  {o : ReleaseOrder} {fs gs : List FunctionHead} {ds ds' es : List Routine} {x y z : Emit Chunk α}

/-- On both sides trees are emitted that are the same but for the numbers that analysis gives. -/
def Sides.plain (o : ReleaseOrder) (m m' : RuleMemory) : Sides where
  memory := m
  memory' := m'
  copying := .plain
  injective := Function.injective_id
  order := some o
  ordered := nofun
  rest := true

/-- What goes on beside an emission goes on beside itself. -/
theorem Beside.right (h : Beside SameCode (.plain o m m') s t) : Beside SameCode (.plain o m' m') t t where
  memory := h.memory'
  memory' := h.memory'
  table := h.table'
  table' := h.table'
  chains := by rw [h.chains, h.rest rfl]; rfl
  releases := rfl
  order o ho := h.releases.trans (h.order o ho)
  rest _ := by rw [h.chains, h.rest rfl]; rfl
  shared := rfl
  active := Twins.refl _
  frame := rfl

/-- Two emissions that go on beside a third one go on beside each other. -/
theorem Follows.cancel (hx : Follows SameCode (.plain o m m') fs x z) (hy : Follows SameCode (.plain o m' m') gs y z) :
    Follows SameCode (.plain o m m') fs x y where
  ok s t h a s' hrun := by
    obtain ⟨v, hz, hxz⟩ := hx.ok s t h a s' hrun
    rcases hrun' : y t with ⟨r, t'⟩
    cases r with
    | error e =>
      obtain ⟨e', herror⟩ := hy.error rfl t t h.right e (congrArg Prod.fst hrun')
      rw [hz] at herror
      exact nomatch herror
    | ok b =>
      obtain ⟨v', hz', hyz⟩ := hy.ok t t h.right b t' hrun'
      cases hz.symm.trans hz'
      obtain ⟨ds, fs₁, hds, hfs, hdeclares, hsame⟩ := hxz.completed
      obtain ⟨es, fs₂, hes, hfs', -, hsame'⟩ := hyz.completed
      obtain rfl : fs₂ = fs₁ := List.append_cancel_left (hfs'.functions.symm.trans hfs.functions)
      refine ⟨t', rfl, ?_⟩
      exact
        { memory := hxz.memory
          memory' := hyz.memory
          table := hxz.table
          table' := hyz.table
          chains := by rw [hyz.rest rfl, hxz.rest rfl]; rfl
          releases := hyz.releases.symm.trans hxz.releases
          order := hxz.order
          rest := hxz.rest
          shared := hyz.shared.symm.trans hxz.shared
          active := hxz.active.trans hyz.active.symm
          frame := hyz.frame.symm.trans hxz.frame
          completed := ⟨ds, es, hds, hes, hdeclares, fun _ => SameCode.cancel (hsame rfl) (hsame' rfl)⟩ }
  error _ s t h e hrun := by
    obtain ⟨e', hz⟩ := hx.error rfl s t h e hrun
    rcases hrun' : y t with ⟨r, t'⟩
    cases r with
    | error e₁ => exact ⟨e₁, rfl⟩
    | ok b =>
      obtain ⟨v', hz', -⟩ := hy.ok t t h.right b t' hrun'
      rw [hz'] at hz
      exact nomatch hz

/-! ## Steps -/

/-- Wherever the first step succeeds the second one succeeds beside it, and they complete the same functions; and
wherever the first step fails the second one fails. -/
structure Accompanies (p : Sides) (fs : List FunctionHead) (x y : Emit Chunk α) : Prop where
  ok : ∀ s t, Beside SameCode p s t → ∀ a s', x s = (.ok a, s') → ∃ t', y t = (.ok a, t') ∧
    Beside SameCode p s' t' ∧ ∃ ds ds', Extends ds s s' ∧ Extends ds' t t' ∧ List.Forall₂ Declares fs ds ∧
      Reordered ds ds'
  error : ∀ s t, Beside SameCode p s t → ∀ e, (x s).1 = .error e → ∃ e', (y t).1 = .error e'

theorem Follows.accompanies (hp : p.copying.bodies = true) (h : Follows SameCode p fs x y) : Accompanies p fs x y where
  ok s t hst a s' hrun := by
    obtain ⟨t', hrun', htogether⟩ := h.ok s t hst a s' hrun
    obtain ⟨ds, ds', hds, hds', hdeclares, hsame⟩ := htogether.completed
    exact ⟨t', hrun', htogether.toBeside, ds, ds', hds, hds', hdeclares, ds', hsame hp, .refl _⟩
  error := h.error hp

namespace Accompanies

theorem bind {f g : α → Emit Chunk β} (hx : Accompanies p fs x y) (hf : ∀ a, Accompanies p gs (f a) (g a)) :
    Accompanies p (fs ++ gs) (x >>= f) (y >>= g) where
  ok s t h b u hrun := by
    obtain ⟨a, s', hfirst, hsecond⟩ := (bind_eq_ok_iff _ _ _ _ _).mp hrun
    obtain ⟨t', hfirst', hbeside, ds, ds', hds, hds', hfs, hsame⟩ := hx.ok s t h a s' hfirst
    obtain ⟨u', hsecond', hbeside', es, es', hes, hes', hgs, hsame'⟩ := (hf a).ok s' t' hbeside b u hsecond
    exact ⟨u', (bind_eq_ok_iff _ _ _ _ _).mpr ⟨a, t', hfirst', hsecond'⟩, hbeside', ds ++ es, ds' ++ es',
      hds.trans hes, hds'.trans hes', List.rel_append hfs hgs, hsame.append hsame'⟩
  error s t h e hrun := by
    rcases hfirst : x s with ⟨r, s'⟩
    rw [Pass.bind_apply, hfirst] at hrun
    cases r with
    | error e₁ =>
      obtain ⟨e', herror⟩ := hx.error s t h e₁ (congrArg Prod.fst hfirst)
      rcases hfirst' : y t with ⟨r, t'⟩
      rw [hfirst'] at herror
      cases herror
      exact ⟨e', by rw [Pass.bind_apply, hfirst']⟩
    | ok a =>
      obtain ⟨t', hfirst', hbeside, -⟩ := hx.ok s t h a s' hfirst
      obtain ⟨e', herror⟩ := (hf a).error s' t' hbeside e hrun
      exact ⟨e', by rw [Pass.bind_apply, hfirst']; exact herror⟩

theorem thenFrame (h : Accompanies p fs x y) (f : Frame → Frame) :
    Accompanies p fs (thenFrame x f) (thenFrame y f) where
  ok s t hst a u hrun := by
    have hok := (Prod.mk.inj hrun).1
    have hu := (Prod.mk.inj hrun).2
    obtain ⟨t', hrun', hbeside, ds, ds', hds, hds', hcompleted⟩ := h.ok s t hst a (x s).2 (Prod.ext hok rfl)
    refine ⟨{ t' with frame := f t'.frame }, ?_, ?_⟩
    · show (y.ensuring _) t = _
      rw [Pass.ensuring_apply, hrun']
    · rw [← hu]
      exact ⟨{ hbeside with frame := congrArg f hbeside.frame }, ds, ds', ⟨hds.outside, hds.head, hds.functions⟩,
        ⟨hds'.outside, hds'.head, hds'.functions⟩, hcompleted⟩
  error := h.error

/-- What a routine does at its beginning and at its end is the same on both sides. -/
theorem routineCode {body body' : Emit Chunk Unit} (hp : p.copying.bodies = true) (h : Accompanies p fs body body')
    (returnsRef : Bool) : Accompanies p fs (routineCode returnsRef body) (routineCode returnsRef body') := by
  have hend : Follows SameCode p [] (routineEnd returnsRef) (routineEnd returnsRef) := Paired.follows inferInstance
  have hended : Accompanies p (fs ++ []) (do body; routineEnd returnsRef) (do body'; routineEnd returnsRef) :=
    h.bind fun _ => hend.accompanies hp
  rw [List.append_nil] at hended
  have hframe : Follows SameCode p [] (frame (σ := Chunk)) frame := .peek fun s t hst => hst.frame
  have hbegin : Follows SameCode p [] (updateFrame (σ := Chunk) fun _ => { returnsRef })
      (updateFrame fun _ => { returnsRef }) :=
    .update (fun s t hst => { hst with frame := rfl }) (fun _ => rfl) fun _ => rfl
  exact (hframe.accompanies hp).bind fun outer => (hbegin.accompanies hp).bind fun _ => hended.thenFrame _

end Accompanies

/-! ## A declaration and what surrounds it -/

theorem Extends.shared (h : Extends ds s s') : s'.sink.shared = s.sink.shared := by
  obtain ⟨houtside, hhead, -⟩ := h
  rw [State.active, State.active] at hhead
  generalize s.sink = c at houtside hhead ⊢
  generalize s'.sink = c' at houtside hhead ⊢
  rcases c with ⟨main, functions, _ | ⟨r, outer⟩⟩ <;> rcases c' with ⟨main', functions', _ | ⟨r', outer'⟩⟩
  · exact Prod.ext (congrArg Routine.Head.filePath hhead) (congrArg Routine.Head.tempLimit hhead)
  · cases houtside
  · cases houtside
  · obtain ⟨rfl, -⟩ := Prod.mk.inj (Option.some.inj houtside)
    rfl

/-- Some functions have been completed, and the routine at hand has been told of a place in the source. -/
structure PassesBy (ds : List Routine) (s s' : State Chunk) : Prop where
  memory : s'.memory = s.memory
  table : s'.table.Regular
  chains : s'.chains = []
  releases : s'.releases = s.releases
  frame : s'.frame = s.frame
  active : SameCode s.active s'.active
  extends_ : Extends ds s s'

/-- What is emitted on the right cannot tell what has passed by on the left. -/
theorem PassesBy.left (h : PassesBy ds s s') (hst : Beside SameCode (.plain o m m') s t) :
    Beside SameCode (.plain o m m') s' t where
  memory := h.memory.trans hst.memory
  memory' := hst.memory'
  table := h.table
  table' := hst.table'
  chains := by rw [hst.chains, hst.rest rfl, h.chains]
  releases := hst.releases.trans h.releases.symm
  order o ho := h.releases.trans (hst.order o ho)
  rest _ := h.chains
  shared := hst.shared.trans h.extends_.shared.symm
  active := h.active.symm.trans hst.active
  frame := hst.frame.trans h.frame.symm

theorem PassesBy.right (h : PassesBy ds t t') (hst : Beside SameCode (.plain o m m') s t) :
    Beside SameCode (.plain o m m') s t' where
  memory := hst.memory
  memory' := h.memory.trans hst.memory'
  table := hst.table
  table' := h.table
  chains := by rw [h.chains, hst.rest rfl]; rfl
  releases := h.releases.trans hst.releases
  order := hst.order
  rest := hst.rest
  shared := h.extends_.shared.trans hst.shared
  active := hst.active.trans h.active
  frame := h.frame.trans hst.frame

variable {head : FunctionHead} {body body' : Emit Chunk Unit} {tag : StmtTag}

/-- A function declaration. -/
abbrev functionStatement (cfg : Setting) (tag : StmtTag) (head : FunctionHead) (body : Emit Chunk Unit) :
    Emit Chunk Unit :=
  statement cfg .function tag fun _ => functionCode head body

/-- With the standard registry a function declaration is a function, in a place of the source. -/
theorem exists_functionStatement_eq (hcfg : cfg.registry = .standard) (tag : StmtTag) (hs : s.table.Regular) :
    ∃ r table, s.active.SameCode r ∧ RuleTable.Regular table ∧ ∀ head body,
      functionStatement cfg tag head body s =
        reporting tag.span (functionCode head body) { s.withActive r with table } := by
  obtain ⟨table, htable, hregular⟩ := RuleTable.exists_stmt hs .function tag.id
  refine ⟨s.active.placed cfg.options.sequencePoints tag.span, table, ?_, hregular, fun head body => ?_⟩
  · unfold Routine.placed
    split
    · exact ⟨s.active.spans, tag.span, rfl⟩
    · exact ⟨s.active.spans, s.active.currentSpan, rfl⟩
  · have hrule : byStmtRule cfg .function tag (fun _ => functionCode head body)
        (s.withActive (s.active.placed cfg.options.sequencePoints tag.span)) =
          functionCode head body
            { s.withActive (s.active.placed cfg.options.sequencePoints tag.span) with table } := by
      unfold byStmtRule
      rw [hcfg, Pass.bind_apply, onTable_ok (s := s.withActive _) htable]
      rfl
    unfold functionStatement
    rw [statement_eq, if_pos nofun, Pass.bind_apply]
    show reporting tag.span _ (s.withActive (s.active.placed cfg.options.sequencePoints tag.span)) = _
    unfold reporting
    rw [hrule]

theorem Finishes.passesBy {r : Routine} {table : RuleTable} (hr : s.active.SameCode r)
    (h : Finishes ds { s.withActive r with table } s') (htable : s'.table.Regular) (hchains : s'.chains = [])
    (hreleases : s'.releases = s.releases) :
    PassesBy ds s s' where
  memory := h.memory
  table := htable
  chains := hchains
  releases := hreleases
  frame := h.frame
  active := by rw [h.active]; exact (State.active_withActive r s).symm ▸ hr
  extends_ := (extends_withActive hr.head).trans ⟨h.extends.outside, h.extends.head, h.extends.functions⟩

/-- **A declaration stands wherever it may.**  It leaves the routine as it is, and it completes the same functions
in whatever routine it stands. -/
theorem exists_functionStatement (hcfg : cfg.registry = .standard) (hbody : Follows SameCode (.plain o m m') fs body body')
    (hst : Near (.plain o m m') s t) (hrun : functionStatement cfg tag head body s = (.ok (), s')) :
    ∃ t' ds ds', functionStatement cfg tag head body' t = (.ok (), t') ∧ Near (.plain o m m') s' t' ∧
      PassesBy ds s s' ∧ PassesBy ds' t t' ∧ List.Forall₂ Declares (fs ++ [head]) ds ∧
      List.Forall₂ SameCode ds ds' := by
  obtain ⟨r, table, hr, htable, hs⟩ := exists_functionStatement_eq hcfg tag hst.table
  obtain ⟨r', table', hr', htable', ht⟩ := exists_functionStatement_eq hcfg tag hst.table'
  rw [hs, (Follows.reporting_fst _ _ _).2] at hrun
  have hnear : Near (.plain o m m') { s.withActive r with table } { t.withActive r' with table := table' } :=
    { hst.withActive hr.head hr'.head with table := htable, table' := htable' }
  obtain ⟨t', ds, ds', hrun', hnear', hds, hds', hdeclares, hsame⟩ := exists_functionCode hbody hnear hrun
  have hchains : s'.chains = [] := hnear'.rest rfl
  have hchains' : t'.chains = [] := by rw [hnear'.chains, hchains]; rfl
  have hreleases : s'.releases = s.releases := (hnear'.order o rfl).trans (hst.order o rfl).symm
  exact ⟨t', ds, ds', by rw [ht, (Follows.reporting_fst _ _ _).2]; exact hrun', hnear',
    hds.passesBy hr hnear'.table hchains hreleases,
    hds'.passesBy hr' hnear'.table' hchains' (hnear'.releases.trans (hreleases.trans hst.releases.symm)), hdeclares,
    hsame rfl⟩

theorem exists_error_of_functionStatement (hcfg : cfg.registry = .standard)
    (hbody : Follows SameCode (.plain o m m') fs body body') (hst : Near (.plain o m m') s t) {e : CompileError}
    (hrun : (functionStatement cfg tag head body s).1 = .error e) :
    ∃ e', (functionStatement cfg tag head body' t).1 = .error e' := by
  obtain ⟨r, table, hr, htable, hs⟩ := exists_functionStatement_eq hcfg tag hst.table
  obtain ⟨r', table', hr', htable', ht⟩ := exists_functionStatement_eq hcfg tag hst.table'
  have hnear : Near (.plain o m m') { s.withActive r with table } { t.withActive r' with table := table' } :=
    { hst.withActive hr.head hr'.head with table := htable, table' := htable' }
  rw [hs] at hrun
  rcases hcode : functionCode head body { s.withActive r with table } with ⟨result, v⟩
  cases result with
  | ok a =>
    rw [((Follows.reporting_fst _ _ _).2 v).mpr hcode] at hrun
    exact nomatch hrun
  | error e₁ =>
    obtain ⟨e', herror⟩ := exists_error_of_functionCode hbody rfl hnear (congrArg Prod.fst hcode)
    rw [ht]
    exact (Follows.reporting_fst _ _ _).1 e' herror

theorem Near.passed {v : State Chunk} (h : Near (.plain o m m') s t) (hv : Near (.plain o m m') v t')
    (ht : Extends ds t t') : Near (.plain o m m') s t' where
  memory := h.memory
  memory' := hv.memory'
  table := h.table
  table' := hv.table'
  chains := by rw [hv.chains, hv.rest rfl, h.rest rfl]
  releases := (hv.releases.trans (hv.order o rfl)).trans (h.order o rfl).symm
  order := h.order
  rest := h.rest
  shared := ht.shared.trans h.shared

/-- **A declaration may change places with what is emitted next to it.** -/
theorem accompanies_exchange (tag : StmtTag) (head : FunctionHead) {x y : Emit Chunk Unit}
    (hcfg : cfg.registry = .standard)
    (hbody : Follows SameCode (.plain o m m') fs body body') (hxy : Follows SameCode (.plain o m m') gs x y) :
    Accompanies (.plain o m m') ((fs ++ [head]) ++ gs) (do functionStatement cfg tag head body; x)
      (do y; functionStatement cfg tag head body') where
  ok s t hst a u hrun := by
    obtain ⟨_, s₁, hfirst, hsecond⟩ := (bind_eq_ok_iff _ _ _ _ _).mp hrun
    -- What comes behind the declaration goes on as if the declaration were not there.
    obtain ⟨_, _, _, -, -, hpasses, -⟩ := exists_functionStatement hcfg hbody hst.toNear hfirst
    obtain ⟨t₁, hfirst', htogether⟩ := hxy.ok s₁ t (hpasses.left hst) a u hsecond
    obtain ⟨es, es', hes, hes', hgs, hsame'⟩ := htogether.completed
    obtain ⟨u', ds, ds', hsecond', -, hds, hds', hfs, hsame⟩ :=
      exists_functionStatement hcfg hbody (hst.toNear.passed htogether.toNear hes') hfirst
    exact ⟨u', (bind_eq_ok_iff _ _ _ _ _).mpr ⟨a, t₁, hfirst', hsecond'⟩, hds'.right htogether.toBeside,
      ds ++ es, es' ++ ds', hds.extends_.trans hes, hes'.trans hds'.extends_, List.rel_append hfs hgs,
      ds' ++ es', List.rel_append hsame (hsame' rfl), List.perm_append_comm⟩
  error s t hst e hrun := by
    rw [Pass.bind_apply] at hrun
    rcases hfirst' : y t with ⟨result, t₁⟩
    cases result with
    | error e₁ => exact ⟨e₁, by rw [Pass.bind_apply, hfirst']⟩
    | ok a =>
      rcases hfirst : functionStatement cfg tag head body s with ⟨result, s₁⟩
      rw [hfirst] at hrun
      cases result with
      | ok =>
        -- What comes behind the declaration fails on neither side.
        obtain ⟨_, _, _, -, -, hpasses, -⟩ := exists_functionStatement hcfg hbody hst.toNear hfirst
        obtain ⟨e', herror⟩ := hxy.error rfl s₁ t (hpasses.left hst) e hrun
        rw [hfirst'] at herror
        exact nomatch herror
      | error e₁ =>
        rcases hx : x s with ⟨result, v⟩
        cases result with
        | error e₂ =>
          obtain ⟨e', herror⟩ := hxy.error rfl s t hst e₂ (congrArg Prod.fst hx)
          rw [hfirst'] at herror
          exact nomatch herror
        | ok b =>
          obtain ⟨t₂, hy, htogether⟩ := hxy.ok s t hst b v hx
          cases hfirst'.symm.trans hy
          obtain ⟨_, _, -, hes', -⟩ := htogether.completed
          obtain ⟨e', herror⟩ := exists_error_of_functionStatement hcfg hbody
            (hst.toNear.passed htogether.toNear hes') (congrArg Prod.fst hfirst)
          exact ⟨e', by rw [Pass.bind_apply, hfirst']; exact herror⟩

/-! ## Trees -/

theorem lowerStmts_append (xs ys : List Stmt) :
    (lowerStmts cfg (xs ++ ys) : Emit Chunk Unit) = (do lowerStmts cfg xs; lowerStmts cfg ys) := by
  induction xs with
  | nil => rw [List.nil_append, lowerStmts]; rfl
  | cons x rest ih => rw [List.cons_append, lowerStmts, lowerStmts, ih, bind_assoc]

theorem agreesOn_ofAppend {xs ys : List Stmt} (h : p.AgreesOn (Stmt.ownOf (xs ++ ys)) (Stmt.functionsOf (xs ++ ys))) :
    p.AgreesOn (Stmt.ownOf xs) (Stmt.functionsOf xs) ∧ p.AgreesOn (Stmt.ownOf ys) (Stmt.functionsOf ys) := by
  rw [Stmt.ownOf_append, Stmt.functionsOf_append] at h
  exact agreesOn_append h

theorem lowerStmt_function (tag : StmtTag) (head : FunctionHead) (body : List Stmt) (dead : Bool) :
    lowerStmt cfg (.function tag head body dead) = functionStatement cfg tag head (lowerStmts cfg body) := by
  rw [lowerStmt]
  rfl

/-- Statements with a copy in common are emitted beside each other. -/
theorem follows_of_copy_eq (hcfg : cfg.registry = .standard) {xs ys : List Stmt}
    (h : (Sides.plain o m m').AgreesOn (Stmt.ownOf xs) (Stmt.functionsOf xs))
    (hcopy : Stmt.copyOf .plain ys = Stmt.copyOf .plain xs) :
    Follows SameCode (.plain o m m') (heads (Stmt.functionsOf xs)) (lowerStmts cfg xs) (lowerStmts cfg ys) := by
  have hx := follows_lowerStmts (S := SameCode) hcfg xs (.plain o m m') rfl h
  have hy := follows_lowerStmts (S := SameCode) hcfg ys (.plain o m' m') rfl
    ⟨⟨fun _ _ _ => rfl, fun _ => rfl⟩, fun _ _ _ => ⟨fun _ _ _ => rfl, fun _ => rfl⟩⟩
  have hcopy' : Stmt.copyOf (Sides.plain o m' m').copying ys = Stmt.copyOf (Sides.plain o m m').copying xs := hcopy
  rw [hcopy'] at hy
  exact hx.cancel hy

/-- **A moved declaration is emitted beside the original.**  The code of the routine that it stands in is the same,
and so are the functions that are completed, in another order. -/
theorem accompanies_moved (hcfg : cfg.registry = .standard) {xs ys : List Stmt} (hmoved : Stmt.Moved xs ys)
    (h : (Sides.plain o m m').AgreesOn (Stmt.ownOf xs) (Stmt.functionsOf xs)) :
    Accompanies (.plain o m m') (heads (Stmt.functionsOf xs)) (lowerStmts cfg xs) (lowerStmts cfg ys) := by
  obtain ⟨before, tag, head, dead, dead', hbody, hbetween, hbehind⟩ := hmoved
  rename_i body body' between between' behind behind'
  obtain ⟨hbefore, hrest⟩ := agreesOn_ofAppend h
  obtain ⟨hfunction, hrest⟩ := agreesOn_append hrest
  obtain ⟨hbetween', hbehind'⟩ := agreesOn_ofAppend hrest
  have hinside : (Sides.plain o m m').AgreesOn (Stmt.ownOf body) (Stmt.functionsOf body) :=
    ⟨hfunction.bodies rfl (head, body) (by simp [Stmt.functions]),
      fun hp f hf => hfunction.bodies hp f (by simp [Stmt.functions, hf])⟩
  have hexchange := accompanies_exchange tag head hcfg (follows_of_copy_eq hcfg hinside hbody)
    (follows_of_copy_eq hcfg hbetween' hbetween)
  have hrest := hexchange.bind fun _ => (follows_of_copy_eq hcfg hbehind' hbehind).accompanies rfl
  have hall := ((follows_of_copy_eq hcfg hbefore rfl).accompanies rfl).bind fun _ => hrest
  simpa only [Stmt.functionsOf_append, Stmt.functionsOf, Stmt.functions, heads, List.map_append, List.map_cons,
    List.map_nil, List.append_assoc, lowerStmts_append, lowerStmts, lowerStmt_function, bind_assoc] using hall

end Lowering
end PhpLowering
