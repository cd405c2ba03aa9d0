import PhpLowering.Proofs.Code.Change
import PhpLowering.Proofs.Lowering.Calls
import PhpLowering.Proofs.Lowering.Custody
import PhpLowering.Proofs.Lowering.Paired

/-!
# Two emissions side by side

Two emissions into chunks are `Beside` each other if nothing that the code of a routine depends on tells
them apart: the frame is the same, the open chains are the same but for the numbers of nodes, and the active
routines are twins.  The complete functions, and what the rules remember of nodes that are not looked at, may
be different.

`Follows S p fs x y` says that wherever the step `x` succeeds the step `y`, taken beside it, succeeds as
well, with the same answer, and the two end beside each other.  Meanwhile the functions with the heads
`fs` have been completed on the left, and on the right their twins if the bodies of functions are copied; then
`y` also fails wherever `x` does.

There is one rule for each way of putting steps together, and steps that are put together in the same way
follow each other (`Paired.follows`).  A function is taken on its own: whatever the routines around it are,
they stay as they are (`exists_functionCode`).
-/

namespace PhpLowering
namespace Chunk

/-- What functions get from the main routine: its file and its limit. -/
def shared (c : Chunk) : Option String × Option Nat :=
  (c.main.filePath, c.main.tempLimit)

theorem shared_withActive {c : Chunk} {r : Routine} (h : r.head = c.active.head) :
    (c.withActive r).shared = c.shared := by
  rcases c with ⟨main, functions, _ | _⟩
  · exact Prod.ext (congrArg Routine.Head.filePath h) (congrArg Routine.Head.tempLimit h)
  · rfl

end Chunk

namespace Lowering

open Pass (Ends bind_eq_ok_iff)
open Routine (Operation Twins)

/-- A routine is the one that a declaration declares. -/
structure Declares (head : FunctionHead) (r : Routine) : Prop where
  name : r.name = head.name
  returnsRef : r.returnsRef = head.byRef
  params : r.params = head.params

/-- What two emissions have to do with each other. -/
structure Sides where
  /-- What the rules remember on the left. -/
  memory : RuleMemory
  /-- What the rules remember on the right. -/
  memory' : RuleMemory
  /-- What is emitted on the right is a copy.  If the bodies of functions are not copied, the functions that
  are completed on the two sides have nothing to do with each other. -/
  copying : Copying
  injective : copying.node.Injective
  /-- The order in which every chain gives its slots back, if it is the same for all of them. -/
  order : Option ReleaseOrder
  /-- It has to be if some chains are closed on one side only. -/
  ordered : copying.bodies = false → ∃ o, order = some o
  /-- No chain is open between the steps. -/
  rest : Bool

namespace Sides

/-- What may be asked for: standard rules, and what is remembered alike on both sides. -/
def allowance (p : Sides) : Allowance where
  registry r := r = .standard
  calls _ := True
  memory f g := g p.memory' = f p.memory
  keys home home' := p.memory'.keyCount home' = p.memory.keyCount home
  number i j := j = p.copying.node i

/-- Both sides are the left one. -/
def left (p : Sides) : Sides :=
  { p with memory' := p.memory, copying := {}, injective := Function.injective_id, ordered := nofun }

end Sides

/-- The same chain with other numbers. -/
def Chain.renumber (f : Nat → Nat) (c : Chain) : Chain :=
  { c with kept := c.kept.map fun entry => (f entry.1, entry.2) }

/-! ## States -/

/-- Two emissions are in the same circumstances, apart from the routine at hand. -/
structure Near (p : Sides) (s t : State Chunk) : Prop where
  memory : s.memory = p.memory
  memory' : t.memory = p.memory'
  table : s.table.Regular
  table' : t.table.Regular
  chains : t.chains = s.chains.map (Chain.renumber p.copying.node)
  releases : t.releases = s.releases
  order : ∀ o, p.order = some o → s.releases = fun _ => o
  rest : p.rest = true → s.chains = []
  shared : t.sink.shared = s.sink.shared

/-- Two emissions cannot be told apart by what the code of a routine depends on. -/
structure Beside (S : Routine → Routine → Prop) (p : Sides) (s t : State Chunk) : Prop extends Near p s t where
  active : S s.active t.active
  frame : t.frame = s.frame

/-- The routine at hand may have grown, and some functions have been completed. -/
structure Extends (ds : List Routine) (s s' : State Chunk) : Prop where
  outside : s'.sink.outside = s.sink.outside
  head : s'.active.head = s.active.head
  functions : s'.sink.functions.toList = s.sink.functions.toList ++ ds

/-- Two emissions have gone on side by side. -/
structure Together (S : Routine → Routine → Prop) (p : Sides) (fs : List FunctionHead) (s t s' t' : State Chunk) :
    Prop extends Beside S p s' t' where
  completed : ∃ ds ds', Extends ds s s' ∧ Extends ds' t t' ∧ List.Forall₂ Declares fs ds ∧
    (p.copying.bodies = true → List.Forall₂ S ds ds')

variable {S : Routine → Routine → Prop} {p : Sides} {s t s' t' u u' : State Chunk} {fs gs : List FunctionHead}
  {ds es : List Routine}

theorem Extends.refl (s : State Chunk) : Extends [] s s :=
  ⟨rfl, rfl, (List.append_nil _).symm⟩

theorem Extends.trans (h : Extends ds s t) (h' : Extends es t u) : Extends (ds ++ es) s u where
  outside := h'.outside.trans h.outside
  head := h'.head.trans h.head
  functions := by rw [h'.functions, h.functions, List.append_assoc]

theorem extends_withActive {r : Routine} (h : r.head = s.active.head) : Extends [] s (s.withActive r) where
  outside := s.sink.outside_withActive r
  head := by rw [State.active_withActive, h]
  functions := by
    show (s.sink.withActive r).functions.toList = _
    rw [Chunk.functions_withActive, List.append_nil]

theorem Near.withActive (h : Near p s t) {r r' : Routine} (hr : r.head = s.active.head)
    (hr' : r'.head = t.active.head) : Near p (s.withActive r) (t.withActive r') where
  memory := h.memory
  memory' := h.memory'
  table := h.table
  table' := h.table'
  chains := h.chains
  releases := h.releases
  order := h.order
  rest := h.rest
  shared := by
    show (t.sink.withActive r').shared = (s.sink.withActive r).shared
    rw [Chunk.shared_withActive hr, Chunk.shared_withActive hr', h.shared]

/-- No function has been completed. -/
theorem Beside.together (h : Beside S p s' t') (hs : Extends [] s s') (ht : Extends [] t t') :
    Together S p [] s t s' t' :=
  { h with completed := ⟨[], [], hs, ht, .nil, fun _ => .nil⟩ }

theorem Together.trans (h : Together S p fs s t s' t') (h' : Together S p gs s' t' u u') :
    Together S p (fs ++ gs) s t u u' := by
  obtain ⟨ds, ds', hds, hds', hfs, halike⟩ := h.completed
  obtain ⟨es, es', hes, hes', hgs, halike'⟩ := h'.completed
  exact { h'.toBeside with completed := ⟨ds ++ es, ds' ++ es', hds.trans hes, hds'.trans hes',
    List.rel_append hfs hgs, fun h => List.rel_append (halike h) (halike' h)⟩ }

/-! ## Steps -/

variable {α β : Type} {x y : Emit Chunk α}

/-- Wherever the first step succeeds, the second one succeeds beside it. -/
structure Follows (S : Routine → Routine → Prop) (p : Sides) (fs : List FunctionHead) (x y : Emit Chunk α) : Prop where
  ok : ∀ s t, Beside S p s t → ∀ a s', x s = (.ok a, s') → ∃ t', y t = (.ok a, t') ∧ Together S p fs s t s' t'
  error : p.copying.bodies = true → ∀ s t, Beside S p s t → ∀ e, (x s).1 = .error e → ∃ e', (y t).1 = .error e'

namespace Follows

theorem pure (a : α) : Follows S p [] (Pure.pure a) (Pure.pure a) where
  ok s t h b s' hrun := by
    cases hrun
    exact ⟨t, rfl, h.together (.refl s) (.refl t)⟩
  error _ _ _ _ _ hrun := nomatch hrun

/-- Looking at something that is the same on both sides. -/
theorem peek {f g : State Chunk → α} (h : ∀ s t, Beside S p s t → g t = f s) :
    Follows S p [] (Pass.peek f) (Pass.peek g) where
  ok s t hst b s' hrun := by
    cases hrun
    exact ⟨t, by rw [Pass.peek_apply, h s t hst], hst.together (.refl s) (.refl t)⟩
  error _ _ _ _ _ hrun := nomatch hrun

/-- Changing something that no routine is concerned with. -/
theorem update {f g : State Chunk → State Chunk} (h : ∀ s t, Beside S p s t → Beside S p (f s) (g t))
    (hf : ∀ s, (f s).sink = s.sink) (hg : ∀ t, (g t).sink = t.sink) :
    Follows S p [] (Pass.update f) (Pass.update g) where
  ok s t hst b s' hrun := by
    have hextends {s s' : State Chunk} (h : s'.sink = s.sink) : Extends [] s s' :=
      ⟨by rw [h], by rw [State.active, State.active, h], by rw [h, List.append_nil]⟩
    cases hrun
    exact ⟨g t, rfl, (h s t hst).together (hextends (hf s)) (hextends (hg t))⟩
  error _ _ _ _ _ hrun := nomatch hrun

theorem bind {f g : α → Emit Chunk β} (hx : Follows S p fs x y) (hf : ∀ a, Follows S p gs (f a) (g a)) :
    Follows S p (fs ++ gs) (x >>= f) (y >>= g) where
  ok s t h b u hrun := by
    obtain ⟨a, s', hfirst, hsecond⟩ := (bind_eq_ok_iff _ _ _ _ _).mp hrun
    obtain ⟨t', hfirst', htogether⟩ := hx.ok s t h a s' hfirst
    obtain ⟨u', hsecond', htogether'⟩ := (hf a).ok s' t' htogether.toBeside b u hsecond
    exact ⟨u', (bind_eq_ok_iff _ _ _ _ _).mpr ⟨a, t', hfirst', hsecond'⟩, htogether.trans htogether'⟩
  error hp s t h e hrun := by
    rw [Pass.bind_apply] at hrun
    rcases hfirst : x s with ⟨r, s'⟩
    rw [hfirst] at hrun
    cases r with
    | error e₁ =>
      obtain ⟨e', herror⟩ := hx.error hp s t h e₁ (congrArg Prod.fst hfirst)
      rcases hfirst' : y t with ⟨r, t'⟩
      rw [hfirst'] at herror
      cases herror
      exact ⟨e', by rw [Pass.bind_apply, hfirst']⟩
    | ok a =>
      obtain ⟨t', hfirst', htogether⟩ := hx.ok s t h a s' hfirst
      obtain ⟨e', herror⟩ := (hf a).error hp s' t' htogether.toBeside e hrun
      exact ⟨e', by rw [Pass.bind_apply, hfirst']; exact herror⟩

/-- A change of the routine after a step. -/
theorem thenFrame (h : Follows S p fs x y) (f : Frame → Frame) :
    Follows S p fs (thenFrame x f) (thenFrame y f) where
  ok s t hst a u hrun := by
    have hok := (Prod.mk.inj hrun).1
    have hu := (Prod.mk.inj hrun).2
    obtain ⟨t', hrun', htogether⟩ := h.ok s t hst a (x s).2 (Prod.ext hok rfl)
    obtain ⟨ds, ds', hds, hds', hcompleted⟩ := htogether.completed
    refine ⟨{ t' with frame := f t'.frame }, ?_, ?_⟩
    · show (y.ensuring _) t = _
      rw [Pass.ensuring_apply, hrun']
    · rw [← hu]
      exact
        { htogether.toNear, htogether.toBeside with
          frame := congrArg f htogether.frame
          completed := ⟨ds, ds', ⟨hds.outside, hds.head, hds.functions⟩, ⟨hds'.outside, hds'.head, hds'.functions⟩,
            hcompleted⟩ }
  error := h.error

theorem reporting_fst (x : Emit Chunk Unit) (span : Span) (s : State Chunk) :
    (∀ e, (x s).1 = .error e → ∃ e', (reporting span x s).1 = .error e') ∧
      ∀ s', reporting span x s = (.ok (), s') ↔ x s = (.ok (), s') := by
  unfold Lowering.reporting
  rcases x s with ⟨r, v⟩
  cases r with
  | ok a => exact ⟨nofun, fun s' => Iff.rfl⟩
  | error e =>
    dsimp only
    split <;> exact ⟨fun _ _ => ⟨_, rfl⟩, fun s' => ⟨nofun, nofun⟩⟩

/-- Nothing is reported of a step that succeeds. -/
theorem reporting {x y : Emit Chunk Unit} (h : Follows S p fs x y) (span : Span) :
    Follows S p fs (reporting span x) (reporting span y) where
  ok s t hst a u hrun := by
    obtain ⟨t', hy, htogether⟩ := h.ok s t hst a u (((reporting_fst x span s).2 u).mp hrun)
    exact ⟨t', ((reporting_fst y span t).2 t').mpr hy, htogether⟩
  error hp s t hst e hrun := by
    rcases hx : x s with ⟨r, v⟩
    cases r with
    | ok a =>
      rw [((reporting_fst x span s).2 v).mpr hx] at hrun
      exact nomatch hrun
    | error e₁ =>
      obtain ⟨e', herror⟩ := h.error hp s t hst e₁ (congrArg Prod.fst hx)
      exact (reporting_fst y span t).1 e' herror

end Follows

/-! ## Rules -/

theorem Beside.withTables (h : Beside S p s t) {table table' : RuleTable} (ht : table.Regular)
    (ht' : table'.Regular) : Beside S p { s with table } { t with table := table' } :=
  { h with table := ht, table' := ht' }

theorem onTable_ok {q : Pass Fault RuleTable α} {a : α} {table : RuleTable} (h : q s.table = (.ok a, table)) :
    (onTable q : Emit Chunk α) s = (.ok a, { s with table }) := by
  unfold onTable
  rw [h]

/-- With standard rules every node gets the rule made for its kind, on both sides. -/
theorem follows_onTable {κ : Type} {q q' : Pass Fault RuleTable (Handle κ)} {handle handle' : Handle κ}
    (hq : ∀ t : RuleTable, t.Regular → ∃ t', q t = (.ok handle, t') ∧ t'.Regular)
    (hq' : ∀ t : RuleTable, t.Regular → ∃ t', q' t = (.ok handle', t') ∧ t'.Regular)
    {f g : Handle κ → Emit Chunk α} (h : Follows S p fs (f handle) (g handle')) :
    Follows S p fs (onTable q >>= f) (onTable q' >>= g) where
  ok s t hst a u hrun := by
    obtain ⟨table, hs, htable⟩ := hq s.table hst.table
    obtain ⟨table', ht, htable'⟩ := hq' t.table hst.table'
    rw [Pass.bind_apply, onTable_ok hs] at hrun
    obtain ⟨u', hg, htogether⟩ := h.ok _ _ (hst.withTables htable htable') a u hrun
    refine ⟨u', by rw [Pass.bind_apply, onTable_ok ht]; exact hg, ?_⟩
    obtain ⟨ds, ds', hds, hds', hcompleted⟩ := htogether.completed
    exact
      { htogether with
        completed := ⟨ds, ds', ⟨hds.outside, hds.head, hds.functions⟩, ⟨hds'.outside, hds'.head, hds'.functions⟩,
          hcompleted⟩ }
  error hp s t hst e hrun := by
    obtain ⟨table, hs, htable⟩ := hq s.table hst.table
    obtain ⟨table', ht, htable'⟩ := hq' t.table hst.table'
    rw [Pass.bind_apply, onTable_ok hs] at hrun
    obtain ⟨e', herror⟩ := h.error hp _ _ (hst.withTables htable htable') e hrun
    exact ⟨e', by rw [Pass.bind_apply, onTable_ok ht]; exact herror⟩

/-! ## Calls to the sink -/

variable [Twins S]

/-- An operation on the routines at hand. -/
theorem Beside.operation (h : Beside S p s t) {f : Routine → α × Routine} (hf : Operation f) :
    (f t.active).1 = (f s.active).1 ∧
      Together S p [] s t (s.withActive (f s.active).2) (t.withActive (f t.active).2) := by
  obtain ⟨hanswer, htwins⟩ := Twins.operation hf h.active
  have hbeside : Beside S p (s.withActive (f s.active).2) (t.withActive (f t.active).2) :=
    { h.toNear.withActive (hf.head _) (hf.head _) with
      active := by rwa [State.active_withActive, State.active_withActive]
      frame := h.frame }
  exact ⟨hanswer, hbeside.together (extends_withActive (hf.head _)) (extends_withActive (hf.head _))⟩

/-- A call that the active routine answers. -/
theorem follows_toSink {f : Routine → Except SinkError α × Routine} (hf : Operation f) :
    Follows S p [] (toSink (Chunk.onActive f)) (toSink (Chunk.onActive f)) where
  ok s t h a s' hrun := by
    obtain ⟨hanswer, htogether⟩ := h.operation hf
    cases hok : (f s.active).1 with
    | error e =>
      rw [toSink_error (Prod.ext hok rfl)] at hrun
      exact nomatch hrun
    | ok b =>
      rw [toSink_ok (Prod.ext hok rfl)] at hrun
      obtain ⟨hb, rfl⟩ := Prod.mk.inj hrun
      cases hb
      exact ⟨_, toSink_ok (Prod.ext (hanswer.trans hok) rfl), htogether⟩
  error _ s t h e hrun := by
    obtain ⟨hanswer, -⟩ := h.operation hf
    cases hok : (f s.active).1 with
    | error e =>
      rw [toSink_error (Prod.ext (hanswer.trans hok) rfl)]
      exact ⟨_, rfl⟩
    | ok b =>
      rw [toSink_ok (Prod.ext hok rfl)] at hrun
      exact nomatch hrun

/-- A call that is always answered. -/
theorem follows_told {f : Routine → α × Routine} (hf : Operation f) {x : Emit Chunk α}
    (hx : ∀ s, x s = (.ok (f s.active).1, s.withActive (f s.active).2)) : Follows S p [] x x where
  ok s t h a s' hrun := by
    obtain ⟨hanswer, htogether⟩ := h.operation hf
    rw [hx] at hrun
    obtain ⟨ha, rfl⟩ := Prod.mk.inj hrun
    cases ha
    exact ⟨_, by rw [hx, hanswer], htogether⟩
  error _ s _ _ _ hrun := by
    rw [hx] at hrun
    exact nomatch hrun

theorem returnTemp_eq (s : State Chunk) (t : Temp) :
    { s with sink := Sink.returnTemp t s.sink } = s.withActive (s.active.returnTemp t) := by
  show { s with sink := (Chunk.onActive (fun r => ((), r.returnTemp t)) s.sink).2 } = _
  rw [Chunk.onActive_eq]
  rfl

theorem follows_returnTemp (t : Temp) : Follows S p [] (returnTemp t) (returnTemp t) :=
  follows_told (.returnTemp t) fun s => congrArg (Prod.mk _) (returnTemp_eq s t)

theorem follows_defineLabel : Follows S p [] (defineLabel : Emit Chunk Label) defineLabel := by
  refine follows_told .defineLabel fun s => ?_
  show (Except.ok (Chunk.onActive Routine.defineLabel s.sink).1,
    { s with sink := (Chunk.onActive Routine.defineLabel s.sink).2 }) = _
  rw [Chunk.onActive_eq]
  rfl

theorem follows_sequencePoint (span : Span) :
    Follows S p [] (Pass.update fun s : State Chunk => { s with sink := Sink.sequencePoint span s.sink })
      (Pass.update fun s => { s with sink := Sink.sequencePoint span s.sink }) := by
  refine follows_told (.sequencePoint span) fun s => ?_
  show (Except.ok (),
    { s with sink := (Chunk.onActive (fun r => ((), { r with currentSpan := span })) s.sink).2 }) = _
  rw [Chunk.onActive_eq]
  rfl

/-! ## Chains -/

section Renumber

variable {f : Nat → Nat}

theorem lookup_renumber (hf : f.Injective) (kept : List (Nat × Temp × TypeCode)) (id : Nat) :
    (kept.map fun entry => (f entry.1, entry.2)).lookup (f id) = kept.lookup id := by
  induction kept with
  | nil => rfl
  | cons entry rest ih =>
    obtain ⟨i, slot, code⟩ := entry
    by_cases hid : id = i
    · simp [hid]
    · have hother : (f id == f i) = false := beq_false_of_ne (hf.ne hid)
      rw [List.map_cons, List.lookup_cons, hother, List.lookup_cons, beq_false_of_ne hid, ih]

theorem filter_renumber (hf : f.Injective) (kept : List (Nat × Temp × TypeCode)) (id : Nat) :
    (kept.map fun entry => (f entry.1, entry.2)).filter (fun entry => entry.1 ≠ f id) =
      (kept.filter fun entry => entry.1 ≠ id).map fun entry => (f entry.1, entry.2) := by
  rw [List.filter_map]
  refine congrArg _ (List.filter_congr fun entry _ => ?_)
  simp [hf.eq_iff]

end Renumber

omit [Twins S] in
theorem follows_beginChain (hp : p.rest = false) (quiet : Bool) :
    Follows S p [] (beginChain quiet : Emit Chunk Unit) (beginChain quiet) := by
  refine .update (fun _ _ h => ?_) (fun _ => rfl) fun _ => rfl
  exact { h with chains := congrArg (_ :: ·) h.chains, rest := fun hrest => nomatch hp.symm.trans hrest }

omit [Twins S] in
theorem follows_keepOperand (id : Nat) (slot : Temp) (code : TypeCode) :
    Follows S p [] (Pass.update (State.keepOperand id slot code) : Emit Chunk Unit)
      (Pass.update (State.keepOperand (p.copying.node id) slot code)) := by
  have hsink (id : Nat) (s : State Chunk) : (State.keepOperand id slot code s).sink = s.sink := by
    unfold State.keepOperand
    split <;> rfl
  refine .update (fun s t h => ?_) (hsink _) (hsink _)
  unfold State.keepOperand
  rw [h.chains]
  cases hchains : s.chains with
  | nil => exact h
  | cons chain chains =>
    refine { h with chains := ?_, rest := fun hp => absurd ((h.rest hp).symm.trans hchains) (List.cons_ne_nil _ _).symm }
    have hkept := filter_renumber p.injective chain.kept id
    show Chain.mk _ (List.filter _ _ ++ _) :: _ = Chain.mk _ (List.map _ (_ ++ _)) :: _
    rw [List.map_append, ← hkept]
    rfl

/-- Slots are given back on both sides. -/
theorem Beside.returnTemps (h : Beside S p s t) (slots : List Temp) :
    Together S p [] s t { s with sink := slots.foldl (fun k t => Sink.returnTemp t k) s.sink }
      { t with sink := slots.foldl (fun k t => Sink.returnTemp t k) t.sink } := by
  induction slots generalizing s t with
  | nil => exact h.together (.refl s) (.refl t)
  | cons slot rest ih =>
    have hfirst := (h.operation (.returnTemp slot)).2
    dsimp only at hfirst
    rw [← returnTemp_eq, ← returnTemp_eq] at hfirst
    exact hfirst.trans (ih hfirst.toBeside)

theorem Beside.endChain (h : Beside S p s t) : Together S p [] s t s.endChain t.endChain := by
  unfold State.endChain
  rw [h.chains]
  cases hchains : s.chains with
  | nil => exact h.together (.refl s) (.refl t)
  | cons chain chains =>
    have hslots : (chain.renumber p.copying.node).slots = chain.slots := by
      simp only [Chain.slots, Chain.renumber, List.map_map]
      rfl
    show Together S p [] s t _ { t with
      chains := _
      releases := _
      sink := ((t.releases 0).arrange (chain.renumber p.copying.node).slots).foldl
        (fun k t => Sink.returnTemp t k) t.sink }
    rw [hslots, h.releases]
    have hreturned := h.returnTemps ((s.releases 0).arrange chain.slots)
    obtain ⟨ds, ds', hds, hds', hcompleted⟩ := hreturned.completed
    exact
      { hreturned with
        chains := rfl
        releases := rfl
        order := fun o ho => by rw [h.order o ho]
        rest := fun hp => nomatch (h.rest hp).symm.trans hchains
        completed := ⟨ds, ds', ⟨hds.outside, hds.head, hds.functions⟩,
          ⟨hds'.outside, hds'.head, hds'.functions⟩, hcompleted⟩ }

theorem follows_endChain :
    Follows S p [] (Pass.update State.endChain : Emit Chunk Unit) (Pass.update State.endChain) where
  ok s t h a s' hrun := by
    cases hrun
    exact ⟨t.endChain, rfl, h.endChain⟩
  error _ _ _ _ _ hrun := nomatch hrun

/-- The innermost chain is closed after a step that succeeds. -/
theorem Follows.ensuring (h : Follows S p fs x y) :
    Follows S p fs (x.ensuring State.endChain) (y.ensuring State.endChain) where
  ok s t hst a u hrun := by
    have hok := (Prod.mk.inj hrun).1
    have hu := (Prod.mk.inj hrun).2
    obtain ⟨t', hy, htogether⟩ := h.ok s t hst a (x s).2 (Prod.ext hok rfl)
    refine ⟨t'.endChain, ?_, ?_⟩
    · rw [Pass.ensuring_apply, hy]
    · have hend := htogether.trans htogether.toBeside.endChain
      rwa [List.append_nil, hu] at hend
  error := h.error

omit [Twins S] in
/-- Looking at what differs on the two sides. -/
theorem Follows.look {γ : Type} {f : State Chunk → γ} {g h : γ → Emit Chunk α}
    (hx : ∀ s t, Beside S p s t → Follows S p fs (g (f s)) (h (f t))) :
    Follows S p fs (Pass.peek f >>= g) (Pass.peek f >>= h) where
  ok s t hst := (hx s t hst).ok s t hst
  error hp s t hst := (hx s t hst).error hp s t hst

theorem follows_chainOperand {e e' : Expr} (he : Matches p.allowance e e') {operand operand' : Code Chunk}
    (hoperand : Follows S p [] (boxed operand) (boxed operand')) :
    Follows S p [] (chainOperand e operand) (chainOperand e' operand') := by
  unfold chainOperand
  rw [he.isRepeatable]
  refine .look fun s t hst => ?_
  rw [hst.chains, List.head?_map]
  cases s.chains.head? with
  | none => exact hoperand
  | some chain =>
    cases hrepeatable : e.isRepeatable with
    | true => exact hoperand
    | false =>
      have hid : e'.id = p.copying.node e.id := he.number hrepeatable
      rw [hid]
      dsimp only [Option.map_some, Chain.renumber, Bool.false_eq_true, if_false]
      rw [lookup_renumber p.injective]
      cases chain.kept.lookup e.id with
      | some entry => exact (follows_toSink (.emit _)).bind fun _ => .pure _
      | none =>
        refine hoperand.bind fun code => (follows_toSink .declareTemp).bind fun slot => ?_
        refine ((follows_toSink (.emit _)).bind fun _ => follows_toSink (.emit _)).bind fun _ => ?_
        exact (follows_keepOperand e.id slot code).bind fun _ => .pure code

/-! ## Steps that are put together in the same way -/

theorem ends_onTable (q : Pass Fault RuleTable α) (s : State Chunk) :
    Ends (onTable q : Emit Chunk α) s (fun a _ => (q s.table).1 = .ok a) anyFailure := by
  unfold onTable
  rcases h : q s.table with ⟨r, t⟩
  cases r with
  | ok a => exact .of_eq (by rw [h]) rfl
  | error e => exact .intro (fun a t hrun => by rw [h] at hrun; exact nomatch hrun) fun _ _ _ => trivial

theorem length_endChain (s : State Chunk) : s.endChain.chains.length = s.chains.length - 1 := by
  unfold State.endChain
  cases hchains : s.chains with
  | nil => simp [hchains]
  | cons chain chains => rfl

theorem length_keepOperand (id : Nat) (slot : Temp) (code : TypeCode) (s : State Chunk) :
    (s.keepOperand id slot code).chains.length = s.chains.length := by
  unfold State.keepOperand
  cases hchains : s.chains with
  | nil => simp [hchains]
  | cons chain chains => rfl

/-- A step that succeeds leaves as many chains open as it finds. -/
theorem Paired.depth {A : Allowance} (h : Paired A x y) :
    ∀ s, Ends x s (fun _ t => t.chains.length = s.chains.length) anyFailure := by
  have hleave {α : Type} {x : Emit Chunk α} (h : LeavesChains x) (s : State Chunk) :
      Ends x s (fun _ t => t.chains.length = s.chains.length) anyFailure :=
    (h s).mono fun _ _ ht => congrArg List.length ht.1
  have hbind {α β : Type} {x : Emit Chunk α} {f : α → Emit Chunk β}
      (hx : ∀ s, Ends x s (fun _ t => t.chains.length = s.chains.length) anyFailure)
      (hf : ∀ a s, Ends (f a) s (fun _ t => t.chains.length = s.chains.length) anyFailure) (s : State Chunk) :
      Ends (x >>= f) s (fun _ t => t.chains.length = s.chains.length) anyFailure :=
    (hx s).bind fun a t ht => (hf a t).mono fun _ _ hu => hu.trans ht
  induction h with
  | pure | frame | memory | chainIsQuiet | updateFrame => exact fun _ => rfl
  | newArray => exact hbind (fun _ => .peek rfl) fun _ => hleave (leavesChains_emit _)
  | fail => exact fun _ => trivial
  | bind _ _ ihx ihf => exact hbind ihx ihf
  | rule _ kind id _ _ ih =>
    intro s
    refine ((hleave (leavesChains_onTable _) s).and (ends_onTable _ s)).bind fun handle t ht => ?_
    obtain ⟨entry, hentry, rfl⟩ := RuleTable.exists_entry_of_ok ht.2
    exact (ih entry hentry t).mono fun _ _ hu => hu.trans ht.1
  | @chainOperand e _ _ _ _ _ ih =>
    intro s
    unfold Lowering.chainOperand
    refine .peek_bind ?_
    cases s.chains.head? with
    | none => exact ih s
    | some chain =>
      dsimp only
      split
      · exact ih s
      · cases chain.kept.lookup e.id with
        | some entry => exact hbind (hleave (leavesChains_emit _)) (fun _ _ => .pure rfl) s
        | none =>
          refine hbind ih (fun code => hbind (hleave (leavesChains_toSink _)) fun slot => ?_) s
          refine hbind (hbind (hleave (leavesChains_emit _)) fun _ => hleave (leavesChains_emit _)) fun _ => ?_
          exact hbind (fun s => .update (length_keepOperand e.id slot code s)) fun _ _ => .pure rfl
  | inChain quiet _ ih =>
    intro s
    refine (ih { s with chains := { quiet } :: s.chains }).bind fun a t ht => ?_
    show t.endChain.chains.length = _
    rw [length_endChain, ht]
    rfl
  | inClosedChain quiet _ ih =>
    intro s
    refine Ends.ensuring ((ih { s with chains := { quiet } :: s.chains }).mono fun a t ht => ?_)
    rw [length_endChain, ht]
    rfl
  | emit | addConstant | mark | declareTemp | beginTry | beginCatch | beginFinally | endRegion =>
    exact hleave (leavesChains_toSink _)
  | defineLabel | returnTemp => exact fun _ => rfl

theorem Paired.follows_step (h : Paired p.allowance x y) (hp : p.rest = false) : Follows S p [] x y := by
  induction h with
  | pure a => exact .pure a
  | bind _ _ ihx ihf => exact ihx.bind ihf
  | fail =>
    exact ⟨fun _ _ _ _ _ hrun => (nomatch hrun), fun _ _ _ _ _ _ => ⟨_, rfl⟩⟩
  | frame => exact .peek fun _ _ h => h.frame
  | updateFrame f =>
    exact .update (fun _ _ h => { h with frame := congrArg f h.frame }) (fun _ => rfl) fun _ => rfl
  | rule hregistry kind id id' _ ih =>
    cases hregistry
    exact follows_onTable (fun t ht => RuleTable.exists_expr ht kind id)
      (fun t ht => RuleTable.exists_expr ht kind id') (ih _ rfl)
  | memory hf =>
    refine .peek fun s t h => ?_
    rw [h.memory, h.memory']
    exact hf
  | @newArray home home' hkeys =>
    have hpeek : Follows S p [] (Pass.peek fun s : State Chunk => s.memory.keyCount home)
        (Pass.peek fun s : State Chunk => s.memory.keyCount home') := .peek fun s t h => by
      rw [h.memory, h.memory']
      exact hkeys
    exact hpeek.bind fun _ => follows_toSink (.emit _)
  | chainIsQuiet =>
    refine .peek fun s t h => ?_
    rw [h.chains]
    cases s.chains <;> rfl
  | chainOperand he _ ih => exact follows_chainOperand he ih
  | inChain quiet _ ih =>
    exact (follows_beginChain hp quiet).bind fun _ => ih.bind fun a => follows_endChain.bind fun _ => .pure a
  | inClosedChain quiet _ ih => exact (follows_beginChain hp quiet).bind fun _ => ih.ensuring
  | emit i => exact follows_toSink (.emit i)
  | addConstant v => exact follows_toSink (.addConstant v)
  | defineLabel => exact follows_defineLabel
  | mark l => exact follows_toSink (.markLabel l)
  | declareTemp => exact follows_toSink .declareTemp
  | returnTemp t => exact follows_returnTemp t
  | beginTry => exact follows_toSink .beginTry
  | beginCatch type => exact follows_toSink (.beginHandler (.catching type))
  | beginFinally => exact follows_toSink (.beginHandler .cleanup)
  | endRegion => exact follows_toSink .endRegion

/-- **Steps that are put together in the same way follow each other.** -/
theorem Paired.follows (h : Paired p.allowance x y) : Follows S p [] x y := by
  have hstep : Follows S { p with rest := false } [] x y := Paired.follows_step h rfl
  refine ⟨fun s t hst a s' hrun => ?_, fun hp s t hst => hstep.error hp s t { hst with rest := nofun }⟩
  obtain ⟨t', hrun', htogether⟩ := hstep.ok s t { hst with rest := nofun } a s' hrun
  refine ⟨t', hrun', { htogether with rest := fun hp => ?_ }⟩
  have hdepth := (h.depth s).of_ok hrun
  rw [hst.rest hp] at hdepth
  exact List.eq_nil_of_length_eq_zero hdepth

/-! ## Functions -/

/-- A function: its code between the calls that begin and end it. -/
def functionCode (head : FunctionHead) (body : Emit Chunk Unit) : Emit Chunk Unit := do
  toSink (Sink.beginFunction head)
  routineCode head.byRef body
  toSink Sink.endFunction

/-- What a function consists of, up to its end. -/
def functionInner (head : FunctionHead) (body : Emit Chunk Unit) : Emit Chunk Unit := do
  body
  routineEnd head.byRef

/-- The state at the beginning of a function. -/
def State.enterFunction (head : FunctionHead) (s : State Chunk) : State Chunk :=
  { s with sink := (Chunk.beginFunction head s.sink).2, frame := { returnsRef := head.byRef } }

/-- A function at its beginning. -/
def freshFunction (head : FunctionHead) (shared : Option String × Option Nat) : Routine :=
  { name := head.name, filePath := shared.1, returnsRef := head.byRef, params := head.params,
    tempLimit := shared.2 }

theorem active_enterFunction (head : FunctionHead) (s : State Chunk) :
    (s.enterFunction head).active = freshFunction head s.sink.shared :=
  rfl

/-- Nothing has happened to the routines that are not complete, but some functions have been completed. -/
structure Finishes (ds : List Routine) (s s' : State Chunk) : Prop where
  sink : s'.sink = { s.sink with functions := s.sink.functions ++ ds.toArray }
  memory : s'.memory = s.memory
  frame : s'.frame = s.frame

theorem Finishes.extends (h : Finishes ds s s') : Extends ds s s' where
  outside := by
    rw [h.sink]
    rcases s.sink with ⟨main, functions, _ | _⟩ <;> rfl
  head := by
    rw [State.active, State.active, h.sink]
    rfl
  functions := by simp [h.sink]

variable {head : FunctionHead} {body body' : Emit Chunk Unit} {v : State Chunk}

theorem functionCode_of_error {e : CompileError} (h : functionInner head body (s.enterFunction head) = (.error e, v)) :
    functionCode head body s = (.error e, { v with frame := s.frame }) := by
  have hcode : functionCode head body s =
      (thenFrame (functionInner head body) (fun _ => s.frame) >>= fun _ => toSink Sink.endFunction)
        (s.enterFunction head) := rfl
  rw [hcode, Pass.bind_apply]
  unfold thenFrame
  rw [Pass.ensuring_apply, h]

/-- A function that has got to its end is completed, unless a region is open. -/
theorem functionCode_of_ok (h : functionInner head body (s.enterFunction head) = (.ok (), v))
    (hv : v.sink.outside = some (s.sink.main, s.sink.pending)) :
    functionCode head body s =
      if v.active.openRegions.isEmpty then
        (.ok (), { v with
          sink := { s.sink with functions := v.sink.functions.push v.active }
          frame := s.frame })
      else (.error (.backend (.unbalancedRegion .routineEndedInside)),
        { v with sink := { s.sink with functions := v.sink.functions }, frame := s.frame }) := by
  have hcode : functionCode head body s =
      (thenFrame (functionInner head body) (fun _ => s.frame) >>= fun _ => toSink Sink.endFunction)
        (s.enterFunction head) := rfl
  have hend : Sink.endFunction v.sink =
      if v.active.openRegions.isEmpty then
        (.ok (), { s.sink with functions := v.sink.functions.push v.active })
      else (.error (.unbalancedRegion .routineEndedInside), { s.sink with functions := v.sink.functions }) := by
    rw [Chunk.eq_of_outside hv]
    rfl
  rw [hcode, Pass.bind_apply]
  unfold thenFrame
  rw [Pass.ensuring_apply, h]
  unfold toSink
  dsimp only
  cases hclosed : v.active.openRegions.isEmpty
  all_goals
    rw [hclosed] at hend
    rw [hend]
    rfl

/-- Two functions with one head begin beside each other, wherever they stand. -/
theorem Near.enterFunction (h : Near p s t) (head : FunctionHead) :
    Beside S p (s.enterFunction head) (t.enterFunction head) where
  memory := h.memory
  memory' := h.memory'
  table := h.table
  table' := h.table'
  chains := h.chains
  releases := h.releases
  order := h.order
  rest := h.rest
  shared := h.shared
  active := by
    rw [active_enterFunction, active_enterFunction, h.shared]
    exact Twins.refl _
  frame := rfl

/-- A function that has come to its end is one more that is complete. -/
theorem completes_function (hmemory : v.memory = s.memory) (h : Extends ds (s.enterFunction head) v) :
    Finishes (ds ++ [v.active]) s
      { v with sink := { s.sink with functions := v.sink.functions.push v.active }, frame := s.frame } where
  sink := by
    have hfunctions : v.sink.functions.push v.active = s.sink.functions ++ (ds ++ [v.active]).toArray := by
      have hlist : v.sink.functions.toList = s.sink.functions.toList ++ ds := h.functions
      rw [← Array.toList_inj]
      simp [hlist]
    show Chunk.mk _ _ _ = Chunk.mk _ _ _
    rw [hfunctions]
  memory := hmemory
  frame := rfl

theorem Follows.inner (hbody : Follows S p fs body body') (head : FunctionHead) :
    Follows S p fs (functionInner head body) (functionInner head body') := by
  have hinner : Follows S p (fs ++ []) (functionInner head body) (functionInner head body') :=
    hbody.bind fun _ => Paired.follows inferInstance
  rwa [List.append_nil] at hinner

/-- **A function is emitted in isolation.**  What surrounds it has no influence on it and is not changed;
when it is complete, so are the functions declared in it. -/
theorem exists_functionCode (hbody : Follows S p fs body body') (h : Near p s t)
    (hrun : functionCode head body s = (.ok (), s')) :
    ∃ t' ds ds', functionCode head body' t = (.ok (), t') ∧ Near p s' t' ∧ Finishes ds s s' ∧ Finishes ds' t t' ∧
      List.Forall₂ Declares (fs ++ [head]) ds ∧ (p.copying.bodies = true → List.Forall₂ S ds ds') := by
  rcases hv : functionInner head body (s.enterFunction head) with ⟨r, v⟩
  cases r with
  | error e =>
    rw [functionCode_of_error hv] at hrun
    exact nomatch hrun
  | ok a =>
    obtain ⟨v', hv', htogether⟩ := (hbody.inner head).ok _ _ (h.enterFunction head) _ _ hv
    obtain ⟨ds, ds', hds, hds', hfs, halike⟩ := htogether.completed
    rw [functionCode_of_ok hv hds.outside] at hrun
    split at hrun
    · rename_i hclosed
      cases hrun
      have hclosed' : v'.active.openRegions.isEmpty = true := by
        rw [Twins.openRegions htogether.active]
        exact hclosed
      have hrun' := functionCode_of_ok hv' hds'.outside
      rw [if_pos hclosed'] at hrun'
      have hleft : Declares head v.active := by
        have hhead := hds.head
        rw [active_enterFunction] at hhead
        exact ⟨congrArg Routine.Head.name hhead, congrArg Routine.Head.returnsRef hhead,
          congrArg Routine.Head.params hhead⟩
      refine ⟨_, ds ++ [v.active], ds' ++ [v'.active], hrun', ?_, ?_, ?_, ?_, fun hp => ?_⟩
      · exact { htogether.toNear with shared := h.shared }
      · exact completes_function (htogether.memory.trans h.memory.symm) hds
      · exact completes_function (htogether.memory'.trans h.memory'.symm) hds'
      · exact List.rel_append hfs (.cons hleft .nil)
      · exact List.rel_append (halike hp) (.cons htogether.active .nil)
    · exact nomatch hrun

/-- Where a function cannot be emitted, neither can its twin. -/
theorem exists_error_of_functionCode (hbody : Follows S p fs body body') (hp : p.copying.bodies = true) (h : Near p s t)
    {e : CompileError} (hrun : (functionCode head body s).1 = .error e) :
    ∃ e', (functionCode head body' t).1 = .error e' := by
  rcases hv : functionInner head body (s.enterFunction head) with ⟨r, v⟩
  cases r with
  | error e₁ =>
    obtain ⟨e', herror⟩ := (hbody.inner head).error hp _ _ (h.enterFunction head) e₁ (congrArg Prod.fst hv)
    exact ⟨e', congrArg Prod.fst (functionCode_of_error (Prod.ext herror rfl))⟩
  | ok a =>
    obtain ⟨v', hv', htogether⟩ := (hbody.inner head).ok _ _ (h.enterFunction head) _ _ hv
    obtain ⟨ds, ds', hds, hds', -, -⟩ := htogether.completed
    rw [functionCode_of_ok hv hds.outside] at hrun
    rw [functionCode_of_ok hv' hds'.outside, Twins.openRegions htogether.active]
    split at hrun
    · exact nomatch hrun
    · rename_i hopen
      exact ⟨_, by rw [if_neg hopen]⟩

theorem Finishes.active (h : Finishes ds s s') : s'.active = s.active := by
  rw [State.active, State.active, h.sink]
  rfl

theorem Finishes.shared (h : Finishes ds s s') : s'.sink.shared = s.sink.shared := by
  rw [h.sink]
  rfl

/-- A function on both sides. -/
theorem Follows.function (hbody : Follows S p fs body body') (head : FunctionHead) :
    Follows S p (fs ++ [head]) (functionCode head body) (functionCode head body') where
  ok s t h a s' hrun := by
    obtain ⟨t', ds, ds', hrun', hnear, hds, hds', hcompleted⟩ := exists_functionCode hbody h.toNear hrun
    refine ⟨t', hrun', ?_⟩
    exact
      { hnear with
        active := by
          rw [hds.active, hds'.active]
          exact h.active
        frame := by rw [hds.frame, hds'.frame, h.frame]
        completed := ⟨ds, ds', hds.extends, hds'.extends, hcompleted⟩ }
  error hp s t h e hrun := exists_error_of_functionCode hbody hp h.toNear hrun

/-- A function with nothing in it always comes to its end. -/
theorem exists_emptyFunction (head : FunctionHead) (t : State Chunk) :
    ∃ v, functionInner head (pure ()) (t.enterFunction head) = (.ok (), v) ∧ v.active.openRegions = [] ∧
      Extends [] (t.enterFunction head) v ∧ v.memory = t.memory ∧ v.table = t.table ∧ v.chains = t.chains ∧
      v.releases = t.releases := by
  obtain ⟨name, byRef, params⟩ := head
  cases byRef with
  | true => exact ⟨_, rfl, rfl, ⟨rfl, rfl, (List.append_nil _).symm⟩, rfl, rfl, rfl, rfl⟩
  | false =>
    have hnull : Routine.addConstant .null (freshFunction ⟨name, false, params⟩ t.sink.shared) =
        (.ok 0, { freshFunction ⟨name, false, params⟩ t.sink.shared with constants := #[.null] }) := by
      simp [Routine.addConstant, freshFunction, Routine.maxConstants]
    have hfirst : (toSink (Sink.addConstant .null) : Emit Chunk Nat) (t.enterFunction ⟨name, false, params⟩) = _ :=
      toSink_ok hnull
    unfold functionInner routineEnd pushLiteral
    simp only [bind_assoc, pure_bind, Bool.false_eq_true, if_false]
    rw [Pass.bind_apply, hfirst]
    exact ⟨_, rfl, rfl, ⟨rfl, rfl, (List.append_nil _).symm⟩, rfl, rfl, rfl, rfl⟩

/-- A function on the left, and one with its head and an empty body on the right. -/
theorem Follows.emptied (hp : p.copying.bodies = false) (hrest : p.rest = true) (hbody : Follows S p.left fs body body')
    (head : FunctionHead) : Follows S p (fs ++ [head]) (functionCode head body) (functionCode head (Pure.pure ())) := by
  refine ⟨fun s t h a s' hrun => ?_, fun halike => nomatch hp.symm.trans halike⟩
  have hleft : Near p.left s s :=
    { memory := h.memory, memory' := h.memory, table := h.table, table' := h.table
      chains := by rw [h.rest hrest]; rfl
      releases := rfl, order := h.order, rest := h.rest, shared := rfl }
  obtain ⟨_, ds, _, -, hnear, hds, -, hfs, -⟩ := exists_functionCode hbody hleft hrun
  obtain ⟨o, ho⟩ := p.ordered hp
  obtain ⟨v, hv, hclosed, hextends, hmemory, htable, hchains, hreleases⟩ := exists_emptyFunction head t
  have hrun' := functionCode_of_ok hv hextends.outside
  rw [hclosed, if_pos List.isEmpty_nil] at hrun'
  have hds' := completes_function hmemory hextends
  refine ⟨_, hrun', ?_⟩
  exact
    { memory := hnear.memory
      memory' := hmemory.trans h.memory'
      table := hnear.table
      table' := htable ▸ h.table'
      chains := by rw [hchains, h.chains, h.rest hrest, hnear.rest hrest]
      releases := hreleases.trans (h.releases.trans ((h.order o ho).trans (hnear.order o ho).symm))
      order := hnear.order
      rest := hnear.rest
      shared := h.shared.trans hds.shared.symm
      active := by
        rw [hds.active, hds'.active]
        exact h.active
      frame := h.frame.trans hds.frame.symm
      completed := ⟨ds, _, hds.extends, hds'.extends, hfs, fun halike => nomatch hp.symm.trans halike⟩ }

end Lowering
end PhpLowering
