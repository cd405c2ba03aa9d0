import PhpLowering.Proofs.Code.Growth
import PhpLowering.Proofs.Code.Refusal
import PhpLowering.Proofs.Code.SlotMap

/-!
# Where branches can lead

A chunk looks at the label of a branch before it accepts the branch, and it gives a label a position once.
So whoever calls a chunk, in whatever order, and whether the calls are accepted or not: the branches of a
routine lead to labels that it has, and these labels lie in its code or at its end (`Routine.Charted`).

There is one instruction that a chunk does not look at.  A switch names many labels, and `Instruction.target?`
is about instructions with one; so a switch is accepted whatever labels it names (`switched_to_unknown_label`).

That a label stays where it is needs a word about what "stays" means: functions begin and end, and a routine
is known by its place in the chunk.  `Chunk.Seat` is such a place, and `Seat.after` goes along with the
routine when it is completed.
-/

namespace PhpLowering

/-- An instruction that can branch to many labels. -/
def Instruction.IsSwitch (i : Instruction) : Prop :=
  ∃ ls, i = .switch ls

/-- All labels of an instruction that is no switch are its target. -/
theorem Instruction.target?_of_mem_labels {i : Instruction} {l : Label} (hl : l ∈ i.labels)
    (hswitch : ¬ i.IsSwitch) : i.target? = some l := by
  cases i with
  | branch | branchIfTrue | branchIfFalse | leave => exact congrArg some (List.mem_singleton.mp hl).symm
  | switch ls => exact absurd ⟨ls, rfl⟩ hswitch
  | _ => exact absurd hl (List.not_mem_nil)

namespace Routine

variable {r r' : Routine} {i : Instruction} {l : Label} {o : OpenRegion} {outer : List OpenRegion}

/-- Every branch leads to a label of the routine, and every label that has a position lies in the code. -/
structure Charted (r : Routine) : Prop where
  branches : ∀ i ∈ r.code, ∀ l, i.target? = some l → l.index < r.labels.size
  positions : ∀ l p, r.mark? l = some (some p) → p ≤ r.position
  /-- The labels behind the regions that grow: a branch there is added without a look at its label. -/
  ends : r.HasEndLabels

theorem charted_of_isEmpty (hcode : r.code = #[]) (hlabels : r.labels = #[]) (hopened : r.openRegions = []) :
    r.Charted where
  branches i hi := absurd (hcode ▸ hi) (Array.not_mem_empty i)
  positions l p hl := by
    rw [mark?, hlabels] at hl
    cases hl
  ends o ho := absurd (hopened ▸ ho) List.not_mem_nil

/-! ## One operation -/

/-- Only the code, the labels and the labels behind the growing regions count. -/
theorem Charted.congr (h : r.Charted) (hcode : r'.code = r.code) (hlabels : r'.labels = r.labels)
    (hends : r'.HasEndLabels) : r'.Charted where
  branches := by rw [hcode, hlabels]; exact h.branches
  positions := by unfold mark? position; rw [hcode, hlabels]; exact h.positions
  ends := hends

theorem Charted.push (h : r.Charted) (hi : ∀ l, i.target? = some l → l.index < r.labels.size) :
    (r.push i).Charted where
  branches := Array.forall_mem_push.mpr ⟨hi, h.branches⟩
  positions l p hl := by
    rw [position_push]
    exact Nat.le_succ_of_le (h.positions l p hl)
  ends := h.ends

theorem Charted.emit (h : r.Charted) (i : Instruction) : (r.emit i).2.Charted := by
  unfold Routine.emit
  split
  · rename_i l htarget
    split
    · rename_i hl
      exact h.push fun l' hl' => (Option.some.inj (htarget.symm.trans hl')) ▸ hl
    · exact h
  · rename_i htarget
    exact h.push fun l hl => absurd (htarget.symm.trans hl) (Option.some_ne_none l).symm

/-- A label more, without a position. -/
theorem Charted.defineLabel (h : r.Charted) : r.defineLabel.2.Charted where
  branches i hi l hl := Nat.lt_of_lt_of_le (h.branches i hi l hl) (Array.size_push _ ▸ Nat.le_succ _)
  positions l p hl := by
    rw [mark?, Routine.defineLabel, Array.getElem?_push] at hl
    split at hl
    · cases hl
    · exact h.positions l p hl
  ends := h.ends.operation .defineLabel

theorem Charted.markLabel (h : r.Charted) (l : Label) : (r.markLabel l).2.Charted := by
  have hends : (r.markLabel l).2.HasEndLabels := h.ends.markLabel l
  unfold Routine.markLabel at hends ⊢
  split
  · rename_i heq
    rw [heq] at hends
    refine ⟨fun i hi l' hl' => ?_, fun l' p hl' => ?_, hends⟩
    · exact Nat.lt_of_lt_of_eq (h.branches i hi l' hl') Array.size_setIfInBounds.symm
    · rw [mark?, Array.getElem?_setIfInBounds] at hl'
      split at hl'
      · split at hl'
        · exact Nat.le_of_eq (Option.some.inj (Option.some.inj hl')).symm
        · cases hl'
      · exact h.positions l' p hl'
  · exact h

/-- The branch that closes a block leads behind the region. -/
theorem Charted.beginHandler (h : r.Charted) (kind : HandlerKind) : (r.beginHandler kind).2.Charted := by
  have hends : (r.beginHandler kind).2.HasEndLabels := h.ends.operation (.beginHandler kind)
  cases hopened : r.openRegions with
  | nil =>
    rw [Routine.beginHandler, hopened]
    exact h
  | cons o outer =>
    by_cases hblock : o.block = .handler .cleanup
    · simp only [Routine.beginHandler, hopened, if_pos hblock]
      exact h
    · simp only [Routine.beginHandler, hopened, if_neg hblock] at hends ⊢
      have hleave : (r.push (.leave o.endLabel)).Charted :=
        h.push fun l hl => Option.some.inj hl ▸ h.ends o (hopened ▸ List.mem_cons_self)
      exact hleave.congr rfl rfl hends

/-- The last block of a region is closed in the same way, or by the end of a cleanup block. -/
theorem Charted.recorded (h : r.Charted) (hopened : r.openRegions = o :: outer) (kind : HandlerKind) :
    (r.recorded o outer kind).Charted := by
  have hpush : (r.push (Routine.closing o kind)).Charted := by
    refine h.push fun l hl => ?_
    cases kind with
    | cleanup => cases hl
    | catching type => exact Option.some.inj hl ▸ h.ends o (hopened ▸ List.mem_cons_self)
  exact hpush.congr rfl rfl (h.ends.recorded hopened)

/-- **Every operation keeps the branches and the labels in order.** -/
theorem Charted.operation {α : Type} {f : Routine → α × Routine} (hf : Operation f) (h : r.Charted) :
    (f r).2.Charted := by
  have hends : (f r).2.HasEndLabels := h.ends.operation hf
  cases hf with
  | emit i => exact h.emit i
  | defineLabel => exact h.defineLabel
  | markLabel l => exact h.markLabel l
  | sequencePoint => exact h.congr rfl rfl hends
  | beginTry => exact h.defineLabel.congr rfl rfl hends
  | addConstant v =>
    have hsame := sameText_addConstant r v
    exact h.congr hsame.code hsame.labels hends
  | declareTemp =>
    have hsame := sameText_declareTemp r
    exact h.congr hsame.code hsame.labels hends
  | returnTemp t =>
    have hsame := sameText_returnTemp r t
    exact h.congr hsame.code hsame.labels hends
  | beginHandler kind => exact h.beginHandler kind
  | endRegion =>
    cases hopened : r.openRegions with
    | nil =>
      rw [Routine.endRegion, hopened]
      exact h
    | cons o outer =>
      cases hblock : o.block with
      | guarded =>
        simp only [Routine.endRegion, hopened, hblock]
        exact h
      | handler kind =>
        rw [endRegion_eq hopened hblock]
        exact (h.recorded hopened kind).markLabel _

/-- Whatever is done to a routine, it only grows. -/
theorem Operation.grows {α : Type} {f : Routine → α × Routine} (hf : Operation f) (r : Routine) :
    r.Grows (f r).2 := by
  cases hf with
  | emit i =>
    unfold Routine.emit
    split
    · split
      · exact grows_push i r
      · exact .refl r
    · exact grows_push i r
  | addConstant v => exact grows_addConstant v r
  | defineLabel => exact grows_defineLabel r
  | markLabel l => exact grows_markLabel l r
  | declareTemp => exact grows_declareTemp r
  | returnTemp t => exact grows_returnTemp t r
  | beginTry => exact grows_beginTry r
  | beginHandler kind => exact grows_beginHandler kind r
  | endRegion => exact grows_endRegion r
  | sequencePoint span => exact .of_eq rfl rfl rfl rfl

end Routine

namespace Chunk

open Sink (Call)

/-! ## Routines that keep their place -/

/-- A place for a routine in a chunk. -/
inductive Seat where
  | main
  /-- A function that is not complete; the outermost one has the number 0. -/
  | pending (depth : Nat)
  | complete (k : Nat)
  deriving DecidableEq, Repr

variable {c : Chunk} {r r' : Routine} {seat seat' : Seat}

/-- The routine in a place. -/
def seated? (c : Chunk) : Seat → Option Routine
  | .main => some c.main
  | .pending depth => c.pending.reverse[depth]?
  | .complete k => c.functions[k]?

namespace Seat

/-- The place of a routine after a call.  The innermost function is completed when it ends, or lost. -/
def next (c : Chunk) : Call → Seat → Option Seat
  | .endFunction, .pending depth =>
    if depth + 1 < c.pending.length then some (.pending depth)
    else if c.active.openRegions.isEmpty then some (.complete c.functions.size) else none
  | _, seat => some seat

/-- The place of a routine after some calls; none if it has been lost. -/
def after (c : Chunk) : List Call → Seat → Option Seat
  | [], seat => some seat
  | call :: rest, seat => (seat.next c call).bind (after (call.make c).2 rest)

end Seat

/-- The innermost function has the last place among those that are not complete. -/
theorem seated?_pending (main first : Routine) (functions : Array Routine) (outer : List Routine) (depth : Nat) :
    (Chunk.mk main functions (first :: outer)).seated? (.pending depth) =
      if depth < outer.length then outer.reverse[depth]? else if depth = outer.length then some first else none := by
  rw [seated?, List.reverse_cons]
  split
  · exact List.getElem?_append_left (by rwa [List.length_reverse])
  · rename_i hdepth
    rw [List.getElem?_append_right (by rw [List.length_reverse]; exact Nat.le_of_not_lt hdepth),
      List.length_reverse, List.getElem?_singleton]
    exact if_congr (by omega) rfl rfl

/-- The active routine has grown. -/
theorem seated?_withActive (hseat : c.seated? seat = some r) (hgrows : c.active.Grows r') :
    ∃ r'', (c.withActive r').seated? seat = some r'' ∧ r.Grows r'' := by
  rcases c with ⟨main, functions, _ | ⟨first, outer⟩⟩
  · cases seat with
    | main =>
      obtain rfl := Option.some.inj hseat
      exact ⟨r', rfl, hgrows⟩
    | pending => exact absurd hseat.symm (Option.some_ne_none r)
    | complete k => exact ⟨r, hseat, .refl r⟩
  · cases seat with
    | main | complete => exact ⟨r, hseat, .refl r⟩
    | pending depth =>
      rw [seated?_pending] at hseat
      rw [withActive, seated?_pending]
      split at hseat
      · rename_i hdepth
        exact ⟨r, (if_pos hdepth).trans hseat, .refl r⟩
      · rename_i hdepth
        rw [Option.ite_none_right_eq_some] at hseat
        obtain ⟨hlast, hfirst⟩ := hseat
        obtain rfl := Option.some.inj hfirst
        exact ⟨r', (if_neg hdepth).trans (if_pos hlast), hgrows⟩

theorem seated?_beginFunction (head : FunctionHead) (hseat : c.seated? seat = some r) :
    (beginFunction head c).2.seated? seat = some r := by
  cases seat with
  | main | complete => exact hseat
  | pending depth =>
    have hdepth : depth < c.pending.length := by
      rw [← List.length_reverse]
      exact (List.getElem?_eq_some_iff.mp hseat).1
    rw [beginFunction, seated?_pending, if_pos hdepth]
    exact hseat

/-- What is left when the innermost function ends. -/
theorem endFunction_eq (main first : Routine) (functions : Array Routine) (outer : List Routine) :
    (endFunction ⟨main, functions, first :: outer⟩).2 =
      ⟨main, if first.openRegions.isEmpty then functions.push first else functions, outer⟩ := by
  simp only [endFunction]
  split <;> rfl

theorem seated?_endFunction (hseat : c.seated? seat = some r) (hnext : seat.next c .endFunction = some seat') :
    (endFunction c).2.seated? seat' = some r := by
  rcases c with ⟨main, functions, _ | ⟨first, outer⟩⟩
  · cases seat with
    | main | complete =>
      obtain rfl := Option.some.inj hnext
      exact hseat
    | pending => exact absurd hseat.symm (Option.some_ne_none r)
  · rw [endFunction_eq]
    cases seat with
    | main =>
      obtain rfl := Option.some.inj hnext
      exact hseat
    | complete k =>
      obtain rfl := Option.some.inj hnext
      have hk : functions[k]? = some r := hseat
      show (if first.openRegions.isEmpty then functions.push first else functions)[k]? = some r
      split
      · rw [Array.getElem?_push_lt (Array.getElem?_eq_some_iff.mp hk).1]
        exact congrArg some (Array.getElem?_eq_some_iff.mp hk).2
      · exact hk
    | pending depth =>
      rw [seated?_pending] at hseat
      simp only [Seat.next, List.length_cons, Nat.add_lt_add_iff_right] at hnext
      split at hseat
      · rename_i hdepth
        rw [if_pos hdepth] at hnext
        obtain rfl := Option.some.inj hnext
        exact hseat
      · rename_i hdepth
        rw [if_neg hdepth, Option.ite_none_right_eq_some] at hnext
        rw [Option.ite_none_right_eq_some] at hseat
        obtain ⟨hempty, hplace⟩ := hnext
        obtain rfl := Option.some.inj hplace
        obtain rfl := Option.some.inj hseat.2
        -- The function that is completed comes behind all others.
        rw [if_pos (show first.openRegions.isEmpty = true from hempty)]
        exact Array.getElem?_push_size

/-- A routine keeps its place in a call, or gets the one that `Seat.next` says, and it only grows. -/
theorem seated?_make (call : Call) (hseat : c.seated? seat = some r) (hnext : seat.next c call = some seat') :
    ∃ r', (call.make c).2.seated? seat' = some r' ∧ r.Grows r' := by
  have hoperation : ∀ {α : Type} {f : Routine → α × Routine}, Routine.Operation f → seat = seat' →
      ∃ r', (onActive f c).2.seated? seat' = some r' ∧ r.Grows r' := by
    intro α f hf heq
    rw [onActive_eq, ← heq]
    exact seated?_withActive hseat (hf.grows _)
  cases call with
  | emit i => exact hoperation (.emit i) (Option.some.inj hnext)
  | addConstant v => exact hoperation (.addConstant v) (Option.some.inj hnext)
  | defineLabel => exact hoperation .defineLabel (Option.some.inj hnext)
  | markLabel l => exact hoperation (.markLabel l) (Option.some.inj hnext)
  | declareTemp => exact hoperation .declareTemp (Option.some.inj hnext)
  | returnTemp t => exact hoperation (.returnTemp t) (Option.some.inj hnext)
  | beginTry => exact hoperation .beginTry (Option.some.inj hnext)
  | beginCatch type => exact hoperation (.beginHandler (.catching type)) (Option.some.inj hnext)
  | beginFinally => exact hoperation (.beginHandler .cleanup) (Option.some.inj hnext)
  | endRegion => exact hoperation .endRegion (Option.some.inj hnext)
  | sequencePoint span => exact hoperation (.sequencePoint span) (Option.some.inj hnext)
  | beginFunction head =>
    obtain rfl := Option.some.inj hnext
    exact ⟨r, seated?_beginFunction head hseat, .refl r⟩
  | endFunction => exact ⟨r, seated?_endFunction hseat hnext, .refl r⟩

/-- **A routine that is not lost only grows**, whatever calls are made. -/
theorem seated?_after {calls : List Call} (hseat : c.seated? seat = some r)
    (hafter : seat.after c calls = some seat') :
    ∃ r', (Sink.after c calls).seated? seat' = some r' ∧ r.Grows r' := by
  induction calls generalizing c seat r with
  | nil =>
    obtain rfl := Option.some.inj hafter
    exact ⟨r, hseat, .refl r⟩
  | cons call calls ih =>
    obtain ⟨mid, hnext, hrest⟩ := Option.bind_eq_some_iff.mp hafter
    obtain ⟨r₁, hseat₁, hgrows⟩ := seated?_make call hseat hnext
    obtain ⟨r₂, hseat₂, hgrows'⟩ := ih hseat₁ hrest
    exact ⟨r₂, hseat₂, hgrows.trans hgrows'⟩

/-! ## Branches and labels after any calls -/

/-- **Branches lead to labels that there are, and labels stay where they are**, whatever calls are made to a
chunk.  In every routine all labels of an instruction that is no switch are labels of the routine, and those
that have a position lie in its code.  From then on they keep this position, unless the routine is lost. -/
theorem branches_after (name : String) (filePath : Option String) (tempLimit : Option Nat)
    (calls : List Call) :
    let c := Sink.after (Chunk.new name filePath tempLimit) calls
    (c.Every fun r =>
      (∀ i ∈ r.code, i.IsSwitch ∨ ∀ l ∈ i.labels, l.index < r.labels.size) ∧
        ∀ l p, r.labelPosition? l = some p → p ≤ r.code.size) ∧
      ∀ seat r later seat', c.seated? seat = some r → seat.after c later = some seat' →
        ∃ r', (Sink.after c later).seated? seat' = some r' ∧
          ∀ l p, r.labelPosition? l = some p → r'.labelPosition? l = some p := by
  intro c
  have hnew : (Chunk.new name filePath tempLimit).Every Routine.Charted :=
    ⟨Routine.charted_of_isEmpty rfl rfl rfl, fun r hr => absurd hr (Array.not_mem_empty r),
      List.forall_mem_nil _⟩
  have hcharted : c.Every Routine.Charted :=
    hnew.after (fun _ _ => Routine.charted_of_isEmpty rfl rfl rfl) (fun hf h => h.operation hf) calls
  have hsound : ∀ {r : Routine}, r.Charted →
      (∀ i ∈ r.code, i.IsSwitch ∨ ∀ l ∈ i.labels, l.index < r.labels.size) ∧
        ∀ l p, r.labelPosition? l = some p → p ≤ r.code.size := by
    refine fun h => ⟨fun i hi => ?_, fun l p hl => h.positions l p (Option.join_eq_some_iff.mp hl)⟩
    exact or_iff_not_imp_left.mpr fun hswitch l hl =>
      h.branches i hi l (Instruction.target?_of_mem_labels hl hswitch)
  refine ⟨⟨hsound hcharted.main, fun r hr => hsound (hcharted.functions r hr),
    fun r hr => hsound (hcharted.pending r hr)⟩, fun seat r later seat' hseat hlater => ?_⟩
  obtain ⟨r', hseat', hgrows⟩ := seated?_after hseat hlater
  exact ⟨r', hseat', fun l p hl =>
    Option.join_eq_some_iff.mpr (hgrows.marked (Option.join_eq_some_iff.mp hl))⟩

/-- A label of a function that loops: it keeps its position when the function is completed. -/
theorem branches_after_completion :
    let c := Sink.after (Chunk.new "main" none none)
      [.beginFunction ⟨"f", false, []⟩, .emit .nop, .defineLabel, .markLabel ⟨0⟩, .emit (.branch ⟨0⟩)]
    (c.seated? (.pending 0) = some c.active ∧ c.active.labelPosition? ⟨0⟩ = some 1 ∧
      Seat.after c [.endFunction] (.pending 0) = some (.complete 0)) ∧
      ∃ r', (Sink.after c [.endFunction]).seated? (.complete 0) = some r' ∧ r'.labelPosition? ⟨0⟩ = some 1 := by
  intro c
  have hafter := (branches_after "main" none none
    [.beginFunction ⟨"f", false, []⟩, .emit .nop, .defineLabel, .markLabel ⟨0⟩, .emit (.branch ⟨0⟩)]).2
  obtain ⟨r', hseat, hkept⟩ := hafter (.pending 0) c.active [.endFunction] (.complete 0) rfl rfl
  exact ⟨⟨rfl, rfl, rfl⟩, r', hseat, hkept ⟨0⟩ 1 rfl⟩

/-- **A switch is accepted by a routine that has no labels at all**, and it stands in the code from then on. -/
theorem switched_to_unknown_label :
    let c := Sink.after (Chunk.new "main" none none) [.emit (.switch [⟨7⟩])]
    (Call.make (Chunk.new "main" none none) (.emit (.switch [⟨7⟩]))).1 = true ∧
      ¬ ∀ i ∈ c.main.code, ∀ l ∈ i.labels, l.index < c.main.labels.size := by
  refine ⟨rfl, fun h => ?_⟩
  exact absurd (h (.switch [⟨7⟩]) (Array.mem_singleton.mpr rfl) ⟨7⟩ (List.mem_singleton_self _))
    (Nat.not_lt_zero 7)

end Chunk
end PhpLowering
