import PhpLowering.Proofs.Outcome
import PhpLowering.Proofs.Code.Change
import PhpLowering.Proofs.Lowering.Conduct

/-!
# One tree, emitted in two settings

Of the settings the code of expressions depends on the registry only (`lower_eq`).  Of the options the code of
statements depends on two: whether a `try` without handlers is left out, and whether the chunk is told where
in the source a statement is.

A relation between routines that goes through this last difference, and through everything else that is done to
both routines, is a `Mirror`.  **`agrees_lowerRoutine`**: two emissions of the same tree that begin in chunks
with such routines end in chunks with such routines, with the same outcome and the same reports.
-/

namespace PhpLowering

open Routine (Operation)

namespace Routine

/-- The routine as a statement in it begins: it is told of the place, if places are wanted. -/
def placed (wanted : Bool) (span : Span) (r : Routine) : Routine :=
  if wanted then { r with currentSpan := span } else r

/-- An operation that has nothing to do with places in the source. -/
structure Placeless {α : Type} (f : Routine → α × Routine) : Prop where
  operation : Operation f
  currentSpan : ∀ r, (f r).2.currentSpan = r.currentSpan

theorem placeless_emit (i : Instruction) : Placeless (Routine.emit i) where
  operation := .emit i
  currentSpan r := by
    unfold Routine.emit
    split
    · split <;> rfl
    · rfl

theorem placeless_addConstant (v : Literal) : Placeless (Routine.addConstant v) where
  operation := .addConstant v
  currentSpan r := by
    unfold Routine.addConstant
    split
    · rfl
    · split <;> rfl

theorem placeless_defineLabel : Placeless Routine.defineLabel where
  operation := .defineLabel
  currentSpan _ := rfl

theorem placeless_markLabel (l : Label) : Placeless (Routine.markLabel l) where
  operation := .markLabel l
  currentSpan r := by
    unfold Routine.markLabel
    split <;> rfl

theorem placeless_declareTemp : Placeless Routine.declareTemp where
  operation := .declareTemp
  currentSpan r := by
    unfold Routine.declareTemp
    split
    · rfl
    · split <;> rfl

theorem placeless_returnTemp (t : Temp) : Placeless fun r => ((), r.returnTemp t) where
  operation := .returnTemp t
  currentSpan r := by
    dsimp only
    unfold Routine.returnTemp
    split <;> rfl

theorem placeless_beginTry : Placeless fun r => ((.ok r.beginTry.1 : Except SinkError Label), r.beginTry.2) where
  operation := .beginTry
  currentSpan _ := rfl

theorem placeless_beginHandler (kind : HandlerKind) : Placeless (Routine.beginHandler kind) where
  operation := .beginHandler kind
  currentSpan r := by
    unfold Routine.beginHandler
    split
    · rfl
    · split <;> rfl

theorem placeless_endRegion : Placeless Routine.endRegion where
  operation := .endRegion
  currentSpan r := by
    unfold Routine.endRegion
    split
    · rfl
    · split
      · rfl
      · exact (placeless_markLabel _).currentSpan _

end Routine

open Routine (placed Placeless)

/-! ## Chunks -/

namespace Chunk

variable {S : Routine → Routine → Prop} {c c' : Chunk}

/-- The routines of two chunks stand for each other. -/
structure Resembles (S : Routine → Routine → Prop) (c c' : Chunk) : Prop where
  main : S c.main c'.main
  functions : List.Forall₂ S c.functions.toList c'.functions.toList
  pending : List.Forall₂ S c.pending c'.pending

theorem Resembles.mono (h : c.Resembles S c') {S' : Routine → Routine → Prop} (hS : ∀ {r r'}, S r r' → S' r r') :
    c.Resembles S' c' :=
  ⟨hS h.main, h.functions.imp fun _ _ => hS, h.pending.imp fun _ _ => hS⟩

/-- What the routines of the second chunk have in common. -/
theorem Resembles.every (h : c.Resembles S c') {P : Routine → Prop} (hP : ∀ {r r'}, S r r' → P r') : c'.Every P := by
  have hall {rs rs' : List Routine} (h : List.Forall₂ S rs rs') : ∀ r ∈ rs', P r := by
    induction h with
    | nil => nofun
    | cons hr _ ih => exact List.forall_mem_cons.mpr ⟨hP hr, ih⟩
  exact ⟨hP h.main, fun r hr => hall h.functions r (Array.mem_toList_iff.mpr hr), hall h.pending⟩

theorem Resembles.active (h : c.Resembles S c') : S c.active c'.active := by
  rcases c with ⟨main, functions, _ | ⟨r, outer⟩⟩ <;> rcases c' with ⟨main', functions', _ | ⟨r', outer'⟩⟩
  · exact h.main
  · exact nomatch h.pending
  · exact nomatch h.pending
  · exact (List.forall₂_cons.mp h.pending).1

theorem Resembles.withActive (h : c.Resembles S c') {r r' : Routine} (hr : S r r') :
    (c.withActive r).Resembles S (c'.withActive r') := by
  rcases c with ⟨main, functions, _ | ⟨q, outer⟩⟩ <;> rcases c' with ⟨main', functions', _ | ⟨q', outer'⟩⟩
  · exact ⟨hr, h.functions, .nil⟩
  · exact nomatch h.pending
  · exact nomatch h.pending
  · exact ⟨h.main, h.functions, .cons hr (List.forall₂_cons.mp h.pending).2⟩

end Chunk

namespace Lowering

-- The instance for a function is a term with a node for every line of the function.
set_option synthInstance.maxSize 100000

open Pass (Agrees)

variable {α β : Type} {cfg cfg' : Setting} {S : Routine → Routine → Prop}
  {D : Array Diagnostic → Array Diagnostic → Prop}

/-- Nothing that is done to two routines in two settings can tell them apart. -/
class Mirror (cfg cfg' : outParam Setting) (S : Routine → Routine → Prop) : Prop where
  registry : cfg'.registry = cfg.registry
  elideEmptyTry : cfg'.options.elideEmptyTry = cfg.options.elideEmptyTry
  begun {c c' : Chunk} : S c.main c'.main → ∀ head, S (c.begun head) (c'.begun head)
  openRegions {r r' : Routine} : S r r' → r'.openRegions = r.openRegions
  operation {α : Type} {f : Routine → α × Routine} {r r' : Routine} : Placeless f → S r r' →
    (f r').1 = (f r).1 ∧ S (f r).2 (f r').2
  placed {r r' : Routine} : S r r' → ∀ span, S (placed cfg.options.sequencePoints span r)
    (placed cfg'.options.sequencePoints span r')

/-- A failure of the emission is reported on both sides. -/
class Reportable (D : Array Diagnostic → Array Diagnostic → Prop) : Prop where
  push {d d' : Array Diagnostic} : D d d' → ∀ message span,
    D (d.push ⟨.emissionFailed message, span⟩) (d'.push ⟨.emissionFailed message, span⟩)

/-- Two emissions are in the same place, with routines that stand for each other. -/
def Reflects (S : Routine → Routine → Prop) (D : Array Diagnostic → Array Diagnostic → Prop)
    (s s' : State Chunk) : Prop :=
  ∃ sink diagnostics, s.sink.Resembles S sink ∧ D s.diagnostics diagnostics ∧ s' = { s with sink, diagnostics }

/-! ## Calls to the sink -/

section Calls

variable [mirror : Mirror cfg cfg' S] {f : Routine → α × Routine} {c c' : Chunk}

include mirror

theorem resembles_onActive (hf : Placeless f) (h : c.Resembles S c') :
    (Chunk.onActive f c').1 = (Chunk.onActive f c).1 ∧
      (Chunk.onActive f c).2.Resembles S (Chunk.onActive f c').2 := by
  obtain ⟨hanswer, htwins⟩ := mirror.operation hf h.active
  rw [Chunk.onActive_eq, Chunk.onActive_eq]
  exact ⟨hanswer, h.withActive htwins⟩

theorem resembles_beginFunction (head : FunctionHead) (h : c.Resembles S c') :
    (Chunk.beginFunction head c').1 = (Chunk.beginFunction head c).1 ∧
      (Chunk.beginFunction head c).2.Resembles S (Chunk.beginFunction head c').2 :=
  ⟨rfl, h.main, h.functions, .cons (mirror.begun h.main head) h.pending⟩

theorem resembles_endFunction (h : c.Resembles S c') :
    (Chunk.endFunction c').1 = (Chunk.endFunction c).1 ∧
      (Chunk.endFunction c).2.Resembles S (Chunk.endFunction c').2 := by
  rcases c with ⟨main, functions, _ | ⟨r, outer⟩⟩ <;> rcases c' with ⟨main', functions', _ | ⟨r', outer'⟩⟩
  · exact ⟨rfl, h⟩
  · exact nomatch h.pending
  · exact nomatch h.pending
  · obtain ⟨hr, houter⟩ := List.forall₂_cons.mp h.pending
    unfold Chunk.endFunction
    dsimp only
    rw [mirror.openRegions hr]
    split
    · refine ⟨rfl, h.main, ?_, houter⟩
      simpa only [Array.toList_push] using List.rel_append h.functions (.cons hr .nil)
    · exact ⟨rfl, h.main, h.functions, houter⟩

omit mirror in
/-- A call that may be refused. -/
theorem agrees_toSink {call : Pass SinkError Chunk α}
    (h : ∀ {c c' : Chunk}, c.Resembles S c' → (call c').1 = (call c).1 ∧ (call c).2.Resembles S (call c').2) :
    Agrees (Reflects S D) id (toSink call) (toSink call) := by
  rintro s _ ⟨sink, diagnostics, hsink, hdiagnostics, rfl⟩
  obtain ⟨hanswer, hafter⟩ := h hsink
  unfold toSink
  dsimp only
  rcases hcall : call s.sink with ⟨r, k⟩
  rcases hcall' : call sink with ⟨r', k'⟩
  rw [hcall, hcall'] at hanswer hafter
  obtain rfl := hanswer
  cases r' <;> exact ⟨⟨k', diagnostics, hafter, hdiagnostics, rfl⟩, rfl⟩

theorem agrees_onActive {f : Routine → Except SinkError α × Routine} (hf : Placeless f) :
    Agrees (Reflects S D) id (toSink (Chunk.onActive f)) (toSink (Chunk.onActive f)) :=
  agrees_toSink fun h => resembles_onActive hf h

theorem resembles_returnTemp (t : Temp) (h : c.Resembles S c') :
    Chunk.Resembles S (Sink.returnTemp t c) (Sink.returnTemp t c') :=
  (resembles_onActive (Routine.placeless_returnTemp t) h).2

end Calls

/-! ## Chains -/

section Chains

variable {s s' : State Chunk} {x y : Emit Chunk α}

/-- Two emissions in the same place have the same chains and the same frame. -/
theorem Reflects.same {β : Type} (f : State Chunk → β) (hf : ∀ s sink diagnostics, f { s with sink, diagnostics } = f s)
    (h : Reflects S D s s') : f s' = f s := by
  obtain ⟨sink, diagnostics, -, -, rfl⟩ := h
  exact hf s sink diagnostics

/-- Looking at something besides the sink and the reports. -/
theorem agrees_peek (f : State Chunk → α) (hf : ∀ s sink diagnostics, f { s with sink, diagnostics } = f s) :
    Agrees (Reflects S D) id (Pass.peek f : Emit Chunk α) (Pass.peek f) :=
  .peek fun _ _ hs => hs.same f hf

/-- Changing something besides the sink and the reports. -/
theorem agrees_update (f : State Chunk → State Chunk)
    (hf : ∀ s sink diagnostics, f { s with sink, diagnostics } = { f s with sink, diagnostics })
    (hsink : ∀ s, (f s).sink = s.sink) (hdiagnostics : ∀ s, (f s).diagnostics = s.diagnostics) :
    Agrees (Reflects S D) id (Pass.update f : Emit Chunk Unit) (Pass.update f) :=
  .update fun s s' ⟨sink, diagnostics, hchunks, hreports, h⟩ =>
    ⟨sink, diagnostics, (hsink s).symm ▸ hchunks, (hdiagnostics s).symm ▸ hreports, by rw [h, hf]⟩

theorem agrees_frame : Agrees (Reflects S D) id (frame : Emit Chunk Frame) frame :=
  agrees_peek _ fun _ _ _ => rfl

theorem agrees_updateFrame (f : Frame → Frame) :
    Agrees (Reflects S D) id (updateFrame f : Emit Chunk Unit) (updateFrame f) :=
  agrees_update _ (fun _ _ _ => rfl) (fun _ => rfl) fun _ => rfl

theorem agrees_onTable (q : Pass Fault RuleTable α) :
    Agrees (Reflects S D) id (onTable q : Emit Chunk α) (onTable q) := by
  rintro s _ ⟨sink, diagnostics, hsink, hdiagnostics, rfl⟩
  unfold onTable
  dsimp only
  rcases q s.table with ⟨_ | _, table⟩ <;> exact ⟨⟨sink, diagnostics, hsink, hdiagnostics, rfl⟩, rfl⟩

/-- The rule of a node is followed by something that agrees for every rule that the node may get. -/
theorem agrees_rule {registry : Registry} {f : Handle ExprKind → Emit Chunk α} (kind : ExprKind) (nodeId : Nat)
    (hf : ∀ entry, registry.expr kind = some entry →
      Agrees (Reflects S D) id (f (entry.exprHandle kind nodeId)) (f (entry.exprHandle kind nodeId))) :
    Agrees (Reflects S D) id (onTable (RuleTable.expr registry kind nodeId) >>= f)
      (onTable (RuleTable.expr registry kind nodeId) >>= f) := by
  rintro s _ ⟨sink, diagnostics, hsink, hdiagnostics, rfl⟩
  rcases hrun : RuleTable.expr registry kind nodeId s.table with ⟨r, table⟩
  rw [Pass.bind_apply, Pass.bind_apply]
  unfold onTable
  dsimp only
  rw [hrun]
  cases r with
  | error f => exact ⟨⟨sink, diagnostics, hsink, hdiagnostics, rfl⟩, rfl⟩
  | ok handle =>
    obtain ⟨entry, hentry, rfl⟩ := RuleTable.exists_entry_of_ok (congrArg Prod.fst hrun)
    exact hf entry hentry _ _ ⟨sink, diagnostics, hsink, hdiagnostics, rfl⟩

theorem agrees_keepOperand (nodeId : Nat) (t : Temp) (code : TypeCode) :
    Agrees (Reflects S D) id (Pass.update (State.keepOperand nodeId t code) : Emit Chunk Unit)
      (Pass.update (State.keepOperand nodeId t code)) := by
  refine agrees_update _ (fun s sink diagnostics => ?_) (fun s => ?_) fun s => ?_
  all_goals rcases s with ⟨_, _, _, _, _ | _, _, _⟩ <;> rfl

variable [mirror : Mirror cfg cfg' S]

include mirror

theorem Reflects.endChain (h : Reflects S D s s') : Reflects S D s.endChain s'.endChain := by
  obtain ⟨sink, diagnostics, hsink, hdiagnostics, rfl⟩ := h
  have hreturns (slots : List Temp) {c c' : Chunk} (h : c.Resembles S c') :
      Chunk.Resembles S (slots.foldl (fun k t => Sink.returnTemp t k) c)
        (slots.foldl (fun k t => Sink.returnTemp t k) c') := by
    induction slots generalizing c c' with
    | nil => exact h
    | cons t rest ih => exact ih (resembles_returnTemp t h)
  rcases s with ⟨_, _, _, _, _ | ⟨chain, chains⟩, _, releases⟩
  · exact ⟨sink, diagnostics, hsink, hdiagnostics, rfl⟩
  · exact ⟨_, diagnostics, hreturns ((releases 0).arrange chain.slots) hsink, hdiagnostics, rfl⟩

theorem agrees_endChain : Agrees (Reflects S D) id (Pass.update State.endChain : Emit Chunk Unit)
    (Pass.update State.endChain) :=
  .update fun _ _ hs => hs.endChain

omit mirror in
theorem agrees_beginChain (quiet : Bool) :
    Agrees (Reflects S D) id (beginChain quiet : Emit Chunk Unit) (beginChain quiet) :=
  agrees_update _ (fun _ _ _ => rfl) (fun _ => rfl) fun _ => rfl

theorem agrees_chainOperand (e : Expr) {operand operand' : Code Chunk}
    (h : Agrees (Reflects S D) id (boxed operand) (boxed operand')) :
    Agrees (Reflects S D) id (chainOperand e operand) (chainOperand e operand') := by
  unfold chainOperand
  refine (agrees_peek _ fun _ _ _ => rfl).before fun chain => ?_
  cases chain with
  | none => exact h
  | some chain =>
    dsimp only
    split
    · exact h
    · cases chain.kept.lookup e.id with
      | some kept => exact (agrees_onActive (Routine.placeless_emit _)).before fun _ => .pure rfl
      | none =>
        unfold saveTo
        refine h.before fun code => (agrees_onActive Routine.placeless_declareTemp).before fun t => ?_
        rw [bind_assoc]
        exact (agrees_onActive (Routine.placeless_emit _)).before fun _ =>
          (agrees_onActive (Routine.placeless_emit _)).before fun _ =>
            (agrees_keepOperand e.id t code).before fun _ => .pure rfl

theorem agrees_defineLabel : Agrees (Reflects S D) id (defineLabel : Emit Chunk Label) defineLabel :=
  .transform fun s s' ⟨sink, diagnostics, hsink, hdiagnostics, h⟩ => by
    obtain ⟨hanswer, hafter⟩ := resembles_onActive Routine.placeless_defineLabel hsink
    rw [h]
    exact ⟨⟨_, diagnostics, hafter, hdiagnostics, rfl⟩, hanswer⟩

theorem agrees_returnTemp (t : Temp) :
    Agrees (Reflects S D) id (returnTemp t : Emit Chunk Unit) (returnTemp t) :=
  .update fun s s' ⟨sink, diagnostics, hsink, hdiagnostics, h⟩ => by
    rw [h]
    exact ⟨_, diagnostics, resembles_returnTemp t hsink, hdiagnostics, rfl⟩

/-! ## The code of a routine -/

/-- **What is composed of the steps of a routine does the same on both sides.** -/
theorem Paired.agrees {A : Allowance} (h : Paired A x y) : Agrees (Reflects S D) id x x := by
  induction h with
  | pure a => exact .pure rfl
  | bind _ _ ihx ihf => exact ihx.before ihf
  | fail => exact .fail _
  | frame => exact agrees_frame
  | updateFrame f => exact agrees_updateFrame f
  | rule _ kind id _ _ ih => exact agrees_rule kind id ih
  | memory hf => exact agrees_peek _ fun _ _ _ => rfl
  | newArray =>
    exact (agrees_peek _ fun _ _ _ => rfl).before fun _ => agrees_onActive (Routine.placeless_emit _)
  | chainIsQuiet => exact agrees_peek _ fun _ _ _ => rfl
  | chainOperand he hx ih => exact agrees_chainOperand _ ih
  | inChain quiet hx ih =>
    exact (agrees_beginChain quiet).before fun _ => ih.before fun _ => agrees_endChain.before fun _ => .pure rfl
  | inClosedChain quiet hx ih =>
    exact (agrees_beginChain quiet).before fun _ => ih.ensuring fun _ _ hs => hs.endChain
  | emit i => exact agrees_onActive (Routine.placeless_emit i)
  | addConstant v => exact agrees_onActive (Routine.placeless_addConstant v)
  | defineLabel => exact agrees_defineLabel
  | mark l => exact agrees_onActive (Routine.placeless_markLabel l)
  | declareTemp => exact agrees_onActive Routine.placeless_declareTemp
  | returnTemp t => exact agrees_returnTemp t
  | beginTry => exact agrees_onActive Routine.placeless_beginTry
  | beginCatch type => exact agrees_onActive (Routine.placeless_beginHandler _)
  | beginFinally => exact agrees_onActive (Routine.placeless_beginHandler _)
  | endRegion => exact agrees_onActive Routine.placeless_endRegion

theorem agrees_composed [h : Composed x] : Agrees (Reflects S D) id x x :=
  h.agrees

end Chains

/-! ## What depends on the registry only -/

section Registry

variable {σ : Type} [Sink σ] (h : cfg'.registry = cfg.registry)

include h

omit [Sink σ] in
theorem byRule_eq : (byRule cfg' : ExprKind → ExprTag → (Home ExprKind → Code σ) → Code σ) = byRule cfg := by
  funext kind tag code use
  rw [byRule, byRule, h]

theorem incDecValue_congr (access : Access) (increment post : Bool) (target : Expr) (code : Code σ) :
    incDecValue cfg' access increment post target code = incDecValue cfg access increment post target code := by
  unfold incDecValue isPlace
  rw [h]

omit h

mutual

/-- **The code of an expression depends on the registry only.** -/
theorem lower_eq (h : cfg'.registry = cfg.registry) : ∀ e : Expr, (lower cfg' e : Code σ) = lower cfg e
  | .literal .. | .constant .. | .var .. => by
    rw [lower, lower, byRule_eq h]
  | .item tag container index => by
    rw [lower, lower, byRule_eq h, lower_eq h container, lower_eq h index]
  | .append tag container => by
    rw [lower, lower, byRule_eq h, lower_eq h container]
  | .array tag elements => by
    rw [lower, lower, byRule_eq h, storeElements_eq h elements]
  | .concat tag operands => by
    rw [lower, lower, byRule_eq h, lowerAll_eq h operands]
  | .binary tag op left right => by
    rw [lower, lower, byRule_eq h, lower_eq h left, lower_eq h right]
  | .unary tag op operand => by
    rw [lower, lower, byRule_eq h, lower_eq h operand]
  | .incDec tag increment post target => by
    rw [lower, lower, byRule_eq h, lower_eq h target]
    simp only [incDecValue_congr h]
  | .conditional tag condition ifTrue ifFalse => by
    rw [lower, lower, byRule_eq h, lower_eq h condition, lower_eq h ifTrue, lower_eq h ifFalse]
  | .shortcut tag condition ifFalse => by
    rw [lower, lower, byRule_eq h, lower_eq h condition, lower_eq h ifFalse]
  | .list tag targets value => by
    rw [lower, lower, byRule_eq h, lower_eq h value, assignElements_eq h 0 targets, assignNulls_eq h targets]
  | .assign tag target value => by
    rw [lower, lower, byRule_eq h, lower_eq h target, lower_eq h value]
  | .call tag name args => by
    rw [lower, lower, byRule_eq h, lowerAll_eq h args]
termination_by structural e => e

theorem lowerAll_eq (h : cfg'.registry = cfg.registry) : ∀ es : List Expr,
    (lowerAll cfg' es : List (Expr × Code σ)) = lowerAll cfg es
  | [] => rfl
  | e :: rest => by
    rw [lowerAll, lowerAll, lower_eq h e, lowerAll_eq h rest]
termination_by structural es => es

theorem storeElements_eq (h : cfg'.registry = cfg.registry) : ∀ es : List ArrayElement,
    (storeElements cfg' es : Emit σ Unit) = storeElements cfg es
  | [] => rfl
  | .plain _ value :: rest => by
    rw [storeElements, storeElements, lower_eq h value, storeElements_eq h rest]
  | .keyed _ key value :: rest => by
    rw [storeElements, storeElements, lower_eq h key, lower_eq h value, storeElements_eq h rest]
termination_by structural es => es

theorem assignElements_eq (h : cfg'.registry = cfg.registry) : ∀ (index : Nat) (ts : List ListTarget),
    (assignElements cfg' index ts : Emit σ Unit) = assignElements cfg index ts
  | _, [] => rfl
  | index, .skip :: rest => assignElements_eq h (index + 1) rest
  | index, .leaf target :: rest => by
    rw [assignElements, assignElements, lower_eq h target, assignElements_eq h (index + 1) rest]
  | index, .nested targets :: rest => by
    rw [assignElements, assignElements, assignElements_eq h 0 targets, assignNulls_eq h targets,
      assignElements_eq h (index + 1) rest]
termination_by structural _ ts => ts

theorem assignNulls_eq (h : cfg'.registry = cfg.registry) : ∀ ts : List ListTarget,
    (assignNulls cfg' ts : Emit σ Unit) = assignNulls cfg ts
  | [] => rfl
  | .skip :: rest => assignNulls_eq h rest
  | .leaf target :: rest => by
    rw [assignNulls, assignNulls, lower_eq h target, assignNulls_eq h rest]
  | .nested targets :: rest => by
    rw [assignNulls, assignNulls, assignNulls_eq h targets, assignNulls_eq h rest]
termination_by structural ts => ts

end

include h

theorem echoAll_eq (es : List Expr) : (echoAll cfg' es : Emit σ Unit) = echoAll cfg es := by
  induction es with
  | nil => rfl
  | cons e rest ih => rw [echoAll, echoAll, lower_eq h, ih]

theorem unsetAll_eq (es : List Expr) : (unsetAll cfg' es : Emit σ Unit) = unsetAll cfg es := by
  induction es with
  | nil => rfl
  | cons e rest ih => rw [unsetAll, unsetAll, lower_eq h, ih]

theorem jumpCode_eq (kind : JumpKind) (expr : Option Expr) :
    (jumpCode cfg' kind expr : Emit σ Unit) = jumpCode cfg kind expr := by
  unfold jumpCode returnValue loopJump
  simp only [lower_eq h]

theorem branchHead_eq (condition : Expr) : (branchHead cfg' condition : Emit σ Label) = branchHead cfg condition := by
  rw [branchHead, branchHead, lower_eq h]

theorem loopHead_eq (condition : Expr) : (loopHead cfg' condition : Emit σ Loop) = loopHead cfg condition := by
  rw [loopHead, loopHead, lower_eq h]

end Registry

/-! ## Statements -/

section Statements

variable {x y : Emit Chunk Unit} {s s' : State Chunk}

theorem agrees_thenFrame (h : Agrees (Reflects S D) id x y) (f : Frame → Frame) :
    Agrees (Reflects S D) id (thenFrame x f) (thenFrame y f) :=
  h.ensuring fun _ _ ⟨sink, diagnostics, hsink, hdiagnostics, hs⟩ =>
    ⟨sink, diagnostics, hsink, hdiagnostics, by rw [hs]⟩

theorem agrees_reporting [hD : Reportable D] (h : Agrees (Reflects S D) id x y) (span : Span) :
    Agrees (Reflects S D) id (reporting span x) (reporting span y) := by
  intro s s' hs
  have hafter := (h s s' hs).1
  have hanswer := h.answer hs
  unfold reporting
  generalize x s = out at hafter hanswer ⊢
  generalize y s' = out' at hafter hanswer ⊢
  obtain ⟨r, t⟩ := out
  obtain ⟨r', t'⟩ := out'
  obtain rfl : r' = r := hanswer
  cases r' with
  | ok a => exact ⟨hafter, rfl⟩
  | error e =>
    obtain ⟨sink, diagnostics, hsink, hdiagnostics, rfl⟩ : Reflects S D t t' := hafter
    dsimp only
    split
    · exact ⟨⟨sink, diagnostics, hsink, hdiagnostics, rfl⟩, rfl⟩
    · exact ⟨⟨sink, _, hsink, hD.push hdiagnostics e.message span, rfl⟩, rfl⟩

theorem agrees_onStmtTable [mirror : Mirror cfg cfg' S] (kind : StmtKind) (nodeId : Nat) :
    Agrees (Reflects S D) id (onTable (RuleTable.stmt cfg.registry kind nodeId) : Emit Chunk (Handle StmtKind))
      (onTable (RuleTable.stmt cfg'.registry kind nodeId)) := by
  rw [mirror.registry]
  exact agrees_onTable _

variable [mirror : Mirror cfg cfg' S]

include mirror in
/-- The sink is told of the place, or it is not, on either side. -/
theorem agrees_place (span : Span) :
    Agrees (Reflects S D) id
      (Pass.update fun s => { s with sink := s.sink.withActive (placed cfg.options.sequencePoints span s.sink.active) } :
        Emit Chunk Unit)
      (Pass.update fun s =>
        { s with sink := s.sink.withActive (placed cfg'.options.sequencePoints span s.sink.active) }) :=
  .update fun s s' ⟨sink, diagnostics, hsink, hdiagnostics, h⟩ => by
    rw [h]
    exact ⟨_, diagnostics, hsink.withActive (mirror.placed hsink.active span), hdiagnostics, rfl⟩

/-- Where a statement is told to be. -/
theorem statement_eq (kind : StmtKind) (tag : StmtTag) (code : Home StmtKind → Emit Chunk Unit) :
    statement cfg kind tag code = (do
      if kind ≠ .empty then
        Pass.update fun s =>
          { s with sink := s.sink.withActive (placed cfg.options.sequencePoints tag.span s.sink.active) }
      reporting tag.span (byStmtRule cfg kind tag code)) := by
  have hplace (s : State Chunk) : Sink.sequencePoint tag.span s.sink =
      s.sink.withActive { s.sink.active with currentSpan := tag.span } :=
    congrArg Prod.snd (Chunk.onActive_eq (fun r => ((), { r with currentSpan := tag.span })) s.sink)
  unfold statement placed
  by_cases hkind : kind = .empty
  · simp [hkind]
  · rw [if_pos hkind, decide_eq_true hkind, Bool.and_true]
    simp only [hplace]
    cases cfg.options.sequencePoints with
    | true => rfl
    | false =>
      funext s
      show reporting _ _ s = reporting _ _ { s with sink := s.sink.withActive s.sink.active }
      rw [Chunk.withActive_active]

theorem agrees_statement [Reportable D] (kind : StmtKind) (tag : StmtTag) {code code' : Home StmtKind → Emit Chunk Unit}
    (h : ∀ home, Agrees (Reflects S D) id (code home) (code' home)) :
    Agrees (Reflects S D) id (statement cfg kind tag code) (statement cfg' kind tag code') := by
  have hrule : Agrees (Reflects S D) id (byStmtRule cfg kind tag code) (byStmtRule cfg' kind tag code') := by
    refine (agrees_onStmtTable kind tag.id).before fun handle => ?_
    split
    · exact h handle.home
    · split
      · exact .pure rfl
      · exact .fail _
  have hreporting := agrees_reporting hrule tag.span
  rw [statement_eq, statement_eq]
  split
  · exact (agrees_place tag.span).before fun _ => hreporting
  · exact hreporting

/-- A part that may be missing is missing on both sides, or it agrees. -/
inductive AgreesOptional (S : Routine → Routine → Prop) (D : Array Diagnostic → Array Diagnostic → Prop) :
    Option (Emit Chunk Unit) → Option (Emit Chunk Unit) → Prop where
  | none : AgreesOptional S D none none
  | some {x y : Emit Chunk Unit} (h : Agrees (Reflects S D) id x y) : AgreesOptional S D (some x) (some y)

variable {body body' : Emit Chunk Unit} {part part' : Option (Emit Chunk Unit)}

theorem agrees_branchCode (condition : Expr) (hbody : Agrees (Reflects S D) id body body')
    (hpart : AgreesOptional S D part part') :
    Agrees (Reflects S D) id (branchCode cfg condition body part) (branchCode cfg' condition body' part') := by
  unfold branchCode
  rw [branchHead_eq mirror.registry]
  refine agrees_composed.before fun otherwise => hbody.before fun _ => ?_
  cases hpart with
  | none => exact agrees_composed
  | some h => exact agrees_composed.before fun _ => h.before fun _ => agrees_composed

theorem agrees_loopCode (condition : Expr) (hbody : Agrees (Reflects S D) id body body') :
    Agrees (Reflects S D) id (loopCode cfg condition body) (loopCode cfg' condition body') := by
  unfold loopCode
  rw [loopHead_eq mirror.registry]
  exact agrees_composed.before fun _ => (agrees_thenFrame hbody _).before fun _ => agrees_composed

include mirror

theorem agrees_clauseCode (exception : Temp) (regionEnd : Label) (type : String) (var : Option String)
    (hbody : Agrees (Reflects S D) id body body') :
    Agrees (Reflects S D) id (clauseCode exception regionEnd type var body)
      (clauseCode exception regionEnd type var body') :=
  agrees_composed.before fun _ => hbody.before fun _ => agrees_composed

theorem agrees_regionCode {hasClauses : Bool} {clauses clauses' : Label → Temp → Emit Chunk Unit}
    (hbody : Agrees (Reflects S D) id body body')
    (hclauses : ∀ l t, Agrees (Reflects S D) id (clauses l t) (clauses' l t))
    (hpart : AgreesOptional S D part part') :
    Agrees (Reflects S D) id (regionCode body hasClauses clauses part)
      (regionCode body' hasClauses clauses' part') := by
  have hhandlers (l : Label) : Agrees (Reflects S D) id (handlersCode (clauses l)) (handlersCode (clauses' l)) :=
    agrees_composed.before fun t => (hclauses l t).before fun _ => agrees_composed
  have hcleanup : Agrees (Reflects S D) id (cleanupCode hasClauses part) (cleanupCode hasClauses part') := by
    cases hpart with
    | none =>
      cases hasClauses with
      | true => exact .pure rfl
      | false => exact (Paired.beginFinally (A := .all)).agrees
    | some h => exact agrees_composed.before fun _ => h
  have hend : Agrees (Reflects S D) id (do cleanupCode hasClauses part; toSink Sink.endRegion)
      (do cleanupCode hasClauses part'; toSink Sink.endRegion) :=
    hcleanup.before fun _ => agrees_composed
  refine agrees_composed.before fun l => hbody.before fun _ => ?_
  split
  · exact (hhandlers l).before fun _ => hend
  · exact hend

theorem agrees_tryCode {hasClauses : Bool} {clauses clauses' : Label → Temp → Emit Chunk Unit}
    (hbody : Agrees (Reflects S D) id body body')
    (hclauses : ∀ l t, Agrees (Reflects S D) id (clauses l t) (clauses' l t))
    (hpart : AgreesOptional S D part part') :
    Agrees (Reflects S D) id (tryCode cfg body hasClauses clauses part)
      (tryCode cfg' body' hasClauses clauses' part') := by
  have hisNone : part'.isNone = part.isNone := by cases hpart <;> rfl
  unfold tryCode
  rw [hisNone, mirror.elideEmptyTry]
  split
  · exact hbody
  · exact (agrees_updateFrame _).before fun _ => agrees_thenFrame (agrees_regionCode hbody hclauses hpart) _

theorem agrees_routineCode (returnsRef : Bool) (hbody : Agrees (Reflects S D) id body body') :
    Agrees (Reflects S D) id (routineCode returnsRef body) (routineCode returnsRef body') :=
  agrees_frame.before fun _ => (agrees_updateFrame _).before fun _ =>
    agrees_thenFrame (hbody.before fun _ => agrees_composed) _

end Statements

mutual

theorem agrees_lowerStmt [mirror : Mirror cfg cfg' S] [Reportable D] : ∀ x : Stmt,
    Agrees (Reflects S D) id (lowerStmt cfg x) (lowerStmt cfg' x)
  | .expression tag e => by
    rw [lowerStmt, lowerStmt, lower_eq mirror.registry]
    exact agrees_statement _ _ fun _ => agrees_composed
  | .echo tag es => by
    rw [lowerStmt, lowerStmt, echoAll_eq mirror.registry]
    exact agrees_statement _ _ fun _ => agrees_composed
  | .block tag body => by
    rw [lowerStmt, lowerStmt]
    exact agrees_statement _ _ fun _ => agrees_lowerStmts body
  | .branch tag condition thenBody elseBody => by
    rw [lowerStmt, lowerStmt]
    exact agrees_statement _ _ fun _ =>
      agrees_branchCode condition (agrees_lowerStmts thenBody) (agrees_lowerOptional elseBody)
  | .loop tag condition body => by
    rw [lowerStmt, lowerStmt]
    exact agrees_statement _ _ fun _ => agrees_loopCode condition (agrees_lowerStmts body)
  | .jump tag kind expr => by
    rw [lowerStmt, lowerStmt, jumpCode_eq mirror.registry]
    exact agrees_statement _ _ fun _ => agrees_composed
  | .goto tag label => by
    rw [lowerStmt, lowerStmt]
    exact agrees_statement _ _ fun _ => agrees_composed
  | .label tag name => by
    rw [lowerStmt, lowerStmt]
    exact agrees_statement _ _ fun _ => agrees_composed
  | .tryCatch tag body catches cleanup => by
    rw [lowerStmt, lowerStmt]
    exact agrees_statement _ _ fun _ =>
      agrees_tryCode (agrees_lowerStmts body) (agrees_lowerClauses catches) (agrees_lowerOptional cleanup)
  | .throw tag e => by
    rw [lowerStmt, lowerStmt, lower_eq mirror.registry]
    exact agrees_statement _ _ fun _ => agrees_composed
  | .unset tag targets => by
    rw [lowerStmt, lowerStmt, unsetAll_eq mirror.registry]
    exact agrees_statement _ _ fun _ => agrees_composed
  | .constDecl tag name value => by
    rw [lowerStmt, lowerStmt, lower_eq mirror.registry]
    exact agrees_statement _ _ fun _ => agrees_composed
  | .function tag head body dead => by
    have hbody := agrees_lowerStmts body
    rw [lowerStmt, lowerStmt]
    exact agrees_statement _ _ fun _ => (agrees_toSink fun h => resembles_beginFunction head h).before fun _ =>
      (agrees_routineCode head.byRef hbody).before fun _ => agrees_toSink fun h => resembles_endFunction h
  | .empty tag kind => by
    rw [lowerStmt, lowerStmt]
    exact agrees_statement _ _ fun _ => .pure rfl
termination_by structural x => x

/-- **Statements are emitted alike in both settings.** -/
theorem agrees_lowerStmts [mirror : Mirror cfg cfg' S] [Reportable D] : ∀ xs : List Stmt,
    Agrees (Reflects S D) id (lowerStmts cfg xs) (lowerStmts cfg' xs)
  | [] => .pure rfl
  | x :: rest => by
    have hx := agrees_lowerStmt x
    rw [lowerStmts, lowerStmts]
    exact hx.before fun _ => agrees_lowerStmts rest
termination_by structural xs => xs

theorem agrees_lowerOptional [mirror : Mirror cfg cfg' S] [Reportable D] : ∀ part : Option (List Stmt),
    AgreesOptional S D (lowerOptional cfg part) (lowerOptional cfg' part)
  | none => .none
  | some body => .some (agrees_lowerStmts body)
termination_by structural part => part

theorem agrees_lowerClauses [mirror : Mirror cfg cfg' S] [Reportable D] : ∀ (catches : List Catch)
    (regionEnd : Label) (exception : Temp),
    Agrees (Reflects S D) id (lowerClauses cfg catches regionEnd exception)
      (lowerClauses cfg' catches regionEnd exception)
  | [], _, _ => .pure rfl
  | .clause span type var body resolved :: rest, regionEnd, exception => by
    have hbody := agrees_lowerStmts body
    rw [lowerClauses, lowerClauses]
    exact (agrees_clauseCode exception regionEnd _ var hbody).before fun _ =>
      agrees_lowerClauses rest regionEnd exception
termination_by structural catches => catches

end

/-- **A routine is emitted alike in both settings.** -/
theorem agrees_lowerRoutine [Mirror cfg cfg' S] [Reportable D] (body : List Stmt) (returnsRef : Bool) :
    Agrees (Reflects S D) id (lowerRoutine cfg body returnsRef) (lowerRoutine cfg' body returnsRef) :=
  agrees_routineCode returnsRef (agrees_lowerStmts body)

end Lowering
end PhpLowering
