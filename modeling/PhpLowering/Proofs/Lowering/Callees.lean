import Mathlib.Logic.Relation
import PhpLowering.Proofs.Code.Change
import PhpLowering.Proofs.Lowering.Conduct

/-!
# The functions that code calls, and the arrays it creates

The emission makes up no names and no sizes: whatever function an instruction calls, there is a call of it in
the tree, with as many arguments, and whatever array is created with room for elements, there is a literal in
the tree whose keys were counted so.  `Says I M x` says of a step `x` that all instructions which it tells its
sink are in `I`, where `M` is what the rules remember.  Only calls and such arrays are of interest, so `I` is
`Lenient` in everything else.  A step that is put together from what may be asked for in a routine says no more
than what may be emitted (`Paired.says`), and the code of statements says no more than what their nodes allow
(`says_lowerStmts`).

A chunk keeps what it is told, in whichever routine it is: `Chunk.Every.told`.
-/

namespace PhpLowering

/-- The call that a node is. -/
def Node.invocation? : Node → Option Invocation
  | .expr e => e.invocation?
  | .stmt _ => none

/-- The calls among nodes. -/
def Node.invocations (nodes : List Node) : List Invocation :=
  nodes.filterMap Node.invocation?

/-- All instructions are in `I` that neither call a function nor create an array with room for elements. -/
class Lenient (I : Instruction → Prop) : Prop where
  plain : ∀ {i : Instruction}, i.invocation? = none → i.capacity? = none → I i

namespace Sink

variable {σ : Type} [Sink σ] {I : Instruction → Prop} {k k' : σ}

/-- One sink has become the other one by calls to it, and all instructions among these are in `I`. -/
def Told (I : Instruction → Prop) : σ → σ → Prop :=
  Relation.ReflTransGen fun k k' => ∃ c : Call, (∀ i, c = .emit i → I i) ∧ k' = (c.make k).2

theorem told_single (c : Call) (hc : ∀ i, c = .emit i → I i) (k : σ) : Told I k (c.make k).2 :=
  .single ⟨c, hc, rfl⟩

theorem told_of_onlyReturns {calls : List (Call × Bool)} (h : Talk k calls k') (hreturns : OnlyReturns calls) :
    Told I k k' := by
  induction h with
  | nil => exact .refl
  | cons c _ ih =>
    obtain ⟨hc, hrest⟩ := List.forall_mem_cons.mp hreturns
    refine .trans (told_single c ?_ _) (ih hrest)
    rintro i rfl
    exact nomatch hc

end Sink

/-! ## Chunks -/

/-- All functions that a routine calls are in `V`. -/
def Routine.CallsIn (V : Invocation → Prop) (r : Routine) : Prop :=
  ∀ i ∈ r.code, ∀ v, i.invocation? = some v → V v

/-- All instructions of a routine are in `I`. -/
def Routine.CodeIn (I : Instruction → Prop) (r : Routine) : Prop :=
  ∀ i ∈ r.code, I i

namespace Routine

variable {I : Instruction → Prop} {r r' : Routine}

theorem CodeIn.of_code (h : r.CodeIn I) (hcode : r'.code = r.code) : r'.CodeIn I := by
  unfold CodeIn
  rw [hcode]
  exact h

theorem CodeIn.push (h : r.CodeIn I) {i : Instruction} (hi : I i) : (r.push i).CodeIn I :=
  Array.forall_mem_push.mpr ⟨hi, h⟩

theorem CodeIn.emit (h : r.CodeIn I) {i : Instruction} (hi : I i) : (Routine.emit i r).2.CodeIn I := by
  unfold Routine.emit
  split
  · split
    · exact h.push hi
    · exact h
  · exact h.push hi

theorem code_markLabel (l : Label) (r : Routine) : (r.markLabel l).2.code = r.code := by
  unfold markLabel
  split <;> rfl

theorem CodeIn.beginHandler [hI : Lenient I] (h : r.CodeIn I) (kind : HandlerKind) :
    (r.beginHandler kind).2.CodeIn I := by
  unfold Routine.beginHandler
  split
  · exact h
  · rename_i region outer _
    split
    · exact h
    · exact CodeIn.of_code (h.push (i := .leave region.endLabel) (hI.plain rfl rfl)) rfl

theorem CodeIn.endRegion [hI : Lenient I] (h : r.CodeIn I) : r.endRegion.2.CodeIn I := by
  unfold Routine.endRegion
  split
  · exact h
  · rename_i region outer _
    split
    · exact h
    · rename_i kind _
      dsimp only
      refine CodeIn.of_code ?_ (code_markLabel _ _)
      cases kind with
      | cleanup => exact (h.push (i := .endFinally) (hI.plain rfl rfl)).of_code rfl
      | catching type => exact (h.push (i := .leave region.endLabel) (hI.plain rfl rfl)).of_code rfl

theorem CodeIn.addConstant (h : r.CodeIn I) (v : Literal) : (r.addConstant v).2.CodeIn I := by
  unfold Routine.addConstant
  split
  · exact h
  · split <;> exact h

theorem CodeIn.declareTemp (h : r.CodeIn I) : r.declareTemp.2.CodeIn I := by
  unfold Routine.declareTemp
  split
  · exact h
  · split <;> exact h

theorem CodeIn.returnTemp (h : r.CodeIn I) (t : Temp) : (r.returnTemp t).CodeIn I := by
  unfold Routine.returnTemp
  split <;> exact h

end Routine

namespace Chunk

variable {I : Instruction → Prop} [Lenient I] {c c' : Chunk}

/-- A chunk keeps the instructions that it is told, and makes up no others that matter. -/
theorem Every.make (h : c.Every (Routine.CodeIn I)) (call : Sink.Call) (hcall : ∀ i, call = .emit i → I i) :
    (call.make c).2.Every (Routine.CodeIn I) := by
  have hactive {α : Type} {f : Routine → α × Routine} (hf : (f c.active).2.CodeIn I) :
      (onActive f c).2.Every (Routine.CodeIn I) := by
    rw [onActive_eq]
    exact h.withActive hf
  cases call with
  | emit i => exact hactive (h.active.emit (hcall i rfl))
  | addConstant v => exact hactive (h.active.addConstant v)
  | markLabel l => exact hactive (h.active.of_code (Routine.code_markLabel l _))
  | declareTemp => exact hactive h.active.declareTemp
  | returnTemp t => exact hactive (f := fun r => ((), r.returnTemp t)) (h.active.returnTemp t)
  | beginCatch type => exact hactive (h.active.beginHandler (.catching type))
  | beginFinally => exact hactive (h.active.beginHandler .cleanup)
  | endRegion => exact hactive h.active.endRegion
  | defineLabel => exact hactive (f := Routine.defineLabel) h.active
  | beginTry => exact hactive (f := fun r => (Except.ok r.beginTry.1, r.beginTry.2)) h.active
  | sequencePoint span => exact hactive (f := fun r => ((), { r with currentSpan := span })) h.active
  | beginFunction head => exact ⟨h.main, h.functions, List.forall_mem_cons.mpr ⟨nofun, h.pending⟩⟩
  | endFunction =>
    rcases c with ⟨main, functions, _ | ⟨r, outer⟩⟩
    · exact h
    · obtain ⟨hr, houter⟩ := List.forall_mem_cons.mp h.pending
      show (Chunk.endFunction ⟨main, functions, r :: outer⟩).2.Every _
      unfold Chunk.endFunction
      dsimp only
      split
      · exact ⟨h.main, Array.forall_mem_push.mpr ⟨hr, h.functions⟩, houter⟩
      · exact ⟨h.main, h.functions, houter⟩

/-- **A chunk consists of the instructions that it has been told.** -/
theorem Every.told (h : c.Every (Routine.CodeIn I)) (htold : Sink.Told I c c') : c'.Every (Routine.CodeIn I) := by
  induction htold with
  | refl => exact h
  | tail _ hstep ih =>
    obtain ⟨call, hcall, rfl⟩ := hstep
    exact ih.make call hcall

end Chunk

/-! ## Steps -/

namespace Lowering

-- The instance for a function is a term with a node for every line of the function.
set_option synthInstance.maxSize 100000

open Sink (Call Told)

variable {σ α β : Type} [Sink σ] {I : Instruction → Prop} {M : RuleMemory}

/-- All instructions that a step tells its sink are in `I`, if the rules remember `M`. -/
class Says (I : Instruction → Prop) (M : RuleMemory) (x : Emit σ α) : Prop where
  told : ∀ s, s.memory = M → Told I s.sink (x s).2.sink
  memory : ∀ s, (x s).2.memory = s.memory

section Says

variable {x y : Emit σ α}

instance says_pure (a : α) : Says I M (pure a : Emit σ α) :=
  ⟨fun _ _ => .refl, fun _ => rfl⟩

theorem Says.bind {f : α → Emit σ β} (hx : Says I M x) (hf : ∀ a, Says I M (f a)) : Says I M (x >>= f) where
  told s hs := by
    have htold := hx.told s hs
    have hmemory := hx.memory s
    rw [Pass.bind_apply]
    rcases hrun : x s with ⟨r, t⟩
    rw [hrun] at htold hmemory
    cases r with
    | error e => exact htold
    | ok a => exact htold.trans ((hf a).told t (hmemory.trans hs))
  memory s := by
    have hmemory := hx.memory s
    rw [Pass.bind_apply]
    rcases hrun : x s with ⟨r, t⟩
    rw [hrun] at hmemory
    cases r with
    | error e => exact hmemory
    | ok a => exact ((hf a).memory t).trans hmemory

instance says_bind {f : α → Emit σ β} [hx : Says I M x] [hf : ∀ a, Says I M (f a)] : Says I M (x >>= f) :=
  hx.bind hf

instance says_ite {c : Prop} [Decidable c] [hx : Says I M x] [hy : Says I M y] : Says I M (if c then x else y) := by
  split
  · exact hx
  · exact hy

instance says_fail (e : CompileError) : Says I M (Pass.fail e : Emit σ α) :=
  ⟨fun _ _ => .refl, fun _ => rfl⟩

instance says_fault (f : Fault) : Says I M (fault f : Emit σ α) :=
  says_fail _

instance says_peek (f : State σ → α) : Says I M (Pass.peek f) :=
  ⟨fun _ _ => .refl, fun _ => rfl⟩

/-- A change of the state that leaves the sink and the memory alone. -/
theorem says_update {f : State σ → State σ} (h : ∀ s, (f s).sink = s.sink)
    (hmemory : ∀ s, (f s).memory = s.memory) : Says I M (Pass.update f) where
  told s _ := by
    show Told I s.sink (f s).sink
    rw [h]
    exact .refl
  memory := hmemory

instance says_frame : Says I M (frame : Emit σ Frame) :=
  says_peek _

instance says_updateFrame (f : Frame → Frame) : Says I M (updateFrame f : Emit σ Unit) :=
  says_update (fun _ => rfl) fun _ => rfl

theorem says_ensuring {f : State σ → State σ} [hx : Says I M x] (hf : ∀ s, Told I s.sink (f s).sink)
    (hmemory : ∀ s, (f s).memory = s.memory) : Says I M (x.ensuring f) where
  told s hs := by
    rw [Pass.ensuring_apply]
    exact (hx.told s hs).trans (hf _)
  memory s := by
    rw [Pass.ensuring_apply]
    exact (hmemory _).trans (hx.memory s)

instance says_thenFrame (f : Frame → Frame) [Says I M x] : Says I M (thenFrame x f) :=
  says_ensuring (fun _ => .refl) fun _ => rfl

instance says_onTable (q : Pass Fault RuleTable α) : Says I M (onTable q : Emit σ α) where
  told s _ := by
    unfold onTable
    rcases q s.table with ⟨r, table⟩
    cases r <;> exact .refl
  memory s := by
    unfold onTable
    rcases q s.table with ⟨r, table⟩
    cases r <;> rfl

/-- The rule of a node, followed by something that says no more for every rule that the node may get. -/
theorem says_rule {f : Handle ExprKind → Emit σ α} (registry : Registry) (kind : ExprKind) (id : Nat)
    (hf : ∀ entry, registry.expr kind = some entry → Says I M (f (entry.exprHandle kind id))) :
    Says I M (onTable (RuleTable.expr registry kind id) >>= f) where
  told s hs := by
    rcases hrun : RuleTable.expr registry kind id s.table with ⟨r, table⟩
    rw [Pass.bind_apply]
    unfold onTable
    rw [hrun]
    cases r with
    | error f => exact .refl
    | ok handle =>
      obtain ⟨entry, hentry, rfl⟩ := RuleTable.exists_entry_of_ok (congrArg Prod.fst hrun)
      exact (hf entry hentry).told { s with table } hs
  memory s := by
    rcases hrun : RuleTable.expr registry kind id s.table with ⟨r, table⟩
    rw [Pass.bind_apply]
    unfold onTable
    rw [hrun]
    cases r with
    | error f => rfl
    | ok handle =>
      obtain ⟨entry, hentry, rfl⟩ := RuleTable.exists_entry_of_ok (congrArg Prod.fst hrun)
      exact (hf entry hentry).memory { s with table }

/-! ## Calls to the sink -/

theorem says_toSink (c : Call) {call : Pass SinkError σ α} (hc : ∀ i, c = .emit i → I i)
    (h : ∀ k, c.make k = Sink.answered (call k)) : Says I M (toSink call) where
  told s _ := by
    have htold : Told I s.sink (c.make s.sink).2 := Sink.told_single c hc s.sink
    rw [h] at htold
    unfold toSink
    rcases hcall : call s.sink with ⟨r, k⟩
    rw [hcall] at htold
    cases r <;> exact htold
  memory s := by
    unfold toSink
    rcases call s.sink with ⟨r, k⟩
    cases r <;> rfl

theorem says_told (c : Call) {f : State σ → State σ} (hc : ∀ i, c = .emit i → I i)
    (h : ∀ s, (c.make s.sink).2 = (f s).sink) (hmemory : ∀ s, (f s).memory = s.memory) :
    Says I M (Pass.update f) where
  told s _ := by
    show Told I s.sink (f s).sink
    rw [← h]
    exact Sink.told_single c hc s.sink
  memory := hmemory

instance says_addConstant (v : Literal) : Says I M (toSink (Sink.addConstant v) : Emit σ Nat) :=
  says_toSink (.addConstant v) nofun fun _ => rfl

instance says_mark (l : Label) : Says I M (mark l : Emit σ Unit) :=
  says_toSink (.markLabel l) nofun fun _ => rfl

instance says_declareTemp : Says I M (declareTemp : Emit σ Temp) :=
  says_toSink .declareTemp nofun fun _ => rfl

instance says_beginTry : Says I M (toSink Sink.beginTry : Emit σ Label) :=
  says_toSink .beginTry nofun fun _ => rfl

instance says_beginCatch (type : String) : Says I M (toSink (Sink.beginCatch type) : Emit σ Unit) :=
  says_toSink (.beginCatch type) nofun fun _ => rfl

instance says_beginFinally : Says I M (toSink Sink.beginFinally : Emit σ Unit) :=
  says_toSink .beginFinally nofun fun _ => rfl

instance says_endRegion : Says I M (toSink Sink.endRegion : Emit σ Unit) :=
  says_toSink .endRegion nofun fun _ => rfl

instance says_beginFunction (head : FunctionHead) : Says I M (toSink (Sink.beginFunction head) : Emit σ Unit) :=
  says_toSink (.beginFunction head) nofun fun _ => rfl

instance says_endFunction : Says I M (toSink Sink.endFunction : Emit σ Unit) :=
  says_toSink .endFunction nofun fun _ => rfl

instance says_defineLabel : Says I M (defineLabel : Emit σ Label) :=
  ⟨fun s _ => Sink.told_single .defineLabel nofun s.sink, fun _ => rfl⟩

instance says_returnTemp (t : Temp) : Says I M (returnTemp t : Emit σ Unit) :=
  says_told (.returnTemp t) nofun (fun _ => rfl) fun _ => rfl

/-! ## Chains -/

instance says_beginChain (quiet : Bool) : Says I M (beginChain quiet : Emit σ Unit) :=
  says_update (fun _ => rfl) fun _ => rfl

theorem told_endChain (s : State σ) : Told I s.sink s.endChain.sink := by
  obtain ⟨calls, htalk, -, hreturns⟩ := talk_endChain s
  exact Sink.told_of_onlyReturns htalk hreturns

theorem memory_endChain (s : State σ) : s.endChain.memory = s.memory := by
  unfold State.endChain
  split <;> rfl

instance says_endChain : Says I M (Pass.update State.endChain : Emit σ Unit) :=
  ⟨fun s _ => told_endChain s, memory_endChain⟩

instance says_ensuring_endChain [Says I M x] : Says I M (x.ensuring State.endChain) :=
  says_ensuring told_endChain memory_endChain

instance says_keepOperand (id : Nat) (t : Temp) (code : TypeCode) :
    Says I M (Pass.update (State.keepOperand id t code) : Emit σ Unit) := by
  refine says_update (fun s => ?_) fun s => ?_ <;>
  · unfold State.keepOperand
    split <;> rfl

end Says

theorem says_emit {i : Instruction} (hi : I i) : Says I M (emit i : Emit σ Unit) := by
  refine says_toSink (.emit i) ?_ fun _ => rfl
  rintro j ⟨⟩
  exact hi

/-- An array is created for as many keys as the rules remember. -/
theorem says_newArray {home : Home ExprKind}
    (h : I (.newArray (M.keyCount home).integers (M.keyCount home).others)) :
    Says I M (newArray home : Emit σ Unit) where
  told s hs := by
    rw [← hs] at h
    exact (says_emit h : Says I M (emit _ : Emit σ Unit)).told s hs
  memory s :=
    let keys := s.memory.keyCount home
    (says_emit (I := fun _ => True) (M := M) (i := .newArray keys.integers keys.others) trivial).memory s

theorem says_chainOperand [hI : Lenient I] {e : Expr} {operand : Code σ} [Says I M (boxed operand)] :
    Says I M (chainOperand e operand) := by
  have hload (t : Temp) : Says I M (emit (.loadTemp t) : Emit σ Unit) := says_emit (hI.plain rfl rfl)
  have hstore (t : Temp) : Says I M (emit (.storeTemp t) : Emit σ Unit) := says_emit (hI.plain rfl rfl)
  have hdup : Says I M (emit .dup : Emit σ Unit) := says_emit (hI.plain rfl rfl)
  unfold chainOperand saveTo
  refine Says.bind (says_peek _) fun chain => ?_
  cases chain with
  | none => dsimp only; infer_instance
  | some chain =>
    dsimp only
    cases chain.kept.lookup e.id <;> infer_instance

variable (I M) in
/-- Only calls in `I` may be made, and arrays are created for the keys that `M` knows of, with instructions in
`I`; all else may be asked for. -/
def Allowance.within : Allowance :=
  { Allowance.all with
    calls := fun v => I (.callFunction v.name v.argCount)
    keys := fun home _ => I (.newArray (M.keyCount home).integers (M.keyCount home).others) }

/-- An instruction that may be emitted by itself is in `I`. -/
theorem mem_of_mayEmit [hI : Lenient I] {i : Instruction} (hi : MayEmit (.within I M) i) : I i := by
  cases i with
  | callFunction name argCount => exact hi.call ⟨name, argCount⟩ rfl
  | newArray integers others => exact nomatch hi.array
  | _ => exact hI.plain rfl rfl

/-- **A step of a routine tells its sink nothing but what may be emitted.** -/
theorem Paired.says [Lenient I] {x y : Emit σ α} (h : Paired (.within I M) x y) : Says I M x := by
  induction h with
  | bind _ _ ihx ihf => exact ihx.bind ihf
  | rule _ kind id _ _ ih => exact says_rule _ kind id ih
  | memory | chainIsQuiet => exact says_peek _
  | newArray hkeys => exact says_newArray hkeys
  | chainOperand => exact says_chainOperand
  | inChain =>
    unfold Lowering.inChain
    infer_instance
  | inClosedChain =>
    unfold Lowering.inClosedChain
    infer_instance
  | emit i => exact says_emit (mem_of_mayEmit ‹_›)
  | _ => infer_instance

/-! ## Expressions in statements -/

instance (priority := low) says_of_paired [Lenient I] {x : Emit σ α} [h : Paired (.within I M) x x] : Says I M x :=
  h.says

variable (cfg : Setting)

variable (I M) in
/-- What the code of a node is told by the node itself is in `I`: a call, or an array for the keys that `M`
knows of. -/
def Sanctions : Node → Prop
  | .expr (.call _ name args) => I (.callFunction name args.length)
  | .expr (.array tag _) => ∀ entry, cfg.registry.expr .array = some entry →
    let keys := M.keyCount (entry.exprHandle .array tag.id).home
    I (.newArray keys.integers keys.others)
  | _ => True

theorem alike_within {e : Expr} (h : ∀ n ∈ e.nodes, Sanctions I M cfg n) : Alike σ (.within I M) cfg e e := by
  have hpermits : (Allowance.within I M).Permits {} cfg.registry e.subexprs :=
    { registry := trivial
      calls := fun hmem => h _ (List.mem_map_of_mem hmem)
      number := fun _ => trivial
      keys := fun hmem hentry => h _ (List.mem_map_of_mem hmem) _ hentry }
  have hcode := paired_lower (σ := σ) cfg {} e hpermits
  rw [Expr.copy_self] at hcode
  exact ⟨⟨rfl, rfl, rfl, rfl, fun _ => trivial⟩, hcode⟩

theorem allAlike_within {es : List Expr} (h : ∀ n ∈ es.flatMap Expr.nodes, Sanctions I M cfg n) :
    List.Forall₂ (Alike σ (.within I M) cfg) es es := by
  induction es with
  | nil => exact .nil
  | cons e rest ih =>
    rw [List.flatMap_cons, List.forall_mem_append] at h
    exact .cons (alike_within cfg h.1) (ih h.2)

/-! ## Statements -/

instance says_reporting (span : Span) {x : Emit σ Unit} [h : Says I M x] : Says I M (reporting span x) where
  told s hs := by
    have htold := h.told s hs
    unfold reporting
    rcases hx : x s with ⟨r, t⟩
    rw [hx] at htold
    cases r with
    | ok a => exact htold
    | error e =>
      dsimp only
      split <;> exact htold
  memory s := by
    have hmemory := h.memory s
    unfold reporting
    rcases hx : x s with ⟨r, t⟩
    rw [hx] at hmemory
    cases r with
    | ok a => exact hmemory
    | error e =>
      dsimp only
      split <;> exact hmemory

section Parts

variable [Lenient I] {cfg} {condition : Expr} {body : Emit σ Unit} [Says I M body] {part : Option (Emit σ Unit)}

theorem says_branchCode (hcondition : Alike σ (.within I M) cfg condition condition)
    (hpart : ∀ code, part = some code → Says I M code) : Says I M (branchCode cfg condition body part) := by
  have hhead := paired_branchHead hcondition
  unfold branchCode
  cases part with
  | none => dsimp only; infer_instance
  | some code =>
    have hcode := hpart code rfl
    dsimp only
    infer_instance

theorem says_loopCode (hcondition : Alike σ (.within I M) cfg condition condition) :
    Says I M (loopCode cfg condition body) := by
  have hhead := paired_loopHead hcondition
  unfold loopCode
  infer_instance

instance says_routineCode (returnsRef : Bool) : Says I M (routineCode returnsRef body) := by
  unfold routineCode
  infer_instance

instance says_clauseCode (exception : Temp) (regionEnd : Label) (type : String) (var : Option String) :
    Says I M (clauseCode exception regionEnd type var body) := by
  unfold clauseCode
  infer_instance

instance says_handlersCode (clauses : Temp → Emit σ Unit) [∀ t, Says I M (clauses t)] :
    Says I M (handlersCode clauses) := by
  unfold handlersCode
  infer_instance

omit [Lenient I] in
theorem says_cleanupCode (hasClauses : Bool) (hpart : ∀ code, part = some code → Says I M code) :
    Says I M (cleanupCode hasClauses part) := by
  unfold cleanupCode
  cases part with
  | none => dsimp only; infer_instance
  | some code =>
    have hcode := hpart code rfl
    dsimp only
    infer_instance

theorem says_tryCode (hasClauses : Bool) {clauses : Label → Temp → Emit σ Unit}
    (hclauses : ∀ l t, Says I M (clauses l t)) (hpart : ∀ code, part = some code → Says I M code) :
    Says I M (tryCode cfg body hasClauses clauses part) := by
  have hcleanup := says_cleanupCode hasClauses hpart
  have hregion : Says I M (regionCode body hasClauses clauses part) := by
    unfold regionCode
    dsimp only
    infer_instance
  unfold tryCode
  infer_instance

end Parts

theorem says_statement {kind : StmtKind} {tag : StmtTag} {code : Home StmtKind → Emit σ Unit}
    (h : ∀ home, Says I M (code home)) : Says I M (statement cfg kind tag code) := by
  have hpoint : Says I M (Pass.update fun s => { s with sink := Sink.sequencePoint tag.span s.sink } : Emit σ Unit) :=
    says_told (.sequencePoint tag.span) nofun (fun _ => rfl) fun _ => rfl
  have hrule : Says I M (byStmtRule cfg kind tag code) := by
    unfold byStmtRule
    infer_instance
  unfold statement
  infer_instance

mutual

/-- **The code of a statement is told nothing but what its nodes allow.** -/
theorem says_lowerStmt [Lenient I] : ∀ x : Stmt, (∀ n ∈ x.nodes, Sanctions I M cfg n) →
    Says I M (lowerStmt cfg x : Emit σ Unit)
  | .expression _ e, h => by
    rw [Stmt.nodes, List.forall_mem_cons] at h
    have he := (alike_within (σ := σ) cfg h.2).code
    rw [lowerStmt]
    exact says_statement cfg fun _ => inferInstance
  | .echo _ es, h => by
    rw [Stmt.nodes, List.forall_mem_cons] at h
    have hes := paired_echoAll (allAlike_within (σ := σ) cfg h.2)
    rw [lowerStmt]
    exact says_statement cfg fun _ => inferInstance
  | .unset _ es, h => by
    rw [Stmt.nodes, List.forall_mem_cons] at h
    have hes := paired_unsetAll (allAlike_within (σ := σ) cfg h.2)
    rw [lowerStmt]
    exact says_statement cfg fun _ => inferInstance
  | .jump _ kind none, _ => by
    have hjump : Paired (.within I M) (jumpCode cfg kind none : Emit σ Unit) (jumpCode cfg kind none) :=
      paired_jumpCode kind .none
    rw [lowerStmt]
    exact says_statement cfg fun _ => inferInstance
  | .jump _ kind (some e), h => by
    rw [Stmt.nodes, List.forall_mem_cons, Option.toList_some, List.flatMap_singleton] at h
    have hjump := paired_jumpCode kind (.some (alike_within (σ := σ) cfg h.2))
    rw [lowerStmt]
    exact says_statement cfg fun _ => inferInstance
  | .throw _ e, h | .constDecl _ _ e, h => by
    rw [Stmt.nodes, List.forall_mem_cons] at h
    have he := (alike_within (σ := σ) cfg h.2).code
    rw [lowerStmt]
    exact says_statement cfg fun _ => inferInstance
  | .goto .., _ | .empty .., _ => by
    rw [lowerStmt]
    exact says_statement cfg fun _ => inferInstance
  | .label _ name, _ => by
    have hlabel (home : Home StmtKind) :
        Paired (.within I M) (labelCode name home : Emit σ Unit) (labelCode name home) :=
      paired_labelCode name trivial
    rw [lowerStmt]
    exact says_statement cfg fun _ => inferInstance
  | .block _ body, h => by
    rw [Stmt.nodes, List.forall_mem_cons] at h
    have hbody := says_lowerStmts body h.2
    rw [lowerStmt]
    exact says_statement cfg fun _ => inferInstance
  | .branch _ condition thenBody elseBody, h => by
    rw [Stmt.nodes, List.cons_append, List.cons_append, List.forall_mem_cons, List.forall_mem_append,
      List.forall_mem_append] at h
    obtain ⟨-, ⟨hcondition, hthen⟩, helse⟩ := h
    have hthen := says_lowerStmts thenBody hthen
    rw [lowerStmt]
    exact says_statement cfg fun _ =>
      says_branchCode (alike_within cfg hcondition) (says_lowerOptional elseBody helse)
  | .loop _ condition body, h => by
    rw [Stmt.nodes, List.cons_append, List.forall_mem_cons, List.forall_mem_append] at h
    have hbody := says_lowerStmts body h.2.2
    rw [lowerStmt]
    exact says_statement cfg fun _ => says_loopCode (alike_within cfg h.2.1)
  | .tryCatch _ body catches cleanup, h => by
    rw [Stmt.nodes, List.cons_append, List.cons_append, List.forall_mem_cons, List.forall_mem_append,
      List.forall_mem_append] at h
    obtain ⟨-, ⟨hbody, hcatches⟩, hcleanup⟩ := h
    have hbody := says_lowerStmts body hbody
    rw [lowerStmt]
    exact says_statement cfg fun _ =>
      says_tryCode _ (says_lowerClauses catches hcatches) (says_lowerOptional cleanup hcleanup)
  | .function _ head body _, h => by
    rw [Stmt.nodes, List.forall_mem_cons] at h
    have hbody := says_lowerStmts body h.2
    rw [lowerStmt]
    exact says_statement cfg fun _ => inferInstance
termination_by structural x => x

theorem says_lowerStmts [Lenient I] : ∀ body : List Stmt, (∀ n ∈ Stmt.nodesOf body, Sanctions I M cfg n) →
    Says I M (lowerStmts cfg body : Emit σ Unit)
  | [], _ => says_pure ()
  | x :: rest, h => by
    rw [Stmt.nodesOf, List.forall_mem_append] at h
    have hx := says_lowerStmt x h.1
    have hrest := says_lowerStmts rest h.2
    rw [lowerStmts]
    infer_instance
termination_by structural body => body

theorem says_lowerOptional [Lenient I] : ∀ part : Option (List Stmt),
    (∀ n ∈ Stmt.nodesOfOptional part, Sanctions I M cfg n) →
    ∀ code : Emit σ Unit, lowerOptional cfg part = some code → Says I M code
  | none, _, _, h => nomatch h
  | some body, h, _, hcode => Option.some.inj hcode ▸ says_lowerStmts body h
termination_by structural part => part

theorem says_lowerClauses [Lenient I] : ∀ catches : List Catch,
    (∀ n ∈ Stmt.nodesOfCatches catches, Sanctions I M cfg n) →
    ∀ (regionEnd : Label) (exception : Temp), Says I M (lowerClauses cfg catches regionEnd exception : Emit σ Unit)
  | [], _, _, _ => says_pure ()
  | .clause _ type var body resolved :: rest, h, regionEnd, exception => by
    rw [Stmt.nodesOfCatches, List.forall_mem_append] at h
    have hbody := says_lowerStmts body h.1
    have hrest := says_lowerClauses rest h.2 regionEnd exception
    rw [lowerClauses]
    infer_instance
termination_by structural catches => catches

end

end Lowering
end PhpLowering
