import PhpLowering.Proofs.Code.Talk
import PhpLowering.Proofs.Lowering.Paired

/-!
# How the emission treats its sink

Whatever a step of the emission does to the sink it does by calls, and once a call has been
refused there are no more of them, except for slots that are given back.  `Behaves E x` says this
of the step `x`, together with what it reports: nothing if it succeeds, and if it fails whatever
`E` allows.

What is composed of the steps of a routine is `Plain` (`plain_of_composed`): it reports nothing, and its
failures are new.  So is the code of every expression.  Nothing is assumed about the registry or the
sink.
-/

namespace PhpLowering
namespace Lowering

-- The instance for a function is a term with a node for every line of the function.
set_option synthInstance.maxSize 100000

open Sink (Call Talk Accepted OnlyReturns Ceases)

variable {σ α β : Type}

/-- A new failure, about which nothing has been reported. -/
def Unreported (e : CompileError) (before after : Array Diagnostic) : Prop :=
  e.isReported = false ∧ after = before

/-- A failure that has been reported, once and with its text, at the place that it names. -/
def Reported (e : CompileError) (before after : Array Diagnostic) : Prop :=
  ∃ span source, e = .reported span source ∧ source.isReported = false ∧
    after = before.push ⟨.emissionFailed source.message, span⟩

variable [Sink σ]

/-- A step talks to the sink until it has done its work or fails as `E` allows. -/
class Behaves (E : CompileError → Array Diagnostic → Array Diagnostic → Prop) (x : Emit σ α) : Prop where
  talk : ∀ s, ∃ calls, Talk s.sink calls (x s).2.sink ∧
    match x s with
    | (.ok _, t) => Accepted calls ∧ t.diagnostics = s.diagnostics
    | (.error e, t) => Ceases calls ∧ E e s.diagnostics t.diagnostics

/-- A step that reports nothing and whose failures are new. -/
abbrev Plain (x : Emit σ α) : Prop :=
  Behaves Unreported x

/-- A step that may have reported its failure. -/
abbrev Fair (x : Emit σ α) : Prop :=
  Behaves (fun e before after => Unreported e before after ∨ Reported e before after) x

variable {E : CompileError → Array Diagnostic → Array Diagnostic → Prop} {x y : Emit σ α}

instance (priority := low) fair_of_plain [h : Plain x] : Fair x where
  talk s := by
    obtain ⟨calls, htalk, h⟩ := h.talk s
    refine ⟨calls, htalk, ?_⟩
    rcases hx : x s with ⟨r, t⟩
    rw [hx] at h
    cases r with
    | ok a => exact h
    | error e => exact ⟨h.1, Or.inl h.2⟩

/-! ## Combinators -/

instance behaves_pure (a : α) : Behaves E (pure a : Emit σ α) where
  talk _ := ⟨[], .nil _, nofun, rfl⟩

theorem Behaves.bind {f : α → Emit σ β} (hx : Behaves E x) (hf : ∀ a, Behaves E (f a)) :
    Behaves E (x >>= f) where
  talk s := by
    obtain ⟨calls, htalk, h⟩ := hx.talk s
    rw [Pass.bind_apply]
    rcases hrun : x s with ⟨r, t⟩
    rw [hrun] at htalk h
    cases r with
    | error e => exact ⟨calls, htalk, h⟩
    | ok a =>
      obtain ⟨haccepted, hdiagnostics⟩ := h
      obtain ⟨calls', htalk', h'⟩ := (hf a).talk t
      refine ⟨calls ++ calls', htalk.append htalk', ?_⟩
      dsimp only
      rcases hrun' : f a t with ⟨r', u⟩
      rw [hrun', hdiagnostics] at h'
      cases r' with
      | ok b => exact ⟨haccepted.append h'.1, h'.2⟩
      | error e => exact ⟨haccepted.then_ceases h'.1, h'.2⟩

instance behaves_bind {f : α → Emit σ β} [hx : Behaves E x] [hf : ∀ a, Behaves E (f a)] :
    Behaves E (x >>= f) :=
  hx.bind hf

instance behaves_ite {c : Prop} [Decidable c] [hx : Behaves E x] [hy : Behaves E y] :
    Behaves E (if c then x else y) := by
  split
  · exact hx
  · exact hy

/-- A failure that nobody has reported. -/
theorem plain_fail {e : CompileError} (h : e.isReported = false) : Plain (Pass.fail e : Emit σ α) where
  talk _ := ⟨[], .nil _, trivial, h, rfl⟩

instance behaves_peek (f : State σ → α) : Behaves E (Pass.peek f) where
  talk _ := ⟨[], .nil _, nofun, rfl⟩

/-- A change of the state that leaves the sink and the diagnostics alone. -/
theorem behaves_update {f : State σ → State σ} (hsink : ∀ s, (f s).sink = s.sink)
    (hdiagnostics : ∀ s, (f s).diagnostics = s.diagnostics) : Behaves E (Pass.update f) where
  talk s := by
    refine ⟨[], ?_, nofun, hdiagnostics s⟩
    show Talk s.sink [] (f s).sink
    rw [hsink]
    exact .nil _

instance behaves_frame : Behaves E (frame : Emit σ Frame) :=
  behaves_peek _

instance behaves_updateFrame (f : Frame → Frame) : Behaves E (updateFrame f : Emit σ Unit) :=
  behaves_update (fun _ => rfl) fun _ => rfl

/-- Slots are given back afterwards, whether a step failed or not. -/
theorem behaves_ensuring {f : State σ → State σ} [h : Behaves E x]
    (hsink : ∀ s, ∃ calls, Talk s.sink calls (f s).sink ∧ Accepted calls ∧ OnlyReturns calls)
    (hdiagnostics : ∀ s, (f s).diagnostics = s.diagnostics) : Behaves E (x.ensuring f) where
  talk s := by
    obtain ⟨calls, htalk, h⟩ := h.talk s
    obtain ⟨calls', htalk', haccepted, hreturns⟩ := hsink (x s).2
    refine ⟨calls ++ calls', htalk.append htalk', ?_⟩
    rw [Pass.ensuring_apply]
    rcases hx : x s with ⟨r, t⟩
    rw [hx] at h
    cases r with
    | ok a => exact ⟨h.1.append haccepted, (hdiagnostics t).trans h.2⟩
    | error e =>
      refine ⟨h.1.then_returns hreturns, ?_⟩
      rw [hdiagnostics]
      exact h.2

instance behaves_thenFrame (f : Frame → Frame) [Behaves E x] : Behaves E (thenFrame x f) :=
  behaves_ensuring (fun _ => ⟨[], .nil _, nofun, nofun⟩) fun _ => rfl

instance plain_onTable (q : Pass Fault RuleTable α) : Plain (onTable q : Emit σ α) where
  talk s := by
    unfold onTable
    rcases q s.table with ⟨r, table⟩
    cases r with
    | ok a => exact ⟨[], .nil _, nofun, rfl⟩
    | error f => exact ⟨[], .nil _, trivial, rfl, rfl⟩

/-- The rule of a node is followed by something that is plain for every rule that the node may get. -/
theorem plain_rule {f : Handle ExprKind → Emit σ α} (registry : Registry) (kind : ExprKind) (id : Nat)
    (hf : ∀ entry, registry.expr kind = some entry → Plain (f (entry.exprHandle kind id))) :
    Plain (onTable (RuleTable.expr registry kind id) >>= f) where
  talk s := by
    rcases hrun : RuleTable.expr registry kind id s.table with ⟨r, table⟩
    rw [Pass.bind_apply]
    unfold onTable
    rw [hrun]
    cases r with
    | error f => exact ⟨[], .nil _, trivial, rfl, rfl⟩
    | ok handle =>
      obtain ⟨entry, hentry, rfl⟩ := RuleTable.exists_entry_of_ok (congrArg Prod.fst hrun)
      exact (hf entry hentry).talk { s with table }

/-! ## Calls to the sink -/

/-- A call that can be refused. -/
theorem plain_toSink (c : Call) {call : Pass SinkError σ α}
    (h : ∀ k, c.make k = Sink.answered (call k)) : Plain (toSink call) where
  talk s := by
    have htalk := Talk.single c s.sink
    rw [h] at htalk
    unfold toSink
    rcases hcall : call s.sink with ⟨r, k⟩
    rw [hcall] at htalk
    cases r with
    | ok a => exact ⟨_, htalk, List.forall_mem_singleton.mpr rfl, rfl⟩
    | error e => exact ⟨_, htalk, nofun, rfl, rfl⟩

/-- A call that is always accepted. -/
theorem behaves_told (c : Call) {f : State σ → State σ}
    (h : ∀ s, c.make s.sink = (true, (f s).sink))
    (hdiagnostics : ∀ s, (f s).diagnostics = s.diagnostics) :
    Behaves E (Pass.update f) where
  talk s := by
    have htalk := Talk.single c s.sink
    rw [h] at htalk
    exact ⟨_, htalk, List.forall_mem_singleton.mpr rfl, hdiagnostics s⟩

instance plain_emit (i : Instruction) : Plain (emit i : Emit σ Unit) :=
  plain_toSink (.emit i) fun _ => rfl

instance plain_addConstant (v : Literal) : Plain (toSink (Sink.addConstant v) : Emit σ Nat) :=
  plain_toSink (.addConstant v) fun _ => rfl

instance plain_mark (l : Label) : Plain (mark l : Emit σ Unit) :=
  plain_toSink (.markLabel l) fun _ => rfl

instance plain_declareTemp : Plain (declareTemp : Emit σ Temp) :=
  plain_toSink .declareTemp fun _ => rfl

instance plain_beginTry : Plain (toSink Sink.beginTry : Emit σ Label) :=
  plain_toSink .beginTry fun _ => rfl

instance plain_beginCatch (type : String) : Plain (toSink (Sink.beginCatch type) : Emit σ Unit) :=
  plain_toSink (.beginCatch type) fun _ => rfl

instance plain_beginFinally : Plain (toSink Sink.beginFinally : Emit σ Unit) :=
  plain_toSink .beginFinally fun _ => rfl

instance plain_endRegion : Plain (toSink Sink.endRegion : Emit σ Unit) :=
  plain_toSink .endRegion fun _ => rfl

instance plain_beginFunction (head : FunctionHead) :
    Plain (toSink (Sink.beginFunction head) : Emit σ Unit) :=
  plain_toSink (.beginFunction head) fun _ => rfl

instance plain_endFunction : Plain (toSink Sink.endFunction : Emit σ Unit) :=
  plain_toSink .endFunction fun _ => rfl

instance behaves_defineLabel : Behaves E (defineLabel : Emit σ Label) where
  talk s := ⟨_, .single .defineLabel s.sink, List.forall_mem_singleton.mpr rfl, rfl⟩

instance behaves_returnTemp (t : Temp) : Behaves E (returnTemp t : Emit σ Unit) :=
  behaves_told (.returnTemp t) (fun _ => rfl) fun _ => rfl

/-! ## Chains -/

instance behaves_beginChain (quiet : Bool) : Behaves E (beginChain quiet : Emit σ Unit) :=
  behaves_update (fun _ => rfl) fun _ => rfl

/-- Giving slots back is all that is done to the sink. -/
theorem talk_returnTemps (slots : List Temp) (k : σ) :
    ∃ calls, Talk k calls (slots.foldl (fun k t => Sink.returnTemp t k) k) ∧
      Accepted calls ∧ OnlyReturns calls := by
  induction slots generalizing k with
  | nil => exact ⟨[], .nil k, nofun, nofun⟩
  | cons t rest ih =>
    obtain ⟨calls, htalk, haccepted, hreturns⟩ := ih (Sink.returnTemp t k)
    exact ⟨_, .cons (.returnTemp t) htalk, List.forall_mem_cons.mpr ⟨rfl, haccepted⟩,
      List.forall_mem_cons.mpr ⟨rfl, hreturns⟩⟩

theorem talk_endChain (s : State σ) :
    ∃ calls, Talk s.sink calls s.endChain.sink ∧ Accepted calls ∧ OnlyReturns calls := by
  unfold State.endChain
  split
  · exact ⟨[], .nil _, nofun, nofun⟩
  · exact talk_returnTemps _ s.sink

theorem diagnostics_endChain (s : State σ) : s.endChain.diagnostics = s.diagnostics := by
  unfold State.endChain
  split <;> rfl

instance behaves_endChain : Behaves E (Pass.update State.endChain : Emit σ Unit) where
  talk s := by
    obtain ⟨calls, htalk, haccepted, -⟩ := talk_endChain s
    exact ⟨calls, htalk, haccepted, diagnostics_endChain s⟩

instance behaves_ensuring_endChain [Behaves E x] : Behaves E (x.ensuring State.endChain) :=
  behaves_ensuring talk_endChain diagnostics_endChain

instance behaves_keepOperand (id : Nat) (t : Temp) (code : TypeCode) :
    Behaves E (Pass.update (State.keepOperand id t code) : Emit σ Unit) := by
  refine behaves_update (fun s => ?_) fun s => ?_
  all_goals
    unfold State.keepOperand
    split <;> rfl

/-! ## Code without statements -/

theorem plain_chainOperand {e : Expr} {operand : Code σ} [Plain (boxed operand)] :
    Plain (chainOperand e operand) := by
  unfold chainOperand saveTo
  refine Behaves.bind (behaves_peek _) fun chain => ?_
  cases chain with
  | none => dsimp only; infer_instance
  | some chain =>
    dsimp only
    cases chain.kept.lookup e.id <;> infer_instance

/-- **What is composed of the steps of a routine is plain.** -/
theorem Paired.plain {A : Allowance} (h : Paired A x y) : Plain x := by
  induction h with
  | fail he => exact plain_fail he
  | bind _ _ ihx ihf => exact ihx.bind ihf
  | rule _ kind id _ _ ih => exact plain_rule _ kind id ih
  | memory | chainIsQuiet => exact behaves_peek _
  | newArray => exact (behaves_peek _).bind fun _ => plain_emit _
  | chainOperand => exact plain_chainOperand
  | inChain =>
    unfold Lowering.inChain
    infer_instance
  | inClosedChain =>
    unfold Lowering.inClosedChain
    infer_instance
  | _ => infer_instance

instance (priority := low) plain_of_composed [h : Composed x] : Plain x :=
  h.plain

section

variable (cfg : Setting)

instance composed_lower (e : Expr) (use : Use) : Composed (lower cfg e use : Emit σ TypeCode) := by
  have h := paired_lower (σ := σ) cfg {} e (Allowance.permits_all _ _) use
  rwa [Expr.copy_self] at h

theorem alike_self (e : Expr) : Alike σ .all cfg e e :=
  ⟨⟨rfl, rfl, rfl, rfl, fun _ => trivial⟩, composed_lower cfg e⟩

instance composed_echoAll (es : List Expr) : Composed (echoAll cfg es : Emit σ Unit) :=
  paired_echoAll (List.forall₂_same.mpr fun e _ => alike_self cfg e)

instance composed_unsetAll (es : List Expr) : Composed (unsetAll cfg es : Emit σ Unit) :=
  paired_unsetAll (List.forall₂_same.mpr fun e _ => alike_self cfg e)

instance composed_jumpCode (kind : JumpKind) (expr : Option Expr) :
    Composed (jumpCode cfg kind expr : Emit σ Unit) := by
  cases expr with
  | none => exact paired_jumpCode kind .none
  | some e => exact paired_jumpCode kind (.some (alike_self cfg e))

instance composed_labelCode (name : String) (home : Home StmtKind) :
    Composed (labelCode name home : Emit σ Unit) :=
  paired_labelCode name trivial

instance composed_branchHead (condition : Expr) : Composed (branchHead cfg condition : Emit σ Label) :=
  paired_branchHead (alike_self cfg condition)

instance composed_loopHead (condition : Expr) : Composed (loopHead cfg condition : Emit σ Loop) :=
  paired_loopHead (alike_self cfg condition)

end

end Lowering
end PhpLowering
