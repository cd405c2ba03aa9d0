import PhpLowering.Code.Sink

/-!
# What a sink is told

The lowering changes a sink by calling it and in no other way.  `Talk k calls k'` says that the
calls in the list, in this order, lead from the sink `k` to the sink `k'`; with every call goes
whether the sink accepted it.  A `Transcript` is a sink that writes its calls down, so for it the
list is the one that was written (`talk_transcript`).

Two properties of such a list are of interest.  A piece of work that succeeds has all its calls
accepted.  A piece of work that fails `ceases`: after the first call that was refused the sink is
told nothing more, except that slots are given back.
-/

namespace PhpLowering
namespace Sink

/-- A call to a sink. -/
inductive Call where
  | emit (instruction : Instruction)
  | addConstant (value : Literal)
  | defineLabel
  | markLabel (label : Label)
  | declareTemp
  | returnTemp (temp : Temp)
  | beginTry
  | beginCatch (type : String)
  | beginFinally
  | endRegion
  | sequencePoint (span : Span)
  | beginFunction (head : FunctionHead)
  | endFunction

/-- Whether a call gives a slot back. -/
def Call.isReturn : Call → Bool
  | .returnTemp _ => true
  | _ => false

variable {σ α : Type}

/-- Whether a result is an answer, and the sink that is left. -/
def answered (result : Except SinkError α × σ) : Bool × σ :=
  (result.1.isOk, result.2)

variable [Sink σ]

/-- Makes a call: whether the sink accepts it, and the sink afterwards. -/
def Call.make (k : σ) : Call → Bool × σ
  | .emit i => answered (Sink.emit i k)
  | .addConstant v => answered (Sink.addConstant v k)
  | .defineLabel => (true, (Sink.defineLabel k).2)
  | .markLabel l => answered (Sink.markLabel l k)
  | .declareTemp => answered (Sink.declareTemp k)
  | .returnTemp t => (true, Sink.returnTemp t k)
  | .beginTry => answered (Sink.beginTry k)
  | .beginCatch type => answered (Sink.beginCatch type k)
  | .beginFinally => answered (Sink.beginFinally k)
  | .endRegion => answered (Sink.endRegion k)
  | .sequencePoint span => (true, Sink.sequencePoint span k)
  | .beginFunction head => answered (Sink.beginFunction head k)
  | .endFunction => answered (Sink.endFunction k)

/-- Calls, and whether they were accepted, lead from one sink to another. -/
inductive Talk : σ → List (Call × Bool) → σ → Prop where
  | nil (k : σ) : Talk k [] k
  | cons {k k' : σ} {calls : List (Call × Bool)} (c : Call) (rest : Talk (c.make k).2 calls k') :
    Talk k ((c, (c.make k).1) :: calls) k'

/-- Every call was accepted. -/
def Accepted (calls : List (Call × Bool)) : Prop :=
  ∀ c ∈ calls, c.2 = true

/-- All that is done is to give slots back. -/
def OnlyReturns (calls : List (Call × Bool)) : Prop :=
  ∀ c ∈ calls, c.1.isReturn = true

/-- After the first call that was refused nothing is done but to give slots back. -/
def Ceases : List (Call × Bool) → Prop
  | [] => True
  | (_, true) :: rest => Ceases rest
  | (_, false) :: rest => OnlyReturns rest

/-! ## One piece of work after another -/

variable {k k' k'' : σ} {calls calls' : List (Call × Bool)}

theorem Talk.single (c : Call) (k : σ) : Talk k [(c, (c.make k).1)] (c.make k).2 :=
  .cons c (.nil _)

theorem Talk.append (h : Talk k calls k') (h' : Talk k' calls' k'') : Talk k (calls ++ calls') k'' := by
  induction h with
  | nil => exact h'
  | cons c _ ih => exact .cons c (ih h')

theorem Accepted.append (h : Accepted calls) (h' : Accepted calls') : Accepted (calls ++ calls') :=
  List.forall_mem_append.mpr ⟨h, h'⟩

theorem Accepted.ceases (h : Accepted calls) : Ceases calls := by
  induction calls with
  | nil => trivial
  | cons c rest ih =>
    obtain ⟨hc, hrest⟩ := List.forall_mem_cons.mp h
    obtain ⟨call, accepted⟩ := c
    cases hc
    exact ih hrest

/-- What comes before a piece of work that ceases was accepted. -/
theorem Accepted.then_ceases (h : Accepted calls) (h' : Ceases calls') : Ceases (calls ++ calls') := by
  induction calls with
  | nil => exact h'
  | cons c rest ih =>
    obtain ⟨hc, hrest⟩ := List.forall_mem_cons.mp h
    obtain ⟨call, accepted⟩ := c
    cases hc
    exact ih hrest

theorem ceases_of_onlyReturns (h : OnlyReturns calls) : Ceases calls := by
  induction calls with
  | nil => trivial
  | cons c rest ih =>
    have hrest := (List.forall_mem_cons.mp h).2
    obtain ⟨call, accepted⟩ := c
    cases accepted with
    | true => exact ih hrest
    | false => exact hrest

/-- Slots may be given back after a refusal. -/
theorem Ceases.then_returns (h : Ceases calls) (h' : OnlyReturns calls') : Ceases (calls ++ calls') := by
  induction calls with
  | nil => exact ceases_of_onlyReturns h'
  | cons c rest ih =>
    obtain ⟨call, accepted⟩ := c
    cases accepted with
    | true => exact ih h
    | false => exact List.forall_mem_append.mpr ⟨h, h'⟩

end Sink

/-! ## Sinks that write their calls down -/

/-- A sink in front of another one, with the calls that it was told. -/
structure Transcript (σ : Type) where
  inner : σ
  calls : List (Sink.Call × Bool) := []

namespace Transcript

variable {σ α : Type}

/-- Passes a call on and writes it down. -/
def passed (c : Sink.Call) (call : Pass SinkError σ α) : Pass SinkError (Transcript σ) α := fun k =>
  let result := call k.inner
  (result.1, { inner := result.2, calls := k.calls ++ [(c, result.1.isOk)] })

/-- Passes a call on that cannot be refused, and writes it down. -/
def told (c : Sink.Call) (f : σ → σ) (k : Transcript σ) : Transcript σ :=
  { inner := f k.inner, calls := k.calls ++ [(c, true)] }

instance [Sink σ] : Sink (Transcript σ) where
  emit i := passed (.emit i) (Sink.emit i)
  addConstant v := passed (.addConstant v) (Sink.addConstant v)
  defineLabel k := ((Sink.defineLabel k.inner).1, told .defineLabel (fun k => (Sink.defineLabel k).2) k)
  markLabel l := passed (.markLabel l) (Sink.markLabel l)
  declareTemp := passed .declareTemp Sink.declareTemp
  returnTemp t := told (.returnTemp t) (Sink.returnTemp t)
  beginTry := passed .beginTry Sink.beginTry
  beginCatch type := passed (.beginCatch type) (Sink.beginCatch type)
  beginFinally := passed .beginFinally Sink.beginFinally
  endRegion := passed .endRegion Sink.endRegion
  sequencePoint span := told (.sequencePoint span) (Sink.sequencePoint span)
  beginFunction head := passed (.beginFunction head) (Sink.beginFunction head)
  endFunction := passed .endFunction Sink.endFunction

variable [Sink σ]

theorem calls_make (c : Sink.Call) (k : Transcript σ) :
    (c.make k).2.calls = k.calls ++ [(c, (c.make k).1)] := by
  cases c <;> rfl

/-- **The calls that lead from one transcript to another are those that were written down.** -/
theorem talk_transcript {k k' : Transcript σ} {calls : List (Sink.Call × Bool)}
    (h : Sink.Talk k calls k') : k'.calls = k.calls ++ calls := by
  induction h with
  | nil => exact (List.append_nil _).symm
  | cons c _ ih => rw [ih, calls_make, List.append_assoc, List.singleton_append]

end Transcript
end PhpLowering
