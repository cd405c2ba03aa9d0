import PhpLowering.Code.Sink

/-!
# Journals: a sink that writes down what it is told

A journal stands in front of another sink, passes every call on and keeps a log of the
calls.  An entry is written before its call is passed on, so calls that fail are in the
log as well; only the entries that name a fresh label or slot have to wait for it.

For testing, a journal can be told to refuse one `emit` by its number.  The refused call
counts, but it is neither written down nor passed on.
-/

namespace PhpLowering
namespace Journal

/-- A call that a journal has written down. -/
inductive Entry where
  | emit (instruction : Instruction)
  | define (label : Label)
  | mark (label : Label)
  | temp (temp : Temp)
  | beginTry
  | beginCatch (type : String)
  | beginFinally
  | endRegion
  | point (span : Span)
  | beginFunction (name : String)
  | endFunction
  deriving DecidableEq, Repr, Inhabited

/-- The line of an entry. -/
def Entry.text : Entry → String
  | .emit i => i.text
  | .define l => s!"#define {l.text}"
  | .mark l => s!"#mark {l.text}"
  | .temp t => s!"#temp {t.text}"
  | .beginTry => "#try"
  | .beginCatch type => s!"#catch {type}"
  | .beginFinally => "#finally"
  | .endRegion => "#end_region"
  | .point s => s!"#point {s.start}..{s.stop}"
  | .beginFunction name => s!"#function {name}"
  | .endFunction => "#end_function"

end Journal

/-- A sink in front of another one. -/
structure Journal (σ : Type) where
  inner : σ
  log : Array Journal.Entry := #[]
  /-- The number of `emit` calls so far. -/
  emitted : Nat := 0
  /-- The number of the `emit` call to refuse. -/
  refuseAt : Option Nat := none

namespace Journal

variable {σ α : Type}

/-- Writes an entry. -/
def note (e : Entry) (j : Journal σ) : Journal σ :=
  { j with log := j.log.push e }

/-- Passes a call on. -/
@[inline] def forward (call : Pass SinkError σ α) : Pass SinkError (Journal σ) α := fun j =>
  let (r, inner) := call j.inner
  (r, { j with inner })

/-- Writes an entry and passes its call on. -/
@[inline] def noted (e : Entry) (call : Pass SinkError σ α) : Pass SinkError (Journal σ) α := fun j =>
  forward call (j.note e)

/-- Passes an instruction on, unless its number is the one to refuse. -/
def emit [Sink σ] (i : Instruction) : Pass SinkError (Journal σ) Unit := fun j =>
  let number := j.emitted
  let j := { j with emitted := number + 1 }
  if j.refuseAt = some number then (.error (.other s!"backend refused instruction {number}"), j)
  else noted (.emit i) (Sink.emit i) j

/-- Asks for a slot and writes it down if there is one. -/
def declareTemp [Sink σ] : Pass SinkError (Journal σ) Temp := fun j =>
  match forward Sink.declareTemp j with
  | (.ok t, j) => (.ok t, j.note (.temp t))
  | (.error e, j) => (.error e, j)

instance [Sink σ] : Sink (Journal σ) where
  emit := emit
  addConstant v := forward (Sink.addConstant v)
  defineLabel j :=
    let (l, inner) := Sink.defineLabel j.inner
    (l, note (.define l) { j with inner })
  markLabel l := noted (.mark l) (Sink.markLabel l)
  declareTemp := declareTemp
  returnTemp t j := { j with inner := Sink.returnTemp t j.inner }
  beginTry := noted .beginTry Sink.beginTry
  beginCatch type := noted (.beginCatch type) (Sink.beginCatch type)
  beginFinally := noted .beginFinally Sink.beginFinally
  endRegion := noted .endRegion Sink.endRegion
  sequencePoint s j := { j.note (.point s) with inner := Sink.sequencePoint s j.inner }
  beginFunction head := noted (.beginFunction head.name) (Sink.beginFunction head)
  endFunction := noted .endFunction Sink.endFunction

end Journal
end PhpLowering
