import PhpLowering.Code.Routine
import PhpLowering.Code.Sink
import PhpLowering.Text.Ascii

/-!
# Chunks: the sink that records

A chunk is a main routine together with the functions emitted along with it.  Functions
that are begun and not ended wait on a stack, and every call concerns the innermost of
them, or the main routine if there is none.
-/

namespace PhpLowering

/-- The recorded code of a unit. -/
structure Chunk where
  main : Routine
  /-- The complete functions, in the order in which they were completed. -/
  functions : Array Routine := #[]
  /-- The functions that are not complete, the innermost first. -/
  pending : List Routine := []
  deriving Inhabited

namespace Chunk

/-- An empty chunk. -/
def new (name : String) (filePath : Option String) (tempLimit : Option Nat) : Chunk :=
  { main := { name, filePath, tempLimit } }

/-- The first complete function with a name. -/
def function? (c : Chunk) (name : String) : Option Routine :=
  c.functions.find? fun f => Text.sameName f.name name

/-- The routine that calls concern. -/
def active (c : Chunk) : Routine :=
  c.pending.headD c.main

/-- Does something to the routine that calls concern. -/
@[inline] def onActive {α : Type} (f : Routine → α × Routine) : Chunk → α × Chunk
  | ⟨main, functions, []⟩ =>
    let (a, main) := f main
    (a, ⟨main, functions, []⟩)
  | ⟨main, functions, r :: outer⟩ =>
    let (a, r) := f r
    (a, ⟨main, functions, r :: outer⟩)

/-- Begins a function, which has the file and the limits of the main routine. -/
def beginFunction (head : FunctionHead) : Pass SinkError Chunk Unit := fun c =>
  let r : Routine :=
    { name := head.name, filePath := c.main.filePath, returnsRef := head.byRef,
      params := head.params, tempLimit := c.main.tempLimit }
  (.ok (), { c with pending := r :: c.pending })

/-- Ends the innermost function.  One that still has an open region is lost. -/
def endFunction : Pass SinkError Chunk Unit := fun c =>
  match c.pending with
  | [] => (.error (.other "end_function without begin_function"), c)
  | r :: outer =>
    let c := { c with pending := outer }
    if r.openRegions.isEmpty then (.ok (), { c with functions := c.functions.push r })
    else (.error (.unbalancedRegion .routineEndedInside), c)

instance : Sink Chunk where
  emit i := onActive (Routine.emit i)
  addConstant v := onActive (Routine.addConstant v)
  defineLabel := onActive Routine.defineLabel
  markLabel l := onActive (Routine.markLabel l)
  declareTemp := onActive Routine.declareTemp
  returnTemp t c := (onActive (fun r => ((), r.returnTemp t)) c).2
  beginTry := onActive fun r => let (l, r) := r.beginTry; (.ok l, r)
  beginCatch type := onActive (Routine.beginHandler (.catching type))
  beginFinally := onActive (Routine.beginHandler .cleanup)
  endRegion := onActive Routine.endRegion
  sequencePoint s c := (onActive (fun r => ((), { r with currentSpan := s })) c).2
  beginFunction := beginFunction
  endFunction := endFunction

end Chunk
end PhpLowering
