import PhpLowering.Code.Region
import PhpLowering.Fault
import PhpLowering.Pass
import PhpLowering.Tree.Stmt

/-!
# Routines

The code of one routine while it grows and after.  Every operation works on one routine
and knows nothing of the routines around it; `Code.Chunk` directs the calls of a sink to
the routine they concern.

A refused call leaves the routine as it was, with one exception: the label after a region
can already have been marked by hand, and `endRegion` notices that only after the region
is complete.
-/

namespace PhpLowering

/-- The code of a routine. -/
structure Routine where
  name : String := ""
  filePath : Option String := none
  returnsRef : Bool := false
  params : List Param := []
  code : Array Instruction := #[]
  constants : Array Literal := #[]
  /-- The place in the source that each instruction comes from. -/
  spans : Array Span := #[]
  /-- The position of each label, once it is marked. -/
  labels : Array (Option Nat) := #[]
  /-- The complete regions, inner ones before those around them. -/
  regions : Array Region := #[]
  /-- The number of slots that were ever in use. -/
  tempCount : Nat := 0
  tempLimit : Option Nat := none
  /-- The slots that were returned, the last one first. -/
  freeTemps : List Temp := []
  currentSpan : Span := {}
  /-- The regions that are not complete, the innermost first. -/
  openRegions : List OpenRegion := []
  deriving Inhabited

namespace Routine

/-- The most slots that a routine can have. -/
def maxTemps : Nat := 65535

/-- The most entries that a constant pool can have. -/
def maxConstants : Nat := 65536

/-- The position of the next instruction. -/
def position (r : Routine) : Nat :=
  r.code.size

/-- The position of a label that is marked. -/
def labelPosition? (r : Routine) (l : Label) : Option Nat :=
  r.labels[l.index]?.join

/-- Adds an instruction without looking at it. -/
def push (i : Instruction) (r : Routine) : Routine :=
  { r with code := r.code.push i, spans := r.spans.push r.currentSpan }

/-- Adds an instruction whose branch target has to be a label of the routine. -/
def emit (i : Instruction) : Pass SinkError Routine Unit := fun r =>
  match i.target? with
  | some l => if l.index < r.labels.size then (.ok (), r.push i) else (.error (.invalidLabel l.index), r)
  | none => (.ok (), r.push i)

/-- Files a literal: an equal one that is already in the pool is used again. -/
def addConstant (v : Literal) : Pass SinkError Routine Nat := fun r =>
  match r.constants.findIdx? (· == v) with
  | some index => (.ok index, r)
  | none =>
    if r.constants.size < maxConstants then
      (.ok r.constants.size, { r with constants := r.constants.push v })
    else (.error (.resourceExhausted .constantPool), r)

/-- A fresh label, not marked yet. -/
def defineLabel (r : Routine) : Label × Routine :=
  (⟨r.labels.size⟩, { r with labels := r.labels.push none })

/-- Gives a label the position of the next instruction.  A label is marked once. -/
def markLabel (l : Label) : Pass SinkError Routine Unit := fun r =>
  match r.labels[l.index]? with
  | some none => (.ok (), { r with labels := r.labels.setIfInBounds l.index (some r.position) })
  | _ => (.error (.invalidLabel l.index), r)

/-- A slot that is not in use: the one returned last, or a new one while the limit allows it. -/
def declareTemp : Pass SinkError Routine Temp := fun r =>
  match r.freeTemps with
  | t :: rest => (.ok t, { r with freeTemps := rest })
  | [] =>
    if r.tempCount < min (r.tempLimit.getD maxTemps) maxTemps then
      (.ok ⟨r.tempCount⟩, { r with tempCount := r.tempCount + 1 })
    else (.error (.resourceExhausted .temporaries), r)

/-- Gives a slot back; one that is free already stays free. -/
def returnTemp (t : Temp) (r : Routine) : Routine :=
  if r.freeTemps.contains t then r else { r with freeTemps := t :: r.freeTemps }

/-- Opens a region and answers with the label behind it. -/
def beginTry (r : Routine) : Label × Routine :=
  let (l, r) := r.defineLabel
  (l, { r with openRegions := .begin r.position l :: r.openRegions })

/-- Starts a handler.  Nothing comes after a cleanup block, and a handler needs a region. -/
def beginHandler (kind : HandlerKind) : Pass SinkError Routine Unit := fun r =>
  match r.openRegions with
  | [] => (.error (.unbalancedRegion .handlerOutsideTry), r)
  | region :: outer =>
    if region.block = .handler .cleanup then (.error (.unbalancedRegion .handlerAfterFinally), r)
    else
      let r := r.push (.leave region.endLabel)
      let region := (region.close r.position).enter kind r.position
      (.ok (), { r with openRegions := region :: outer })

/-- Completes the innermost region and marks the label behind it. -/
def endRegion : Pass SinkError Routine Unit := fun r =>
  match r.openRegions with
  | [] => (.error (.unbalancedRegion .noOpenRegion), r)
  | region :: outer =>
    match region.block with
    | .guarded => (.error (.unbalancedRegion .tryWithoutHandlers), r)
    | .handler kind =>
      let last := match kind with
        | .cleanup => .endFinally
        | .catching _ => .leave region.endLabel
      let r := r.push last
      let complete := (region.close r.position).complete r.position
      markLabel region.endLabel
        { r with openRegions := outer, regions := r.regions.push complete }

end Routine
end PhpLowering
