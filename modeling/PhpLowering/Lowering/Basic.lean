import PhpLowering.Lowering.State

/-!
# Elements of emitted code

The calls to the sink, and the conversions between representations on the operand stack
that every construct uses.
-/

namespace PhpLowering

/-- A step of the emission into a sink. -/
abbrev Emit (σ : Type) := Pass CompileError (Lowering.State σ)

namespace Lowering

variable {σ α : Type}

/-- Stops with a fault. -/
def fault (f : Fault) : Emit σ α :=
  Pass.fail (.internal f)

/-- Looks at the routine. -/
def frame : Emit σ Frame :=
  Pass.peek State.frame

/-- Changes the routine. -/
def updateFrame (f : Frame → Frame) : Emit σ Unit :=
  Pass.update fun s => { s with frame := f s.frame }

/-- Passes a call to the sink. -/
@[inline] def toSink (call : Pass SinkError σ α) : Emit σ α := fun s =>
  match call s.sink with
  | (.ok a, sink) => (.ok a, { s with sink })
  | (.error e, sink) => (.error (.backend e), { s with sink })

/-- Asks the rule table. -/
def onTable (x : Pass Fault RuleTable α) : Emit σ α := fun s =>
  match x s.table with
  | (.ok a, table) => (.ok a, { s with table })
  | (.error f, table) => (.error (.internal f), { s with table })

variable [Sink σ]

/-! ## Calls to the sink -/

/-- Emits an instruction. -/
def emit (i : Instruction) : Emit σ Unit :=
  toSink (Sink.emit i)

/-- Emits a call of a primitive and answers with what it leaves. -/
def call (op : RuntimeOp) : Emit σ TypeCode := do
  emit (.call op)
  return op.result

/-- Pushes a literal. -/
def pushLiteral (v : Literal) : Emit σ TypeCode := do
  emit (.const (← toSink (Sink.addConstant v)))
  return .ofLiteral v

/-- A fresh label. -/
def defineLabel : Emit σ Label :=
  Pass.transform fun s => let (l, sink) := Sink.defineLabel s.sink; (l, { s with sink })

/-- Some fresh labels. -/
def defineLabels : Nat → Emit σ (List Label)
  | 0 => return []
  | n + 1 => do
    let l ← defineLabel
    return l :: (← defineLabels n)

/-- Marks a label. -/
def mark (l : Label) : Emit σ Unit :=
  toSink (Sink.markLabel l)

/-- A slot that is not in use. -/
def declareTemp : Emit σ Temp :=
  toSink Sink.declareTemp

/-- Gives a slot back. -/
def returnTemp (t : Temp) : Emit σ Unit :=
  Pass.update fun s => { s with sink := Sink.returnTemp t s.sink }

/-- Copies the value on top of the stack to a slot. -/
def saveTo (t : Temp) : Emit σ Unit := do
  emit .dup
  emit (.storeTemp t)

/-- Branches to a label; if there are other exception regions around it than here, the branch leaves
them. -/
def jump (target : Label) (exceptionLevel : Nat) : Emit σ Unit := do
  if (← frame).exceptionNesting = exceptionLevel then emit (.branch target)
  else emit (.leave target)

/-! ## Representations -/

/-- Boxes the value on top of the stack if it is a primitive. -/
def box (code : TypeCode) : Emit σ TypeCode := do
  if code.isPrimitive then
    emit (.box code)
    return .object
  else if code.isValue then return code
  else fault (.unexpectedTypeCode "a value" code)

/-- The primitive that converts to a representation. -/
def converter? : TypeCode → Option RuntimeOp
  | .string => some .toText
  | .bytes => some .toBytes
  | .boolean => some .toBool
  | .longInteger => some .toLong
  | .double => some .toDouble
  | _ => none

/-- Converts the value on top of the stack from one representation to another. -/
def convert (code target : TypeCode) : Emit σ TypeCode := do
  if code = target then return code
  else if target = .object then box code
  else
    match converter? target with
    | some op =>
      let _ ← box code
      call op
    | none => fault (.unexpectedTypeCode "a conversion target" target)

/-- Drops what is on the stack, if there is something. -/
def discard (code : TypeCode) : Emit σ TypeCode := do
  if code.isValue then emit .pop
  return .void

/-- Drops a value that nobody uses. -/
def unlessDropped (access : Access) (code : TypeCode) : Emit σ TypeCode :=
  if access = .none then discard code else return code

end Lowering
end PhpLowering
