import PhpLowering.Lowering.Place

/-!
# Ways out of loops and routines

A `break` or `continue` names the loop it concerns by counting outwards from the innermost,
which is the first.  A level that is known is resolved on the spot; any other is looked up
in a table at run time, where zero stands for one.  A `return` leaves its value in a slot
and goes to the end of the routine, the one place from which the routine returns.
-/

namespace PhpLowering
namespace Lowering

variable {σ : Type} [Sink σ]

/-- Goes into a loop with two ways out. -/
def Frame.enterLoop (breakLabel continueLabel : Label) (f : Frame) : Frame :=
  { f with loops := ⟨breakLabel, continueLabel, f.exceptionNesting⟩ :: f.loops }

/-- Leaves a loop. -/
def Frame.leaveLoop (f : Frame) : Frame :=
  { f with loops := f.loops.tail }

/-- Goes into an exception region. -/
def Frame.enterException (f : Frame) : Frame :=
  { f with exceptionNesting := f.exceptionNesting + 1 }

/-- Leaves an exception region. -/
def Frame.leaveException (f : Frame) : Frame :=
  { f with exceptionNesting := f.exceptionNesting - 1 }

/-- Takes a way out of a loop. -/
def leaveTo (kind : BranchKind) (l : Loop) : Emit σ Unit :=
  jump (l.target kind) l.exceptionLevel

/-- A `break` or `continue` with a known level; zero stands for one. -/
def staticBranch (kind : BranchKind) (level : Nat) : Emit σ Unit := do
  let loops := (← frame).loops
  let level := max level 1
  match loops[level - 1]? with
  | some l => leaveTo kind l
  | none => fault (.branchOutsideLoop level loops.length)

/-- Emits the entries of a table of ways out. -/
def tableEntries (kind : BranchKind) : List (Label × Loop) → Emit σ Unit
  | [] => return
  | (label, l) :: rest => do
    mark label
    leaveTo kind l
    tableEntries kind rest

/-- A `break` or `continue` whose level is computed at run time.  A level that no loop has raises an
error there. -/
def runtimeBranch (kind : BranchKind) (level : Code σ) : Emit σ Unit := do
  match (← frame).loops with
  | [] => fault (.branchOutsideLoop 1 0)
  | innermost :: outer =>
    let _ ← converted level .longInteger
    let t ← declareTemp
    saveTo t
    let table ← defineLabels (outer.length + 2)
    emit (.switch table)
    emit (.loadTemp t)
    callVoid .throwInvalidBreakLevel
    leaveTo .break innermost
    tableEntries kind (table.zip (innermost :: innermost :: outer))
    returnTemp t

/-- The slot for the value that the routine returns. -/
def returnSlot : Emit σ Temp := do
  match (← frame).returnTemp with
  | some t => return t
  | none =>
    let t ← declareTemp
    updateFrame fun f => { f with returnTemp := some t }
    return t

/-- The label of the code that returns. -/
def epilogue : Emit σ Label := do
  match (← frame).epilogue with
  | some l => return l
  | none =>
    let l ← defineLabel
    updateFrame fun f => { f with epilogue := some l }
    return l

/-- Returns the value on top of the stack. -/
def returnJump : Emit σ Unit := do
  let t ← returnSlot
  let l ← epilogue
  emit (.storeTemp t)
  jump l 0

/-- The label of a `goto` target. -/
def routineLabel (name : String) : Emit σ Label := do
  match (← frame).labels.lookup name with
  | some l => return l
  | none =>
    let l ← defineLabel
    updateFrame fun f => { f with labels := (name, l) :: f.labels }
    return l

end Lowering
end PhpLowering
