import PhpLowering.Lowering.Place

/-!
# Code of assignments

Assignments, increments and destructurings store to locations.  A location is addressed
first, then the value is computed, then it is stored.  If the value is used afterwards it
is kept in a slot meanwhile.  An array that comes from another location is copied, so that
no two locations hold the same one.
-/

namespace PhpLowering
namespace Lowering

variable {σ : Type} [Sink σ]

/-- Pushes a value that is about to be stored. -/
def valueToStore (value : Expr) (code : Code σ) : Emit σ Unit := do
  let code ← boxed code
  if value.isPlace && code.mayBeArray then callVoid .deepCopy

/-- The value that an assignment leaves: what is in the slot, or nothing. -/
def loadSaved : Option Temp → Emit σ TypeCode
  | some t => do
    emit (.loadTemp t)
    returnTemp t
    return .object
  | none => return .void

/-- The code of an assignment. -/
def assignValue (access : Access) (target : Code σ) (value : Expr) (valueCode : Code σ) :
    Emit σ TypeCode := do
  beginChain false
  let _ ← target (.prepare .write)
  valueToStore value valueCode
  let saved ← if access = .none then pure none
    else do
      let t ← declareTemp
      saveTo t
      pure (some t)
  let _ ← target .store
  Pass.update State.endChain
  loadSaved saved

/-- Whether the value of an increment or decrement is used. -/
def incDecUsed (access : Access) : Emit σ Bool :=
  match access with
  | .none => return false
  | .read | .readUnknown => return true
  | other => fault (.unsupportedAccess (.expr .incDec) other.name)

/-- The code of an increment or decrement.  The target is addressed for writing and then for
reading; its operands are evaluated the first time only. -/
def incDecValue (cfg : Setting) (access : Access) (increment post : Bool) (target : Expr)
    (code : Code σ) : Emit σ TypeCode := do
  if !(← isPlace cfg target) then fault (.notAPlace (.expr target.kind))
  else
    let used ← incDecUsed access
    beginChain false
    let _ ← code (.prepare .write)
    let _ ← code (.prepare .read)
    let _ ← box (← code .load)
    let saved ← if used then do pure (some (← declareTemp)) else pure none
    if post then saveResult saved
    callVoid (if increment then .increment else .decrement)
    if !post then saveResult saved
    let _ ← code .store
    Pass.update State.endChain
    loadSaved saved
where
  /-- Keeps the value on top of the stack if there is a slot for it. -/
  saveResult : Option Temp → Emit σ Unit
    | some t => saveTo t
    | none => return

/-! ## Arrays and destructurings -/

/-- Stores an element with a key into the array on top of the stack. -/
def storeKeyed (keyCode : Code σ) (value : Expr) (valueCode : Code σ) : Emit σ Unit := do
  emit .dup
  let _ ← boxed keyCode
  valueToStore value valueCode
  callVoid .setItem

/-- Appends an element to the array on top of the stack. -/
def storePlain (value : Expr) (valueCode : Code σ) : Emit σ Unit := do
  emit .dup
  valueToStore value valueCode
  callVoid .append

/-- The code of an array literal. -/
def arrayValue (access : Access) (home : Home ExprKind) (storeElements : Emit σ Unit) :
    Emit σ TypeCode := do
  let keys ← Pass.peek fun s => s.memory.keyCount home
  emit (.newArray keys.integers keys.others)
  storeElements
  unlessDropped access .arrayHandle

/-- Pushes an element of the array on top of the stack. -/
def fetch (index : Nat) : Emit σ Unit := do
  emit .dup
  let _ ← box (← pushLiteral (.ofInt64 (Int64.ofNat index)))
  callVoid .getItemQuiet

/-- Assigns an element of the array on top of the stack to a target. -/
def assignElement (index : Nat) (target : Code σ) : Emit σ Unit := do
  fetch index
  callVoid .deepCopy
  let t ← declareTemp
  emit (.storeTemp t)
  beginChain false
  let _ ← target (.prepare .write)
  emit (.loadTemp t)
  let _ ← target .store
  Pass.update State.endChain
  returnTemp t

/-- Assigns null to a target. -/
def assignNull (target : Code σ) : Emit σ Unit := do
  beginChain false
  let _ ← target (.prepare .write)
  let _ ← pushLiteral .null
  let _ ← target .store
  Pass.update State.endChain

/-- Takes the value on top of the stack apart, if it is an array; otherwise all targets are null. -/
def unpack (assignElements assignNulls : Emit σ Unit) : Emit σ Unit := do
  let notArray ← defineLabel
  let done ← defineLabel
  emit .dup
  callVoid .isArrayLike
  emit (.branchIfFalse notArray)
  assignElements
  emit .pop
  emit (.branch done)
  mark notArray
  emit .pop
  assignNulls
  mark done

/-- The code of a destructuring, whose value is the array itself. -/
def listValue (access : Access) (value : Code σ) (unpacked : Emit σ Unit) : Emit σ TypeCode := do
  let _ ← boxed value
  if access ≠ .none then emit .dup
  unpacked
  return if access = .none then .void else .object

end Lowering
end PhpLowering
